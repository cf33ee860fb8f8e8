import LexicalEnv.Proofs.History
import LexicalEnv.Proofs.Silence
import LexicalEnv.Proofs.Visible

/-!
# What decides a reply

The past of a world lists the frames that were made, with the names bound in
them from the start, and the names that were set since. From the past alone one
can tell what a request about a frame replies, whether the frame's actor is asked
or not, and no matter who made the settings and how (`replies_decided`).
-/

namespace LexicalEnv

inductive Event where
  | made (frame parent : Value) (bindings : List (String × Value))
  | set (setting : Setting)
  deriving DecidableEq, Repr

def Event.binds? (frame : Value) (name : String) : Event → Option Value
  | made f _ bindings => if f = frame then bindings.lookup name else none
  | set s => if s.frame = frame ∧ s.name = name then some s.value else none

def Entries.pairs (entries : Entries) : List (String × Value) :=
  entries.filterMap fun e => e.1.symbol?.map fun name => (name, e.2)

abbrev Past := List Event

namespace Past

def latest? (past : Past) (frame : Value) (name : String) : Option Value :=
  past.reverse.findSome? (Event.binds? frame name)

/-- Going outwards from a frame one meets these frames, by the way they were made. -/
inductive Chain (past : Past) : Value → List Value → Prop
  | root : Chain past .nil []
  | frame {f parent : Value} {bindings : List (String × Value)} {frames : List Value}
    (hm : .made f parent bindings ∈ past) (hc : Chain past parent frames) :
    Chain past f (f :: frames)

/-- Going outwards from `env`, `g` is the first frame in which the name was ever bound, and the
value is the last one it was bound to there. -/
def Decides (past : Past) (env : Value) (name : String) (g value : Value) : Prop :=
  ∃ inner outer, past.Chain env (inner ++ g :: outer) ∧ past.latest? g name = some value ∧
    ∀ f ∈ inner, past.latest? f name = none

end Past

namespace World

def newest? (w w' : World) : Option Event := do
  let frame ← w'.frames[w.frames.size]?
  let parent ← (Frame.outer w'.heap frame).toOption
  let entries ← Frame.own? w'.heap frame
  pure (.made frame parent entries.pairs)

def event? (w w' : World) : Option Setting → Option Event
  | some s => some (.set s)
  | none => w.newest? w'

def AllLegal (w : World) : List Call → Prop
  | [] => True
  | c :: calls => c.Legal w ∧ AllLegal (c.run.after w) calls

def past (w : World) : List Call → Past
  | [] => []
  | c :: calls => (w.event? (c.run.after w) (c.setting? w)).toList ++ past (c.run.after w) calls

def final (how : World → Call → Action Value) (w : World) : List Call → World
  | [] => w
  | c :: calls => final how ((how w c).after w) calls

def replies (how : World → Call → Action Value) (w : World) :
    List Call → List (Except Fault Value)
  | [] => []
  | c :: calls => (how w c).answer w :: replies how ((how w c).after w) calls

end World

namespace Call

def plainly (_ : World) (c : Call) : Action Value := c.run

/-- Without asking an actor that runs: what it is asked for is done to its frame. -/
def directly (w : World) : Call → Action Value
  | ask id request =>
    match w.actors.running? id with
    | some actor => request.perform actor.frame
    | none => Shared.ask id request
  | c => c.run

end Call

-- ---------------------------------------------------------------------------
-- What the past tells
-- ---------------------------------------------------------------------------

theorem Frame.locate?_eq_some_iff {h : Heap} {name : String} {frames : List Value}
    {g value : Value} : locate? h name frames = some (g, value) ↔ ∃ inner outer,
      frames = inner ++ g :: outer ∧ bound? h g name = some value ∧
        ∀ f ∈ inner, bound? h f name = none := by
  simp [locate?, List.findSome?_eq_some_iff]

theorem Entries.lookup_pairs (entries : Entries) (h : Heap) (name : String) :
    (pairs entries).lookup name = h.find? entries (.sym name) := by
  induction entries with
  | nil => rfl
  | cons e rest ih =>
    have htail : List.lookup name (pairs rest) = h.find? rest (.symbol name none) := ih
    cases hk : e.1.symbol? with
    | none =>
      have hpairs : pairs (e :: rest) = pairs rest := by simp [pairs, hk]
      simp [hpairs, htail, Heap.find?, hk]
    | some other =>
      have hpairs : pairs (e :: rest) = (other, e.2) :: pairs rest := by simp [pairs, hk]
      rw [hpairs, List.lookup_cons, htail]
      by_cases ho : other = name
      · simp [Heap.find?, hk, ho]
      · simp [Heap.find?, hk, ho, beq_eq_false_iff_ne.mpr (Ne.symm ho)]

section
variable {w : World} {f env key : Value} {frames : List Value} {name : String}

theorem Heap.IsFrame.set_answer {parent map : Value} {entries : Entries}
    (hi : w.heap.IsFrame f parent map entries) (hk : w.heap.nameOf key = .ok name) (value : Value) :
    (Frame.set f key value false).answer w = .ok value := by
  obtain ⟨w', hrun, -⟩ := hi.set_run hk value
  rw [Action.answer, hrun]

theorem Heap.Chain.perform_find_answer (hc : w.heap.Chain env frames)
    (hl : frames.length ≤ w.heap.size) (hk : w.heap.nameOf key = .ok name) :
    ((Request.find key).perform env).answer w =
      .ok (.bool (Frame.resolve? w.heap name frames).isSome) := by
  obtain ⟨s, -, hrun⟩ := hc.find_run hl hk false
  simp only [Request.perform, Action.answer, Action.run_bind, hrun, ← Frame.locate?_snd]
  cases hlocated : Frame.locate? w.heap name frames with
  | none => rfl
  | some found => simp [(hc.located hlocated).2.2]

end

namespace Past

variable {past : Past} {f : Value} {name : String}

theorem latest?_append (past : Past) (e : Event) (f : Value) (name : String) :
    (past ++ [e]).latest? f name = (e.binds? f name).or (past.latest? f name) := by
  rw [latest?, List.reverse_append, List.findSome?_append, latest?]
  simp

structure Tells (past : Past) (w : World) : Prop where
  made : ∀ f parent bindings, .made f parent bindings ∈ past →
    f ∈ w.frames ∧ Frame.outer w.heap f = .ok parent
  setting : ∀ s, .set s ∈ past → s.frame ∈ w.frames
  frame : ∀ f ∈ w.frames, ∃ parent bindings, .made f parent bindings ∈ past
  latest : ∀ f ∈ w.frames, ∀ name, past.latest? f name = Frame.bound? w.heap f name

theorem tells_start (library : ActorLibrary) : Tells [] (World.start library) := by
  constructor <;> simp [World.start]

variable {w w' : World}

theorem Tells.latest?_eq_none (ht : past.Tells w) (hf : f ∉ w.frames) :
    past.latest? f name = none := by
  apply List.findSome?_eq_none_iff.mpr
  intro e he
  rw [List.mem_reverse] at he
  cases e with
  | made g parent bindings =>
    have hg : g ≠ f := fun h => hf (h ▸ (ht.made g parent bindings he).1)
    simp [Event.binds?, hg]
  | set s =>
    have hs : s.frame ≠ f := fun h => hf (h ▸ ht.setting s he)
    simp [Event.binds?, hs]

theorem Tells.kept (ht : past.Tells w) (hw : w.Sound) (hk : w.heap.Kept w'.heap)
    (hf : w'.frames = w.frames) : past.Tells w' := by
  refine ⟨fun f parent bindings hm => ?_, hf ▸ ht.setting, hf ▸ ht.frame, fun f hm name => ?_⟩
  · obtain ⟨hmem, houter⟩ := ht.made f parent bindings hm
    obtain ⟨_, _, _, hi, -⟩ := hw.isFrame hmem
    rw [hf, (hi.kept hk).outer, ← hi.outer]
    exact ⟨hmem, houter⟩
  · rw [hf] at hm
    obtain ⟨_, _, _, hi, -⟩ := hw.isFrame hm
    rw [ht.latest f hm, (hi.kept hk).bound?, hi.bound?, Value.sym, w'.heap.find?_symbol w.heap]

theorem Tells.sets {parent map value : Value} {entries : Entries} (ht : past.Tells w)
    (hw : w.Sound) (hf : f ∈ w.frames) (hi : w.heap.IsFrame f parent map entries)
    (h : w.Written w' map entries name value) : Tells (past ++ [.set ⟨f, name, value⟩]) w' := by
  have heffect : w.Effect w' := .written hf hi h
  refine ⟨fun g p bindings hm => ?_, fun s hm => ?_, fun g hg => ?_, fun g hg other => ?_⟩
  · obtain ⟨hg, houter⟩ := ht.made g p bindings (by simpa using hm)
    obtain ⟨_, _, _, hig, -⟩ := hw.isFrame hg
    obtain ⟨_, hig'⟩ := heffect.isFrame hw hg hig
    rw [hig'.outer, ← hig.outer]
    exact ⟨heffect.frames_subset hg, houter⟩
  · rcases List.mem_append.mp hm with hm | hm
    · exact heffect.frames_subset (ht.setting s hm)
    · obtain rfl : s = ⟨f, name, value⟩ := by simpa using hm
      exact heffect.frames_subset hf
  · rw [h.frames] at hg
    obtain ⟨p, bindings, hm⟩ := ht.frame g hg
    exact ⟨p, bindings, List.mem_append_left _ hm⟩
  · rw [h.frames] at hg
    rw [latest?_append, ht.latest g hg]
    by_cases hgf : f = g
    · subst hgf
      rw [h.bound?_self hi]
      by_cases hn : name = other
      · simp [Event.binds?, hn]
      · simp [Event.binds?, hn, Ne.symm hn]
    · rw [h.bound?_of_ne hw hf hi hg (Ne.symm hgf)]
      simp [Event.binds?, hgf]

theorem Tells.makes {parent map : Value} {entries : Entries} (ht : past.Tells w) (hw : w.Sound)
    (h : w.Made w' f parent map entries) :
    Tells (past ++ [.made f parent (Entries.pairs entries)]) w' := by
  have hnew := h.not_mem hw
  have hsub {g : Value} (hg : g ∈ w.frames) : g ∈ w'.frames := by simp [h.frames, hg]
  refine ⟨fun g p bindings hm => ?_, fun s hm => ?_, fun g hg => ?_, fun g hg other => ?_⟩
  · rcases List.mem_append.mp hm with hm | hm
    · obtain ⟨hg, houter⟩ := ht.made g p bindings hm
      obtain ⟨_, _, _, hi, -⟩ := hw.isFrame hg
      rw [(hi.kept h.kept).outer, ← hi.outer]
      exact ⟨hsub hg, houter⟩
    · obtain ⟨rfl, rfl, rfl⟩ : g = f ∧ p = parent ∧ bindings = entries.pairs := by simpa using hm
      exact ⟨by simp [h.frames], h.isFrame.outer⟩
  · exact hsub (ht.setting s (by simpa using hm))
  · rw [h.frames, Array.mem_push] at hg
    rcases hg with hg | rfl
    · obtain ⟨p, bindings, hm⟩ := ht.frame g hg
      exact ⟨p, bindings, List.mem_append_left _ hm⟩
    · exact ⟨parent, entries.pairs, by simp⟩
  · rw [h.frames, Array.mem_push] at hg
    rw [latest?_append]
    rcases hg with hg | rfl
    · have hne : f ≠ g := fun he => hnew (he ▸ hg)
      obtain ⟨_, _, _, hi, -⟩ := hw.isFrame hg
      rw [(hi.kept h.kept).bound?, ht.latest g hg, hi.bound?, Value.sym,
        w'.heap.find?_symbol w.heap _ _ none none]
      simp [Event.binds?, hne]
    · rw [ht.latest?_eq_none hnew, h.isFrame.bound?, ← entries.lookup_pairs]
      simp [Event.binds?]

theorem Tells.change {s : Option Setting} {a : ActorSystem} (ht : past.Tells w) (hw : w.Sound)
    (h : w.Change s a w') : (past ++ (w.event? w' s).toList).Tells w' := by
  have hsame (hf : w'.frames = w.frames) : w.newest? w' = none := by
    simp [World.newest?, hf]
  cases h with
  | adds h =>
    cases h with
    | grown h =>
      rw [World.event?, hsame h.frames, Option.toList_none, List.append_nil]
      exact ht.kept hw h.kept h.frames
    | @made f parent map entries _ h =>
      have hnew : w.newest? w' = some (.made f parent entries.pairs) := by
        simp [World.newest?, h.frames, h.isFrame.outer, h.isFrame.own?, Except.toOption]
      rw [World.event?, hnew]
      exact ht.makes hw h
  | sets hf hi h => exact ht.sets hw hf hi h
  | actors hk hf _ =>
    rw [World.event?, hsame hf, Option.toList_none, List.append_nil]
    exact ht.kept hw hk hf

theorem Tells.calls {calls : List Call} (ht : past.Tells w) (hw : w.Sound) (hl : w.AllLegal calls) :
    (w.final Call.plainly calls).Sound ∧
      (past ++ w.past calls).Tells (w.final Call.plainly calls) := by
  induction calls generalizing past w with
  | nil =>
    rw [World.past, List.append_nil]
    exact ⟨hw, ht⟩
  | cons c calls ih =>
    obtain ⟨hc, hl⟩ := hl
    rw [World.past, ← List.append_assoc]
    exact ih (ht.change hw (c.change hw hc)) (hw.effect (c.effect hw hc)) hl

theorem Tells.chain_iff {env : Value} {frames : List Value} (ht : past.Tells w) (hw : w.Sound)
    (he : w.IsScope env) : past.Chain env frames ↔ w.heap.Chain env frames := by
  constructor
  · intro hc
    clear he
    induction hc with
    | root => exact .root
    | frame hm _ ih =>
      obtain ⟨hf, houter⟩ := ht.made _ _ _ hm
      obtain ⟨_, _, _, hi, -⟩ := hw.isFrame hf
      obtain rfl := Except.ok.inj (houter.symm.trans hi.outer)
      exact .frame hi ih
  · intro hc
    obtain ⟨frames', hc', -, hmem⟩ := hw.chain he
    obtain rfl := hc'.unique hc
    clear hc' he
    induction hc with
    | root => exact .root
    | frame hi _ ih =>
      obtain ⟨hf, hrest⟩ := List.forall_mem_cons.mp hmem
      obtain ⟨parent, bindings, hm⟩ := ht.frame _ hf
      obtain rfl := Except.ok.inj (hi.outer.symm.trans (ht.made _ _ _ hm).2)
      exact .frame hm (ih hrest)

theorem Tells.decides_iff {env g value : Value} {frames : List Value} (ht : past.Tells w)
    (hw : w.Sound) (he : w.IsScope env) (hc : w.heap.Chain env frames)
    (hmem : ∀ f ∈ frames, f ∈ w.frames) : past.Decides env name g value ↔
      Frame.locate? w.heap name frames = some (g, value) := by
  have hlatest {f : Value} (hf : f ∈ frames) := ht.latest f (hmem f hf) name
  rw [Frame.locate?_eq_some_iff]
  constructor
  · rintro ⟨inner, outer, hc', hg, hn⟩
    obtain rfl := hc.unique ((ht.chain_iff hw he).mp hc')
    refine ⟨inner, outer, rfl, ?_, fun f hf => ?_⟩
    · rw [← hlatest (by simp), hg]
    · rw [← hlatest (List.mem_append_left _ hf), hn f hf]
  · rintro ⟨inner, outer, rfl, hg, hn⟩
    refine ⟨inner, outer, (ht.chain_iff hw he).mpr hc, ?_, fun f hf => ?_⟩
    · rw [hlatest (by simp), hg]
    · rw [hlatest (List.mem_append_left _ hf), hn f hf]

theorem Tells.exists_decides_iff {env value : Value} {frames : List Value} (ht : past.Tells w)
    (hw : w.Sound) (he : w.IsScope env) (hc : w.heap.Chain env frames)
    (hmem : ∀ f ∈ frames, f ∈ w.frames) : (∃ g, past.Decides env name g value) ↔
      Frame.resolve? w.heap name frames = some value := by
  simp only [ht.decides_iff hw he hc hmem, ← Frame.locate?_snd, Option.map_eq_some_iff,
    Prod.exists, exists_eq_right]

-- ---------------------------------------------------------------------------
-- Replies
-- ---------------------------------------------------------------------------

/-- What requests about a frame reply, however they are made: to set a name, its value, and else
what the past decides. -/
structure Answers (past : Past) (w : World) (frame : Value) (make : Request → Action Value) :
    Prop where
  set : ∀ key value name, w.heap.nameOf key = .ok name →
    (make (.set key value)).answer w = .ok value
  get : ∀ key value name, w.heap.nameOf key = .ok name →
    ((make (.get key)).answer w = .ok value ↔ ∃ g, past.Decides frame name g value)
  unbound : ∀ key fault name, w.heap.nameOf key = .ok name →
    ((make (.get key)).answer w = .error fault ↔
      (¬ ∃ g value, past.Decides frame name g value) ∧ fault = .unboundName name)
  find : ∀ key name, w.heap.nameOf key = .ok name → ∃ b,
    (make (.find key)).answer w = .ok (.bool b) ∧
      (b = true ↔ ∃ g value, past.Decides frame name g value)
  snapshot : ∃ table entries, (make .snapshot).answer w = .ok table ∧
    ((make .snapshot).after w).heap.obj? table = some (.table entries) ∧
      ∀ name birth value, w.heap.find? entries (.text name birth) = some value ↔
        ∃ g, past.Decides frame name g value

variable {make make' : Request → Action Value}

theorem Answers.congr (ha : past.Answers w f make)
    (hm : ∀ request, (make' request).answer w = (make request).answer w ∧
      ((make' request).after w).heap = ((make request).after w).heap) :
    past.Answers w f make' := by
  obtain ⟨table, entries, hanswer, hobj, hlists⟩ := ha.snapshot
  refine ⟨?_, ?_, ?_, ?_, table, entries, (hm _).1.trans hanswer, (hm _).2 ▸ hobj, hlists⟩
  · simpa only [(hm _).1] using ha.set
  · simpa only [(hm _).1] using ha.get
  · simpa only [(hm _).1] using ha.unbound
  · simpa only [(hm _).1] using ha.find

theorem Tells.answers (ht : past.Tells w) (hw : w.Sound) (hf : f ∈ w.frames) :
    past.Answers w f fun request => request.perform f := by
  obtain ⟨frames, hc, hl, hmem⟩ := hw.chain (.inr hf)
  have hsize := Nat.le_trans hl hw.frames_le
  have hdecides {name : String} {value : Value} : (∃ g, past.Decides f name g value) ↔
      Frame.resolve? w.heap name frames = some value :=
    ht.exists_decides_iff hw (.inr hf) hc hmem
  have hdecided {name : String} : (∃ g value, past.Decides f name g value) ↔
      (Frame.resolve? w.heap name frames).isSome := by
    rw [exists_comm, Option.isSome_iff_exists]
    exact exists_congr fun _ => hdecides
  refine ⟨fun key value name hk => ?_, fun key value name hk => ?_, fun key fault name hk => ?_,
    fun key name hk => ⟨_, hc.perform_find_answer hsize hk, hdecided.symm⟩, .ref w.heap.size,
    Entries.texts (Frame.overlaid w.heap frames.reverse), ?_, ?_, fun name birth value => ?_⟩
  · obtain ⟨_, _, _, hi, -⟩ := hw.isFrame hf
    exact hi.set_answer hk value
  · rw [Request.perform, hc.get_answer hsize hk, hdecides]
    cases Frame.resolve? w.heap name frames <;> simp
  · rw [Request.perform, hc.get_answer hsize hk, hdecided]
    cases Frame.resolve? w.heap name frames <;> simp [eq_comm]
  · rw [Action.answer, Request.perform, hc.snapshot_run hsize]
  · rw [Action.after, Request.perform, hc.snapshot_run hsize]
    exact Heap.obj?_add_self _ _
  · rw [Entries.find?_texts hc.overlaid_named.symbols _ w.heap, hc.find?_overlaid, hdecides]

theorem Answers.ask {id : Value} {actor : Actor} (hw : w.Sound)
    (ha : w.actors.running? id = some actor)
    (h : past.Answers w actor.frame fun request => request.perform actor.frame) :
    past.Answers w actor.frame (Shared.ask id) := by
  refine h.congr fun request => ?_
  obtain ⟨hanswer, halike⟩ := Shared.ask_matches_perform hw ha request (.refl w)
  exact ⟨hanswer.symm, halike.heap.symm⟩

end Past

-- ---------------------------------------------------------------------------
-- Without actors
-- ---------------------------------------------------------------------------

theorem Call.directly_matches {w w' : World} (hs : w.Sound) (hw : w.Alike w') (c : Call) :
    (directly w' c).answer w' = (plainly w c).answer w ∧
      ((plainly w c).after w).Alike ((directly w' c).after w') := by
  have hsame := c.steady w w' hw
  cases c with
  | ask id request =>
    rw [directly, hw.actors]
    cases ha : w.actors.running? id with
    | some actor => exact Shared.ask_matches_perform hs ha request hw
    | none => exact hsame
  | _ => exact hsame

namespace World

theorem Alike.directly {w w' : World} {calls : List Call} (hs : w.Sound) (hl : w.AllLegal calls)
    (hw : w.Alike w') :
    w'.replies Call.directly calls = w.replies Call.plainly calls ∧
      (w.final Call.plainly calls).Alike (w'.final Call.directly calls) := by
  induction calls generalizing w w' with
  | nil => exact ⟨rfl, hw⟩
  | cons c calls ih =>
    obtain ⟨hc, hl⟩ := hl
    obtain ⟨hanswer, hafter⟩ := c.directly_matches hs hw
    obtain ⟨hreplies, hfinal⟩ := ih (hs.effect (c.effect hs hc)) hl hafter
    exact ⟨congrArg₂ List.cons hanswer hreplies, hfinal⟩

/-- After any run, whoever made the calls and in whatever order, a request about a frame replies what
the past decides, made of the frame itself or of any actor that runs and serves it. A run in which
no actor that runs is asked, but the requests are made of the frames, has the same replies and leaves
the same frames and the same actors. -/
theorem replies_decided {library : ActorLibrary} {calls : List Call} (hlib : library.Lawful)
    (hl : (start library).AllLegal calls) :
    (∀ f ∈ ((start library).final Call.plainly calls).frames,
        ((start library).past calls).Answers ((start library).final Call.plainly calls) f
          fun request => request.perform f) ∧
      (∀ id actor,
        ((start library).final Call.plainly calls).actors.running? id = some actor →
        ((start library).past calls).Answers ((start library).final Call.plainly calls) actor.frame
          (Shared.ask id)) ∧
      (start library).replies Call.directly calls = (start library).replies Call.plainly calls ∧
      ((start library).final Call.plainly calls).Alike
        ((start library).final Call.directly calls) := by
  obtain ⟨hs, ht⟩ := (Past.tells_start library).calls (start_sound hlib) hl
  obtain ⟨hreplies, hfinal⟩ := Alike.directly (start_sound hlib) hl (.refl _)
  refine ⟨fun f hf => ht.answers hs hf, fun id actor ha => ?_, hreplies, hfinal⟩
  exact (ht.answers hs (ActorSystem.frame_of_running? hs ha)).ask hs ha

/-- Two frames, the outer one with an actor. The actor and the client both set names in it. -/
def sharedCalls : List Call :=
  [.make .nil .nil, .make (.ref 5) .nil, .spawn (.ref 5) .nil,
    .ask (.str "actor-0") (.set (.str "x") (.int 1)), .set (.ref 5) (.str "x") (.int 2) false,
    .ask (.str "actor-0") (.set (.str "y") (.int 3))]

theorem sharedCalls_decided : initial.AllLegal sharedCalls ∧
    (initial.past sharedCalls).Decides (.ref 5) "x" (.ref 5) (.int 2) ∧
    (Shared.ask (.str "actor-0") (.get (.str "x"))).answer
      (initial.final Call.plainly sharedCalls) = .ok (.int 2) := by
  have hlegal : initial.AllLegal sharedCalls :=
    ⟨.inl rfl, .inr (mem_frames_iff.mpr ⟨0, rfl⟩), mem_frames_iff.mpr ⟨0, rfl⟩, trivial,
      mem_frames_iff.mpr ⟨0, rfl⟩, trivial, trivial⟩
  have hdecides : (initial.past sharedCalls).Decides (.ref 5) "x" (.ref 5) (.int 2) :=
    ⟨[], [], .frame (.head _) .root, rfl, by simp⟩
  obtain ⟨-, hasked, -⟩ := replies_decided ActorLibrary.threads_lawful hlegal
  have hget := (hasked (.str "actor-0") ⟨.ref 5, .nil, 0⟩ rfl).get (.str "x") (.int 2) "x" rfl
  exact ⟨hlegal, hdecides, hget.mpr ⟨_, hdecides⟩⟩

end World

end LexicalEnv
