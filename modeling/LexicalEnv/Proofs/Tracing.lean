import LexicalEnv.Proofs.Atomicity
import LexicalEnv.Proofs.Past
import LexicalEnv.Proofs.Scoping

/-!
# Tracing

A traced call prints more than a plain one, and its fault may carry a snapshot.
It does nothing else if its trace can be written, and only then: a value that is
set has to have a text once it is bound, and arguments have to tell how many they
are. An actor that announces what it does serves as one that is silent
(`Reachable.trace_observes_iff`).
-/

namespace LexicalEnv

open LexicalEnv.Action (Matches matches_onActors steady_pure steady_read)

variable {w w' : World} {env outer closure callee stored : Value} {entries : List Value}
  {records : List Param} {s : Signature}

def Fault.bare : Fault → Fault
  | .unbound symbol _ text => .unbound symbol .nil text
  | fault => fault

theorem Fault.title_bare (fault : Fault) : fault.bare.title = fault.title := by
  cases fault <;> rfl

theorem Fault.message?_bare (fault : Fault) : fault.bare.message? = fault.message? := by
  cases fault <;> rfl

namespace World

def said (w : World) (line : String) : World := { w with printed := w.printed ++ line ++ "\n" }

theorem alike_said (w : World) (line : String) : w.Alike (w.said line) := ⟨rfl, rfl, rfl, rfl⟩

def Agrees (w : World) (x x' : Action Value) : Prop :=
  x'.answer w = x.answer w ∧ (x.after w).Alike (x'.after w)

/-- The second action answers as the first does, but for a snapshot in its fault. It leaves the same
but for what was printed; if it fails it may leave new objects, but no new frames. -/
structure Observed (w : World) (x x' : Action Value) : Prop where
  answer : (x'.answer w).mapError Fault.bare = (x.answer w).mapError Fault.bare
  grows : (x.after w).Grows (x'.after w)
  alike : ∀ value, x'.answer w = .ok value → (x.after w).Alike (x'.after w)

theorem Agrees.observed {x x' : Action Value} (h : w.Agrees x x') : w.Observed x x' :=
  ⟨by rw [h.1], h.2.grows, fun _ _ => h.2⟩

theorem Agrees.refl (w : World) (x : Action Value) : w.Agrees x x := ⟨rfl, .refl _⟩

theorem Agrees.of_ok {x x' : Action Value} {v : World} {r : Value}
    (hx : x w = .ok r v) (hx' : ∃ v', x' w = .ok r v' ∧ v.Alike v') : w.Agrees x x' := by
  obtain ⟨v', hx', hv⟩ := hx'
  simp only [Agrees, Action.answer, Action.after, hx, hx']
  exact ⟨trivial, hv⟩

theorem Agrees.of_run_eq {x x' : Action Value} (h : x' w = x w) : w.Agrees x x' := by
  simp only [Agrees, Action.answer, Action.after, h]
  exact ⟨trivial, .refl _⟩

theorem Agrees.of_matches {x x' : Action Value} (h : Matches (fun s s' => s' = s) x x')
    (w : World) : w.Agrees x x' := by
  have hsame := h w w (alike_iff.mp (.refl w))
  exact ⟨hsame.1, alike_iff.mpr hsame.2⟩

end World

-- ---------------------------------------------------------------------------
-- Lookup
-- ---------------------------------------------------------------------------

theorem Action.run_say (line : String) (w : World) : say line w = .ok () (w.said line) := rfl

theorem Action.Matches.said {α : Type} {R : ActorSystem → ActorSystem → Prop} {x x' : Action α}
    (h : Matches R x x') (line : String) : Matches R x (say line >>= fun _ => x') :=
  fun w w' hw => h w (w'.said line) ⟨hw.heap, hw.frames, hw.actors, hw.births⟩

namespace Frame

variable {key value binds exprs : Value} {R : ActorSystem → ActorSystem → Prop}

theorem searchTraced_matches (env : Value) (name : String) :
    Matches R (searchTraced env name false) (searchTraced env name true) :=
  (steady_read _).bind fun s => (steady_pure s).said (s.report name)

theorem find_agrees (w : World) (env key : Value) :
    w.Agrees (find env key false) (find env key true) :=
  .of_matches ((steady_read _).bind fun name =>
    (searchTraced_matches env name).bind fun _ => steady_pure _) w

theorem get_observed (hw : w.Sound) (he : w.IsScope env) (key : Value) :
    w.Observed (get env key false) (get env key true) := by
  cases hk : w.heap.nameOf key with
  | error fault =>
    have hread : Action.read (·.nameOf key) w = .error fault w := Action.run_read_error hk
    have hrun : get env key true w = get env key false w := by
      simp only [get, Action.run_bind, hread]
    exact (World.Agrees.of_run_eq hrun).observed
  | ok name =>
    obtain ⟨frames, hc, hl, -⟩ := hw.chain he
    have hsize := Nat.le_trans hl hw.frames_le
    have hrun := hc.get_run hsize hk
    cases hr : Frame.resolve? w.heap name frames with
    | some value =>
      obtain ⟨s, htraced⟩ := hc.get_eq hsize hk true
      rw [hr] at hrun htraced
      exact (World.Agrees.of_ok hrun ⟨_, htraced, rfl, rfl, rfl, rfl⟩).observed
    | none =>
      -- The snapshot is a new object and is not there in the untraced run.
      obtain ⟨w', htraced, -⟩ := hc.get_traced_unbound hsize hk hr
      rw [hr] at hrun
      have hgrows := preserving_get env key true w
      simp only [Action.after, htraced] at hgrows
      refine ⟨?_, ?_, ?_⟩
      · simp only [Action.answer, htraced, hrun]
        rfl
      · simpa only [Action.after, htraced, hrun] using hgrows
      · simp [Action.answer, htraced]

-- ---------------------------------------------------------------------------
-- Setting a name and making a frame
-- ---------------------------------------------------------------------------

/-- Once the value is bound the plain call answers it, so a traced one must not fail any more. -/
theorem set_observed_iff (hs : w.SetEnds env key value) :
    w.Observed (set env key value false) (set env key value true) ↔
      ∀ name, w.heap.nameOf key = .ok name → ¬ w.Untraceable env key value := by
  cases hk : w.heap.nameOf key with
  | error fault =>
    have hsame : w.Agrees (set env key value false) (set env key value true) :=
      .of_run_eq ((hs.refused fault hk true).trans (hs.refused fault hk false).symm)
    exact iff_of_true hsame.observed (by simp)
  | ok name =>
    obtain ⟨w', hrun, -, -, htext, hfault⟩ := hs.bound name hk
    rw [World.untraceable_iff hrun]
    cases hline : Printing.text w'.heap value with
    | ok text =>
      have hsame : w.Agrees (set env key value false) (set env key value true) :=
        .of_ok hrun ⟨_, htext text hline, rfl, rfl, rfl, rfl⟩
      exact iff_of_true hsame.observed (by simp)
    | error fault =>
      refine iff_of_false (fun hobserved => ?_) fun h => h name rfl ⟨fault, rfl⟩
      have hanswer := hobserved.answer
      simp [Action.answer, hrun, hfault fault hline, Except.mapError] at hanswer

def drafted (outer : Value) (params : List Param) (args : List Value) : Action Value := do
  let bindings ← pairUp args 0 params
  create outer (← Action.read (·.insertAll [] bindings))

theorem fill_eq (outer : Value) (params : List Param) (args : List Value) (debug : Bool) :
    fill outer params args debug = (do
      let frame ← drafted outer params args
      if debug then Action.say (← Action.read (report · frame))
      enrolled frame) := by
  simp only [fill, drafted, bind_assoc]

theorem fill_agrees {params : List Param} {args : List Value} {new : Value}
    (hrun : fill outer params args true w = .ok new w') :
    w.Agrees (fill outer params args false) (fill outer params args true) := by
  rw [fill_eq, Action.run_bind] at hrun
  cases hdraft : drafted outer params args w with
  | error fault v => simp [hdraft] at hrun
  | ok frame v =>
    simp only [hdraft, if_true, Action.run_bind] at hrun
    have hplain : fill outer params args false w = enrolled frame v := by
      rw [fill_eq, Action.run_bind, hdraft]
      rfl
    cases hline : report v.heap frame with
    | error fault =>
      have hread : Action.read (report · frame) v = .error fault v := Action.run_read_error hline
      simp [hread] at hrun
    | ok line =>
      have hread : Action.read (report · frame) v = .ok line v := Action.run_read hline
      refine .of_ok hplain ⟨{ v.said line with frames := v.frames.push frame }, ?_,
        rfl, rfl, rfl, rfl⟩
      simp only [fill_eq, Action.run_bind, hdraft, if_true, hread]
      rfl

theorem extend_agrees (hw : w.Sound) (ho : w.IsScope outer) (hs : w.heap.CarriesSymbols binds)
    (exprs callee : Value) :
    w.Agrees (extend outer binds exprs false callee) (extend outer binds exprs true callee) := by
  cases hl : w.heap.paramList binds with
  | error fault =>
    have hrun (debug : Bool) := extend_of_binds outer exprs callee debug hl
    exact .of_run_eq ((hrun true).trans (hrun false).symm)
  | ok list =>
    cases he : w.heap.sequenceOf exprs with
    | error fault =>
      have hrun (debug : Bool) := extend_of_args outer callee debug hl he
      exact .of_run_eq ((hrun true).trans (hrun false).symm)
    | ok args =>
      obtain ⟨s, -, hd⟩ := Heap.declares_of_paramList hs hl
      have hrun (debug : Bool) := extend_of_described outer callee debug hl hd he
      by_cases ha : s.Accepts args.length
      · simp only [if_pos ha] at hrun
        obtain ⟨new, w', hmade, -⟩ := hw.extend_run ho hl hd he ha true callee
        have hfill := fill_agrees ((hrun true).symm.trans hmade)
        simp only [World.Agrees, Action.answer, Action.after, hrun] at hfill ⊢
        exact hfill
      · simp only [if_neg ha] at hrun
        exact .of_run_eq ((hrun true).trans (hrun false).symm)

end Frame

-- ---------------------------------------------------------------------------
-- Entering a closure
-- ---------------------------------------------------------------------------

/-- An earlier call wrote the closure. -/
def World.Wrote (w : World) (closure : Value) : Prop :=
  ∃ (w₀ w₁ : World) (params body env name : Value) (log : List Setting),
    w₀.Reachable ∧ (Call.close params body env name).Legal w₀ ∧
      Closure.make params body env name w₀ = .ok closure w₁ ∧ w₁.Run log w

theorem World.Wrote.keeps (hw : w.Wrote closure) : w.Sound ∧
    ∃ env callee stored entries records, ∃ s : Signature,
      Closure.Keeps w.heap closure env callee stored entries records ∧ s.Describes records ∧
        w.IsScope env := by
  obtain ⟨w₀, w₁, params, body, env, name, log, hreachable, ⟨he, hs⟩, hm, hr⟩ := hw
  have hsound := hreachable.sound
  obtain ⟨list, hl⟩ := Closure.paramList_of_make hm
  obtain ⟨s, -, hd⟩ := Heap.declares_of_paramList hs hl
  obtain ⟨hg, h, stored, entries, hkeeps, -⟩ := (Closure.make_keeps hl body env name).ok hm
  have heffect : w₀.Effect w₁ := .grown hg
  have hsound₁ := hsound.effect heffect
  have hlater := (heffect.later hsound).trans (hr.later hsound₁)
  exact ⟨hr.sound hsound₁, env, _, stored, entries, list.params, s,
    hkeeps.later hsound₁ (hr.later hsound₁), hd, hlater.isScope hsound he⟩

theorem World.Wrote.call (hw : w.Wrote closure) (c : Call) (hl : c.Legal w) :
    (c.run.after w).Wrote closure := by
  obtain ⟨w₀, w₁, params, body, env, name, log, hreachable, hclose, hm, hr⟩ := hw
  exact ⟨w₀, w₁, params, body, env, name, _, hreachable, hclose, hm, hr.call c hl⟩

theorem World.Wrote.inScope (hw : w.Wrote closure) : Closure.InScope w closure := by
  obtain ⟨-, env, callee, stored, entries, records, s, hkeeps, hd, he⟩ := hw.keeps
  exact hkeeps.inScope hd he

theorem Heap.entries?_of_items {h : Heap} {v : Value} {fault : Fault}
    (hi : h.items v = .error fault) : h.entries? v = none := by
  cases ho : h.obj? v with
  | none => simp [entries?, ho]
  | some o =>
    obtain ⟨a, rfl, -⟩ := exists_ref_of_obj? ho
    cases he : o.entries? with
    | none => simp [entries?, ho, he]
    | some entries => cases o <;> simp_all [items, Obj.entries?, pure, Except.pure]

theorem Heap.sequenceOf_iterable {h : Heap} {v : Value} {items : List Value} {shown : String}
    (hv : h.obj? v = some (.iterable items shown)) : h.sequenceOf v = .ok items := by
  obtain ⟨a, rfl, -⟩ := exists_ref_of_obj? hv
  simp [sequenceOf, tagged?, entries?, Heap.items, hv, Obj.entries?, pure, Except.pure]

theorem Heap.count_error {h : Heap} {v : Value} {fault : Fault} (hc : h.count v = .error fault) :
    fault = .wrongType := by
  unfold count at hc
  split at hc
  · exact (Except.error.inj hc).symm
  · cases hi : h.items v with
    | error cause =>
      simp only [hi, bind, Except.bind, Except.error.injEq] at hc
      exact hc ▸ items_error hi
    | ok items => simp [hi, bind, Except.bind, pure, Except.pure] at hc

theorem Heap.sequenceOf_of_count {h : Heap} {args : Value} {fault : Fault}
    (hc : h.count args = .error fault) :
    h.sequenceOf args = .error fault ∨ ∃ items, h.sequenceOf args = .ok items := by
  unfold count at hc
  split at hc
  · exact .inr ⟨_, sequenceOf_iterable ‹_›⟩
  · have hitems : h.items args = .error fault := by
      cases hi : h.items args with
      | error cause => simpa [hi, bind, Except.bind] using hc
      | ok items => simp [hi, bind, Except.bind, pure, Except.pure] at hc
    have hentries := entries?_of_items hitems
    have htagged : h.tagged? args = none := by simp [tagged?, hentries]
    cases args with
    | text => cases hitems
    | _ => exact .inl (by simpa [sequenceOf, htagged, hentries] using hitems)

def Closure.callLine (called text : String) (count : Nat) : String :=
  "Call " ++ called ++ " (" ++ text ++ ") with " ++ Nat.repr count ++ " argument(s)"

theorem Closure.report_record {h : Heap} {record name params body env : Value} {text : String}
    (hr : h.obj? record = some (Closure.record name params text body env)) (args : Value) :
    report h record args = (do
      let count ← h.count args
      pure (callLine (h.display name) text count)) := by
  obtain ⟨-, -, hname⟩ := field_record hr
  have htext := field_params_text hr
  simp only [report, callLine, hname, htext, bind, Except.bind, Heap.display_text, Value.str]

/-- A traced call first counts the arguments. -/
theorem Closure.Keeps.enter_traced
    (hk : Keeps w.heap closure env callee stored entries records) :
    ∃ text, Shows w.heap closure text ∧ ∀ args,
      (∀ fault, w.heap.count args = .error fault → enter closure args true w = .error fault w) ∧
        ∀ count, w.heap.count args = .ok count → enter closure args true w =
          Frame.extend env stored args true callee
            (w.said (callLine (w.heap.display callee) text count)) := by
  obtain ⟨record, text, body, hclosure, hrecord⟩ := hk.record
  have hfound := record?_table hclosure
  obtain ⟨henv, hparams, hname⟩ := field_record hrecord
  refine ⟨text, ⟨record, callee, stored, body, env, hclosure, hrecord⟩, fun args => ?_⟩
  have hreport := report_record hrecord args
  refine ⟨fun fault hcount => ?_, fun count hcount => ?_⟩
  · rw [hcount] at hreport
    have hread : Action.read (report · record args) w = .error fault w :=
      Action.run_read_error hreport
    simp [enter, Action.run_bind, hfound, hread]
  · rw [hcount] at hreport
    have hread : Action.read (report · record args) w =
        .ok (callLine (w.heap.display callee) text count) w := Action.run_read hreport
    have hcall := call_eq (w := w.said (callLine (w.heap.display callee) text count))
      henv hparams hname args true
    simp only [enter, Action.run_bind, Action.run_view, hfound, if_true, hread, Action.run_say]
    simpa only [Action.run_bind] using hcall

theorem Closure.Keeps.enter_agrees {count : Nat}
    (hk : Keeps w.heap closure env callee stored entries records) (hw : w.Sound)
    (hd : s.Describes records) (he : w.IsScope env) {args : Value}
    (hc : w.heap.count args = .ok count) :
    w.Agrees (enter closure args false) (enter closure args true) := by
  obtain ⟨text, -, htraced⟩ := hk.enter_traced
  have htraced := (htraced args).2 count hc
  have hstored := Heap.paramList_of_records hk.sequenceOf_eq hk.params hd
  have hplain : enter closure args false w = _ := hk.enter_eq hd hstored rfl args
  have hsymbols : w.heap.CarriesSymbols stored := by
    obtain ⟨record, hrecord, -, hparams, -⟩ := hk.record?_eq
    exact (hk.inScope hd he record hrecord).2 stored (mem_toOption.mpr hparams)
  -- The line comes first, so the frame is made in a world that differs in what is printed.
  have hsaid := w.alike_said (callLine (w.heap.display callee) text count)
  have hsound := hw.effect (.grown hsaid.grows)
  obtain ⟨hanswer, hafter⟩ := Frame.extend_agrees hsound he hsymbols args callee
  obtain ⟨hanswer', hafter'⟩ := (Call.extend env stored args false callee).steady w _ hsaid
  simp only [World.Agrees, Action.answer, Action.after, Call.run, hplain, htraced]
    at hanswer hafter hanswer' hafter' ⊢
  exact ⟨hanswer.trans hanswer', hafter'.trans hafter⟩

theorem Closure.Keeps.enter_observed_iff
    (hk : Keeps w.heap closure env callee stored entries records) (hw : w.Sound)
    (hd : s.Describes records) (he : w.IsScope env) (args : Value) :
    w.Observed (enter closure args false) (enter closure args true) ↔
      ∀ items, w.heap.sequenceOf args = .ok items → ∃ count, w.heap.count args = .ok count := by
  cases hc : w.heap.count args with
  | ok count =>
    exact iff_of_true (hk.enter_agrees hw hd he hc).observed fun _ _ => ⟨count, rfl⟩
  | error fault =>
    obtain ⟨text, -, htraced⟩ := hk.enter_traced
    have hfails := (htraced args).1 fault hc
    have hends := hk.callEnds hw hd he args
    rcases Heap.sequenceOf_of_count hc with hs | ⟨items, hs⟩
    · have hsame : w.Agrees (enter closure args false) (enter closure args true) :=
        .of_run_eq (hfails.trans (hends.noSequence fault hs).symm)
      exact iff_of_true hsame.observed (by simp [hs])
    · refine iff_of_false (fun hobserved => ?_) (by simp [hs])
      have hanswer := hobserved.answer
      obtain rfl := Heap.count_error hc
      by_cases ha : s.Accepts items.length
      · obtain ⟨frame, w', hplain, -⟩ := hends.fit items hs ha
        simp [Action.answer, hfails, hplain, Except.mapError] at hanswer
      · have hplain := hends.unfit items hs ha
        simp [Action.answer, hfails, hplain, Except.mapError, Heap.arityFault, Fault.bare]
          at hanswer

-- ---------------------------------------------------------------------------
-- Calls
-- ---------------------------------------------------------------------------

namespace Call

def untraced : Call → Call
  | extend parent binds exprs _ name => extend parent binds exprs false name
  | enter closure args _ => enter closure args false
  | set env key value _ => set env key value false
  | find env key _ => find env key false
  | get env key _ => get env key false
  | c => c

def Written (w : World) : Call → Prop
  | enter closure .. => w.Wrote closure
  | _ => True

/-- The trace of a call can be written, if it has one: arguments that can be gone through can be
counted, and a value that is set has a text once it is bound. -/
def Traceable (w : World) : Call → Prop
  | enter _ args true =>
    ∀ items, w.heap.sequenceOf args = .ok items → ∃ count, w.heap.count args = .ok count
  | set env key value true =>
    ∀ name, w.heap.nameOf key = .ok name → ¬ w.Untraceable env key value
  | _ => True

theorem observed_iff {c : Call} (hw : w.Sound) (hl : c.Legal w) (hc : c.Written w) :
    w.Observed c.untraced.run c.run ↔ c.Traceable w := by
  have hsame (x : Action Value) : w.Observed x x := (World.Agrees.refl w x).observed
  cases c with
  | extend parent binds exprs debug name =>
    cases debug
    · exact iff_of_true (hsame _) trivial
    · exact iff_of_true (Frame.extend_agrees hw hl.1 hl.2 exprs name).observed trivial
  | enter closure args debug =>
    cases debug
    · exact iff_of_true (hsame _) trivial
    · obtain ⟨-, env, callee, stored, entries, records, s, hkeeps, hd, he⟩ := hc.keeps
      exact hkeeps.enter_observed_iff hw hd he args
  | set env key value debug =>
    cases debug
    · exact iff_of_true (hsame _) trivial
    · exact Frame.set_observed_iff (hw.setEnds hl key value)
  | find env key debug =>
    cases debug
    · exact iff_of_true (hsame _) trivial
    · exact iff_of_true (Frame.find_agrees w env key).observed trivial
  | get env key debug =>
    cases debug
    · exact iff_of_true (hsame _) trivial
    · exact iff_of_true (Frame.get_observed hw hl key) trivial
  | _ => exact iff_of_true (hsame _) trivial

/-- The same call, but an actor that is spawned may be told otherwise whether to announce. -/
inductive Retold : Call → Call → Prop
  | same (c : Call) : Retold c c
  | spawn (env debug debug' : Value) : Retold (spawn env debug) (spawn env debug')

end Call

-- ---------------------------------------------------------------------------
-- Actors that announce
-- ---------------------------------------------------------------------------

namespace ActorSystem

variable {s s' : ActorSystem}

def works (s : ActorSystem) : List (Value × Nat) := s.spawned.map Actor.work

/-- The same registry but for what actors were told about announcing. -/
structure Akin (s s' : ActorSystem) : Prop where
  library : s'.library = s.library
  works : s'.works = s.works
  actors : s'.actors = s.actors
  frames : s'.frames = s.frames

theorem Akin.refl (s : ActorSystem) : s.Akin s := ⟨rfl, rfl, rfl, rfl⟩

theorem works_halt (s : ActorSystem) (place : Nat) :
    (s.halt place).works = s.works.modify place fun work =>
      if s.library.isAlive work.2 then (work.1, work.2 + 1) else work := by
  apply List.ext_getElem?
  intro i
  simp only [works, halt, List.getElem?_map, List.getElem?_modify]
  cases s.spawned[i]? with
  | none => rfl
  | some actor =>
    by_cases hp : place = i
    · subst hp
      by_cases hl : s.library.isAlive actor.stops <;> simp [Actor.work, alive, hl]
    · simp [hp]

theorem Akin.halt (h : s.Akin s') (place : Nat) : (s.halt place).Akin (s'.halt place) :=
  ⟨h.library, by rw [works_halt, works_halt, h.works, h.library], h.actors, h.frames⟩

theorem Akin.place? (h : s.Akin s') (id : Value) : s'.place? id = s.place? id := by
  cases id with
  | text id birth => exact congrArg (List.lookup id) h.actors
  | _ => rfl

theorem Akin.actor? (h : s.Akin s') (id : Value) :
    (s'.actor? id).map Actor.work = (s.actor? id).map Actor.work := by
  have hwork (s : ActorSystem) (place : Nat) :
      (s.spawned[place]?).map Actor.work = s.works[place]? := by simp [ActorSystem.works]
  simp only [ActorSystem.actor?, h.place?, Option.map_bind, Function.comp_def, hwork, h.works]

theorem Akin.spawn (h : s.Akin s') (frame debug debug' : Value) :
    (s'.spawn frame debug').1 = (s.spawn frame debug).1 ∧
      (s.spawn frame debug).2.Akin (s'.spawn frame debug').2 := by
  have hlength : s'.spawned.length = s.spawned.length := by
    simpa [ActorSystem.works] using congrArg List.length h.works
  have hworks : s'.spawned.map Actor.work = s.spawned.map Actor.work := h.works
  refine ⟨congrArg idOf hlength, h.library, ?_, ?_, ?_⟩
  · simp [ActorSystem.works, ActorSystem.spawn, hworks, Actor.work]
  · simp [ActorSystem.spawn, hlength, h.actors]
  · simp [ActorSystem.spawn, hlength, h.frames]

theorem Akin.kill (h : s.Akin s') (id : Value) : (s.kill id).Akin (s'.kill id) := by
  simp only [ActorSystem.kill, h.place?]
  cases s.place? id with
  | none => exact h
  | some place => exact h.halt place

theorem Akin.stop (h : s.Akin s') (id : Value) : (s.stop id).Akin (s'.stop id) := by
  have hkill := h.kill id
  exact ⟨hkill.library, hkill.works, congrArg (List.filter _) hkill.actors,
    congrArg (List.filter _) hkill.frames⟩

theorem Akin.haltAll (h : s.Akin s') (entries : List (String × Nat)) :
    (entries.foldl (fun s entry => s.halt entry.2) s).Akin
      (entries.foldl (fun s entry => s.halt entry.2) s') := by
  induction entries generalizing s s' with
  | nil => exact h
  | cons entry rest ih => exact ih (h.halt entry.2)

theorem Akin.stopAll (h : s.Akin s') : s.stopAll.Akin s'.stopAll := by
  have hall := h.haltAll s.actors
  simp only [ActorSystem.stopAll, h.actors]
  exact ⟨hall.library, hall.works, rfl, rfl⟩

theorem bisimulation_akin : Bisimulation Akin where
  library h := h.library
  frames h := h.frames
  actor? h := h.actor?
  spawn h frame debug := h.spawn frame debug debug
  kill h := h.kill
  stop h := h.stop
  stopAll h := h.stopAll

end ActorSystem

def World.Akin : World → World → Prop := World.Like ActorSystem.Akin

theorem Call.Retold.matches {c c' : Call} (h : c.Retold c') :
    Matches ActorSystem.Akin c.run c'.run := by
  cases h with
  | same => exact c.steady_of ActorSystem.bisimulation_akin
  | spawn env debug debug' =>
    exact (matches_onActors fun _ _ hs => hs.spawn env debug debug').bind fun _ => steady_pure _

theorem World.Akin.replies {calls calls' : List Call} (hw : w.Akin w')
    (h : List.Forall₂ Call.Retold calls calls') :
    w'.replies Call.plainly calls' = w.replies Call.plainly calls ∧
      (w.final Call.plainly calls).Akin (w'.final Call.plainly calls') := by
  induction h generalizing w w' with
  | nil => exact ⟨rfl, hw⟩
  | cons hc _ ih =>
    obtain ⟨hanswer, hafter⟩ := hc.matches w w' hw
    obtain ⟨hreplies, hfinal⟩ := ih hafter
    exact ⟨congrArg₂ List.cons hanswer hreplies, hfinal⟩

namespace World

/-- A traced call of a reachable world answers what the same call answers without a trace, but for
the snapshot that its fault may carry and that is no part of the title or the message, and leaves the
same frames and actors. There are two exceptions: arguments that can be gone through and not counted,
and a value that is set and has no text once it is bound. If actors are told otherwise whether to
announce, all calls from then on have the same replies and leave the same frames. -/
theorem Reachable.trace_observes_iff (hw : w.Reachable) :
    (∀ fault : Fault, fault.bare.title = fault.title ∧ fault.bare.message? = fault.message?) ∧
      (∀ c : Call, c.Legal w → c.Written w →
        (w.Observed c.untraced.run c.run ↔ c.Traceable w)) ∧
      ∀ calls calls', List.Forall₂ Call.Retold calls calls' →
        w.replies Call.plainly calls' = w.replies Call.plainly calls ∧
          (w.final Call.plainly calls).Akin (w.final Call.plainly calls') := by
  refine ⟨fun fault => ⟨fault.title_bare, fault.message?_bare⟩,
    fun c hl hc => Call.observed_iff hw.sound hl hc, fun calls calls' h => ?_⟩
  have hakin : w.Akin w := ⟨rfl, rfl, .refl _, rfl⟩
  exact hakin.replies h

theorem definedLater_reachable : definedLater.Reachable := by
  have hclosed := listedNames_reachable.call (.close (.ref 8) (.int 0) (.ref 7) (.str "f"))
    ⟨.inr (mem_frames_iff.mpr ⟨1, rfl⟩), by decide⟩
  exact hclosed.call (.set (.ref 7) (.str "y") (.int 3) false) (mem_frames_iff.mpr ⟨1, rfl⟩)

theorem definedLater_wrote : definedLater.Wrote (.ref 13) :=
  ⟨listedNames, closedOver, .ref 8, .int 0, .ref 7, .str "f", _, listedNames_reachable,
    ⟨.inr (mem_frames_iff.mpr ⟨1, rfl⟩), by decide⟩, rfl, definedLater_run⟩

theorem trace_observes_definedLater : definedLater.Reachable ∧ definedLater.Wrote (.ref 13) ∧
    definedLater.Observed (Closure.enter (.ref 13) (.ref 8) false)
      (Closure.enter (.ref 13) (.ref 8) true) ∧
    Printing.text ((Frame.set (.ref 7) (.str "z") (.ref 8) false).after definedLater).heap
      (.ref 8) = .ok "(a & r)" ∧
    definedLater.Observed (Frame.set (.ref 7) (.str "z") (.ref 8) false)
      (Frame.set (.ref 7) (.str "z") (.ref 8) true) ∧
    (Frame.get (.ref 7) (.str "z") true).answer definedLater =
      .error (.unbound (.str "z") (.ref 14) "'z' not found") ∧
    definedLater.Observed (Frame.get (.ref 7) (.str "z") false)
      (Frame.get (.ref 7) (.str "z") true) ∧
    definedLater.replies Call.plainly
      [.spawn (.ref 7) (.bool true), .ask (.str "actor-0") (.get (.str "x"))] =
        [.ok (.str "actor-0"), .ok (.int 1)] := by
  obtain ⟨-, hcall, hretold⟩ := Reachable.trace_observes_iff definedLater_reachable
  have hmem : Value.ref 7 ∈ definedLater.frames := mem_frames_iff.mpr ⟨1, rfl⟩
  have htext : Printing.text
      ((Frame.set (.ref 7) (.str "z") (.ref 8) false).after definedLater).heap (.ref 8) =
        .ok "(a & r)" := rfl
  refine ⟨definedLater_reachable, definedLater_wrote,
    (hcall (.enter (.ref 13) (.ref 8) true) definedLater_wrote.inScope definedLater_wrote).mpr
      fun _ _ => ⟨3, rfl⟩, htext,
    (hcall (.set (.ref 7) (.str "z") (.ref 8) true) hmem trivial).mpr fun _ _ => ?_, rfl,
    (hcall (.get (.ref 7) (.str "z") true) (.inr hmem) trivial).mpr trivial, ?_⟩
  · rintro ⟨fault, hfault⟩
    cases htext.symm.trans hfault
  · have hsame := hretold
      [.spawn (.ref 7) (.bool false), .ask (.str "actor-0") (.get (.str "x"))] _
      (.cons (.spawn (.ref 7) (.bool false) (.bool true)) (.cons (.same _) .nil))
    exact hsame.1.trans rfl

/-- Two frames, and a map that is the inner frame's own. -/
def mirrored : World := (Call.data (Tagged.table (.ref 6) (.str "Map"))).run.after twoFrames

/-- A closure, and numbers that can only be gone through. -/
def streamed : World := (Call.data (.iterable [.int 7] "<numbers>")).run.after definedLater

/-- Bound in its frame the map holds itself, so it had a text and has none when it is traced. The
numbers are fit for arguments, but a trace cannot count them. -/
theorem trace_interferes :
    (mirrored.Reachable ∧ Value.ref 7 ∈ mirrored.frames ∧
      Printing.text mirrored.heap (.ref 8) = .ok "\x7b\x7d" ∧
      (Frame.set (.ref 7) (.str "k") (.ref 8) false).answer mirrored = .ok (.ref 8) ∧
      (Frame.set (.ref 7) (.str "k") (.ref 8) true).answer mirrored = .error .tooDeep ∧
      ¬ mirrored.Observed (Frame.set (.ref 7) (.str "k") (.ref 8) false)
        (Frame.set (.ref 7) (.str "k") (.ref 8) true)) ∧
    (streamed.Reachable ∧ streamed.Wrote (.ref 13) ∧
      streamed.heap.sequenceOf (.ref 14) = .ok [.int 7] ∧
      (Closure.enter (.ref 13) (.ref 14) false).answer streamed = .ok (.ref 18) ∧
      (Closure.enter (.ref 13) (.ref 14) true).answer streamed = .error .wrongType ∧
      ¬ streamed.Observed (Closure.enter (.ref 13) (.ref 14) false)
        (Closure.enter (.ref 13) (.ref 14) true)) := by
  refine ⟨⟨twoFrames_reachable.call (.data _) trivial, mem_frames_iff.mpr ⟨1, rfl⟩, rfl, rfl, rfl,
    fun hobserved => ?_⟩, definedLater_reachable.call (.data _) trivial,
    definedLater_wrote.call (.data _) trivial, rfl, rfl, rfl, fun hobserved => ?_⟩
  · cases hobserved.answer
  · cases hobserved.answer

end World

end LexicalEnv
