import LexicalEnv.Actor.Shared
import LexicalEnv.Proofs.Named

/-!
# Chains of frames

`h.Chain env frames`: going outwards from `env` one meets `frames`, nearest
first, and then nothing. Along a chain every walk ends: as many rounds as the
chain has frames are enough, and more rounds give the same result
(`Chain.searchAt`, `Chain.chainAt`, `Chain.walkAt`). A lookup finds the value
of the nearest frame that binds the name (`Chain.get_run`).
-/

namespace LexicalEnv

namespace Frame

def own? (h : Heap) (frame : Value) : Option Entries := do
  h.entries? (← (bindings h frame).toOption)

def bound? (h : Heap) (frame : Value) (name : String) : Option Value := do
  h.find? (← own? h frame) (.sym name)

def resolve? (h : Heap) (name : String) (frames : List Value) : Option Value :=
  frames.findSome? (bound? h · name)

end Frame

def Shared.walked (h : Heap) (shared : Option Value) (name : String) : List Value → Walk
  | [] => .unbound
  | f :: frames =>
    if shared = some f then .arrived
    else (Frame.bound? h f name).elim (walked h shared name frames) .bound

/-- A frame, the frame around it or nothing, and its map with its entries. -/
structure Heap.IsFrame (h : Heap) (f parent map : Value) (entries : Entries) : Prop where
  frame : h.obj? f = some (.frame parent map)
  table : h.obj? map = some (.table entries)
  named : Entries.Named entries

inductive Heap.Chain (h : Heap) : Value → List Value → Prop
  | root : h.Chain .nil []
  | frame {f parent map : Value} {entries : Entries} {frames : List Value} :
    h.IsFrame f parent map entries → h.Chain parent frames → h.Chain f (f :: frames)

namespace Heap

variable {h h' : Heap} {f parent map env : Value} {entries : Entries} {frames : List Value}
variable {name : String} {fuel : Nat}

theorem IsFrame.outer (hf : h.IsFrame f parent map entries) : Frame.outer h f = .ok parent :=
  field_parent hf.frame

theorem IsFrame.bindings (hf : h.IsFrame f parent map entries) : Frame.bindings h f = .ok map :=
  field_bindings hf.frame

theorem IsFrame.own? (hf : h.IsFrame f parent map entries) : Frame.own? h f = some entries := by
  simp [Frame.own?, hf.bindings, Except.toOption, entries?, hf.table, Obj.entries?]

theorem IsFrame.bound? (hf : h.IsFrame f parent map entries) :
    Frame.bound? h f name = h.find? entries (.sym name) := by
  simp [Frame.bound?, hf.own?]

theorem IsFrame.bound?_isSome (hf : h.IsFrame f parent map entries) :
    (Frame.bound? h f name).isSome ↔ name ∈ Entries.names entries := by
  rw [hf.bound?]
  exact find?_isSome_iff

theorem IsFrame.kept (hf : h.IsFrame f parent map entries) (hk : h.Kept h') :
    h'.IsFrame f parent map entries :=
  ⟨hk _ _ hf.frame, hk _ _ hf.table, hf.named⟩

theorem IsFrame.unique {parent' map' : Value} {entries' : Entries}
    (hf : h.IsFrame f parent map entries) (hf' : h.IsFrame f parent' map' entries') :
    parent = parent' ∧ map = map' ∧ entries = entries' := by
  have hframe := Option.some.inj (hf.frame.symm.trans hf'.frame)
  obtain ⟨rfl, rfl⟩ := Obj.frame.inj hframe
  have htable := Option.some.inj (hf.table.symm.trans hf'.table)
  exact ⟨rfl, rfl, Obj.table.inj htable⟩

theorem not_isFrame_nil : ¬ h.IsFrame .nil parent map entries :=
  fun hf => by simpa [obj?] using hf.frame

theorem Chain.kept (hc : h.Chain env frames) (hk : h.Kept h') : h'.Chain env frames := by
  induction hc with
  | root => exact .root
  | frame hf _ ih => exact .frame (hf.kept hk) ih

theorem Chain.unique {frames' : List Value} (hc : h.Chain env frames) (hc' : h.Chain env frames') :
    frames = frames' := by
  induction hc generalizing frames' with
  | root =>
    cases hc' with
    | root => rfl
    | frame hf _ => exact absurd hf not_isFrame_nil
  | frame hf _ ih =>
    cases hc' with
    | root => exact absurd hf not_isFrame_nil
    | frame hf' hc' =>
      obtain ⟨rfl, -, -⟩ := hf.unique hf'
      rw [ih hc']

-- ---------------------------------------------------------------------------
-- Walks
-- ---------------------------------------------------------------------------

theorem Chain.chainAt (hc : h.Chain env frames) (hl : frames.length ≤ fuel) (inner : List Value) :
    Frame.chainAt h fuel inner env = .ok (frames.reverse ++ inner) := by
  induction hc generalizing fuel inner with
  | root => cases fuel <;> rfl
  | @frame f parent map entries frames hf _ ih =>
    obtain ⟨fuel, rfl⟩ := Nat.exists_eq_succ_of_ne_zero (Nat.ne_zero_of_lt hl)
    obtain ⟨a, rfl, -⟩ := exists_ref_of_obj? hf.frame
    simp only [Frame.chainAt, hf.outer, bind, Except.bind, ih (Nat.le_of_succ_le_succ hl)]
    simp

theorem Chain.chain_eq (hc : h.Chain env frames) (hl : frames.length ≤ h.size) :
    Frame.chain h env = .ok frames.reverse := by
  rw [Frame.chain, hc.chainAt hl [], List.append_nil]

theorem Chain.depth (hc : h.Chain env frames) (hl : frames.length ≤ h.size) :
    Frame.depth h env = .ok frames.length := by
  simp [Frame.depth, hc.chain_eq hl, bind, Except.bind, pure, Except.pure]

theorem Chain.searchAt (hc : h.Chain env frames) (hl : frames.length ≤ fuel) (visited : Nat) :
    Frame.searchAt h name fuel visited env =
      .ok ⟨frames.find? fun f => (Frame.bound? h f name).isSome,
        visited +
          min (frames.findIdx (fun f => (Frame.bound? h f name).isSome) + 1) frames.length⟩ := by
  induction hc generalizing fuel visited with
  | root => cases fuel <;> simp [Frame.searchAt, pure, Except.pure]
  | @frame f parent map entries frames hf _ ih =>
    obtain ⟨fuel, rfl⟩ := Nat.exists_eq_succ_of_ne_zero (Nat.ne_zero_of_lt hl)
    obtain ⟨a, rfl, -⟩ := exists_ref_of_obj? hf.frame
    have hcontains := BindingMap.contains_table name hf.table
    rw [← hf.bound?] at hcontains
    simp only [Frame.searchAt, hf.bindings, hcontains, hf.outer, bind, Except.bind]
    cases hb : (Frame.bound? h (.ref a) name).isSome with
    | true => simp [List.findIdx_cons, hb, pure, Except.pure]
    | false =>
      simp only [Bool.false_eq_true, if_false, ih (Nat.le_of_succ_le_succ hl), List.find?_cons, hb,
        List.findIdx_cons, cond_false, List.length_cons]
      congr 2
      omega

theorem Chain.search (hc : h.Chain env frames) (hl : frames.length ≤ h.size) :
    Frame.search h env name =
      .ok ⟨frames.find? fun f => (Frame.bound? h f name).isSome,
        min (frames.findIdx (fun f => (Frame.bound? h f name).isSome) + 1) frames.length⟩ := by
  rw [Frame.search, hc.searchAt hl 0, Nat.zero_add]

theorem Chain.walkAt (hc : h.Chain env frames) (hl : frames.length ≤ fuel)
    (shared : Option Value) (name : String) :
    Shared.walkAt h shared name fuel env = .ok (Shared.walked h shared name frames) := by
  induction hc generalizing fuel with
  | root => cases fuel <;> rfl
  | @frame f parent map entries frames hf _ ih =>
    obtain ⟨fuel, rfl⟩ := Nat.exists_eq_succ_of_ne_zero (Nat.ne_zero_of_lt hl)
    obtain ⟨a, rfl, -⟩ := exists_ref_of_obj? hf.frame
    have hlookup := BindingMap.lookup_table name hf.table
    rw [← hf.bound?] at hlookup
    simp only [Shared.walkAt, Shared.walked, hf.bindings, hlookup, hf.outer, bind, Except.bind]
    split
    · rfl
    · cases Frame.bound? h (.ref a) name with
      | some value => rfl
      | none => exact ih (Nat.le_of_succ_le_succ hl)

theorem Chain.walk (hc : h.Chain env frames) (hl : frames.length ≤ h.size)
    (shared : Option Value) (name : String) :
    Shared.walk h shared env name = .ok (Shared.walked h shared name frames) :=
  hc.walkAt hl shared name

theorem Chain.mem_isFrame (hc : h.Chain env frames) (hm : f ∈ frames) :
    ∃ parent map entries, h.IsFrame f parent map entries := by
  induction hc with
  | root => simp at hm
  | frame hf _ ih =>
    rcases List.mem_cons.mp hm with rfl | hm
    · exact ⟨_, _, _, hf⟩
    · exact ih hm

-- ---------------------------------------------------------------------------
-- Lookup
-- ---------------------------------------------------------------------------

theorem resolve?_cons (hf : h.IsFrame f parent map entries) :
    Frame.resolve? h name (f :: frames) =
      (h.find? entries (.sym name)).or (Frame.resolve? h name frames) := by
  simp only [Frame.resolve?, List.findSome?_cons, hf.bound?]
  cases h.find? entries (.sym name) <;> rfl

theorem Chain.resolve?_kept (hc : h.Chain env frames) (hk : h.Kept h') :
    Frame.resolve? h' name frames = Frame.resolve? h name frames := by
  induction hc with
  | root => rfl
  | frame hf _ ih =>
    rw [resolve?_cons hf, resolve?_cons (hf.kept hk), ih, Value.sym, h'.find?_symbol h]

theorem find?_bind_bound? (h : Heap) (name : String) (frames : List Value) :
    (frames.find? fun f => (Frame.bound? h f name).isSome).bind (Frame.bound? h · name) =
      Frame.resolve? h name frames := by
  induction frames with
  | nil => rfl
  | cons f frames ih =>
    simp only [Frame.resolve?, List.find?_cons, List.findSome?_cons] at ih ⊢
    cases hb : Frame.bound? h f name with
    | none => simpa [hb] using ih
    | some v => simp [hb]

end Heap

def Fault.unboundName (name : String) : Fault :=
  .unbound (.str name) .nil ("'" ++ name ++ "' not found")

def World.traced (w : World) (debug : Bool) (s : Frame.Search) (name : String) : World :=
  { w with printed := w.printed ++ if debug then s.report name ++ "\n" else "" }

@[simp] theorem World.traced_false (w : World) (s : Frame.Search) (name : String) :
    w.traced false s name = w := by
  simp [traced]

section
variable {w : World} {env key : Value} {frames : List Value} {name : String}

theorem Heap.Chain.searchTraced_run (hc : w.heap.Chain env frames)
    (hl : frames.length ≤ w.heap.size) (name : String) (debug : Bool) :
    ∃ visited, Frame.search w.heap env name = .ok visited ∧
      visited.found = (frames.find? fun f => (Frame.bound? w.heap f name).isSome) ∧
      Frame.searchTraced env name debug w = .ok visited (w.traced debug visited name) := by
  have hsearch : Action.read (Frame.search · env name) w = .ok _ w := Action.run_read (hc.search hl)
  refine ⟨_, hc.search hl, rfl, ?_⟩
  simp only [Frame.searchTraced, Action.run_bind, hsearch]
  cases debug
  · simp
  · simp [Action.run_bind, Action.say, World.traced, String.append_assoc]

/-- A lookup answers what the nearest frame binds the name to, whatever that is. If no frame does,
it fails, with a snapshot in its fault if it is traced. -/
theorem Heap.Chain.get_eq (hc : w.heap.Chain env frames) (hl : frames.length ≤ w.heap.size)
    (hk : w.heap.nameOf key = .ok name) (debug : Bool) :
    ∃ s, Frame.get env key debug w =
      match Frame.resolve? w.heap name frames with
      | some value => .ok value (w.traced debug s name)
      | none => (do
          let visible ← if debug then Frame.snapshot env else pure .nil
          throw (← Action.view (·.unboundFault (.str name) visible)) : Action Value)
            (w.traced debug s name) := by
  have hname : Action.read (·.nameOf key) w = .ok name w := Action.run_read hk
  obtain ⟨s, -, hfound, hrun⟩ := hc.searchTraced_run hl name debug
  refine ⟨s, ?_⟩
  rw [← find?_bind_bound?, ← hfound]
  simp only [Frame.get, Frame.getNamed, Action.run_bind, hname, hrun]
  cases hg : s.found with
  | none => rfl
  | some g =>
    rw [hfound] at hg
    obtain ⟨parent, map, entries, hi⟩ := hc.mem_isFrame (List.mem_of_find?_eq_some hg)
    have hsome : (Frame.bound? w.heap g name).isSome := by simpa using List.find?_some hg
    obtain ⟨value, hvalue⟩ := Option.isSome_iff_exists.mp hsome
    have hread : Frame.valueIn w.heap g name = .ok value := by
      simp only [Frame.valueIn, hi.bindings, BindingMap.lookup_table name hi.table, ← hi.bound?,
        hvalue, bind, Except.bind, pure, Except.pure, Option.getD_some]
    have hvalueIn : Action.read (Frame.valueIn · g name) (w.traced debug s name) = .ok value _ :=
      Action.run_read hread
    simp [hvalue, hvalueIn]

theorem Heap.Chain.get_run (hc : w.heap.Chain env frames) (hl : frames.length ≤ w.heap.size)
    (hk : w.heap.nameOf key = .ok name) :
    Frame.get env key false w =
      match Frame.resolve? w.heap name frames with
      | some value => .ok value w
      | none => .error (.unboundName name) w := by
  obtain ⟨s, hrun⟩ := hc.get_eq hl hk false
  rw [hrun, World.traced_false]
  cases Frame.resolve? w.heap name frames with
  | some value => rfl
  | none => simp [Action.run_bind, unboundFault, Fault.unboundName]

theorem Heap.Chain.get_answer (hc : w.heap.Chain env frames) (hl : frames.length ≤ w.heap.size)
    (hk : w.heap.nameOf key = .ok name) :
    (Frame.get env key false).answer w =
      match Frame.resolve? w.heap name frames with
      | some value => .ok value
      | none => .error (.unboundName name) := by
  rw [Action.answer, hc.get_run hl hk]
  cases Frame.resolve? w.heap name frames <;> rfl

end

end LexicalEnv
