import LexicalEnv.Proofs.History
import LexicalEnv.Proofs.Visible

/-!
# Reaching parameters

Records of parameters may carry any names, and a frame binds the names that they
carry. A lookup only asks for symbols, and a snapshot lists nothing else. So the
parameters of a frame can all be reached if symbols name all of them, and only
then (`Reachable.extend_reaches_iff`).
-/

namespace LexicalEnv

open LexicalEnv.Action (Ends)

-- ---------------------------------------------------------------------------
-- Parameters and arguments that fit
-- ---------------------------------------------------------------------------

namespace Param

structure IsLast (P : Param → Prop) (params : List Param) (i : Nat) (p : Param) : Prop where
  place : params[i]? = some p
  holds : P p
  last : ∀ j q, i < j → params[j]? = some q → ¬ P q

theorem exists_isLast {P : Param → Prop} {params : List Param} (he : ∃ p ∈ params, P p) :
    ∃ i p, IsLast P params i p := by
  induction params with
  | nil => simp at he
  | cons p params ih =>
    by_cases hr : ∃ q ∈ params, P q
    · obtain ⟨i, q, hplace, hholds, hlast⟩ := ih hr
      refine ⟨i + 1, q, hplace, hholds, fun j r hj hr => ?_⟩
      obtain ⟨j, rfl⟩ := Nat.exists_eq_add_one_of_ne_zero (Nat.ne_zero_of_lt hj)
      exact hlast j r (by omega) (by simpa using hr)
    · obtain ⟨q, hq, hP⟩ := he
      rcases List.mem_cons.mp hq with rfl | hq
      · refine ⟨0, q, rfl, hP, fun j r hj hr' hP' => hr ⟨r, ?_, hP'⟩⟩
        obtain ⟨j, rfl⟩ := Nat.exists_eq_add_one_of_ne_zero (Nat.ne_zero_of_lt hj)
        exact List.mem_of_getElem? hr'
      · exact absurd ⟨q, hq, hP⟩ hr

theorem IsLast.congr {P Q : Param → Prop} {params : List Param} {i : Nat} {p : Param}
    (hl : IsLast P params i p) (he : ∀ q ∈ params, P q ↔ Q q) : IsLast Q params i p := by
  refine ⟨hl.place, (he p (List.mem_of_getElem? hl.place)).mp hl.holds, fun j q hj hq hQ => ?_⟩
  exact hl.last j q hj hq ((he q (List.mem_of_getElem? hq)).mpr hQ)

theorem IsSymbol.nameOf_iff {p : Param} {name : String} (hs : p.IsSymbol) (h : Heap) :
    h.nameOf p.name = .ok name ↔ p.name.symbol? = some name := by
  obtain ⟨other, hother⟩ := Option.isSome_iff_exists.mp hs
  obtain ⟨birth, hname⟩ := Value.symbol?_eq_some.mp hother
  simp [hname]

end Param

-- ---------------------------------------------------------------------------
-- Tables with any keys
-- ---------------------------------------------------------------------------

namespace Heap

variable {h h' : Heap} {entries entries' bindings : Entries} {key value : Value} {name : String}

theorem symbol?_of_sameKey {a b : Value} (hs : h.sameKey a b = true) : a.symbol? = b.symbol? := by
  cases b with
  | symbol name birth => simpa using hs
  | ref place =>
    cases a with
    | symbol name birth => cases ho : h.obj? (.ref place) <;> simp_all [sameKey, sameKeyAt, obj?,
        Value.sameScalar, Value.number?]
    | _ => rfl
  | _ =>
    cases a with
    | symbol name birth => simp [sameKey, sameKeyAt, obj?, Value.sameScalar, Value.number?] at hs
    | _ => rfl

theorem find?_insert (h h' : Heap) (entries : Entries) (key value : Value) (name : String) :
    h'.find? (h.insert entries key value) (.sym name) =
      if key.symbol? = some name then some value else h'.find? entries (.sym name) := by
  induction entries with
  | nil => simp [insert, find?]
  | cons e rest ih =>
    obtain ⟨k, v⟩ := e
    cases hs : h.sameKey k key with
    | true =>
      have hk := symbol?_of_sameKey hs
      by_cases hn : key.symbol? = some name <;> simp [insert, hs, find?, hk, hn]
    | false =>
      by_cases hk : k.symbol? = some name
      · have hn : key.symbol? ≠ some name := by
          intro hn
          obtain ⟨birth, rfl⟩ := Value.symbol?_eq_some.mp hn
          simp [hk] at hs
        simp [insert, hs, find?, hk, hn]
      · simpa [insert, hs, find?, hk] using ih

theorem mem_symbols_insert (o : Option String) :
    o ∈ (h.insert entries key value).map (·.1.symbol?) ↔
      o = key.symbol? ∨ o ∈ entries.map (·.1.symbol?) := by
  induction entries with
  | nil => simp [insert]
  | cons e rest ih =>
    obtain ⟨k, v⟩ := e
    cases hs : h.sameKey k key with
    | true => simp [insert, hs, symbol?_of_sameKey hs]
    | false =>
      simp only [insert, hs, Bool.false_eq_true, if_false, List.map_cons, List.mem_cons, ih]
      exact or_left_comm

theorem mem_keys_insert {k : Value} (hk : k ∈ (h.insert entries key value).map Prod.fst) :
    k = key ∨ k ∈ entries.map Prod.fst := by
  induction entries with
  | nil => simpa [insert] using hk
  | cons e rest ih =>
    obtain ⟨k', v⟩ := e
    cases hs : h.sameKey k' key with
    | true => exact .inr (by simpa [insert, hs] using hk)
    | false =>
      simp only [insert, hs, Bool.false_eq_true, if_false, List.map_cons, List.mem_cons] at hk ⊢
      rcases hk with hk | hk
      · exact .inr (.inl hk)
      · exact (ih hk).imp id .inr

theorem insertAll_eq (hb : h.insertAll entries bindings = .ok entries') :
    entries' = h.bindAll entries bindings := by
  induction bindings generalizing entries with
  | nil => exact (Except.ok.inj hb).symm
  | cons e rest ih =>
    simp only [insertAll, List.foldlM_cons] at hb
    obtain ⟨entries₁, hi, hrest⟩ := bind_ok.mp hb
    have hkey : entries₁ = h.insert entries e.1 e.2 := by
      unfold inserted at hi
      split at hi
      · exact (Except.ok.inj hi).symm
      · cases hi
    rw [ih hrest, hkey]
    rfl

theorem bindAll_cons (h : Heap) (entries : Entries) (e : Value × Value) (bindings : Entries) :
    h.bindAll entries (e :: bindings) = h.bindAll (h.insert entries e.1 e.2) bindings := rfl

theorem find?_bindAll_of_forall (hn : ∀ e ∈ bindings, e.1.symbol? ≠ some name) :
    h'.find? (h.bindAll entries bindings) (.sym name) = h'.find? entries (.sym name) := by
  induction bindings generalizing entries with
  | nil => rfl
  | cons e rest ih =>
    rw [List.forall_mem_cons] at hn
    rw [bindAll_cons, ih hn.2, find?_insert, if_neg hn.1]

theorem find?_bindAll_last {i : Nat} (hi : bindings[i]? = some (key, value))
    (hk : key.symbol? = some name)
    (hlast : ∀ j e, i < j → bindings[j]? = some e → e.1.symbol? ≠ some name) :
    h'.find? (h.bindAll entries bindings) (.sym name) = some value := by
  induction bindings generalizing entries i with
  | nil => simp at hi
  | cons e rest ih =>
    rw [bindAll_cons]
    cases i with
    | zero =>
      obtain rfl : e = (key, value) := by simpa using hi
      have hrest : ∀ e ∈ rest, e.1.symbol? ≠ some name := by
        intro e he
        obtain ⟨j, hj⟩ := List.mem_iff_getElem?.mp he
        exact hlast (j + 1) e (Nat.succ_pos j) hj
      rw [find?_bindAll_of_forall hrest, find?_insert, if_pos hk]
    | succ i => exact ih hi fun j e hj => hlast (j + 1) e (Nat.succ_lt_succ hj)

theorem mem_symbols_bindAll (o : Option String) :
    o ∈ (h.bindAll entries bindings).map (·.1.symbol?) ↔
      o ∈ entries.map (·.1.symbol?) ∨ o ∈ bindings.map (·.1.symbol?) := by
  induction bindings generalizing entries with
  | nil => simp [bindAll]
  | cons e rest ih =>
    rw [bindAll_cons, ih, mem_symbols_insert, List.map_cons, List.mem_cons, or_assoc, or_left_comm]

theorem mem_keys_bindAll {k : Value} (hk : k ∈ (h.bindAll entries bindings).map Prod.fst) :
    k ∈ entries.map Prod.fst ∨ k ∈ bindings.map Prod.fst := by
  induction bindings generalizing entries with
  | nil => exact .inl hk
  | cons e rest ih =>
    rw [List.map_cons, List.mem_cons]
    rcases ih (bindAll_cons h entries e rest ▸ hk) with hk | hk
    · exact (mem_keys_insert hk).elim (fun he => .inr (.inl he)) .inl
    · exact .inr (.inr hk)

end Heap

-- ---------------------------------------------------------------------------
-- A frame with any keys
-- ---------------------------------------------------------------------------

/-- A frame with any table for its map, in a chain of frames whose maps bind symbols. -/
structure Heap.Innermost (h : Heap) (f outer : Value) (entries : Entries) (frames : List Value) :
    Prop where
  frame : ∃ map, h.obj? f = some (.frame outer map) ∧ h.obj? map = some (.table entries)
  chain : h.Chain outer frames
  room : frames.length < h.size

theorem Frame.get_answer_of_search {w : World} {env key : Value} {name : String} {s : Search}
    (hk : w.heap.nameOf key = .ok name) (hs : search w.heap env name = .ok s) :
    (get env key false).answer w =
      match s.found with
      | some g => valueIn w.heap g name
      | none => .error (.unboundName name) := by
  have hname : Action.read (·.nameOf key) w = .ok name w := Action.run_read hk
  have hsearch : Action.read (search · env name) w = .ok s w := Action.run_read hs
  simp only [Action.answer, get, getNamed, searchTraced, Action.run_bind, hname, hsearch,
    Bool.false_eq_true, if_false, Action.run_pure]
  cases hf : s.found with
  | some g => cases hv : valueIn w.heap g name <;> simp [Action.read, hv]
  | none => simp [Action.run_bind, Heap.unboundFault, Fault.unboundName]

theorem Heap.nameCarried_of_nameOf {h : Heap} {v : Value} {name : String}
    (hn : h.nameOf v = .ok name) (hs : v.symbol? = none) :
    h.nameCarried v = .error .missingAttribute := by
  cases v with
  | symbol other birth => cases hs
  | ref a =>
    -- A fault carries a name too, but it is no key that means one.
    have hplain (fault : Fault) : h.obj? (.ref a) ≠ some (.failure fault) := by
      intro ho
      simp [nameOf, unwrap, ho, tagged?, entries?, Obj.entries?, bind, Except.bind, pure,
        Except.pure] at hn
    unfold nameCarried
    split
    · contradiction
    · split
      · exact absurd ‹_› (hplain _)
      · rfl
  | _ => rfl

namespace Heap.Innermost

variable {w : World} {h : Heap} {f outer key : Value} {entries : Entries} {frames : List Value}
  {name : String}

theorem search (hi : h.Innermost f outer entries frames) (name : String) :
    ∃ s s', Frame.search h f name = .ok s ∧ Frame.search h outer name = .ok s' ∧
      s.found = if (h.find? entries (.sym name)).isSome then some f else s'.found := by
  obtain ⟨map, hf, hm⟩ := hi.frame
  obtain ⟨a, rfl, -⟩ := exists_ref_of_obj? hf
  obtain ⟨fuel, hfuel⟩ := Nat.exists_eq_add_one_of_ne_zero (Nat.ne_zero_of_lt hi.room)
  have hroom : frames.length ≤ fuel := by
    have := hi.room
    omega
  have hstep : Frame.search h (.ref a) name =
      if (h.find? entries (.sym name)).isSome then .ok ⟨some (.ref a), 1⟩
      else Frame.searchAt h name fuel 1 outer := by
    rw [Frame.search, hfuel]
    simp only [Frame.searchAt, Frame.bindings, field_bindings hf,
      BindingMap.contains_table name hm, Frame.outer, field_parent hf, bind, Except.bind]
    rfl
  have houter : Frame.search h outer name = .ok _ := hi.chain.search (Nat.le_of_lt hi.room)
  rw [hi.chain.searchAt hroom] at hstep
  split at hstep
  · exact ⟨_, _, hstep, houter, (if_pos ‹_›).symm⟩
  · exact ⟨_, _, hstep, houter, (if_neg ‹_›).symm⟩

theorem get_answer (hi : w.heap.Innermost f outer entries frames)
    (hk : w.heap.nameOf key = .ok name) :
    (Frame.get f key false).answer w =
      match w.heap.find? entries (.sym name) with
      | some value => .ok value
      | none => (Frame.get outer key false).answer w := by
  obtain ⟨s, s', hs, hs', hfound⟩ := hi.search name
  obtain ⟨map, hf, hm⟩ := hi.frame
  rw [Frame.get_answer_of_search hk hs, Frame.get_answer_of_search hk hs', hfound]
  cases hb : w.heap.find? entries (.sym name) with
  | none => rfl
  | some value =>
    simp only [Option.isSome_some, if_true, Frame.valueIn, Frame.bindings, field_bindings hf,
      BindingMap.lookup_table name hm, hb, bind, Except.bind, pure, Except.pure, Option.getD_some]

theorem addVisible_fails {visible : Entries}
    (hr : ∀ e ∈ entries, ∃ name, h.nameOf e.1 = .ok name)
    (hu : none ∈ entries.map (·.1.symbol?)) :
    entries.foldlM (Frame.addVisible h) visible = .error .missingAttribute := by
  induction entries generalizing visible with
  | nil => simp at hu
  | cons e rest ih =>
    rw [List.forall_mem_cons] at hr
    obtain ⟨⟨name, hname⟩, hrest⟩ := hr
    rw [List.foldlM_cons]
    cases hs : e.1.symbol? with
    | none => simp [Frame.addVisible, nameCarried_of_nameOf hname hs, bind, Except.bind]
    | some other =>
      have hrest' : none ∈ rest.map (·.1.symbol?) := by simpa [hs] using hu
      obtain ⟨birth, he⟩ := Value.symbol?_eq_some.mp hs
      have hadd : Frame.addVisible h visible e = .ok (h.insert visible (.str other) e.2) := by
        simp [Frame.addVisible, nameCarried, he, inserted, bind, Except.bind, pure, Except.pure]
      simpa only [hadd, bind, Except.bind] using ih hrest hrest'

theorem visible_fails (hi : h.Innermost f outer entries frames)
    (hr : ∀ e ∈ entries, ∃ name, h.nameOf e.1 = .ok name)
    (hu : none ∈ entries.map (·.1.symbol?)) :
    Frame.visible h f = .error .missingAttribute := by
  obtain ⟨map, hf, hm⟩ := hi.frame
  obtain ⟨a, rfl, -⟩ := exists_ref_of_obj? hf
  obtain ⟨fuel, hfuel⟩ := Nat.exists_eq_add_one_of_ne_zero (Nat.ne_zero_of_lt hi.room)
  have hroom : frames.length ≤ fuel := by
    have := hi.room
    omega
  have hchain : Frame.chain h (.ref a) = .ok (frames.reverse ++ [.ref a]) := by
    rw [Frame.chain, hfuel]
    simp only [Frame.chainAt, Frame.outer, field_parent hf, bind, Except.bind]
    exact hi.chain.chainAt hroom _
  have hitems : BindingMap.items h map = .ok entries := by
    simp [BindingMap.items, entries?, hm, Obj.entries?, pure, Except.pure]
  simp only [Frame.visible, hchain, bind, Except.bind, List.foldlM_append,
    hi.chain.foldlM_addFrame, List.foldlM_cons, Frame.addFrame, Frame.bindings, field_bindings hf,
    hitems, addVisible_fails hr hu]

end Heap.Innermost

-- ---------------------------------------------------------------------------
-- The frame of a call
-- ---------------------------------------------------------------------------

structure World.Entered (w w' : World) (new outer : Value) (bindings : Entries) : Prop where
  kept : w.heap.Kept w'.heap
  fresh : w.heap.obj? new = none
  frame : ∃ map h, w'.heap.obj? new = some (.frame outer map) ∧
    w'.heap.obj? map = some (.table (Heap.bindAll h [] bindings))

namespace Frame

variable {w w' : World} {outer binds exprs callee new : Value} {params : List Param}
  {args : List Value} {debug : Bool} {list : ParamList}

theorem fill_entered (w : World) (outer : Value) (hf : Param.Fits params args.length)
    (debug : Bool) : Ends (fill outer params args debug) w
      (fun new w' => ∃ bindings, w.Entered w' new outer bindings ∧
        Param.Pairs w'.heap args 0 params bindings) (fun _ _ => True) := by
  refine Ends.bind ((pairUp_ends w hf).mono (fun _ _ h => h) fun _ _ _ => trivial) ?_
  rintro bindings w₁ ⟨⟨hkept, -, -⟩, hpairs⟩
  refine Ends.read (fun entries he => ?_) fun _ _ => trivial
  obtain rfl := Heap.insertAll_eq he
  refine Ends.bind ((create_stored w₁ outer _).mono (fun _ _ h => h) fun _ _ h => h.elim) ?_
  rintro new w₂ ⟨⟨hkept', -, -⟩, hfresh, map, -, hframe, hmap⟩
  have hentered : w.Entered w₂ new outer bindings :=
    ⟨hkept.trans hkept', hkept.obj?_eq_none hfresh, map, w₁.heap, hframe, hmap⟩
  have hdone (w₃ : World) (hw : w₃.heap = w₂.heap) : Ends (enrolled new) w₃
      (fun new w' => ∃ bindings, w.Entered w' new outer bindings ∧
        Param.Pairs w'.heap args 0 params bindings) (fun _ _ => True) := by
    refine Ends.of_ok rfl ⟨bindings, ⟨?_, hentered.fresh, ?_⟩, ?_⟩
    · exact hw ▸ hentered.kept
    · exact hw ▸ hentered.frame
    · exact hw ▸ hpairs.kept hkept'
  cases debug with
  | false => exact hdone w₂ rfl
  | true => exact Ends.read (fun line _ => Ends.say (hdone _ rfl)) fun _ _ => trivial

theorem extend_entered (hl : w.heap.paramList binds = .ok list)
    (hc : Param.checkRests (list.params.map (·.kind == .rest)) = .ok ())
    (he : w.heap.sequenceOf exprs = .ok args)
    (hrun : extend outer binds exprs debug callee w = .ok new w') :
    ∃ bindings, w.Entered w' new outer bindings ∧
      Param.Pairs w'.heap args 0 list.params bindings := by
  have hlist : Action.read (·.paramList binds) w = .ok list w := Action.run_read hl
  have hargs : Action.read (·.sequenceOf exprs) w = .ok args w := Action.run_read he
  simp only [extend_eq, Action.run_bind, hlist, hargs] at hrun
  cases ha : (Arity.ofParams list.params).accepts args.length with
  | false => simp [Action.read, Arity.check, ha, throw, throwThe, MonadExceptOf.throw] at hrun
  | true =>
    simp only [Action.read, Arity.check, ha, if_true] at hrun
    exact (fill_entered w outer (Param.fits_of_check hc ha) debug).ok hrun

theorem extend_records {members : List Value} (hm : w.heap.sequenceOf binds = .ok members)
    (hp : members.mapM w.heap.param? = some params)
    (hrun : extend outer binds exprs debug callee w = .ok new w') :
    Param.checkRests (params.map (·.kind == .rest)) = .ok () ∧
      w.heap.paramList binds = .ok (.recorded members params) := by
  cases hc : Param.checkRests (params.map (·.kind == .rest)) with
  | ok =>
    refine ⟨rfl, ?_⟩
    simp [Heap.paramList, hm, hp, hc, Heap.checked, bind, Except.bind, pure, Except.pure]
  | error cause =>
    have hl : w.heap.paramList binds = .error (.ofParameters cause) := by
      simp [Heap.paramList, hm, hp, hc, Heap.checked, bind, Except.bind]
    rw [extend_of_binds outer exprs callee debug hl] at hrun
    cases hrun

-- ---------------------------------------------------------------------------
-- Which parameters can be reached
-- ---------------------------------------------------------------------------

/-- What is seen of the parameters from the frame that binds them. A name finds what the last
parameter takes whose name is its symbol. If there is none, it means what it means around the frame.
No snapshot can be taken if the name of some parameter is no symbol. -/
structure Shows (w : World) (new outer : Value) (params : List Param) (args : List Value) :
    Prop where
  found : ∀ key name i p, w.heap.nameOf key = .ok name →
    Param.IsLast (·.name.symbol? = some name) params i p →
    ∃ v, p.Takes w.heap args i v ∧ (get new key false).answer w = .ok v
  passed : ∀ key name, w.heap.nameOf key = .ok name →
    (∀ p ∈ params, p.name.symbol? ≠ some name) →
    (get new key false).answer w = (get outer key false).answer w
  unlisted : (∃ p ∈ params, ¬ p.IsSymbol) →
    (snapshot new).answer w = .error .missingAttribute

/-- The name of each parameter finds what the last parameter of that name takes, and a snapshot
lists it. -/
def Reaches (w : World) (new : Value) (params : List Param) (args : List Value) : Prop :=
  ∀ p ∈ params, ∀ name, w.heap.nameOf p.name = .ok name →
    (∃ i q v, Param.IsLast (fun q => w.heap.nameOf q.name = .ok name) params i q ∧
      q.Takes w.heap args i v ∧ (get new p.name false).answer w = .ok v) ∧
    ∃ table w' entries, snapshot new w = .ok table w' ∧
      w'.heap.obj? table = some (.table entries) ∧ Value.str name ∈ entries.map Prod.fst

end Frame

theorem Heap.Kept.nameOf {h h' : Heap} {v : Value} {name : String} (hk : h.Kept h')
    (hn : h.nameOf v = .ok name) : h'.nameOf v = .ok name := by
  cases v with
  | ref a =>
    cases ho : h.obj? (.ref a) with
    | some o => exact nameOf_congr ((hk _ _ ho).trans ho.symm) hn
    | none =>
      simp [Heap.nameOf, unwrap, ho, tagged?, entries?, bind, Except.bind, pure, Except.pure] at hn
  | _ => exact nameOf_congr rfl hn

namespace World

variable {w w' : World} {outer new : Value} {params : List Param} {args : List Value}
  {bindings : Entries}

theorem Entered.innermost (hw : w.Sound) (ho : w.IsScope outer)
    (h : w.Entered w' new outer bindings) :
    ∃ h₀ frames, w'.heap.Innermost new outer (Heap.bindAll h₀ [] bindings) frames := by
  obtain ⟨frames, hc, hl, -⟩ := hw.chain ho
  obtain ⟨map, h₀, hframe, hmap⟩ := h.frame
  have hlt := Heap.size_lt_of_fresh h.fresh hframe
  exact ⟨h₀, frames, ⟨map, hframe, hmap⟩, hc.kept h.kept,
    Nat.lt_of_le_of_lt (Nat.le_trans hl hw.frames_le) hlt⟩

theorem Entered.found {key : Value} {name : String} {i : Nat} {p : Param} (hw : w.Sound)
    (ho : w.IsScope outer) (h : w.Entered w' new outer bindings)
    (hp : Param.Pairs w'.heap args 0 params bindings) (hk : w'.heap.nameOf key = .ok name)
    (hlast : Param.IsLast (·.name.symbol? = some name) params i p) :
    ∃ v, p.Takes w'.heap args i v ∧ (Frame.get new key false).answer w' = .ok v := by
  obtain ⟨h₀, frames, hi⟩ := h.innermost hw ho
  obtain ⟨v, hpair, htakes⟩ := hp.takes hlast.place
  rw [Nat.zero_add] at htakes
  refine ⟨v, htakes, ?_⟩
  rw [hi.get_answer hk, Heap.find?_bindAll_last hpair hlast.holds]
  intro j e hj he
  obtain ⟨q, hq, hqe⟩ := hp.exists_param he
  exact hqe ▸ hlast.last j q hj hq

theorem Entered.passed {key : Value} {name : String} (hw : w.Sound) (ho : w.IsScope outer)
    (h : w.Entered w' new outer bindings) (hp : Param.Pairs w'.heap args 0 params bindings)
    (hk : w'.heap.nameOf key = .ok name) (hnot : ∀ p ∈ params, p.name.symbol? ≠ some name) :
    (Frame.get new key false).answer w' = (Frame.get outer key false).answer w' := by
  obtain ⟨h₀, frames, hi⟩ := h.innermost hw ho
  have hunbound : ∀ e ∈ bindings, e.1.symbol? ≠ some name := by
    intro e he
    obtain ⟨p, hm, hpe⟩ := hp.exists_param_of_mem he
    exact hpe ▸ hnot p hm
  rw [hi.get_answer hk, Heap.find?_bindAll_of_forall hunbound]
  rfl

theorem Entered.unlisted (hw : w.Sound) (ho : w.IsScope outer)
    (h : w.Entered w' new outer bindings) (hp : Param.Pairs w'.heap args 0 params bindings)
    (hn : ∀ p ∈ params, ∃ name, w.heap.nameOf p.name = .ok name)
    (hu : ∃ p ∈ params, ¬ p.IsSymbol) :
    (Frame.snapshot new).answer w' = .error .missingAttribute := by
  obtain ⟨h₀, frames, hi⟩ := h.innermost hw ho
  have hunnamed : none ∈ bindings.map (·.1.symbol?) := by
    obtain ⟨p, hm, hp'⟩ := hu
    have hname : p.name ∈ bindings.map Prod.fst := hp.names ▸ List.mem_map_of_mem hm
    obtain ⟨e, he, hep⟩ := List.mem_map.mp hname
    refine List.mem_map.mpr ⟨e, he, ?_⟩
    simpa [hep, Param.IsSymbol] using hp'
  have hreads : ∀ e ∈ Heap.bindAll h₀ [] bindings, ∃ name, w'.heap.nameOf e.1 = .ok name := by
    intro e he
    have hm : e.1 ∈ bindings.map Prod.fst :=
      (Heap.mem_keys_bindAll (List.mem_map_of_mem he)).resolve_left List.not_mem_nil
    obtain ⟨p, hp, hpe⟩ := List.mem_map.mp (hp.names ▸ hm)
    obtain ⟨name, hname⟩ := hn p hp
    exact ⟨name, hpe ▸ h.kept.nameOf hname⟩
  have hfails := hi.visible_fails hreads ((Heap.mem_symbols_bindAll none).mpr (.inr hunnamed))
  have hread : Action.read (Frame.visible · new) w' = .error .missingAttribute w' :=
    Action.run_read_error hfails
  simp only [Action.answer, Frame.snapshot, Action.run_bind, hread]

theorem Entered.lists (hw : w.Sound) (ho : w.IsScope outer)
    (h : w.Entered w' new outer bindings)
    (hs : ∀ e ∈ bindings, ∃ name birth, e.1 = .symbol name birth) :
    ∃ table w'' entries, Frame.snapshot new w' = .ok table w'' ∧
      w''.heap.obj? table = some (.table entries) ∧ Frame.Lists w' new entries := by
  obtain ⟨h₀, frames, hi⟩ := h.innermost hw ho
  obtain ⟨map, hframe, hmap⟩ := hi.frame
  have hnamed := Heap.bindAll_named (h := h₀) Entries.named_nil hs
  have hc : w'.heap.Chain new (new :: frames) := .frame ⟨hframe, hmap, hnamed⟩ hi.chain
  exact ⟨_, _, _, hc.snapshot_run hi.room, Heap.obj?_add_self _ _, hc.lists hi.room⟩

theorem Entered.isSymbol_of_reaches (h : w.Entered w' new outer bindings)
    (hn : ∀ p ∈ params, ∃ name, w.heap.nameOf p.name = .ok name)
    (hshows : Frame.Shows w' new outer params args) (hreaches : Frame.Reaches w' new params args) :
    ∀ p ∈ params, p.IsSymbol := by
  intro p hp
  by_contra hu
  obtain ⟨name, hname⟩ := hn p hp
  obtain ⟨-, table, w'', entries, hsnapshot, -⟩ := hreaches p hp name (h.kept.nameOf hname)
  have hfails := hshows.unlisted ⟨p, hp, hu⟩
  simp [Action.answer, hsnapshot] at hfails

theorem Entered.reaches (hw : w.Sound) (ho : w.IsScope outer)
    (h : w.Entered w' new outer bindings) (hp : Param.Pairs w'.heap args 0 params bindings)
    (hshows : Frame.Shows w' new outer params args) (hs : ∀ p ∈ params, p.IsSymbol) :
    Frame.Reaches w' new params args := by
  have hsymbols : ∀ e ∈ bindings, ∃ name birth, e.1 = .symbol name birth := by
    intro e he
    obtain ⟨p, hp, hpe⟩ := hp.exists_param_of_mem he
    obtain ⟨name, hname⟩ := Option.isSome_iff_exists.mp (hs p hp)
    exact ⟨name, hpe ▸ Value.symbol?_eq_some.mp hname⟩
  obtain ⟨table, w'', entries, hsnapshot, htable, hlists⟩ := h.lists hw ho hsymbols
  intro p hp name hname
  have hnamed : ∃ q ∈ params, q.name.symbol? = some name :=
    ⟨p, hp, ((hs p hp).nameOf_iff _).mp hname⟩
  obtain ⟨i, q, hlast⟩ := Param.exists_isLast hnamed
  obtain ⟨v, htakes, hget⟩ := hshows.found p.name name i q hname hlast
  obtain ⟨v', -, hget'⟩ := hshows.found (.str name) name i q (Heap.nameOf_text _ _ _) hlast
  refine ⟨⟨i, q, v, ?_, htakes, hget⟩, table, w'', entries, hsnapshot, htable, ?_⟩
  · exact hlast.congr fun r hr => ((hs r hr).nameOf_iff _).symm
  · exact (hlists.key name none).mpr ⟨v', hget'⟩

/-- A call with records of parameters whose names all mean names makes a frame that binds the names
as they are carried. What is seen of them from there is what their symbols are bound to. So all of
them can be reached if symbols name all of them, and else not. -/
theorem Reachable.extend_reaches_iff {binds exprs callee : Value} {members : List Value}
    {debug : Bool} (hw : w.Reachable) (ho : w.IsScope outer)
    (hm : w.heap.sequenceOf binds = .ok members) (hp : members.mapM w.heap.param? = some params)
    (hn : ∀ p ∈ params, ∃ name, w.heap.nameOf p.name = .ok name)
    (he : w.heap.sequenceOf exprs = .ok args)
    (hrun : Frame.extend outer binds exprs debug callee w = .ok new w') :
    Frame.Shows w' new outer params args ∧
      (Frame.Reaches w' new params args ↔ ∀ p ∈ params, p.IsSymbol) := by
  obtain ⟨hrests, hlist⟩ := Frame.extend_records hm hp hrun
  obtain ⟨bindings, hentered, hpairs⟩ := Frame.extend_entered hlist hrests he hrun
  have hshows : Frame.Shows w' new outer params args :=
    ⟨fun key name i p hk hlast => hentered.found hw.sound ho hpairs hk hlast,
      fun key name hk hnot => hentered.passed hw.sound ho hpairs hk hnot,
      hentered.unlisted hw.sound ho hpairs hn⟩
  exact ⟨hshows, hentered.isSymbol_of_reaches hn hshows,
    hentered.reaches hw.sound ho hpairs hshows⟩

/-- The two frames, the records of a parameter that a text names and of one for the rest that a
symbol names, a list of the two, and a list of two arguments. -/
def textNamed : World :=
  let objects := [Param.record ⟨.positional, .str "x"⟩, Param.record (.rest "r"),
    .list [.ref 8, .ref 9], .list [.int 7, .int 8]]
  objects.foldl (fun w o => (Call.data o).run.after w) twoFrames

theorem textNamed_reachable : textNamed.Reachable :=
  (((twoFrames_reachable.call (.data (Param.record ⟨.positional, .str "x"⟩)) trivial).call
    (.data (Param.record (.rest "r"))) trivial).call (.data (.list [.ref 8, .ref 9])) trivial).call
      (.data (.list [.int 7, .int 8])) trivial

theorem textNamed_frames : textNamed.frames = #[.ref 5, .ref 7] := rfl

theorem textNamed_params : textNamed.heap.sequenceOf (.ref 10) = .ok [.ref 8, .ref 9] ∧
    [.ref 8, .ref 9].mapM textNamed.heap.param? =
      some [⟨.positional, .str "x"⟩, .rest "r"] := ⟨rfl, rfl⟩

theorem extend_reaches_textNamed : ∃ w',
    Frame.extend (.ref 7) (.ref 10) (.ref 11) false (.str "closure") textNamed =
        .ok (.ref 15) w' ∧
      (∃ v, w'.heap.IsList v [.int 8] ∧
        (Frame.get (.ref 15) (.sym "r") false).answer w' = .ok v) ∧
      (Frame.get (.ref 15) (.str "x") false).answer w' =
        (Frame.get (.ref 7) (.str "x") false).answer w' ∧
      ¬ Frame.Reaches w' (.ref 15) [⟨.positional, .str "x"⟩, .rest "r"] [.int 7, .int 8] := by
  have hscope : textNamed.IsScope (.ref 7) := .inr (by simp [textNamed_frames])
  have he : textNamed.heap.sequenceOf (.ref 11) = .ok [.int 7, .int 8] := rfl
  have hrun : Frame.extend (.ref 7) (.ref 10) (.ref 11) false (.str "closure") textNamed =
    .ok (.ref 15) _ := rfl
  obtain ⟨hshows, hiff⟩ := Reachable.extend_reaches_iff textNamed_reachable hscope
    textNamed_params.1 textNamed_params.2 (by simp [Param.rest]) he hrun
  refine ⟨_, hrun, ?_, ?_, fun hreaches => ?_⟩
  · refine hshows.found (.sym "r") "r" 1 (.rest "r") rfl ⟨rfl, rfl, fun j q hj hq => ?_⟩
    obtain ⟨hlt, -⟩ := List.getElem?_eq_some_iff.mp hq
    simp only [List.length_cons, List.length_nil] at hlt
    omega
  · exact hshows.passed (.str "x") "x" rfl (by simp [Param.rest, Value.symbol?])
  · exact absurd (hiff.mp hreaches _ List.mem_cons_self) (by decide)

/-- Accepted records, one of which carries a text: the frame is made, a lookup of the name answers
what is bound around the frame, and no snapshot can be taken. -/
theorem text_parameter_unreached : textNamed.Reachable ∧ textNamed.IsScope (.ref 7) ∧
    textNamed.heap.sequenceOf (.ref 10) = .ok [.ref 8, .ref 9] ∧
    [.ref 8, .ref 9].mapM textNamed.heap.param? = some [⟨.positional, .str "x"⟩, .rest "r"] ∧
    textNamed.heap.nameOf (.str "x") = .ok "x" ∧
    textNamed.heap.sequenceOf (.ref 11) = .ok [.int 7, .int 8] ∧
    ∃ w', Frame.extend (.ref 7) (.ref 10) (.ref 11) false (.str "closure") textNamed =
        .ok (.ref 15) w' ∧
      (Frame.get (.ref 15) (.str "x") false).answer w' = .ok (.int 1) ∧
      (Frame.snapshot (.ref 15)).answer w' = .error .missingAttribute ∧
      ¬ Frame.Reaches w' (.ref 15) [⟨.positional, .str "x"⟩, .rest "r"] [.int 7, .int 8] := by
  refine ⟨textNamed_reachable, .inr (by simp [textNamed_frames]), rfl, rfl, rfl, rfl, _, rfl, rfl,
    rfl, fun hreaches => ?_⟩
  obtain ⟨-, table, w'', entries, hsnapshot, -⟩ := hreaches _ List.mem_cons_self "x" rfl
  cases hsnapshot

end World

end LexicalEnv
