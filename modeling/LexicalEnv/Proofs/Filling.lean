import LexicalEnv.Proofs.History
import Mathlib.Data.List.Forall2

/-!
# Ways to fill a frame

A frame without a frame around it can be seeded from a mapping, be the root for it,
be the frame of a call with its keys for parameters and its values for arguments, or
be made empty and then be set item by item. All of these bind the same names in the
same order to the same values, and all but the last refuse the same key
(`fillings_agree`).
-/

namespace LexicalEnv

open LexicalEnv.Action (Ends)

structure Heap.Maps (h : Heap) (mapping : Value) (items : Entries) : Prop where
  entries : h.entries? mapping = some items
  keys : ∀ e ∈ items, h.isKey e.1 = true
  there : ∀ e ∈ items, ∀ a : Nat, e.1 = .ref a → a < h.size

def Heap.Means (h : Heap) : Entries → List (String × Value) → Prop :=
  List.Forall₂ fun e pair => h.nameOf e.1 = .ok pair.1 ∧ e.2 = pair.2

/-- Each name is bound once, in the order in which the names first occur, to its last value. -/
structure Entries.Sums (filled : Entries) (pairs : List (String × Value)) : Prop where
  names : filled.map (·.1.symbol?) = (pairs.map Prod.fst).eraseDups.map some
  values : ∀ before name value after, pairs = before ++ (name, value) :: after →
    name ∉ after.map Prod.fst → ∀ h : Heap, h.find? filled (.sym name) = some value

def Entries.ofPairs (pairs : List (String × Value)) : Entries := pairs.map fun e => (.sym e.1, e.2)

section
variable {h h' : Heap} {items : Entries} {pairs : List (String × Value)} {v : Value} {fault : Fault}

theorem Entries.spells_ofPairs (pairs : List (String × Value)) :
    Entries.Spells (ofPairs pairs) pairs := by
  simp [Entries.Spells, ofPairs, Function.comp_def, Value.symbol?]

theorem Entries.named_ofPairs (h : Heap) (pairs : List (String × Value)) :
    Entries.Named (h.bindAll [] (ofPairs pairs)) :=
  Heap.bindAll_named named_nil (spells_ofPairs pairs).symbols

namespace Heap

theorem exists_means (hn : ∀ e ∈ items, ∃ name, h.nameOf e.1 = .ok name) :
    ∃ pairs, h.Means items pairs := by
  induction items with
  | nil => exact ⟨[], .nil⟩
  | cons e items ih =>
    rw [List.forall_mem_cons] at hn
    obtain ⟨⟨name, hname⟩, hn⟩ := hn
    obtain ⟨pairs, hpairs⟩ := ih hn
    exact ⟨(name, e.2) :: pairs, .cons ⟨hname, rfl⟩ hpairs⟩

theorem Means.mapM_nameOf (hm : h.Means items pairs) :
    (items.map Prod.fst).mapM h.nameOf = .ok (pairs.map Prod.fst) := by
  rw [mapM_eq_ok_iff, List.map_map, List.map_map]
  induction hm with
  | nil => rfl
  | cons he _ ih => rw [List.map_cons, List.map_cons, ih, Function.comp_apply, he.1,
      Function.comp_apply]

theorem Means.values (hm : h.Means items pairs) :
    items.map Prod.snd = pairs.map Prod.snd := by
  induction hm with
  | nil => rfl
  | cons he _ ih => rw [List.map_cons, List.map_cons, ih, he.2]

theorem Kept.obj?_eq (hk : h.Kept h') (hv : ∀ a : Nat, v = .ref a → a < h.size) :
    h'.obj? v = h.obj? v := by
  cases v with
  | ref a =>
    have ho : h.obj? (.ref a) = some _ := Array.getElem?_eq_getElem (hv a rfl)
    rw [ho, hk _ _ ho]
  | _ => rfl

theorem Kept.nameOf_error (hk : h.Kept h') (hv : ∀ a : Nat, v = .ref a → a < h.size)
    (hn : h.nameOf v = .error fault) : ∃ fault', h'.nameOf v = .error fault' := by
  cases hn' : h'.nameOf v with
  | error fault' => exact ⟨fault', rfl⟩
  | ok name =>
    rw [nameOf_congr (hk.obj?_eq hv).symm hn'] at hn
    cases hn

theorem entries?_of_isKey (hk : h.isKey v = true) : h.entries? v = none := by
  unfold isKey isKeyAt at hk
  unfold entries?
  cases ho : h.obj? v with
  | none => rfl
  | some o => cases o <;> simp [ho, Obj.entries?] at hk ⊢

theorem param?_of_isKey (hk : h.isKey v = true) : h.param? v = none := by
  simp [param?, entries?_of_isKey hk]

theorem Kept.entries?_eq (hk : h.Kept h') (hentries : h.entries? v = some items) :
    h'.entries? v = some items := by
  obtain ⟨o, ho, hitems⟩ := Option.bind_eq_some_iff.mp hentries
  rw [entries?, hk v o ho, Option.bind_some, hitems]

theorem eq_nil_of_entries? (hentries : h.entries? v = some items) (hf : h.truthy v = false) :
    items = [] := by
  cases v with
  | ref a =>
    unfold truthy at hf
    unfold entries? at hentries
    cases ho : h.obj? (.ref a) with
    | none => simp [ho] at hf
    | some o =>
      cases o <;> simp [ho, Obj.entries?] at hf hentries
      split at hf <;> simp_all
  | _ => simp [entries?, obj?] at hentries

end Heap

-- ---------------------------------------------------------------------------
-- Seeding
-- ---------------------------------------------------------------------------

theorem BindingMap.seed_eq (hm : h.Maps v items) : seed h v = items.foldlM (addNamed h) [] := by
  unfold seed
  split
  · rw [hm.entries]
  · rename_i hf
    rw [Heap.eq_nil_of_entries? hm.entries (Bool.eq_false_iff.mpr hf)]
    rfl

theorem BindingMap.foldlM_addNamed (hm : h.Means items pairs) (entries : Entries) :
    items.foldlM (addNamed h) entries = .ok (h.bindAll entries (Entries.ofPairs pairs)) := by
  induction hm generalizing entries with
  | nil => rfl
  | @cons e pair items pairs he _ ih =>
    have hstep : addNamed h entries e = .ok (h.insert entries (.sym pair.1) pair.2) := by
      simp [addNamed, he.1, he.2, bind, Except.bind, pure, Except.pure]
    rw [List.foldlM_cons, hstep]
    exact ih _

theorem BindingMap.foldlM_addNamed_error {before after : Entries} {e : Value × Value}
    (hb : ∀ e ∈ before, ∃ name, h.nameOf e.1 = .ok name) (he : h.nameOf e.1 = .error fault)
    (entries : Entries) : (before ++ e :: after).foldlM (addNamed h) entries = .error fault := by
  obtain ⟨pairs, hm⟩ := Heap.exists_means hb
  rw [List.foldlM_append, foldlM_addNamed hm]
  simp [addNamed, he, bind, Except.bind]

end

section
variable {w w' w'' : World} {p binds exprs f parent map : Value} {items own filled : Entries}
  {pairs : List (String × Value)} {fault : Fault}

def World.Fills (w : World) (x : Action Value) (filled : Entries) : Prop :=
  ∃ f map w', x w = .ok f w' ∧ w.Made w' f .nil map filled

def World.RefusesKey (w : World) (key : Value) (x : Action Value) : Prop :=
  ∃ fault w', x w = .error fault w' ∧ fault.title = "TypeError" ∧
    fault = .keyRefused (w'.heap.quoted key) ∧ w.Grows w'

def Frame.holding (entries : Entries) : Action Value := do enrolled (← create .nil entries)

theorem World.fills_holding (w : World) (hn : Entries.Named filled) :
    w.Fills (Frame.holding filled) filled := by
  have hends : Ends (Frame.holding filled) w (fun f w' => ∃ map, w.Made w' f .nil map filled)
      (fun _ _ => False) := by
    refine Ends.bind (Frame.create_ends w .nil hn) ?_
    rintro f w' ⟨map, h⟩
    refine h.enrolled.mono ?_ fun _ _ hf => hf
    rintro _ w'' ⟨rfl, hm⟩
    exact ⟨map, hm⟩
  obtain ⟨f, w', hrun, map, hm⟩ := hends.exists_ok fun _ _ hf => hf
  exact ⟨f, map, w', hrun, hm⟩

theorem World.fills_of_run {x : Action Value} (hn : Entries.Named filled)
    (hx : x w = Frame.holding filled w) : w.Fills x filled := by
  obtain ⟨f, map, w', hrun, hm⟩ := w.fills_holding hn
  exact ⟨f, map, w', hx.trans hrun, hm⟩

namespace Frame

theorem make_run (hs : BindingMap.seed w.heap p = .ok filled) :
    make .nil p w = Frame.holding filled w := by
  have hread : Action.read (BindingMap.seed · p) w = .ok filled w := Action.run_read hs
  simp only [make, Frame.holding, Action.run_bind, hread]

theorem make_error (hs : BindingMap.seed w.heap p = .error fault) :
    make .nil p w = .error fault w := by
  have hread : Action.read (BindingMap.seed · p) w = .error fault w := Action.run_read_error hs
  simp only [make, Action.run_bind, hread]

-- ---------------------------------------------------------------------------
-- Keys for parameters
-- ---------------------------------------------------------------------------

theorem pairUp_positional (w : World) {args : List Value} {position : Nat}
    {pairs : List (String × Value)} (hd : args.drop position = pairs.map Prod.snd) :
    pairUp args position ((pairs.map Prod.fst).map Param.positional) w =
      .ok (Entries.ofPairs pairs) w := by
  induction pairs generalizing position with
  | nil => rfl
  | cons pair pairs ih =>
    have hplaced : args[position]? = some pair.2 := by rw [← List.head?_drop, hd]; rfl
    have hread : Action.read (fun _ => Sequence.member args (.int position)) w = .ok pair.2 w :=
      Action.run_read (Sequence.member_nat hplaced)
    have hrest : args.drop (position + 1) = pairs.map Prod.snd := by rw [← List.tail_drop, hd]; rfl
    rw [List.map_cons, List.map_cons, Param.positional, pairUp]
    simp only [Action.run_bind, hread, ih hrest]
    rfl

theorem fill_positional (w : World) (pairs : List (String × Value)) :
    fill .nil ((pairs.map Prod.fst).map Param.positional) (pairs.map Prod.snd) false w =
      Frame.holding (w.heap.bindAll [] (Entries.ofPairs pairs)) w := by
  have hpairs : pairUp (pairs.map Prod.snd) 0 ((pairs.map Prod.fst).map Param.positional) w = _ :=
    pairUp_positional w List.drop_zero
  have hinsert : Action.read (·.insertAll [] (Entries.ofPairs pairs)) w = .ok _ w :=
    Action.run_read (Heap.insertAll_symbols (Entries.spells_ofPairs pairs).symbols)
  simp only [fill, Action.run_bind, hpairs, hinsert, Frame.holding, Bool.false_eq_true, if_false]

theorem paramList_of_means (hm : w.heap.Maps p items) (hmeans : w.heap.Means items pairs)
    (hb : w.heap.sequenceOf binds = .ok (items.map Prod.fst))
    (hmark : Param.marker ∉ pairs.map Prod.fst) : ∃ list, w.heap.paramList binds = .ok list ∧
      list.params = (pairs.map Prod.fst).map Param.positional := by
  have hnames := hmeans.mapM_nameOf
  have hparse := Param.parse_of_no_marker hmark
  cases hmeans with
  | nil =>
    exact ⟨.recorded [] [], by simp [Heap.paramList, hb, Param.checkRests, Heap.checked, bind,
      Except.bind, pure, Except.pure], rfl⟩
  | @cons e pair items pairs he hrest =>
    have hnone : ((e :: items).map Prod.fst).mapM w.heap.param? = none :=
      mapM_none_iff.mpr ⟨e.1, List.mem_cons_self,
        Heap.param?_of_isKey (hm.keys e List.mem_cons_self)⟩
    refine ⟨.parsed _, ?_, rfl⟩
    simp only [Heap.paramList, hb, bind, Except.bind, hnone, Heap.parseParams, hnames, hparse,
      Heap.checked]
    rfl

theorem extend_run (hm : w.heap.Maps p items) (hmeans : w.heap.Means items pairs)
    (hb : w.heap.sequenceOf binds = .ok (items.map Prod.fst))
    (he : w.heap.sequenceOf exprs = .ok (items.map Prod.snd))
    (hmark : Param.marker ∉ pairs.map Prod.fst) (name : Value) :
    extend .nil binds exprs false name w =
      Frame.holding (w.heap.bindAll [] (Entries.ofPairs pairs)) w := by
  obtain ⟨list, hl, hparams⟩ := paramList_of_means hm hmeans hb hmark
  let s : Signature := ⟨pairs.map Prod.fst, none⟩
  have hd : s.Describes list.params := by
    have hd := s.describes_params
    rw [hparams]
    simpa [Signature.params, s] using hd
  have ha : s.Accepts (items.map Prod.snd).length := by
    simp [Signature.Accepts, s, hmeans.values]
  rw [extend_of_described .nil name false hl hd he, if_pos ha, hparams, hmeans.values,
    fill_positional]

end Frame

-- ---------------------------------------------------------------------------
-- Item by item
-- ---------------------------------------------------------------------------

theorem World.Made.refilled (h : w.Made w' f parent map own) (hr : w'.Refilled w'' map filled)
    (hn : Entries.Named filled) : w.Made w'' f parent map filled :=
  ⟨hr.kept_older h.kept h.freshMap, hr.frames.trans h.frames, hr.actors.trans h.actors,
    hr.isFrame h.isFrame hn, h.fresh, h.freshMap⟩

theorem Frame.setAll_run {h : Heap} (hi : w.heap.IsFrame f parent map own) (hk : h.Kept w.heap)
    (hfresh : h.obj? map = none) (hmeans : h.Means items pairs)
    (hthere : ∀ e ∈ items, ∀ a : Nat, e.1 = .ref a → a < h.size) :
    ∃ w', setAll f items w = .ok () w' ∧
      w.Refilled w' map (h.bindAll own (Entries.ofPairs pairs)) := by
  induction hmeans generalizing w own with
  | nil => exact ⟨w, rfl, fun _ _ _ ho => ho, hi.table, rfl, rfl⟩
  | @cons e pair items pairs he _ ih =>
    obtain ⟨key, value⟩ := e
    obtain ⟨name, _⟩ := pair
    obtain ⟨hkey, rfl⟩ := he
    rw [List.forall_mem_cons] at hthere
    obtain ⟨w₁, hrun₁, hw₁⟩ := hi.set_run (Heap.nameOf_congr (hk.obj?_eq hthere.1) hkey) value
    have hk₁ : h.Kept w₁.heap := hw₁.refilled.kept_older hk hfresh
    obtain ⟨w', hrun, hr⟩ := ih (hw₁.isFrame_self hi) hk₁ hthere.2
    refine ⟨w', ?_, fun v o hv ho => hr.kept v o hv (hw₁.kept v o hv ho), ?_,
      hr.frames.trans hw₁.frames, hr.actors.trans hw₁.actors⟩
    · simp only [setAll, Action.run_bind, Action.run_discard, hrun₁, hrun]
    · rw [hr.table, Value.sym, w.heap.insert_symbol h]
      rfl

namespace Frame

theorem setAll_append (f : Value) (items items' : Entries) (w : World) :
    setAll f (items ++ items') w = (setAll f items >>= fun _ => setAll f items') w := by
  induction items generalizing w with
  | nil => rfl
  | cons e items ih =>
    simp only [List.cons_append, setAll, Action.run_bind, ih]
    cases discard (set f e.1 e.2 false) w <;> rfl

theorem setAll_error {h : Heap} {before after : Entries} {e : Value × Value}
    (hi : w.heap.IsFrame f parent map own) (hk : h.Kept w.heap)
    (hfresh : h.obj? map = none) (hmeans : h.Means before pairs)
    (hthere : ∀ e' ∈ before ++ e :: after, ∀ a : Nat, e'.1 = .ref a → a < h.size)
    (hn : h.nameOf e.1 = .error fault) : ∃ w',
      setAll f (before ++ e :: after) w = .error (.keyRefused (w'.heap.quoted e.1)) w' := by
  rw [List.forall_mem_append, List.forall_mem_cons] at hthere
  obtain ⟨hbefore, he, -⟩ := hthere
  obtain ⟨w', hrun, hr⟩ := setAll_run hi hk hfresh hmeans hbefore
  obtain ⟨fault', hfault⟩ := (hr.kept_older hk hfresh).nameOf_error he hn
  have hread : Action.read (·.nameOf e.1) w' = .error fault' w' := Action.run_read_error hfault
  refine ⟨w', ?_⟩
  rw [setAll_append, Action.run_bind, hrun, ← Heap.nameOf_refused hfault]
  simp only [setAll, Action.run_bind, Action.run_discard, set, hread]

theorem root_eq (hm : w.heap.Maps p items) : root p w = (do
    let f ← create .nil []
    setAll f items
    enrolled f : Action Value) w := by
  obtain ⟨f, w₁, hrun, map, hdraft⟩ :=
    (create_ends w .nil Entries.named_nil).exists_ok fun _ _ hf => hf
  have hentries := hdraft.grows.kept.entries?_eq hm.entries
  simp only [root, Action.run_bind, hrun, Action.run_view]
  cases ht : w₁.heap.truthy p with
  | true =>
    have hitems : BindingMap.items w₁.heap p = .ok items := by rw [BindingMap.items, hentries]; rfl
    have hread : Action.read (BindingMap.items · p) w₁ = .ok items w₁ := Action.run_read hitems
    simp only [if_true, Action.run_bind, hread]
  | false =>
    rw [Heap.eq_nil_of_entries? hentries ht]
    rfl

theorem root_fills (hm : w.heap.Maps p items) (hmeans : w.heap.Means items pairs) :
    w.Fills (root p) (w.heap.bindAll [] (Entries.ofPairs pairs)) := by
  obtain ⟨f, w₁, hrun₁, map, hdraft⟩ :=
    (create_ends w .nil Entries.named_nil).exists_ok fun _ _ hf => hf
  obtain ⟨w₂, hrun₂, hr⟩ :=
    setAll_run hdraft.isFrame hdraft.grows.kept hdraft.freshMap hmeans hm.there
  have hdraft' := hdraft.refilled hr (Entries.named_ofPairs w.heap pairs)
  obtain ⟨f', w₃, hrun₃, rfl, hmade⟩ := hdraft'.enrolled.exists_ok fun _ _ hf => hf
  refine ⟨f', map, w₃, ?_, hmade⟩
  rw [root_eq hm]
  simp only [Action.run_bind, hrun₁, hrun₂, hrun₃]

theorem root_refuses {before after : Entries} {e : Value × Value} (hm : w.heap.Maps p items)
    (hitems : items = before ++ e :: after) (hmeans : w.heap.Means before pairs)
    (hn : w.heap.nameOf e.1 = .error fault) : w.RefusesKey e.1 (root p) := by
  obtain ⟨f, w₁, hrun₁, map, hdraft⟩ :=
    (create_ends w .nil Entries.named_nil).exists_ok fun _ _ hf => hf
  obtain ⟨w₂, hrun₂⟩ := setAll_error hdraft.isFrame hdraft.grows.kept hdraft.freshMap hmeans
    (hitems ▸ hm.there) hn
  have hgrows : w.Grows w₂ := by
    have hends := hdraft.setAll items
    rw [hitems, Ends, hrun₂] at hends
    exact hends
  refine ⟨_, w₂, ?_, rfl, rfl, hgrows⟩
  rw [root_eq hm, hitems]
  simp only [Action.run_bind, hrun₁, hrun₂]

def setEach (items : Entries) : Action Value := do
  let f ← make .nil .nil
  setAll f items
  pure f

theorem setEach_fills (hmeans : w.heap.Means items pairs)
    (hthere : ∀ e ∈ items, ∀ a : Nat, e.1 = .ref a → a < w.heap.size) :
    w.Fills (setEach items) (w.heap.bindAll [] (Entries.ofPairs pairs)) := by
  have hempty : BindingMap.seed w.heap .nil = .ok [] := rfl
  obtain ⟨f, map, w₁, hrun₁, hmade⟩ :=
    World.fills_of_run Entries.named_nil (make_run (p := .nil) hempty)
  obtain ⟨w₂, hrun₂, hr⟩ := setAll_run hmade.isFrame hmade.kept hmade.freshMap hmeans hthere
  refine ⟨f, map, w₂, ?_, hmade.refilled hr (Entries.named_ofPairs w.heap pairs)⟩
  simp only [setEach, Action.run_bind, hrun₁, hrun₂, Action.run_pure]

end Frame

theorem Entries.sums_bindAll (h : Heap) (pairs : List (String × Value)) :
    Entries.Sums (h.bindAll [] (ofPairs pairs)) pairs := by
  have hs := spells_ofPairs pairs
  refine ⟨?_, ?_⟩
  · rw [(named_ofPairs h pairs).keys, Heap.names_bindAll hs.symbols, hs.names]
  · rintro before name value after rfl hn h'
    rw [Value.sym, h'.find?_symbol h _ _ none none]
    exact hs.find?_bindAll hn h []

namespace Frame

theorem make_refuses {before after : Entries} {e : Value × Value} (hm : w.heap.Maps p items)
    (hitems : items = before ++ e :: after)
    (hb : ∀ e' ∈ before, ∃ name, w.heap.nameOf e'.1 = .ok name)
    (hn : w.heap.nameOf e.1 = .error fault) : w.RefusesKey e.1 (make .nil p) := by
  have hseed : BindingMap.seed w.heap p = .error fault := by
    rw [BindingMap.seed_eq hm, hitems, BindingMap.foldlM_addNamed_error hb hn]
  exact ⟨fault, w, make_error hseed, Heap.nameOf_error hn, Heap.nameOf_refused hn, .refl w⟩

theorem extend_refuses {before after : Entries} {e : Value × Value} (hm : w.heap.Maps p items)
    (hitems : items = before ++ e :: after) (hmeans : w.heap.Means before pairs)
    (hbinds : w.heap.sequenceOf binds = .ok (items.map Prod.fst))
    (hn : w.heap.nameOf e.1 = .error fault) (name : Value) :
    w.RefusesKey e.1 (extend .nil binds exprs false name) := by
  have hnone : (items.map Prod.fst).mapM w.heap.param? = none :=
    mapM_none_iff.mpr ⟨e.1, by simp [hitems], Heap.param?_of_isKey (hm.keys e (by simp [hitems]))⟩
  have hnames : (items.map Prod.fst).mapM w.heap.nameOf = .error fault := by
    rw [hitems, List.map_append, List.mapM_append, hmeans.mapM_nameOf, List.map_cons,
      List.mapM_cons, hn]
    rfl
  have hl : w.heap.paramList binds = .error fault := by
    simp only [Heap.paramList, hbinds, bind, Except.bind, hnone, Heap.parseParams, hnames]
  exact ⟨fault, w, extend_of_binds .nil exprs name false hl, Heap.nameOf_error hn,
    Heap.nameOf_refused hn, .refl w⟩

/-- If all keys of a mapping mean names, and none the marker of parameters, then seeding a frame
from it, making it the primitives of a root, calling with its keys for parameters and its values for
arguments and setting its items in an empty frame make frames with the same entries. If not, the
first three refuse the first key that means no name, and make no frame. -/
theorem fillings_agree (hm : w.heap.Maps p items)
    (hbinds : w.heap.sequenceOf binds = .ok (items.map Prod.fst))
    (hexprs : w.heap.sequenceOf exprs = .ok (items.map Prod.snd))
    (hmark : ∀ e ∈ items, w.heap.nameOf e.1 ≠ .ok Param.marker) :
    ((∀ e ∈ items, ∃ name, w.heap.nameOf e.1 = .ok name) → ∃ pairs, w.heap.Means items pairs) ∧
      (∀ pairs, w.heap.Means items pairs → ∃ filled, Entries.Sums filled pairs ∧
        w.Fills (make .nil p) filled ∧ w.Fills (root p) filled ∧
        (∀ name, w.Fills (extend .nil binds exprs false name) filled) ∧
        w.Fills (setEach items) filled) ∧
      ∀ before e after, items = before ++ e :: after →
        (∀ e' ∈ before, ∃ name, w.heap.nameOf e'.1 = .ok name) →
        (∀ name, w.heap.nameOf e.1 ≠ .ok name) →
        w.RefusesKey e.1 (make .nil p) ∧ w.RefusesKey e.1 (root p) ∧
          ∀ name, w.RefusesKey e.1 (extend .nil binds exprs false name) := by
  refine ⟨Heap.exists_means, fun pairs hmeans => ?_, fun before e after hitems hb hn => ?_⟩
  · have hnamed := Entries.named_ofPairs w.heap pairs
    have hseed : BindingMap.seed w.heap p = .ok (w.heap.bindAll [] (Entries.ofPairs pairs)) := by
      rw [BindingMap.seed_eq hm, BindingMap.foldlM_addNamed hmeans]
    have hunmarked : Param.marker ∉ pairs.map Prod.fst := by
      intro hmem
      have hnames := mapM_eq_ok_iff.mp hmeans.mapM_nameOf
      obtain ⟨key, hkey, hname⟩ := List.mem_map.mp (hnames ▸ List.mem_map_of_mem hmem)
      obtain ⟨e, he, rfl⟩ := List.mem_map.mp hkey
      exact hmark e he hname
    exact ⟨_, Entries.sums_bindAll w.heap pairs, World.fills_of_run hnamed (make_run hseed),
      root_fills hm hmeans, fun name => World.fills_of_run hnamed
        (extend_run hm hmeans hbinds hexprs hunmarked name), setEach_fills hmeans hm.there⟩
  · obtain ⟨found, hfound⟩ := Heap.exists_means hb
    cases hname : w.heap.nameOf e.1 with
    | ok name => exact absurd hname (hn name)
    | error fault =>
      exact ⟨make_refuses hm hitems hb hname, root_refuses hm hitems hfound hname,
        extend_refuses hm hitems hfound hbinds hname⟩

end Frame

end

namespace World

/-- A mapping with three keys for two names, and one with a key for none, each with a list of its
keys and a list of its values. -/
def spelledTwice : World :=
  let objects : List Obj :=
    [.tuple [.str "Symbol", .str "b"],
      .table [(.sym "a", .int 1), (.ref 8, .int 2), (.str "a", .int 3)],
      .list [.sym "a", .ref 8, .str "a"], .list [.int 1, .int 2, .int 3],
      .table [(.str "a", .int 1), (.int 5, .int 2)], .list [.str "a", .int 5],
      .list [.int 1, .int 2]]
  objects.foldl (fun w o => (Call.data o).run.after w) twoFrames

theorem fillings_agree_spelledTwice :
    (∃ filled, Entries.Sums filled [("a", .int 1), ("b", .int 2), ("a", .int 3)] ∧
      spelledTwice.Fills (Frame.make .nil (.ref 9)) filled ∧
      spelledTwice.Fills (Frame.root (.ref 9)) filled ∧
      spelledTwice.Fills (Frame.extend .nil (.ref 10) (.ref 11) false (.str "f")) filled ∧
      spelledTwice.Fills
        (Frame.setEach [(.sym "a", .int 1), (.ref 8, .int 2), (.str "a", .int 3)]) filled) ∧
    spelledTwice.RefusesKey (.int 5) (Frame.make .nil (.ref 12)) ∧
    spelledTwice.RefusesKey (.int 5) (Frame.root (.ref 12)) ∧
    spelledTwice.RefusesKey (.int 5) (Frame.extend .nil (.ref 13) (.ref 14) false (.str "f")) := by
  have hthere : 8 < spelledTwice.heap.size := by decide
  have hm : spelledTwice.heap.Maps (.ref 9)
      [(.sym "a", .int 1), (.ref 8, .int 2), (.str "a", .int 3)] :=
    ⟨rfl, by decide, by simp [hthere]⟩
  have hm' : spelledTwice.heap.Maps (.ref 12) [(.str "a", .int 1), (.int 5, .int 2)] :=
    ⟨rfl, by decide, by simp⟩
  have hb : spelledTwice.heap.nameOf (.ref 8) = .ok "b" := rfl
  have hfive : spelledTwice.heap.nameOf (.integer 5 none) =
      .error (.keyRefused (spelledTwice.heap.quoted (.integer 5 none))) := rfl
  have hkeys : spelledTwice.heap.sequenceOf (.ref 10) = .ok [.sym "a", .ref 8, .str "a"] := rfl
  have hvalues : spelledTwice.heap.sequenceOf (.ref 11) = .ok [.int 1, .int 2, .int 3] := rfl
  have hkeys' : spelledTwice.heap.sequenceOf (.ref 13) = .ok [.str "a", .int 5] := rfl
  have hvalues' : spelledTwice.heap.sequenceOf (.ref 14) = .ok [.int 1, .int 2] := rfl
  obtain ⟨-, hfills, -⟩ := Frame.fillings_agree hm hkeys hvalues (by simp [hb, Param.marker])
  obtain ⟨-, -, hrefuses⟩ :=
    Frame.fillings_agree hm' hkeys' hvalues' (by simp [hfive, Param.marker])
  obtain ⟨filled, hsums, hmake, hroot, hextend, hset⟩ := hfills
    [("a", .int 1), ("b", .int 2), ("a", .int 3)]
    (.cons ⟨rfl, rfl⟩ (.cons ⟨rfl, rfl⟩ (.cons ⟨rfl, rfl⟩ .nil)))
  obtain ⟨hmake', hroot', hextend'⟩ := hrefuses [(.str "a", .int 1)] (.int 5, .int 2) [] rfl
    (by simp) (by simp [hfive])
  exact ⟨⟨filled, hsums, hmake, hroot, hextend _, hset⟩, hmake', hroot', hextend' _⟩

end World

end LexicalEnv
