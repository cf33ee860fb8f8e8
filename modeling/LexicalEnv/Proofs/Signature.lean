import LexicalEnv.Parameter.Arity
import LexicalEnv.Proofs.Named

/-!
# Signatures

What a parameter list says: the names of the positional parameters, and the name
for the rest if there is one. A value declares a signature, or it is unreadable,
or malformed (`declared`), and the check of a parameter list answers accordingly.
-/

namespace LexicalEnv

structure Signature where
  positional : List String
  rest : Option String
  deriving DecidableEq, Repr

namespace Signature

def names (s : Signature) : List String := s.positional ++ s.rest.toList

/-- The names as they are written, the marker before the one for the rest. -/
def spelled (s : Signature) : List String :=
  s.positional ++ s.rest.toList.flatMap fun name => [Param.marker, name]

def params (s : Signature) : List Param :=
  s.positional.map Param.positional ++ s.rest.toList.map Param.rest

def pairs (s : Signature) (args : List Value) (rest : Value) : List (String × Value) :=
  s.positional.zip args ++ s.rest.toList.map fun name => (name, rest)

def Describes (s : Signature) (params : List Param) : Prop :=
  params.map (fun p => (p.kind, p.name.symbol?)) =
    s.positional.map (fun name => (.positional, some name)) ++
      s.rest.toList.map fun name => (.rest, some name)

def Accepts (s : Signature) (got : Nat) : Prop :=
  match s.rest with
  | none => got = s.positional.length
  | some _ => s.positional.length ≤ got

def expected (s : Signature) : String :=
  match s.rest with
  | none => "exactly " ++ Nat.repr s.positional.length
  | some _ => "at least " ++ Nat.repr s.positional.length

instance (s : Signature) (params : List Param) : Decidable (s.Describes params) :=
  inferInstanceAs (Decidable (_ = _))

instance (s : Signature) (got : Nat) : Decidable (s.Accepts got) := by
  unfold Accepts
  split <;> infer_instance

end Signature

/-- The mark is met more than once, or not in the place due, counted from the end. -/
def Misplaced {α : Type} [DecidableEq α] (mark : α) (place : Nat) (l : List α) : Prop :=
  1 < l.count mark ∨ (mark ∈ l ∧ l.reverse[place]? ≠ some mark)

theorem not_misplaced_iff {α : Type} [DecidableEq α] {mark : α} {place : Nat} {l : List α} :
    ¬ Misplaced mark place l ↔ mark ∉ l ∨
      ∃ front back, l = front ++ mark :: back ∧ back.length = place ∧ mark ∉ front ∧
        mark ∉ back := by
  constructor
  · intro h
    simp only [Misplaced, not_or, not_and, Decidable.not_not] at h
    obtain ⟨hcount, hplace⟩ := h
    by_cases hm : mark ∈ l
    · obtain ⟨hlt, hget⟩ := List.getElem?_eq_some_iff.mp (hplace hm)
      have hsplit : l.reverse = l.reverse.take place ++ mark :: l.reverse.drop (place + 1) := by
        rw [← hget, List.getElem_cons_drop, List.take_append_drop]
      have hl : l =
          (l.reverse.drop (place + 1)).reverse ++ mark :: (l.reverse.take place).reverse := by
        have hreverse := congrArg List.reverse hsplit
        simpa only [List.reverse_reverse, List.reverse_append, List.reverse_cons, List.append_assoc,
          List.singleton_append] using hreverse
      refine .inr ⟨_, _, hl, ?_, ?_⟩
      · rw [List.length_reverse, List.length_take, Nat.min_eq_left (Nat.le_of_lt hlt)]
      · rw [hl, List.count_append, List.count_cons_self] at hcount
        exact ⟨List.count_eq_zero.mp (by omega), List.count_eq_zero.mp (by omega)⟩
    · exact .inl hm
  · rintro (hm | ⟨front, back, rfl, rfl, hfront, hback⟩)
    · simp [Misplaced, hm, List.count_eq_zero.mpr hm]
    · simp [Misplaced, List.count_append, List.count_eq_zero.mpr hfront,
        List.count_eq_zero.mpr hback]

-- ---------------------------------------------------------------------------
-- Records and names
-- ---------------------------------------------------------------------------

namespace Param

theorem checkRests_iff {rests : List Bool} :
    checkRests rests = .ok () ↔ ¬ Misplaced true 0 rests := by
  unfold checkRests Misplaced
  rcases hcount : rests.count true with _ | _ | count
  · simp [List.count_eq_zero.mp hcount]
  · have hm : true ∈ rests := List.count_pos_iff.mp (by omega)
    simp [hm, List.getLast?_eq_head?_reverse, List.head?_eq_getElem?]
  · simp

theorem parse_spelled {s : Signature} (hm : marker ∉ s.names) : parse s.spelled = .ok s.params := by
  obtain ⟨positional, _ | rest⟩ := s
  · have hplain : marker ∉ positional := by simpa [Signature.names] using hm
    simpa [Signature.spelled, Signature.params] using parse_of_no_marker hplain
  · obtain ⟨hpositional, hrest⟩ : marker ∉ positional ∧ marker ≠ rest := by
      simpa [Signature.names] using hm
    have hcount : (positional ++ [marker, rest]).count marker = 1 := by
      simp [List.count_append, List.count_eq_zero.mpr hpositional, Ne.symm hrest]
    simp [Signature.spelled, Signature.params, parse, hcount]

theorem exists_spelled {names : List String} (hm : ¬ Misplaced marker 1 names) :
    ∃ s : Signature, names = s.spelled ∧ marker ∉ s.names := by
  rcases not_misplaced_iff.mp hm with hm | ⟨front, back, rfl, hback, hfront, hrest⟩
  · exact ⟨⟨names, none⟩, by simp [Signature.spelled], by simpa [Signature.names] using hm⟩
  · obtain ⟨rest, rfl⟩ := List.length_eq_one_iff.mp hback
    exact ⟨⟨front, some rest⟩, by simp [Signature.spelled],
      by simpa [Signature.names] using ⟨hfront, by simpa using hrest⟩⟩

theorem parse_misplaced {names : List String} (hm : Misplaced marker 1 names) :
    ∃ cause, parse names = .error cause := by
  unfold parse
  rcases hcount : names.count marker with _ | _ | count
  · have hnot := List.count_eq_zero.mp hcount
    simp [Misplaced, hcount, hnot] at hm
  · simp only [Misplaced, hcount, Nat.lt_irrefl, false_or] at hm
    match hnames : names.reverse with
    | last :: mark :: front =>
      have hmark : mark ≠ marker := by simpa [hnames] using hm.2
      exact ⟨.markerMisplaced, by simp [hmark]⟩
    | [] | [_] => exact ⟨.markerAlone, rfl⟩
  · exact ⟨_, rfl⟩

def IsSymbol (p : Param) : Prop := p.name.symbol?.isSome

instance (p : Param) : Decidable p.IsSymbol := inferInstanceAs (Decidable (_ = true))

theorem positional_described {params : List Param} (hs : ∀ p ∈ params, p.IsSymbol)
    (hk : ∀ p ∈ params, p.kind = .positional) :
    params.map (fun p => (p.kind, p.name.symbol?)) =
      (params.filterMap (·.name.symbol?)).map fun name => (.positional, some name) := by
  induction params with
  | nil => rfl
  | cons p params ih =>
    rw [List.forall_mem_cons] at hs hk
    obtain ⟨name, hname⟩ := Option.isSome_iff_exists.mp hs.1
    simp [hname, hk.1, ih hs.2 hk.2]

end Param

namespace Signature

variable {s : Signature} {params : List Param}

theorem describes_params (s : Signature) : s.Describes s.params := by
  simp [Describes, Signature.params, Param.positional, Param.rest, Function.comp_def, Value.symbol?]

theorem exists_describes (hs : ∀ p ∈ params, p.IsSymbol)
    (hm : ¬ Misplaced true 0 (params.map (·.kind == .rest))) :
    ∃ s : Signature, s.Describes params := by
  have hkind {p : Param} (hp : (p.kind == .rest) ≠ true) : p.kind = .positional := by
    cases hk : p.kind <;> simp [hk] at hp ⊢
  rcases not_misplaced_iff.mp hm with hm | ⟨front, back, hsplit, hback, hfront, -⟩
  · refine ⟨⟨params.filterMap (·.name.symbol?), none⟩, ?_⟩
    rw [Describes, Param.positional_described hs fun p hp => hkind fun hr => hm ?_]
    · simp
    · exact hr ▸ List.mem_map_of_mem hp
  · obtain rfl := List.length_eq_zero_iff.mp hback
    obtain ⟨before, last, rfl, rfl, hlast⟩ := List.map_eq_append_iff.mp hsplit
    obtain ⟨p, rfl, hp⟩ := List.map_eq_singleton_iff.mp hlast
    rw [List.forall_mem_append] at hs
    obtain ⟨name, hname⟩ := Option.isSome_iff_exists.mp (hs.2 p List.mem_cons_self)
    refine ⟨⟨before.filterMap (·.name.symbol?), some name⟩, ?_⟩
    rw [Describes, List.map_append,
      Param.positional_described hs.1 fun q hq => hkind fun hr => hfront ?_]
    · have hrest : p.kind = .rest := by simpa using hp
      simp [hname, hrest]
    · exact hr ▸ List.mem_map_of_mem hq

theorem Accepts.length_le {got : Nat} (ha : s.Accepts got) : s.positional.length ≤ got := by
  unfold Accepts at ha
  split at ha <;> omega

theorem pairs_names {args : List Value} (hl : s.positional.length ≤ args.length) (rest : Value) :
    (s.pairs args rest).map Prod.fst = s.names := by
  simp [pairs, Signature.names, List.map_fst_zip hl, Function.comp_def]

theorem pairs_positional {args : List Value} {i : Nat} {name : String} (rest : Value)
    (hl : s.positional.length ≤ args.length) (hi : s.positional[i]? = some name)
    (hlast : ∀ j, i < j → s.positional[j]? ≠ some name) (hrest : s.rest ≠ some name) :
    ∃ before value after, args[i]? = some value ∧
      s.pairs args rest = before ++ (name, value) :: after ∧ name ∉ after.map Prod.fst := by
  obtain ⟨hlt, hname⟩ := List.getElem?_eq_some_iff.mp hi
  obtain ⟨value, hvalue⟩ : ∃ value, args[i]? = some value :=
    ⟨_, List.getElem?_eq_getElem (Nat.lt_of_lt_of_le hlt hl)⟩
  have hzip : (s.positional.zip args)[i]? = some (name, value) :=
    List.getElem?_zip_eq_some.mpr ⟨hi, hvalue⟩
  obtain ⟨hlt', hpair⟩ := List.getElem?_eq_some_iff.mp hzip
  refine ⟨(s.positional.zip args).take i, value, (s.positional.zip args).drop (i + 1) ++
    s.rest.toList.map fun name => (name, rest), hvalue, ?_, ?_⟩
  · rw [pairs, ← hpair, ← List.cons_append, List.getElem_cons_drop, ← List.append_assoc,
      List.take_append_drop]
  · rw [List.map_append, List.mem_append, not_or]
    constructor
    · intro hm
      obtain ⟨pair, hmem, rfl⟩ := List.mem_map.mp hm
      obtain ⟨j, hj⟩ := List.mem_iff_getElem?.mp hmem
      rw [List.getElem?_drop] at hj
      exact hlast _ (by omega) (List.getElem?_zip_eq_some.mp hj).1
    · cases hr : s.rest with
      | none => simp
      | some other =>
        have hne : name ≠ other := fun he => hrest (he ▸ hr)
        simpa using hne

namespace Describes

theorem unique {s' : Signature} (hd : s.Describes params) (hd' : s'.Describes params) : s = s' := by
  have heq := hd.symm.trans hd'
  have hof (kind : ParamKind) := congrArg
    (List.filterMap fun p : ParamKind × Option String => if p.1 = kind then p.2 else none) heq
  have hpositional := hof .positional
  have hrest := hof .rest
  obtain ⟨positional, rest⟩ := s
  obtain ⟨positional', rest'⟩ := s'
  simp only [List.filterMap_append, List.filterMap_map, Function.comp_def] at hpositional hrest
  cases rest <;> cases rest' <;> simp_all

theorem kinds (hd : s.Describes params) :
    params.map Param.kind = List.replicate s.positional.length .positional ++
      List.replicate s.rest.toList.length .rest := by
  have hk := congrArg (List.map Prod.fst) hd
  simpa [Function.comp_def, List.map_const'] using hk

theorem not_misplaced (hd : s.Describes params) :
    ¬ Misplaced true 0 (params.map (·.kind == .rest)) := by
  have hflags : params.map (·.kind == .rest) =
      List.replicate s.positional.length false ++ List.replicate s.rest.toList.length true := by
    have hk := congrArg (List.map (· == ParamKind.rest)) hd.kinds
    have hfalse : (ParamKind.positional == ParamKind.rest) = false := rfl
    simpa [Function.comp_def, hfalse] using hk
  rw [hflags, not_misplaced_iff]
  cases s.rest with
  | none => simp
  | some rest => exact .inr ⟨_, [], rfl, rfl, by simp, by simp⟩

theorem arity (hd : s.Describes params) :
    Arity.ofParams params =
      ⟨s.positional.length, if s.rest.isSome then none else some s.positional.length⟩ := by
  have hkinds : params.map (fun p => some p.kind) =
      List.replicate s.positional.length (some .positional) ++
        List.replicate s.rest.toList.length (some .rest) := by
    have hk := congrArg (List.map some) hd.kinds
    simpa [Function.comp_def] using hk
  rw [Arity.ofParams, hkinds, Arity.ofKinds]
  cases s.rest <;> simp [List.count_append]

theorem accepts_iff (hd : s.Describes params) (got : Nat) :
    (Arity.ofParams params).accepts got = true ↔ s.Accepts got := by
  rw [hd.arity]
  cases hr : s.rest with
  | none =>
    simp only [Arity.accepts, Accepts, hr, Option.isSome_none, Bool.false_eq_true, if_false,
      Option.all_some, Bool.and_eq_true, decide_eq_true_iff]
    omega
  | some rest => simp [Arity.accepts, Accepts, hr]

theorem text (hd : s.Describes params) : (Arity.ofParams params).text = s.expected := by
  rw [hd.arity]
  cases hr : s.rest <;> simp [Arity.text, expected, hr]

theorem check (hd : s.Describes params) (h : Heap) (got : Nat) (name : Value) :
    (Arity.ofParams params).check h got name =
      if s.Accepts got then .ok ()
      else .error (h.arityFault name (.str s.expected) (.int got)) := by
  by_cases ha : s.Accepts got
  · rw [Arity.check, if_pos ((hd.accepts_iff got).mpr ha), if_pos ha]
    rfl
  · rw [Arity.check, if_neg fun h => ha ((hd.accepts_iff got).mp h), if_neg ha, hd.text]
    rfl

end Describes

end Signature

-- ---------------------------------------------------------------------------
-- What a value declares
-- ---------------------------------------------------------------------------

namespace Heap

variable {h : Heap} {binds v : Value} {s : Signature} {list : ParamList} {fault : Fault}

/-- Records of the parameters of the signature, or its names with the marker among them. -/
inductive Declares (h : Heap) (binds : Value) (s : Signature) : Prop
  | records {members : List Value} {params : List Param} (hm : h.sequenceOf binds = .ok members)
    (hp : members.mapM h.param? = some params) (hd : s.Describes params)
  | names {members : List Value} {e : Value} (hm : h.sequenceOf binds = .ok members)
    (he : e ∈ members) (hp : h.param? e = none) (hn : members.mapM h.nameOf = .ok s.spelled)
    (hmark : Param.marker ∉ s.names)

/-- No sequence, or one that is not all records and has a member that is no name. -/
inductive Unreadable (h : Heap) (binds : Value) : Prop
  | noSequence {fault : Fault} (hm : h.sequenceOf binds = .error fault)
  | noName {members : List Value} {e e' : Value} {fault : Fault}
    (hm : h.sequenceOf binds = .ok members) (he : e ∈ members) (hp : h.param? e = none)
    (he' : e' ∈ members) (hn : h.nameOf e' = .error fault)

/-- Records or names, with more than one for the rest or with that in the wrong place. -/
inductive Malformed (h : Heap) (binds : Value) : Prop
  | records {members : List Value} {params : List Param} (hm : h.sequenceOf binds = .ok members)
    (hp : members.mapM h.param? = some params)
    (hd : Misplaced true 0 (params.map (·.kind == .rest)))
  | names {members : List Value} {e : Value} {names : List String}
    (hm : h.sequenceOf binds = .ok members) (he : e ∈ members) (hp : h.param? e = none)
    (hn : members.mapM h.nameOf = .ok names) (hd : Misplaced Param.marker 1 names)

/-- If the value is a sequence, the records of parameters among its members carry symbols. -/
def CarriesSymbols (h : Heap) (binds : Value) : Prop :=
  ∀ members ∈ (h.sequenceOf binds).toOption, ∀ entry ∈ members, ∀ p ∈ h.param? entry, p.IsSymbol

instance (h : Heap) (binds : Value) : Decidable (h.CarriesSymbols binds) :=
  inferInstanceAs (Decidable (∀ members ∈ (h.sequenceOf binds).toOption, ∀ entry ∈ members,
    ∀ p ∈ h.param? entry, p.IsSymbol))

theorem declared (hs : h.CarriesSymbols binds) :
    h.Unreadable binds ∨ h.Malformed binds ∨ ∃ s, h.Declares binds s := by
  cases hm : h.sequenceOf binds with
  | error fault => exact .inl (.noSequence hm)
  | ok members =>
    cases hp : members.mapM h.param? with
    | some params =>
      by_cases hd : Misplaced true 0 (params.map (·.kind == .rest))
      · exact .inr (.inl (.records hm hp hd))
      · have hsymbols : ∀ p ∈ params, p.IsSymbol := by
          intro p hmem
          obtain ⟨entry, he, hentry⟩ := mapM_some_mem hp p hmem
          exact hs members (mem_toOption.mpr hm) entry he p hentry
        obtain ⟨s, hdescribes⟩ := Signature.exists_describes hsymbols hd
        exact .inr (.inr ⟨s, .records hm hp hdescribes⟩)
    | none =>
      obtain ⟨e, he, hp⟩ := mapM_none_iff.mp hp
      cases hn : members.mapM h.nameOf with
      | error fault =>
        obtain ⟨e', he', hname⟩ := mapM_error hn
        exact .inl (.noName hm he hp he' hname)
      | ok names =>
        by_cases hd : Misplaced Param.marker 1 names
        · exact .inr (.inl (.names hm he hp hn hd))
        · obtain ⟨s, rfl, hmark⟩ := Param.exists_spelled hd
          exact .inr (.inr ⟨s, .names hm he hp hn hmark⟩)

theorem paramList_of_records {members : List Value} {params : List Param}
    (hm : h.sequenceOf binds = .ok members) (hp : members.mapM h.param? = some params)
    (hd : s.Describes params) : h.paramList binds = .ok (.recorded members params) := by
  have hrests := Param.checkRests_iff.mpr hd.not_misplaced
  simp [Heap.paramList, hm, hp, hrests, checked, bind, Except.bind, pure, Except.pure]

theorem Declares.paramList (hd : h.Declares binds s) :
    ∃ list, h.paramList binds = .ok list ∧ s.Describes list.params := by
  cases hd with
  | @records members params hm hp hd =>
    exact ⟨.recorded members params, paramList_of_records hm hp hd, hd⟩
  | @names members e hm he hp hn hmark =>
    have hnone : members.mapM h.param? = none := mapM_none_iff.mpr ⟨e, he, hp⟩
    have hparse := Param.parse_spelled hmark
    exact ⟨.parsed s.params, by simp [Heap.paramList, parseParams, hm, hnone, hn, hparse, checked,
      bind, Except.bind, pure, Except.pure], s.describes_params⟩

theorem Declares.unique {s' : Signature} (hd : h.Declares binds s) (hd' : h.Declares binds s') :
    s = s' := by
  obtain ⟨list, hl, hdescribes⟩ := hd.paramList
  obtain ⟨list', hl', hdescribes'⟩ := hd'.paramList
  obtain rfl := Except.ok.inj (hl.symm.trans hl')
  exact hdescribes.unique hdescribes'

theorem Malformed.paramList (hd : h.Malformed binds) :
    ∃ fault, h.paramList binds = .error fault ∧ fault.title = "ParameterListError" := by
  cases hd with
  | @records members params hm hp hd =>
    have hrests : ∃ cause, Param.checkRests (params.map (·.kind == .rest)) = .error cause := by
      cases hc : Param.checkRests (params.map (·.kind == .rest)) with
      | ok u => exact absurd hd (Param.checkRests_iff.mp hc)
      | error cause => exact ⟨cause, rfl⟩
    obtain ⟨cause, hcause⟩ := hrests
    exact ⟨.ofParameters cause,
      by simp [Heap.paramList, hm, hp, hcause, checked, bind, Except.bind], rfl⟩
  | @names members e names hm he hp hn hd =>
    have hnone : members.mapM h.param? = none := mapM_none_iff.mpr ⟨e, he, hp⟩
    obtain ⟨cause, hcause⟩ := Param.parse_misplaced hd
    have hrefused : h.paramList binds = .error (.ofParameters cause) := by
      simp [Heap.paramList, parseParams, hm, hnone, hn, hcause, checked, bind, Except.bind]
    exact ⟨.ofParameters cause, hrefused, rfl⟩

theorem unwrap_ok (h : Heap) (v : Value) (wanted : String) (default : Value) :
    ∃ inner, h.unwrap v (.str wanted) default = .ok inner := by
  have hchoice (tag inner : Value) : ∃ v, (do
      if ← h.tagIs (.str wanted) tag then pure inner else pure default) = Except.ok v := by
    have htag : h.tagIs (.str wanted) tag = .ok (tag.text? == some wanted) := by simp [tagIs]
    rw [htag]
    cases tag.text? == some wanted <;> exact ⟨_, rfl⟩
  unfold unwrap
  split
  · exact ⟨_, rfl⟩
  · split
    · exact hchoice _ _
    · split
      · exact hchoice _ _
      · exact ⟨default, rfl⟩

theorem nameOf_refused (hn : h.nameOf v = .error fault) : fault = .keyRefused (h.quoted v) := by
  obtain ⟨inner, hinner⟩ := h.unwrap_ok v "Symbol" .nil
  unfold nameOf at hn
  split at hn
  · cases hn
  · simp only [hinner, bind, Except.bind] at hn
    split at hn <;> cases hn
    rfl

theorem nameOf_error (hn : h.nameOf v = .error fault) : fault.title = "TypeError" := by
  rw [nameOf_refused hn]
  rfl

theorem items_error (hi : h.items v = .error fault) : fault = .wrongType := by
  unfold items at hi
  split at hi
  · cases hi
  · split at hi
    · cases hi
    · cases hi
    · cases hi
    · split at hi <;> cases hi
      rfl
    · cases hi
      rfl

theorem sequenceOf_error (hs : h.sequenceOf v = .error fault) : fault.title = "TypeError" := by
  unfold sequenceOf at hs
  split at hs
  · split at hs
    · exact items_error hs ▸ rfl
    · cases hs
      rfl
  · split at hs
    · cases hs
      rfl
    · split at hs
      · cases hs
        rfl
      · exact items_error hs ▸ rfl

theorem Unreadable.paramList (hu : h.Unreadable binds) :
    ∃ fault, h.paramList binds = .error fault ∧ fault.title = "TypeError" := by
  cases hu with
  | @noSequence fault hm =>
    exact ⟨fault, by simp [Heap.paramList, hm, bind, Except.bind], sequenceOf_error hm⟩
  | @noName members e e' fault hm he hp he' hn =>
    have hnone : members.mapM h.param? = none := mapM_none_iff.mpr ⟨e, he, hp⟩
    cases hnames : members.mapM h.nameOf with
    | ok names =>
      obtain ⟨name, hname⟩ := mapM_ok_mem hnames e' he'
      rw [hn] at hname
      cases hname
    | error fault' =>
      obtain ⟨e'', -, hname⟩ := mapM_error hnames
      exact ⟨fault', by simp [Heap.paramList, parseParams, hm, hnone, hnames, bind, Except.bind],
        nameOf_error hname⟩

/-- A list that is accepted was declared, and its parameters are as declared. -/
theorem declares_of_paramList (hs : h.CarriesSymbols binds) (hl : h.paramList binds = .ok list) :
    ∃ s, h.Declares binds s ∧ s.Describes list.params := by
  rcases declared hs with hu | hm | ⟨s, hd⟩
  · obtain ⟨fault, hf, -⟩ := hu.paramList
    rw [hl] at hf
    cases hf
  · obtain ⟨fault, hf, -⟩ := hm.paramList
    rw [hl] at hf
    cases hf
  · obtain ⟨list', hl', hdescribes⟩ := hd.paramList
    obtain rfl := Except.ok.inj (hl.symm.trans hl')
    exact ⟨s, hd, hdescribes⟩

end Heap

end LexicalEnv
