import LexicalEnv.Proofs.History

/-!
# Parsing parameter lists

A list of names is a parameter list if the marker is not in it, or once, before
the last name. Parsing accepts these lists and no others, and what it makes of
them is a list of records that is taken as it is from then on
(`ParamList.parse_grammar`).
-/

namespace LexicalEnv

open LexicalEnv.Action (Ends)

-- ---------------------------------------------------------------------------
-- The grammar
-- ---------------------------------------------------------------------------

namespace Param

/-- The marker is not there, or it is there once, in the last place but one. -/
def WellMarked (names : List String) : Prop :=
  marker ∉ names ∨
    (2 ≤ names.length ∧ ∀ i : Nat, names[i]? = some marker ↔ i = names.length - 2)

/-- The parameters in the order of their names; a name behind the marker takes the rest. -/
def described (names : List String) : List Param :=
  if marker ∈ names then
    (names.take (names.length - 2)).map positional ++ (names.drop (names.length - 1)).map rest
  else names.map positional

variable {names : List String} {s : Signature}

theorem wellMarked_spelled (hm : marker ∉ s.names) : WellMarked s.spelled := by
  obtain ⟨front, _ | last⟩ := s
  · left
    simpa [Signature.spelled, Signature.names] using hm
  · obtain ⟨hfront, hlast⟩ : marker ∉ front ∧ marker ≠ last := by
      simpa [Signature.names] using hm
    right
    constructor
    · simp [Signature.spelled]
    · intro i
      have hlen : (Signature.spelled ⟨front, some last⟩).length - 2 = front.length := by
        simp [Signature.spelled]
      rw [hlen]
      simp only [Signature.spelled, Option.toList_some, List.flatMap_cons, List.flatMap_nil,
        List.append_nil]
      -- Before the marker, at it, and behind it.
      rcases Nat.lt_trichotomy i front.length with hi | rfl | hi
      · rw [List.getElem?_append_left hi]
        exact iff_of_false (fun hget => hfront (List.mem_of_getElem? hget)) (Nat.ne_of_lt hi)
      · simp
      · obtain ⟨k, rfl⟩ := Nat.exists_eq_add_of_lt hi
        rw [List.getElem?_append_right (by omega)]
        refine iff_of_false ?_ (by omega)
        have hk : front.length + k + 1 - front.length = k + 1 := by omega
        rw [hk, List.getElem?_cons_succ]
        cases k <;> simp [Ne.symm hlast]

theorem WellMarked.not_misplaced (hw : WellMarked names) : ¬ Misplaced marker 1 names := by
  rw [not_misplaced_iff]
  rcases hw with hw | ⟨hlen, hw⟩
  · exact .inl hw
  · right
    have hlt : names.length - 2 < names.length := by omega
    have hget : names[names.length - 2] = marker :=
      (List.getElem?_eq_some_iff.mp ((hw _).mpr rfl)).2
    refine ⟨names.take (names.length - 2), names.drop (names.length - 1), ?_, ?_, ?_, ?_⟩
    · rw [← hget, show names.length - 1 = names.length - 2 + 1 by omega, List.getElem_cons_drop,
        List.take_append_drop]
    · rw [List.length_drop]
      omega
    · intro hm
      obtain ⟨i, hi⟩ := List.mem_iff_getElem?.mp hm
      rw [List.getElem?_take] at hi
      split at hi
      · have := (hw i).mp hi
        omega
      · cases hi
    · intro hm
      obtain ⟨i, hi⟩ := List.mem_iff_getElem?.mp hm
      rw [List.getElem?_drop] at hi
      have := (hw _).mp hi
      omega

theorem WellMarked.exists_spelled (hw : WellMarked names) :
    ∃ s : Signature, names = s.spelled ∧ marker ∉ s.names :=
  Param.exists_spelled hw.not_misplaced

theorem described_spelled (hm : marker ∉ s.names) : described s.spelled = s.params := by
  obtain ⟨front, _ | last⟩ := s
  · have hfront : marker ∉ front := by simpa [Signature.names] using hm
    simp [described, Signature.spelled, Signature.params, hfront]
  · have hlen : (Signature.spelled ⟨front, some last⟩).length = front.length + 2 := by
      simp [Signature.spelled]
    have hdrop : (front ++ [marker, last]).drop (front.length + 1) = [last] := by
      simp [List.drop_append]
    rw [described, if_pos (by simp [Signature.spelled]), hlen]
    simp [Signature.spelled, Signature.params, hdrop]

theorem parse_of_wellMarked (hw : WellMarked names) : parse names = .ok (described names) := by
  obtain ⟨s, rfl, hm⟩ := hw.exists_spelled
  rw [parse_spelled hm, described_spelled hm]

theorem parse_of_not_wellMarked (hw : ¬ WellMarked names) :
    ∃ cause, parse names = .error cause := by
  apply parse_misplaced
  by_contra hm
  obtain ⟨s, rfl, hs⟩ := Param.exists_spelled hm
  exact hw (wellMarked_spelled hs)

end Param

-- ---------------------------------------------------------------------------
-- Records
-- ---------------------------------------------------------------------------

namespace Heap

variable {h : Heap} {v list : Value} {entries : List Value} {params : List Param}

theorem subscript_of_entries {fields : Entries} {name : String} {birth : Birth} {value : Value}
    (he : h.entries? v = some fields) (hf : h.find? fields (.text name birth) = some value) :
    h.subscript v (.text name birth) = .ok value := by
  obtain ⟨o, ho, hentries⟩ := Option.bind_eq_some_iff.mp he
  obtain ⟨a, rfl, -⟩ := exists_ref_of_obj? ho
  cases o <;> simp_all [subscript, Obj.entries?, pure, Except.pure]

theorem field_of_entries {fields : Entries} {name : String} {value : Value}
    (he : h.entries? v = some fields) (hf : h.find? fields (.str name) = some value) :
    h.field v name = .ok value :=
  subscript_of_entries he hf

theorem kindOf_of_param? {p : Param} (hp : h.param? v = some p) : h.kindOf v = .ok (some p.kind) := by
  obtain ⟨fields, he, hp⟩ := Option.bind_eq_some_iff.mp hp
  obtain ⟨label, hl, hp⟩ := Option.bind_eq_some_iff.mp hp
  obtain ⟨kind, hk, hp⟩ := Option.bind_eq_some_iff.mp hp
  obtain ⟨name, -, hp⟩ := Option.bind_eq_some_iff.mp hp
  obtain rfl := Option.some.inj hp
  simp [kindOf, field_of_entries he hl, hk, bind, Except.bind, pure, Except.pure]

theorem checked_ok {α : Type} {x : Except ParameterFault α} {a : α} :
    checked x = .ok a ↔ x = .ok a := by
  cases x <;> simp [checked]

theorem sequenceOf_list (ho : h.obj? list = some (.list entries)) :
    h.sequenceOf list = .ok entries := by
  obtain ⟨a, rfl, -⟩ := exists_ref_of_obj? ho
  have he : h.entries? (.ref a) = none := by simp [Heap.entries?, ho, Obj.entries?]
  simp [Heap.sequenceOf, Heap.tagged?, he, items_list ho]

structure Records (h : Heap) (list : Value) (entries : List Value) (params : List Param) : Prop where
  list : h.obj? list = some (.list entries)
  params : entries.mapM h.param? = some params

namespace Records

theorem items (hr : h.Records list entries params) : h.items list = .ok entries :=
  items_list hr.list

theorem isParamRecords (hr : h.Records list entries params) : h.isParamRecords list = .ok true := by
  have hall : entries.all (fun entry => (h.param? entry).isSome) = true := by
    rw [List.all_eq_true]
    intro entry he
    have hm : h.param? entry ∈ params.map some :=
      mapM_eq_some_iff.mp hr.params ▸ List.mem_map_of_mem he
    obtain ⟨p, -, hp⟩ := List.mem_map.mp hm
    simp [← hp]
  simp [Heap.isParamRecords, hr.items, hall, bind, Except.bind, pure, Except.pure]

theorem kinds (hr : h.Records list entries params) :
    entries.mapM h.kindOf = .ok (params.map fun p => some p.kind) := by
  have hparams := mapM_eq_some_iff.mp hr.params
  rw [mapM_eq_ok_iff, List.map_map]
  apply List.ext_getElem?
  intro i
  have hi := congrArg (·[i]?) hparams
  simp only [List.getElem?_map] at hi ⊢
  cases he : entries[i]? with
  | none => cases hp : params[i]? <;> simp_all
  | some e =>
    cases hp : params[i]? with
    | none => simp [he, hp] at hi
    | some p =>
      have hep : h.param? e = some p := by simpa [he, hp] using hi
      simp [kindOf_of_param? hep]

theorem validated (hr : h.Records list entries params) :
    h.validated list =
      checked ((Param.checkRests (params.map (·.kind == .rest))).map fun _ => entries) := by
  have hflags : (params.map fun p => some p.kind).map (· == some .rest) =
      params.map (·.kind == .rest) := by
    rw [List.map_map]
    rfl
  simp only [Heap.validated, hr.items, hr.kinds, hflags, bind, Except.bind]
  cases Param.checkRests (params.map (·.kind == .rest)) <;> rfl

theorem arityOf (hr : h.Records list entries params) :
    h.arityOf list = .ok (Arity.ofParams params) := by
  simp [Heap.arityOf, hr.items, hr.kinds, Arity.ofParams, bind, Except.bind, pure, Except.pure]

end Records

end Heap

-- ---------------------------------------------------------------------------
-- Parsing
-- ---------------------------------------------------------------------------

theorem Signature.exists_name {s : Signature} {p : Param} (hp : p ∈ s.params) :
    ∃ name ∈ s.names, p.name.symbol? = some name := by
  rw [Signature.params, List.mem_append, List.mem_map, List.mem_map] at hp
  rcases hp with ⟨name, hm, rfl⟩ | ⟨name, hm, rfl⟩
  · exact ⟨name, List.mem_append_left _ hm, rfl⟩
  · exact ⟨name, List.mem_append_right _ hm, rfl⟩

theorem Arity.ofParams_eq (params : List Param) :
    ofParams params = ⟨params.countP (·.kind == .positional),
      if ∃ p ∈ params, p.kind = .rest then none
      else some (params.countP (·.kind == .positional))⟩ := by
  have hcount : (params.map fun p => some p.kind).count (some .positional) =
      params.countP (·.kind == .positional) := by
    rw [List.count, List.countP_map]
    rfl
  simp [ofParams, ofKinds, hcount]

theorem Heap.mapM_param?_of_records {h : Heap} {entries : List Value} {params : List Param}
    (he : entries.map h.obj? = params.map fun p => some p.record) :
    entries.mapM h.param? = some params := by
  rw [mapM_eq_some_iff]
  induction params generalizing entries with
  | nil =>
    obtain rfl := List.map_eq_nil_iff.mp he
    rfl
  | cons p params ih =>
    obtain ⟨entry, rest, rfl, hentry, hrest⟩ := List.map_eq_cons_iff.mp he
    rw [List.map_cons, List.map_cons, param?_record hentry, ih hrest]

theorem Heap.Kept.map_obj? {h h' : Heap} {α : Type} {values : List Value} {l : List α}
    {o : α → Obj} (hk : h.Kept h') (hv : values.map h.obj? = l.map fun a => some (o a)) :
    values.map h'.obj? = l.map fun a => some (o a) := by
  rw [← hv]
  refine List.map_congr_left fun v hm => ?_
  have hobj : h.obj? v ∈ l.map fun a => some (o a) := hv ▸ List.mem_map_of_mem hm
  obtain ⟨a, -, ha⟩ := List.mem_map.mp hobj
  rw [← ha, hk v (o a) ha.symm]

theorem Param.store_records (w : World) (params : List Param) :
    Ends (params.mapM store) w
      (fun entries w' => w.Grows w' ∧
        entries.map w'.heap.obj? = params.map fun p => some p.record)
      (fun _ _ => False) := by
  induction params generalizing w with
  | nil => exact Ends.pure ⟨.refl w, rfl⟩
  | cons p params ih =>
    rw [List.mapM_cons]
    refine Ends.bind (Action.alloc_ends w p.record) ?_
    rintro entry w₁ ⟨hg₁, hentry⟩
    refine Ends.bind (ih w₁) ?_
    rintro entries w₂ ⟨hg₂, hentries⟩
    refine Ends.pure ⟨hg₁.trans hg₂, ?_⟩
    rw [List.map_cons, List.map_cons, hentries, hg₂.kept _ _ hentry]

theorem Param.store_ends (w : World) (params : List Param) :
    Ends (params.mapM store) w
      (fun entries w' => w.Grows w' ∧ entries.mapM w'.heap.param? = some params)
      (fun _ _ => False) :=
  (store_records w params).mono (fun _ _ h => ⟨h.1, Heap.mapM_param?_of_records h.2⟩) fun _ _ h => h

namespace ParamList

variable {w : World} {symbols : Value} {members : List Value} {names : List String}

theorem parse_of_error {fault : Fault} (hm : w.heap.items symbols = .ok members)
    (hp : w.heap.parseParams members = .error fault) : parse symbols w = .error fault w := by
  have hlook : (do w.heap.parseParams (← w.heap.items symbols)) = .error fault := by
    rw [hm]
    exact hp
  have hread : Action.read (fun h => do h.parseParams (← h.items symbols)) w = .error fault w :=
    Action.run_read_error hlook
  simp only [parse, Action.run_bind, hread]

theorem parse_records {params : List Param} (hm : w.heap.items symbols = .ok members)
    (hp : w.heap.parseParams members = .ok params) :
    Ends (parse symbols) w
      (fun list w' => w.Grows w' ∧ ∃ entries, w'.heap.obj? list = some (.list entries) ∧
        entries.map w'.heap.obj? = params.map fun p => some p.record)
      (fun _ _ => False) := by
  have hlook : (do w.heap.parseParams (← w.heap.items symbols)) = .ok params := by
    rw [hm]
    exact hp
  refine Ends.read (fun params' hp' => ?_) fun fault hp' => ?_
  · obtain rfl := Except.ok.inj (hlook.symm.trans hp')
    refine Ends.bind (Param.store_records w params) ?_
    rintro entries w₁ ⟨hg, hentries⟩
    refine (Action.alloc_ends w₁ (.list entries)).mono ?_ fun _ _ h => h
    rintro list w₂ ⟨hg', hlist⟩
    exact ⟨hg.trans hg', entries, hlist, hg'.kept.map_obj? hentries⟩
  · exact absurd (hlook.symm.trans hp') (by simp)

theorem parse_ends {params : List Param} (hm : w.heap.items symbols = .ok members)
    (hp : w.heap.parseParams members = .ok params) :
    Ends (parse symbols) w
      (fun list w' => w.Grows w' ∧ ∃ entries, w'.heap.Records list entries params)
      (fun _ _ => False) := by
  refine (parse_records hm hp).mono ?_ fun _ _ h => h
  rintro list w' ⟨hg, entries, hlist, hentries⟩
  exact ⟨hg, entries, hlist, Heap.mapM_param?_of_records hentries⟩

theorem parseParams_of_names (hn : members.map w.heap.nameOf = names.map .ok) :
    w.heap.parseParams members = Heap.checked (Param.parse names) := by
  rw [Heap.parseParams, mapM_eq_ok_iff.mpr hn]
  rfl

/-- A member that means no name is refused, whatever else is wrong. Otherwise parsing succeeds
exactly if the names are well marked, and a list that is not is refused as malformed. What is made
is a list of new records of the parameters described. It is recognised as parameters, is taken as it
is, has no parameter named like the marker and accepts as many arguments as there are positional
parameters, or more if one takes the rest. -/
theorem parse_grammar (hm : w.heap.items symbols = .ok members) :
    ((∃ e ∈ members, ∃ fault, w.heap.nameOf e = .error fault) →
      ∃ fault, parse symbols w = .error fault w ∧ fault.title = "TypeError") ∧
      ∀ names, members.map w.heap.nameOf = names.map .ok →
        (¬ Param.WellMarked names →
          ∃ fault, parse symbols w = .error fault w ∧ fault.title = "ParameterListError") ∧
        (Param.WellMarked names → ∃ list w', parse symbols w = .ok list w' ∧ w.Grows w' ∧
          ∃ entries, w'.heap.Records list entries (Param.described names) ∧
            w'.heap.isParamRecords list = .ok true ∧ w'.heap.validated list = .ok entries ∧
            (∀ p ∈ Param.described names, p.name.symbol? ≠ some Param.marker) ∧
            ∃ positional, positional = (Param.described names).countP (·.kind == .positional) ∧
              w'.heap.arityOf list = .ok ⟨positional,
                if ∃ p ∈ Param.described names, p.kind = .rest then none else some positional⟩) := by
  refine ⟨fun hbad => ?_, fun names hn => ⟨fun hw => ?_, fun hw => ?_⟩⟩
  · obtain ⟨e, he, fault, hfault⟩ := hbad
    cases hnames : members.mapM w.heap.nameOf with
    | ok names =>
      obtain ⟨name, hname⟩ := mapM_ok_mem hnames e he
      rw [hfault] at hname
      cases hname
    | error cause =>
      obtain ⟨e', -, hcause⟩ := mapM_error hnames
      have hp : w.heap.parseParams members = .error cause := by
        simp only [Heap.parseParams, hnames, bind, Except.bind]
      exact ⟨cause, parse_of_error hm hp, Heap.nameOf_error hcause⟩
  · obtain ⟨cause, hcause⟩ := Param.parse_of_not_wellMarked hw
    have hp := parseParams_of_names hn
    rw [hcause] at hp
    exact ⟨_, parse_of_error hm hp, rfl⟩
  · have hp := parseParams_of_names hn
    rw [Param.parse_of_wellMarked hw] at hp
    obtain ⟨list, w', hrun, hg, entries, hr⟩ := (parse_ends hm hp).exists_ok (by simp)
    obtain ⟨s, rfl, hs⟩ := hw.exists_spelled
    rw [Param.described_spelled hs] at hr ⊢
    have hd := s.describes_params
    refine ⟨list, w', hrun, hg, entries, hr, hr.isParamRecords, ?_, ?_, _, rfl, ?_⟩
    · rw [hr.validated, Param.checkRests_iff.mpr hd.not_misplaced]
      rfl
    · intro p hmem hname
      obtain ⟨name, hin, hp⟩ := Signature.exists_name hmem
      rw [hp] at hname
      exact hs (Option.some.inj hname ▸ hin)
    · rw [hr.arityOf, Arity.ofParams_eq]

theorem parse_grammar_listedNames :
    World.listedNames.heap.items (.ref 8) = .ok [.sym "a", .sym "&", .sym "r"] ∧
      ∃ list w', parse (.ref 8) World.listedNames = .ok list w' ∧
        w'.heap.isParamRecords list = .ok true ∧ w'.heap.arityOf list = .ok ⟨1, none⟩ := by
  have hitems : World.listedNames.heap.items (.ref 8) =
    .ok [.sym "a", .sym "&", .sym "r"] := rfl
  have hmarked : Param.WellMarked ["a", "&", "r"] :=
    Param.wellMarked_spelled (s := ⟨["a"], some "r"⟩) (by decide)
  obtain ⟨-, hnames⟩ := parse_grammar hitems
  obtain ⟨-, hparse⟩ := hnames ["a", "&", "r"] rfl
  obtain ⟨list, w', hrun, -, entries, -, hrecords, -, -, positional, hcount, harity⟩ :=
    hparse hmarked
  have hone : positional = 1 := hcount
  have hrest : ∃ p ∈ Param.described ["a", "&", "r"], p.kind = .rest := by decide
  rw [hone, if_pos hrest] at harity
  exact ⟨hitems, list, w', hrun, hrecords, harity⟩

end ParamList

end LexicalEnv
