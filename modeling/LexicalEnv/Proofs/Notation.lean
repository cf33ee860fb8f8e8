import LexicalEnv.Proofs.Refusal
import LexicalEnv.Proofs.Scoping

/-!
# Two notations for parameters

Parameters are written down as records, each with its kind, or as names, with the
marker before the name of one that takes the rest. A list in one notation is
accepted exactly if the list in the other is, and a call does not tell them apart.
What was accepted once is accepted as it is (`ParamList.notations_agree`).
-/

namespace LexicalEnv

open LexicalEnv.Action (Ends)

-- ---------------------------------------------------------------------------
-- From kinds to markers
-- ---------------------------------------------------------------------------

namespace Param

variable {params : List (ParamKind × String)} {s : Signature}

def named (p : ParamKind × String) : Param := ⟨p.1, .sym p.2⟩

/-- The names in order, the marker before each that is for the rest. -/
def written (params : List (ParamKind × String)) : List String :=
  params.flatMap fun p => if p.1 = .rest then [marker, p.2] else [p.2]

theorem written_append (params params' : List (ParamKind × String)) :
    written (params ++ params') = written params ++ written params' :=
  List.flatMap_append

theorem count_written (hp : ∀ p ∈ params, p.2 ≠ marker) :
    (written params).count marker = (params.map (·.1 == .rest)).count true := by
  induction params with
  | nil => rfl
  | cons p params ih =>
    rw [List.forall_mem_cons] at hp
    obtain ⟨kind, name⟩ := p
    have hsplit : written ((kind, name) :: params) = written [(kind, name)] ++ written params :=
      written_append [(kind, name)] params
    rw [hsplit, List.count_append, ih hp.2, List.map_cons, List.count_cons]
    cases kind <;> simp [written, hp.1, Nat.add_comm]

theorem getLast?_written (params : List (ParamKind × String)) :
    (written params).getLast? = params.getLast?.map Prod.snd := by
  induction params using List.reverseRecOn with
  | nil => rfl
  | append_singleton params p _ =>
    obtain ⟨kind, name⟩ := p
    rw [written_append]
    cases kind <;> simp [written, List.getLast?_append]

theorem marker_written_iff (hp : ∀ p ∈ params, p.2 ≠ marker) :
    (written params).reverse[1]? = some marker ↔
      (params.map (·.1 == .rest)).reverse[0]? = some true := by
  induction params using List.reverseRecOn with
  | nil => simp [written]
  | append_singleton params p _ =>
    obtain ⟨kind, name⟩ := p
    rw [List.forall_mem_append] at hp
    rw [written_append]
    cases kind with
    | rest => simp [written]
    | positional =>
      have hlast : (written params).getLast? ≠ some marker := by
        rw [getLast?_written]
        intro hl
        obtain ⟨q, hq, hname⟩ := Option.map_eq_some_iff.mp hl
        exact hp.1 q (List.mem_of_getLast? hq) hname
      rw [List.getLast?_eq_head?_reverse, List.head?_eq_getElem?] at hlast
      simpa [written] using hlast

/-- The two rules are one: a marker stands where it must not exactly if a parameter for the rest
does. -/
theorem misplaced_written_iff (hp : ∀ p ∈ params, p.2 ≠ marker) :
    Misplaced marker 1 (written params) ↔ Misplaced true 0 (params.map (·.1 == .rest)) := by
  have hcount := count_written hp
  have hmem : marker ∈ written params ↔ true ∈ params.map (·.1 == .rest) := by
    rw [← List.count_pos_iff, hcount, List.count_pos_iff]
  simp only [Misplaced, hcount, hmem, ne_eq, marker_written_iff hp]

theorem flags_named (params : List (ParamKind × String)) :
    (params.map named).map (·.kind == .rest) = params.map (·.1 == .rest) := by
  rw [List.map_map]
  rfl

theorem written_of_describes (hd : s.Describes (params.map named)) :
    written params = s.spelled ∧ params.map named = s.params ∧ s.names = params.map Prod.snd := by
  have hinjective : Function.Injective fun p : ParamKind × String => (p.1, some p.2) := by
    rintro p q h
    obtain ⟨hkind, hname⟩ := Prod.mk.inj h
    exact Prod.ext hkind (Option.some.inj hname)
  have hparams : params = s.positional.map (fun name => (.positional, name)) ++
      s.rest.toList.map fun name => (.rest, name) := by
    refine List.map_injective_iff.mpr hinjective ?_
    simpa [Signature.Describes, named, Function.comp_def, Value.symbol?] using hd
  subst hparams
  refine ⟨?_, ?_, ?_⟩
  · simp [written, Signature.spelled, List.flatMap_map]
  · simp only [Signature.params, List.map_append, List.map_map]
    rfl
  · simp [Signature.names, Function.comp_def]

theorem exists_signature (hm : ¬ Misplaced true 0 (params.map (·.1 == .rest))) :
    ∃ s : Signature, s.Describes (params.map named) := by
  refine Signature.exists_describes (fun p hp => ?_) (flags_named params ▸ hm)
  obtain ⟨q, -, rfl⟩ := List.mem_map.mp hp
  rfl

theorem parse_written (hp : ∀ p ∈ params, p.2 ≠ marker)
    (hm : ¬ Misplaced true 0 (params.map (·.1 == .rest))) :
    parse (written params) = .ok (params.map named) := by
  obtain ⟨s, hd⟩ := exists_signature hm
  obtain ⟨hwritten, hnamed, hnames⟩ := written_of_describes hd
  rw [hwritten, hnamed]
  refine parse_spelled fun hmark => ?_
  rw [hnames] at hmark
  obtain ⟨p, hmem, hname⟩ := List.mem_map.mp hmark
  exact hp p hmem hname

theorem checkRests_of_parse {names : List String} {parsed : List Param}
    (hp : parse names = .ok parsed) : checkRests (parsed.map (·.kind == .rest)) = .ok () := by
  have hm : ¬ Misplaced marker 1 names := by
    intro hm
    obtain ⟨cause, hcause⟩ := parse_misplaced hm
    rw [hp] at hcause
    cases hcause
  obtain ⟨s, rfl, hs⟩ := exists_spelled hm
  obtain rfl := Except.ok.inj ((parse_spelled hs).symm.trans hp)
  exact checkRests_iff.mpr s.describes_params.not_misplaced

end Param

-- ---------------------------------------------------------------------------
-- Equal lists
-- ---------------------------------------------------------------------------

theorem Test.onAll_of_forall₂ {test : Test} {xs ys : List Value}
    (hall : List.Forall₂ (fun x y => test x y = .ok true) xs ys) : test.onAll xs ys = .ok true := by
  induction hall with
  | nil => rfl
  | cons hxy _ ih => simp [Test.onAll, hxy, ih, bind, Except.bind]

namespace Heap

variable {h : Heap} {v v' : Value} {xs ys : List Value}

theorem sameMemberAt_self (h : Heap) (fuel : Nat) (v : Value) :
    h.sameMemberAt (fuel + 1) v v = .ok true := by
  simp [sameMemberAt, pure, Except.pure]

theorem sameMemberAt_record {p : ParamKind × String}
    (hv : h.obj? v = some (Param.named p).record) (hv' : h.obj? v' = some (Param.named p).record)
    (fuel : Nat) : h.sameMemberAt (fuel + 2) v v' = .ok true := by
  by_cases hsame : v = v'
  · exact hsame ▸ h.sameMemberAt_self (fuel + 1) v
  · simp [sameMemberAt, hsame, hv, hv', Param.record, Param.named, Obj.entries?, allFound,
      Value.text?, bind, Except.bind, pure, Except.pure]

theorem forall₂_sameMemberAt {params : List (ParamKind × String)}
    (hx : xs.map h.obj? = params.map fun p => some (Param.named p).record)
    (hy : ys.map h.obj? = params.map fun p => some (Param.named p).record) (fuel : Nat) :
    List.Forall₂ (fun x y => h.sameMemberAt (fuel + 2) x y = .ok true) xs ys := by
  induction params generalizing xs ys with
  | nil =>
    obtain rfl := List.map_eq_nil_iff.mp hx
    obtain rfl := List.map_eq_nil_iff.mp hy
    exact .nil
  | cons p params ih =>
    obtain ⟨x, xs, rfl, hx, hxs⟩ := List.map_eq_cons_iff.mp hx
    obtain ⟨y, ys, rfl, hy, hys⟩ := List.map_eq_cons_iff.mp hy
    exact .cons (sameMemberAt_record hx hy fuel) (ih hxs hys)

theorem equal_of_lists (hv : h.obj? v = some (.list xs)) (hv' : h.obj? v' = some (.list ys))
    (hall : ∀ fuel, List.Forall₂ (fun x y => h.sameMemberAt (fuel + 2) x y = .ok true) xs ys) :
    h.equal v v' = .ok true := by
  have hdefined : h.isUndefined v = false := by simp [isUndefined, hv]
  have hmembers := Test.onAll_of_forall₂ (hall (h.size + 997))
  have hlength := (hall 0).length_eq
  rw [equal, hdefined]
  show h.sameMemberAt (h.size + 999 + 1) v v' = .ok true
  by_cases hsame : v = v'
  · exact hsame ▸ h.sameMemberAt_self _ v
  · rw [sameMemberAt, beq_false_of_ne hsame, hv, hv']
    simpa [hlength] using hmembers

end Heap

-- ---------------------------------------------------------------------------
-- One list in two notations
-- ---------------------------------------------------------------------------

/-- A list of records, as parameters are stored, and a list of the names that says the same, with
the names and the markers spelled in any way. No parameter is named like the marker. -/
structure Heap.Notates (h : Heap) (records text : Value) (entries : List Value)
    (params : List (ParamKind × String)) : Prop where
  records : h.obj? records = some (.list entries)
  stored : entries.map h.obj? = params.map fun p => some (Param.named p).record
  text : ∃ members, h.obj? text = some (.list members) ∧ (∀ e ∈ members, h.param? e = none) ∧
    members.map h.nameOf = (Param.written params).map .ok
  unmarked : ∀ p ∈ params, p.2 ≠ Param.marker

namespace Heap.Notates

variable {h : Heap} {records text : Value} {entries : List Value}
  {params : List (ParamKind × String)}

theorem isRecords (hn : h.Notates records text entries params) :
    h.Records records entries (params.map Param.named) := by
  refine ⟨hn.records, mapM_param?_of_records ?_⟩
  rw [hn.stored, List.map_map]
  rfl

theorem paramList_ok (hn : h.Notates records text entries params)
    (hm : ¬ Misplaced true 0 (params.map (·.1 == .rest))) :
    (∃ list, h.paramList records = .ok list ∧ list.params = params.map Param.named) ∧
      ∃ list, h.paramList text = .ok list ∧ list.params = params.map Param.named := by
  obtain ⟨s, hd⟩ := Param.exists_signature hm
  obtain ⟨members, htext, hnone, hnames⟩ := hn.text
  refine ⟨⟨_, paramList_of_records (sequenceOf_list hn.records) hn.isRecords.params hd, rfl⟩, ?_⟩
  cases members with
  | nil =>
    -- Of nothing, nothing is left to tell whether it is records or names.
    have hnil : params = [] := by
      have hwritten : Param.written params = [] := by simpa using hnames.symm
      simpa using (Param.getLast?_written params).symm.trans (congrArg List.getLast? hwritten)
    subst hnil
    have hrecords : ([] : List Value).mapM h.param? = some [] := rfl
    exact ⟨_, paramList_of_records (sequenceOf_list htext) hrecords hd, rfl⟩
  | cons e members =>
    have hparams : (e :: members).mapM h.param? = none :=
      mapM_none_iff.mpr ⟨e, List.mem_cons_self, hnone e List.mem_cons_self⟩
    have hparse := Param.parse_written hn.unmarked hm
    refine ⟨.parsed (params.map Param.named), ?_, rfl⟩
    simp only [Heap.paramList, sequenceOf_list htext, hparams, parseParams,
      mapM_eq_ok_iff.mpr hnames, hparse, checked, bind, Except.bind]
    rfl

theorem malformed (hn : h.Notates records text entries params)
    (hm : Misplaced true 0 (params.map (·.1 == .rest))) :
    h.Malformed records ∧ h.Malformed text := by
  obtain ⟨members, htext, hnone, hnames⟩ := hn.text
  have hwritten := (Param.misplaced_written_iff hn.unmarked).mpr hm
  refine ⟨.records (sequenceOf_list hn.records) hn.isRecords.params
    (Param.flags_named params ▸ hm), ?_⟩
  cases members with
  | nil =>
    have hnil : Param.written params = [] := by simpa using hnames.symm
    simp [hnil, Misplaced] at hwritten
  | cons e members =>
    exact .names (sequenceOf_list htext) List.mem_cons_self (hnone e List.mem_cons_self)
      (mapM_eq_ok_iff.mpr hnames) hwritten

end Heap.Notates

-- ---------------------------------------------------------------------------
-- What is made of the two
-- ---------------------------------------------------------------------------

def World.Returns (w : World) (x : Action Value) (v : Value) : Prop :=
  ∃ result w', x w = .ok result w' ∧ w.Grows w' ∧ w'.heap.equal result v = .ok true

abbrev World.Rejects (w : World) (x : Action Value) : Prop := w.Refuses "ParameterListError" x

theorem Heap.checkRests_of_paramList {h : Heap} {binds : Value} {list : ParamList}
    (hl : h.paramList binds = .ok list) :
    Param.checkRests (list.params.map (·.kind == .rest)) = .ok () := by
  obtain ⟨members, -, hl⟩ := bind_ok.mp hl
  split at hl
  · obtain ⟨u, hc, hl⟩ := bind_ok.mp hl
    cases hl
    exact checked_ok.mp hc
  · obtain ⟨found, hf, hl⟩ := bind_ok.mp hl
    obtain ⟨names, -, hf⟩ := bind_ok.mp hf
    cases hl
    exact Param.checkRests_of_parse (checked_ok.mp hf)

theorem Frame.extend_malformed {w : World} {binds : Value} (hm : w.heap.Malformed binds)
    (outer exprs : Value) (debug : Bool) (name : Value) :
    w.Rejects (extend outer binds exprs debug name) := by
  obtain ⟨fault, hl, htitle⟩ := hm.paramList
  exact ⟨fault, extend_of_binds outer exprs name debug hl, htitle⟩

theorem World.returns_copy {w : World} {x : Action Value} {list : Value} {entries : List Value}
    (ho : w.heap.obj? list = some (.list entries)) (hx : x w = Action.alloc (.list entries) w) :
    w.Returns x list := by
  have hk := w.heap.kept_add (.list entries)
  refine ⟨.ref w.heap.size, { w with heap := w.heap.add (.list entries) }, hx, ⟨hk, rfl, rfl⟩, ?_⟩
  refine Heap.equal_of_lists (Heap.obj?_add_self _ _) (hk _ _ ho) fun fuel => ?_
  exact List.forall₂_same.mpr fun v _ => Heap.sameMemberAt_self _ (fuel + 1) v

namespace ParamList

variable {w w' : World} {records text binds list : Value} {entries : List Value}
  {params : List (ParamKind × String)} {found : List Param}

theorem validate_returns (hr : w.heap.Records records entries found)
    (hc : Param.checkRests (found.map (·.kind == .rest)) = .ok ()) :
    w.Returns (validate records) records := by
  have hvalid : w.heap.validated records = .ok entries := by
    rw [hr.validated, hc]
    rfl
  have hread : Action.read (·.validated records) w = .ok entries w := Action.run_read hvalid
  exact World.returns_copy hr.list (by simp only [validate, Action.run_bind, hread])

theorem validate_rejects (hr : w.heap.Records records entries found)
    (hm : Misplaced true 0 (found.map (·.kind == .rest))) : w.Rejects (validate records) := by
  cases hc : Param.checkRests (found.map (·.kind == .rest)) with
  | ok u => exact absurd hm (Param.checkRests_iff.mp hc)
  | error cause =>
    have hvalid : w.heap.validated records = .error (.ofParameters cause) := by
      rw [hr.validated, hc]
      rfl
    have hread : Action.read (·.validated records) w = .error (.ofParameters cause) w :=
      Action.run_read_error hvalid
    exact ⟨.ofParameters cause, by simp only [validate, Action.run_bind, hread], rfl⟩

theorem parse_returns (hn : w.heap.Notates records text entries params)
    (hm : ¬ Misplaced true 0 (params.map (·.1 == .rest))) : w.Returns (parse text) records := by
  obtain ⟨members, htext, -, hnames⟩ := hn.text
  have hp : w.heap.parseParams members = .ok (params.map Param.named) := by
    rw [parseParams_of_names hnames, Param.parse_written hn.unmarked hm]
    rfl
  have hitems : w.heap.items text = .ok members := Heap.items_list htext
  obtain ⟨result, w', hrun, hg, entries', hlist, hnew⟩ :=
    (parse_records hitems hp).exists_ok (by simp)
  rw [List.map_map] at hnew
  exact ⟨result, w', hrun, hg, Heap.equal_of_lists hlist (hg.kept _ _ hn.records)
    (Heap.forall₂_sameMemberAt hnew (hg.kept.map_obj? hn.stored))⟩

theorem parse_rejects (hn : w.heap.Notates records text entries params)
    (hm : Misplaced true 0 (params.map (·.1 == .rest))) : w.Rejects (parse text) := by
  obtain ⟨members, htext, -, hnames⟩ := hn.text
  obtain ⟨cause, hcause⟩ :=
    Param.parse_misplaced ((Param.misplaced_written_iff hn.unmarked).mpr hm)
  have hp : w.heap.parseParams members = .error (.ofParameters cause) := by
    rw [parseParams_of_names hnames, hcause]
    rfl
  exact ⟨.ofParameters cause, parse_of_error (Heap.items_list htext) hp, rfl⟩

theorem ensure_ends (w : World) (binds : Value) :
    Ends (ensure binds) w
      (fun list w' => ∃ entries found, w'.heap.Records list entries found ∧
        Param.checkRests (found.map (·.kind == .rest)) = .ok ())
      (fun _ _ => True) := by
  refine Ends.read (fun checked hl => ?_) fun _ _ => trivial
  refine Ends.bind ((store_ends hl).mono (fun _ _ h => h) fun _ _ h => h.elim) ?_
  rintro entries w₁ ⟨-, hentries⟩
  refine (Action.alloc_ends w₁ (.list entries)).mono ?_ fun _ _ h => h.elim
  rintro list w₂ ⟨hg, hlist⟩
  exact ⟨entries, checked.params, ⟨hlist, mapM_some_mono (fun _ _ => hg.kept.param?) hentries⟩,
    Heap.checkRests_of_paramList hl⟩

theorem ensure_returns (hr : w.heap.Records list entries found)
    (hc : Param.checkRests (found.map (·.kind == .rest)) = .ok ()) :
    w.Returns (ensure list) list := by
  have hl : w.heap.paramList list = .ok (.recorded entries found) := by
    simp only [Heap.paramList, Heap.sequenceOf_list hr.list, hr.params, hc, Heap.checked, bind,
      Except.bind]
    rfl
  have hread : Action.read (·.paramList list) w = .ok _ w := Action.run_read hl
  exact World.returns_copy hr.list (by simp only [ensure, Action.run_bind, hread]; rfl)

/-- A list of parameters in two notations: records, and names with markers. If each parameter for
the rest is the last, then checking the records and parsing the names both give the list of records
back, and a call of either runs the same. Otherwise both are refused as malformed, and so is every
call. And a list that was accepted in any notation is given back when it is put in again. -/
theorem notations_agree (w : World) :
    (∀ records text entries params, w.heap.Notates records text entries params →
      (¬ Misplaced true 0 (params.map (·.1 == .rest)) →
        w.Returns (validate records) records ∧ w.Returns (parse text) records ∧
          ∀ outer exprs debug name, Frame.extend outer text exprs debug name w =
            Frame.extend outer records exprs debug name w) ∧
      (Misplaced true 0 (params.map (·.1 == .rest)) →
        w.Rejects (validate records) ∧ w.Rejects (parse text) ∧
          ∀ outer exprs debug name, w.Rejects (Frame.extend outer records exprs debug name) ∧
            w.Rejects (Frame.extend outer text exprs debug name))) ∧
      ∀ binds list w', ensure binds w = .ok list w' → w'.Returns (ensure list) list := by
  refine ⟨fun records text entries params hn => ⟨fun hm => ?_, fun hm => ?_⟩,
    fun binds list w' hrun => ?_⟩
  · have hrests := Param.checkRests_iff.mpr (Param.flags_named params ▸ hm)
    obtain ⟨⟨list, hl, hparams⟩, list', hl', hparams'⟩ := hn.paramList_ok hm
    refine ⟨validate_returns hn.isRecords hrests, parse_returns hn hm,
      fun outer exprs debug name => ?_⟩
    exact Frame.extend_congr hl hl' (hparams'.trans hparams.symm) outer exprs debug name
  · obtain ⟨hrecords, htext⟩ := hn.malformed hm
    refine ⟨validate_rejects hn.isRecords (Param.flags_named params ▸ hm), parse_rejects hn hm,
      fun outer exprs debug name => ⟨?_, ?_⟩⟩
    · exact Frame.extend_malformed hrecords outer exprs debug name
    · exact Frame.extend_malformed htext outer exprs debug name
  · obtain ⟨entries, found, hr, hc⟩ := (ensure_ends w binds).ok hrun
    exact ensure_returns hr hc

/-- Two parameters, in order and in the wrong order, each time as records and as names. -/
def twiceWritten : World :=
  let make : Action Unit := do
    let a ← Param.make .positional (.str "a")
    let r ← Param.make .rest (.str "r")
    discard (Action.alloc (.list [a, r]))
    discard (Action.alloc (.list [.sym "a", .str "&", .sym "r"]))
    discard (Action.alloc (.list [r, a]))
    discard (Action.alloc (.list [.sym "&", .sym "r", .sym "a"]))
  make.after .initial

theorem notations_agree_twiceWritten :
    twiceWritten.heap.Notates (.ref 6) (.ref 7) [.ref 4, .ref 5]
        [(.positional, "a"), (.rest, "r")] ∧
      twiceWritten.Returns (validate (.ref 6)) (.ref 6) ∧
      twiceWritten.Returns (parse (.ref 7)) (.ref 6) ∧
      twiceWritten.Rejects (validate (.ref 8)) ∧ twiceWritten.Rejects (parse (.ref 9)) ∧
      ∃ list w', ensure (.ref 7) twiceWritten = .ok list w' ∧ w'.Returns (ensure list) list := by
  have hn : twiceWritten.heap.Notates (.ref 6) (.ref 7) [.ref 4, .ref 5]
      [(.positional, "a"), (.rest, "r")] :=
    ⟨rfl, rfl, ⟨[.sym "a", .str "&", .sym "r"], rfl, by decide, rfl⟩, by decide⟩
  have hn' : twiceWritten.heap.Notates (.ref 8) (.ref 9) [.ref 5, .ref 4]
      [(.rest, "r"), (.positional, "a")] :=
    ⟨rfl, rfl, ⟨[.sym "&", .sym "r", .sym "a"], rfl, by decide, rfl⟩, by decide⟩
  have hplaced : ¬ Misplaced true 0 [false, true] := by simp [Misplaced]
  have hmisplaced : Misplaced true 0 [true, false] := by simp [Misplaced]
  obtain ⟨hagree, hagain⟩ := notations_agree twiceWritten
  obtain ⟨hvalid, hparsed, -⟩ := (hagree _ _ _ _ hn).1 hplaced
  obtain ⟨hinvalid, hunparsed, -⟩ := (hagree _ _ _ _ hn').2 hmisplaced
  exact ⟨hn, hvalid, hparsed, hinvalid, hunparsed, _, _, rfl, hagain (.ref 7) _ _ rfl⟩

end ParamList

end LexicalEnv
