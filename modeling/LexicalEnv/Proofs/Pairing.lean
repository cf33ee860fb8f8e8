import LexicalEnv.Frame.Construction
import LexicalEnv.Proofs.Signature
import LexicalEnv.Proofs.Sound

/-!
# Pairing parameters with arguments

A call pairs its parameters with its arguments by position. Once parameters and
the number of arguments were found to fit (`Param.fits_of_check`) there is an
argument in every position that is looked at, so the pairing does not fail
(`Frame.pairUp_ends`).
-/

namespace LexicalEnv

open LexicalEnv.Action (Ends)

variable {h h' : Heap} {params : List Param} {args : List Value} {bindings : Entries}
  {position : Nat}

def Heap.IsList (h : Heap) (v : Value) (members : List Value) : Prop :=
  ∃ payload, h.obj? v = some (Tagged.table payload (.str "List")) ∧
    h.obj? payload = some (.list members)

theorem Heap.IsList.kept {h h' : Heap} {v : Value} {members : List Value} (hl : h.IsList v members)
    (hk : h.Kept h') : h'.IsList v members := by
  obtain ⟨payload, htable, hlist⟩ := hl
  exact ⟨payload, hk _ _ htable, hk _ _ hlist⟩

theorem Tagged.list_ends (w : World) (members : List Value) :
    Ends (list members) w (fun v w' => w.Grows w' ∧ w'.heap.IsList v members)
      (fun _ _ => False) := by
  have hk := (w.heap.add (.list members)).kept_add (Tagged.table (.ref w.heap.size) (.str "List"))
  refine Ends.of_ok rfl ⟨⟨(w.heap.kept_add _).trans hk, rfl, rfl⟩, .ref w.heap.size, ?_, ?_⟩
  · exact Heap.obj?_add_self _ _
  · exact hk _ _ (Heap.obj?_add_self _ _)

namespace Param

/-- Positional parameters, behind them at most one for the rest, and a number of arguments that they
accept. -/
inductive Fits : List Param → Nat → Prop
  | none : Fits [] 0
  | rest (name : Value) (got : Nat) : Fits [⟨.rest, name⟩] got
  | positional (name : Value) {params : List Param} {got : Nat} :
    Fits params got → Fits (⟨.positional, name⟩ :: params) (got + 1)

theorem checkRests_cons_false {rests : List Bool} (hc : checkRests (false :: rests) = .ok ()) :
    checkRests rests = .ok () := by
  rw [checkRests_iff, not_misplaced_iff] at hc ⊢
  rcases hc with hm | ⟨front, back, hsplit, hback, hfront, hrest⟩
  · exact .inl fun hm' => hm (List.mem_cons_of_mem _ hm')
  · cases front with
    | nil => simp at hsplit
    | cons b front =>
      obtain ⟨-, rfl⟩ := List.cons.inj hsplit
      exact .inr ⟨front, back, rfl, hback, fun hm => hfront (List.mem_cons_of_mem _ hm), hrest⟩

theorem eq_nil_of_checkRests {rests : List Bool} (hc : checkRests (true :: rests) = .ok ()) :
    rests = [] := by
  rw [checkRests_iff, not_misplaced_iff] at hc
  rcases hc with hm | ⟨front, back, hsplit, hback, hfront, -⟩
  · simp at hm
  · cases front with
    | nil =>
      obtain ⟨-, rfl⟩ := List.cons.inj hsplit
      exact List.length_eq_zero_iff.mp hback
    | cons b front =>
      obtain ⟨rfl, -⟩ := List.cons.inj hsplit
      simp at hfront

theorem fits_of_check {params : List Param} {got : Nat}
    (hc : checkRests (params.map (·.kind == .rest)) = .ok ())
    (ha : (Arity.ofParams params).accepts got = true) : Fits params got := by
  rw [Arity.accepts_ofParams_iff] at ha
  induction params generalizing got with
  | nil =>
    obtain rfl : got = 0 := by simpa using ha
    exact .none
  | cons p params ih =>
    obtain ⟨kind, name⟩ := p
    cases kind with
    | rest =>
      obtain rfl : params = [] := by simpa using eq_nil_of_checkRests hc
      exact .rest name got
    | positional =>
      simp only [List.map_cons, List.count_cons_self, List.mem_cons, reduceCtorEq, false_or] at ha
      obtain ⟨hleast, hmost⟩ := ha
      obtain ⟨got, rfl⟩ := Nat.exists_eq_add_one_of_ne_zero (Nat.ne_zero_of_lt hleast)
      refine .positional name (ih (checkRests_cons_false hc) ⟨by omega, fun hr => ?_⟩)
      have := hmost hr
      omega

/-- What a parameter takes of the arguments of a call: the one in its place, or all from there on. -/
def Takes (h : Heap) (args : List Value) (i : Nat) (p : Param) (v : Value) : Prop :=
  match p.kind with
  | .positional => args[i]? = some v
  | .rest => h.IsList v (args.drop i)

theorem Takes.kept {p : Param} {v : Value} (ht : p.Takes h args position v) (hk : h.Kept h') :
    p.Takes h' args position v := by
  unfold Takes at ht ⊢
  split at ht
  · exact ht
  · exact ht.kept hk

/-- The parameters from a position on, each by its name and with what it takes. -/
inductive Pairs (h : Heap) (args : List Value) : Nat → List Param → Entries → Prop
  | nil (position : Nat) : Pairs h args position [] []
  | cons {position : Nat} {p : Param} {v : Value} {params : List Param} {bindings : Entries}
    (ht : p.Takes h args position v) (hp : Pairs h args (position + 1) params bindings) :
    Pairs h args position (p :: params) ((p.name, v) :: bindings)

namespace Pairs

theorem kept (hp : Pairs h args position params bindings) (hk : h.Kept h') :
    Pairs h' args position params bindings := by
  induction hp with
  | nil position => exact .nil position
  | cons ht _ ih => exact .cons (ht.kept hk) ih

theorem names (hp : Pairs h args position params bindings) :
    bindings.map Prod.fst = params.map Param.name := by
  induction hp with
  | nil => rfl
  | cons _ _ ih => simp [ih]

theorem exists_param {i : Nat} {e : Value × Value} (hp : Pairs h args position params bindings)
    (he : bindings[i]? = some e) : ∃ p, params[i]? = some p ∧ p.name = e.1 := by
  have hname : (params.map Param.name)[i]? = some e.1 := by simp [← hp.names, he]
  rw [List.getElem?_map] at hname
  exact Option.map_eq_some_iff.mp hname

theorem exists_param_of_mem {e : Value × Value} (hp : Pairs h args position params bindings)
    (he : e ∈ bindings) : ∃ p ∈ params, p.name = e.1 := by
  obtain ⟨i, hi⟩ := List.mem_iff_getElem?.mp he
  obtain ⟨p, hm, hname⟩ := hp.exists_param hi
  exact ⟨p, List.mem_of_getElem? hm, hname⟩

theorem takes {i : Nat} {p : Param} (hp : Pairs h args position params bindings)
    (hi : params[i]? = some p) :
    ∃ v, bindings[i]? = some (p.name, v) ∧ p.Takes h args (position + i) v := by
  induction hp generalizing i with
  | nil => simp at hi
  | cons ht _ ih =>
    cases i with
    | zero =>
      obtain rfl := Option.some.inj hi
      exact ⟨_, rfl, ht⟩
    | succ i =>
      obtain ⟨v, hv, hvt⟩ := ih hi
      exact ⟨v, hv, by rwa [← Nat.add_assoc, Nat.add_right_comm]⟩

end Pairs

end Param

-- ---------------------------------------------------------------------------
-- The pairing of a call
-- ---------------------------------------------------------------------------

theorem Frame.pairUp_ends (w : World) (hf : Param.Fits params (args.length - position)) :
    Ends (pairUp args position params) w
      (fun bindings w' => w.Grows w' ∧ Param.Pairs w'.heap args position params bindings)
      (fun _ _ => False) := by
  generalize hg : args.length - position = got at hf
  induction hf generalizing position with
  | none => exact Ends.pure ⟨.refl w, .nil position⟩
  | rest name got =>
    refine Ends.bind ((Tagged.list_ends w _).mono (fun _ _ h => h) fun _ _ h => h) ?_
    rintro rest w' ⟨hgrows, hlist⟩
    exact Ends.pure ⟨hgrows, .cons hlist (.nil _)⟩
  | @positional name params got _ ih =>
    obtain ⟨arg, harg⟩ : ∃ arg, args[position]? = some arg :=
      ⟨_, List.getElem?_eq_getElem (by omega)⟩
    refine Ends.read (fun arg' hread => ?_) fun fault hread => ?_
    · obtain rfl := Except.ok.inj ((Sequence.member_nat harg).symm.trans hread)
      refine Ends.bind ((ih (by omega)).mono (fun _ _ h => h) fun _ _ h => h) ?_
      rintro bindings w' ⟨hgrows, hpairs⟩
      exact Ends.pure ⟨hgrows, .cons harg hpairs⟩
    · cases (Sequence.member_nat harg).symm.trans hread

namespace Signature.Describes

variable {s : Signature}

theorem fits (hd : s.Describes params) {got : Nat} (ha : s.Accepts got) : Param.Fits params got :=
  Param.fits_of_check (Param.checkRests_iff.mpr hd.not_misplaced) ((hd.accepts_iff got).mpr ha)

theorem spells (hd : s.Describes params) (hp : Param.Pairs h args position params bindings) :
    ∃ rest, Entries.Spells bindings (s.pairs (args.drop position) rest) ∧
      (s.rest.isSome → h.IsList rest (args.drop (position + s.positional.length))) := by
  obtain ⟨positional, last⟩ := s
  -- One parameter and one argument are used up for each positional name.
  induction positional generalizing params bindings position with
  | nil =>
    cases last with
    | none =>
      obtain rfl : params = [] := by simpa [Describes] using hd
      cases hp
      exact ⟨.nil, rfl, by simp⟩
    | some last =>
      obtain ⟨⟨kind, key⟩, rfl, hkind⟩ : ∃ p, params = [p] ∧
          (p.kind, p.name.symbol?) = (.rest, some last) := by
        simpa [Describes, List.map_eq_singleton_iff] using hd
      obtain ⟨rfl, hkey⟩ := Prod.mk.inj hkind
      cases hp with
      | @cons _ _ v _ _ hlist hnone =>
        cases hnone
        exact ⟨v, by simpa [Entries.Spells, pairs] using hkey, fun _ => hlist⟩
  | cons name positional ih =>
    obtain ⟨⟨kind, key⟩, params, rfl, hkind, htail⟩ := List.map_eq_cons_iff.mp hd
    obtain ⟨rfl, hkey⟩ := Prod.mk.inj hkind
    cases hp with
    | @cons _ _ arg _ bindings harg hrest =>
      obtain ⟨rest, hspells, hlist⟩ := ih hrest htail
      obtain ⟨hlt, rfl⟩ := List.getElem?_eq_some_iff.mp harg
      have hzip : (name :: positional).zip (args.drop position) =
          (name, args[position]) :: positional.zip (args.drop (position + 1)) := by
        rw [List.drop_eq_getElem_cons hlt, List.zip_cons_cons]
      refine ⟨rest, ?_, fun hr => ?_⟩
      · simpa [Entries.Spells, pairs, hzip, hkey] using hspells
      · simpa [Nat.add_assoc, Nat.add_comm 1] using hlist hr

end Signature.Describes

end LexicalEnv
