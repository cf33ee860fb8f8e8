import LexicalEnv.Printing
import LexicalEnv.Proofs.Run
import Mathlib.Data.Finset.Card
import Mathlib.Data.Nat.Find

/-!
# Rounds of printing

A value prints in rounds, one for each level of nesting, and the number of objects
bounds their number. This is no restriction: of the objects that are nested in each
other no two take as many rounds (`Takes.le_size`). So what a value prints as is
told by what its members print as, whatever the bound (`write_eq_ok_iff`).
-/

namespace LexicalEnv

namespace Printing

variable {h : Heap} {readably : Bool} {v value : Value} {fuel more rounds : Nat}

def membersText (print : Value → Except Fault Value) (items : List Value) : Except Fault String := do
  spaced (← items.mapM print)

def round (h : Heap) (readably : Bool) (print : Value → Except Fault Value) (v : Value) :
    Except Fault Value :=
  match h.tagged? v with
  | some (type, payload) => tagged h readably (membersText print) type payload
  | none => plain h readably (membersText print) v

theorem spaced_of_texts {parts : List Value} {texts : List String}
    (hp : parts.map Value.text? = texts.map some) : spaced parts = .ok (" ".intercalate texts) := by
  refine bind_ok.mpr ⟨texts, mapM_eq_ok_iff.mpr ?_, rfl⟩
  induction parts generalizing texts with
  | nil => rw [List.map_eq_nil_iff.mp hp.symm]; rfl
  | cons part parts ih =>
    obtain ⟨text, texts, rfl, hpart, hparts⟩ := List.map_eq_cons_iff.mp hp.symm
    cases part with
    | text =>
      obtain rfl := Option.some.inj hpart
      rw [List.map_cons, List.map_cons, ih hparts.symm]
      rfl
    | _ => cases hpart

theorem membersText_eq {print : Value → Except Fault Value} {items : List Value} {texts : List String}
    (hp : List.Forall₂ (fun v text => ∃ birth, print v = .ok (.text text birth)) items texts) :
    membersText print items = .ok (" ".intercalate texts) := by
  have hparts : ∃ parts : List Value, items.map print = parts.map .ok ∧
      parts.map Value.text? = texts.map some := by
    induction hp with
    | nil => exact ⟨[], rfl, rfl⟩
    | cons hv _ ih =>
      obtain ⟨birth, hv⟩ := hv
      obtain ⟨parts, hparts, htexts⟩ := ih
      exact ⟨.text _ birth :: parts, by rw [List.map_cons, hv, hparts]; rfl,
        by rw [List.map_cons, htexts]; rfl⟩
  obtain ⟨parts, hparts, htexts⟩ := hparts
  exact bind_ok.mpr ⟨parts, mapM_eq_ok_iff.mpr hparts, spaced_of_texts htexts⟩

theorem writeAt_succ (h : Heap) (readably : Bool) (fuel : Nat) (v : Value) :
    writeAt h readably (fuel + 1) v = round h readably (writeAt h readably fuel) v := rfl

-- ---------------------------------------------------------------------------
-- What a round looks at
-- ---------------------------------------------------------------------------

/-- A value prints as a whole, or it is an object that prints as its members between two marks. -/
inductive Rule (h : Heap) (readably : Bool) (v : Value) : Prop
  | whole (x : Except Fault Value) (hx : ∀ print, round h readably print v = x)
  | enclosing (opening closing : String) (items : List Value) (o : Obj) (ho : h.obj? v = some o)
    (hx : ∀ print, round h readably print v =
      (do pure (enclosed opening closing (← membersText print items))))

theorem tagged_cases (h : Heap) (readably : Bool) (type payload : Value) :
    (∃ x, ∀ members, tagged h readably members type payload = x) ∨
    ∃ opening closing items, ∀ members, tagged h readably members type payload =
      (do pure (enclosed opening closing (← members items))) := by
  cases type with
  | text type birth =>
    have hread (opening closing : String)
        (hx : ∀ members, tagged h readably members (.text type birth) payload =
          (do pure (enclosed opening closing (← members (← h.items payload))))) :
        (∃ x, ∀ members, tagged h readably members (.text type birth) payload = x) ∨
        ∃ opening closing items, ∀ members, tagged h readably members (.text type birth) payload =
          (do pure (enclosed opening closing (← members items))) := by
      cases hitems : h.items payload with
      | error fault => exact .inl ⟨.error fault, fun members => by rw [hx, hitems]; rfl⟩
      | ok items => exact .inr ⟨opening, closing, items, fun members => by rw [hx, hitems]; rfl⟩
    by_cases hlist : type = "List"
    · subst hlist
      exact hread "(" ")" fun _ => rfl
    · by_cases hvector : type = "Vector"
      · subst hvector
        exact hread "[" "]" fun _ => rfl
      · by_cases hmap : type = "Map"
        · subst hmap
          cases he : h.entries? payload with
          | none => exact .inl ⟨throw .missingAttribute, fun _ => by simp only [tagged, he]⟩
          | some entries =>
            exact .inr ⟨"\x7b", "\x7d", entryMembers entries, fun _ => by simp only [tagged, he]⟩
        · refine .inl ⟨tagged h readably (fun _ => throw .tooDeep) (.text type birth) payload,
            fun _ => ?_⟩
          unfold tagged
          split <;> simp_all
  | _ => exact .inl ⟨_, fun _ => rfl⟩

theorem plain_cases (h : Heap) (readably : Bool) (v : Value) :
    (∃ x, ∀ members, plain h readably members v = x) ∨
    ∃ items o, h.obj? v = some o ∧ ∀ members, plain h readably members v =
      (do pure (enclosed "(" ")" (← members items))) := by
  cases v with
  | ref a =>
    cases ho : h.obj? (.ref a) with
    | none => exact .inl ⟨_, fun _ => by simp only [plain, ho]; rfl⟩
    | some o =>
      cases o with
      | list items => exact .inr ⟨items, _, rfl, fun _ => by simp only [plain, ho]⟩
      | tuple items => exact .inr ⟨items, _, rfl, fun _ => by simp only [plain, ho]⟩
      | _ => exact .inl ⟨_, fun _ => by simp only [plain, ho]; rfl⟩
  | _ => exact .inl ⟨_, fun _ => rfl⟩

theorem rule (h : Heap) (readably : Bool) (v : Value) : Rule h readably v := by
  cases ht : h.tagged? v with
  | some p =>
    obtain ⟨type, payload⟩ := p
    have hround (print : Value → Except Fault Value) : round h readably print v =
        tagged h readably (membersText print) type payload := by rw [round, ht]
    rcases tagged_cases h readably type payload with ⟨x, hx⟩ | ⟨opening, closing, items, hx⟩
    · exact .whole x fun print => (hround print).trans (hx _)
    · obtain ⟨entries, he, -⟩ := Option.bind_eq_some_iff.mp ht
      obtain ⟨o, ho, -⟩ := Option.bind_eq_some_iff.mp he
      exact .enclosing opening closing items o ho fun print => (hround print).trans (hx _)
  | none =>
    have hround (print : Value → Except Fault Value) : round h readably print v =
        plain h readably (membersText print) v := by rw [round, ht]
    rcases plain_cases h readably v with ⟨x, hx⟩ | ⟨items, o, ho, hx⟩
    · exact .whole x fun print => (hround print).trans (hx _)
    · exact .enclosing "(" ")" items o ho fun print => (hround print).trans (hx _)

-- ---------------------------------------------------------------------------
-- More rounds
-- ---------------------------------------------------------------------------

theorem membersText_mono {print print' : Value → Except Fault Value} {items : List Value}
    {inner : String} (hp : ∀ v ∈ items, ∀ value, print v = .ok value → print' v = .ok value)
    (hi : membersText print items = .ok inner) : membersText print' items = .ok inner := by
  obtain ⟨parts, hparts, -⟩ := bind_ok.mp hi
  have hsame : items.mapM print' = items.mapM print := mapM_congr fun v hv => by
    obtain ⟨value, hvalue⟩ := mapM_ok_mem hparts v hv
    rw [hp v hv value hvalue, hvalue]
  rw [membersText, hsame]
  exact hi

theorem round_mono {print print' : Value → Except Fault Value}
    (hp : ∀ v value, print v = .ok value → print' v = .ok value)
    (hr : round h readably print v = .ok value) : round h readably print' v = .ok value := by
  cases rule h readably v with
  | whole x hx => rw [hx, ← hx print, hr]
  | enclosing opening closing items o ho hx =>
    rw [hx] at hr ⊢
    obtain ⟨inner, hinner, hvalue⟩ := bind_ok.mp hr
    exact bind_ok.mpr ⟨inner, membersText_mono (fun v _ => hp v) hinner, hvalue⟩

theorem writeAt_mono (hle : fuel ≤ more) (hw : writeAt h readably fuel v = .ok value) :
    writeAt h readably more v = .ok value := by
  induction fuel generalizing more v value with
  | zero => cases hw
  | succ fuel ih =>
    obtain ⟨more, rfl⟩ := Nat.exists_eq_succ_of_ne_zero (Nat.ne_zero_of_lt hle)
    rw [writeAt_succ] at hw ⊢
    exact round_mono (fun _ _ => ih (Nat.le_of_succ_le_succ hle)) hw

-- ---------------------------------------------------------------------------
-- Enough rounds
-- ---------------------------------------------------------------------------

/-- The value prints in so many rounds and not in fewer. -/
structure Takes (h : Heap) (readably : Bool) (v : Value) (rounds : Nat) : Prop where
  prints : ∃ value, writeAt h readably rounds v = .ok value
  least : ∀ fewer < rounds, ∀ value, writeAt h readably fewer v ≠ .ok value

theorem exists_takes (hw : writeAt h readably fuel v = .ok value) :
    ∃ rounds ≤ fuel, Takes h readably v rounds := by
  classical
  have hex : ∃ rounds value, writeAt h readably rounds v = .ok value := ⟨fuel, value, hw⟩
  exact ⟨Nat.find hex, Nat.find_min' hex ⟨value, hw⟩, Nat.find_spec hex,
    fun _ hlt value hv => Nat.find_min hex hlt ⟨value, hv⟩⟩

theorem Takes.unique {rounds' : Nat} (ht : Takes h readably v rounds)
    (ht' : Takes h readably v rounds') : rounds = rounds' := by
  obtain ⟨value, hvalue⟩ := ht.prints
  obtain ⟨value', hvalue'⟩ := ht'.prints
  rcases Nat.lt_trichotomy rounds rounds' with hlt | heq | hgt
  · exact absurd hvalue (ht'.least _ hlt _)
  · exact heq
  · exact absurd hvalue' (ht.least _ hgt _)

/-- What takes more than one round is an object, and one of its members takes one round less. -/
theorem Takes.member (ht : Takes h readably v (rounds + 2)) :
    (∃ o, h.obj? v = some o) ∧ ∃ member, Takes h readably member (rounds + 1) := by
  obtain ⟨value, hvalue⟩ := ht.prints
  have hfewer := ht.least (rounds + 1) (Nat.lt_succ_self _) value
  rw [writeAt_succ] at hvalue hfewer
  cases rule h readably v with
  | whole x hx => exact absurd (by rw [hx, ← hx (writeAt h readably (rounds + 1)), hvalue]) hfewer
  | enclosing opening closing items o ho hx =>
    refine ⟨⟨o, ho⟩, ?_⟩
    by_contra hnone
    rw [hx] at hvalue hfewer
    obtain ⟨inner, hinner, hvalue⟩ := bind_ok.mp hvalue
    refine hfewer (bind_ok.mpr ⟨inner, membersText_mono (fun member _ value hmember => ?_) hinner,
      hvalue⟩)
    -- A member that prints takes fewer rounds if it does not take as many.
    obtain ⟨least, hle, hleast⟩ := exists_takes hmember
    have hne : least ≠ rounds + 1 := fun he => hnone ⟨member, he ▸ hleast⟩
    obtain ⟨value', hvalue'⟩ := hleast.prints
    have hsame := writeAt_mono hle hvalue'
    rw [hmember] at hsame
    exact writeAt_mono (by omega) (hsame ▸ hvalue')

theorem Takes.nested {fewer : Nat} (ht : Takes h readably v (fewer + rounds + 1)) :
    ∃ member, Takes h readably member (rounds + 1) := by
  induction fewer generalizing v with
  | zero => exact ⟨v, by rwa [Nat.zero_add] at ht⟩
  | succ fewer ih =>
    rw [Nat.succ_add] at ht
    obtain ⟨-, member, hmember⟩ := ht.member
    exact ih hmember

theorem Takes.le_size (ht : Takes h readably v rounds) : rounds ≤ h.size + 1 := by
  have hplace (k : Nat) :
      ∃ a : Nat, k + 1 < rounds → a < h.size ∧ Takes h readably (.ref a) (k + 2) := by
    by_cases hk : k + 1 < rounds
    · obtain ⟨fewer, rfl⟩ := Nat.exists_eq_add_of_lt hk
      obtain ⟨member, hmember⟩ : ∃ member, Takes h readably member (k + 1 + 1) :=
        Takes.nested (Nat.add_comm (k + 1) fewer ▸ ht)
      obtain ⟨⟨o, ho⟩, -⟩ := hmember.member
      obtain ⟨a, rfl, ha⟩ := Heap.exists_ref_of_obj? ho
      exact ⟨a, fun _ => ⟨ha, hmember⟩⟩
    · exact ⟨0, fun h => absurd h hk⟩
  choose place hplace using hplace
  have hlt {k : Nat} (hk : k ∈ Finset.range (rounds - 1)) : k + 1 < rounds := by
    have hk := Finset.mem_range.mp hk
    omega
  have hcard : (Finset.range (rounds - 1)).card ≤ (Finset.range h.size).card := by
    refine Finset.card_le_card_of_injOn place (fun k hk => ?_) fun k hk k' hk' hsame => ?_
    · exact Finset.mem_coe.mpr (Finset.mem_range.mpr (hplace k (hlt hk)).1)
    · have htakes := (hplace k (hlt hk)).2
      rw [hsame] at htakes
      exact Nat.add_right_cancel (htakes.unique (hplace k' (hlt hk')).2)
  simp only [Finset.card_range] at hcard
  omega

theorem write_of_writeAt (hw : writeAt h readably fuel v = .ok value) :
    write h readably v = .ok value := by
  obtain ⟨rounds, hle, ht⟩ := exists_takes hw
  obtain ⟨value', hvalue⟩ := ht.prints
  have hsame := writeAt_mono hle hvalue
  rw [hw] at hsame
  exact writeAt_mono ht.le_size (hsame ▸ hvalue)

theorem write_eq_ok_iff : write h readably v = .ok value ↔
    round h readably (write h readably) v = .ok value :=
  ⟨round_mono fun _ _ => write_of_writeAt, @write_of_writeAt h readably v value (h.size + 2)⟩

end Printing

end LexicalEnv
