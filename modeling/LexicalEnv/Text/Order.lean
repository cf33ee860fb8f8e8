/-!
# Order of text

Text is ordered by code points, from the first character on, and a text comes
after every proper beginning of it.
-/

namespace LexicalEnv.Text

def compareChars : List Char → List Char → Ordering
  | [], [] => .eq
  | [], _ :: _ => .lt
  | _ :: _, [] => .gt
  | c :: s, d :: t =>
    if c.toNat < d.toNat then .lt
    else if d.toNat < c.toNat then .gt
    else compareChars s t

def compare (s t : String) : Ordering := compareChars s.toList t.toList

def atMost (s t : String) : Bool := compare s t != .gt

theorem eq_of_compareChars {s t : List Char} (same : compareChars s t = .eq) : s = t := by
  induction s generalizing t with
  | nil => cases t <;> simp_all [compareChars]
  | cons c s ih =>
    cases t with
    | nil => simp [compareChars] at same
    | cons d t =>
      simp only [compareChars] at same
      split at same
      · contradiction
      · split at same
        · contradiction
        · have code : c.toNat = d.toNat := by omega
          rw [Char.toNat_inj.mp code, ih same]

theorem compareChars_swap (s t : List Char) : (compareChars s t).swap = compareChars t s := by
  induction s generalizing t with
  | nil => cases t <;> rfl
  | cons c s ih =>
    cases t with
    | nil => rfl
    | cons d t =>
      simp only [compareChars]
      by_cases less : c.toNat < d.toNat
      · simp [less, Nat.lt_asymm less]
      · by_cases greater : d.toNat < c.toNat
        · simp [less, greater]
        · simp [less, greater, ih]

theorem compareChars_trans {s t u : List Char} (first : compareChars s t ≠ .gt)
    (second : compareChars t u ≠ .gt) : compareChars s u ≠ .gt := by
  induction s generalizing t u with
  | nil => cases u <;> simp [compareChars]
  | cons c s ih =>
    cases t with
    | nil => simp [compareChars] at first
    | cons d t =>
      cases u with
      | nil => simp [compareChars] at second
      | cons e u =>
        simp only [compareChars] at first second ⊢
        by_cases cd : c.toNat < d.toNat
        · by_cases ed : e.toNat < d.toNat
          · simp [ed, Nat.lt_asymm ed] at second
          · simp [show c.toNat < e.toNat by omega]
        · by_cases dc : d.toNat < c.toNat
          · simp [cd, dc] at first
          · have same : c.toNat = d.toNat := by omega
            by_cases de : d.toNat < e.toNat
            · simp [same, de]
            · by_cases ed : e.toNat < d.toNat
              · simp [de, ed] at second
              · simp only [same, de, ed, Nat.lt_irrefl, if_false] at first second ⊢
                exact ih first second

theorem atMost_total (s t : String) : atMost s t || atMost t s := by
  simp only [atMost, compare, ← compareChars_swap s.toList t.toList]
  cases compareChars s.toList t.toList <;> rfl

theorem atMost_trans {s t u : String} (first : atMost s t) (second : atMost t u) : atMost s u := by
  simp only [atMost, compare, bne_iff_ne] at *
  exact compareChars_trans first second

end LexicalEnv.Text
