import LexicalEnv.Number.Binary64

/-!
# Shortest decimals

The decimal with the fewest digits that rounds to a given binary64 value, and
of those the nearest. The search runs on exact naturals: the value and the two
ends of the interval that rounds to it are quarters of its last place.
-/

namespace LexicalEnv

structure Decimal where
  digits : Nat
  exponent : Int
  deriving DecidableEq, Repr

namespace Decimal

def digitCount (n : Nat) : Nat := (Nat.toDigits 10 n).length

/-- An interval around a value, all three as multiples of `1 / scale`. -/
structure Interval where
  value : Nat
  low : Nat
  high : Nat
  scale : Nat
  closed : Bool

/-- The reals that round to `m * 2 ^ e`: half a place to either side, a quarter
below a power of two, the ends included for an even significand. -/
def Interval.ofBinary (m : Nat) (e : Int) : Interval :=
  let below := if m = Nat.pow 2 52 ∧ -1074 < e then 1 else 2
  let unit := Nat.pow 2 (e - 2).toNat
  { value := 4 * m * unit
    low := (4 * m - below) * unit
    high := (4 * m + 2) * unit
    scale := Nat.pow 2 (2 - e).toNat
    closed := m % 2 == 0 }

def Interval.magnitude (i : Interval) : Int :=
  if i.scale ≤ i.value then digitCount (i.value / i.scale)
  else 1 - (digitCount ((i.scale - 1) / i.value) : Int)

def Interval.factors (i : Interval) (exponent : Int) : Nat × Nat :=
  (i.scale * Nat.pow 10 exponent.toNat, Nat.pow 10 (-exponent).toNat)

def Interval.contains (i : Interval) (exponent : Int) (d : Nat) : Bool :=
  let (a, b) := i.factors exponent
  if i.closed then i.low * b ≤ d * a && d * a ≤ i.high * b
  else i.low * b < d * a && d * a < i.high * b

/-- The point of the grid `10 ^ exponent` that lies in the interval nearest to the value,
a tie going to the even digit. -/
def Interval.onGrid? (i : Interval) (exponent : Int) : Option Nat :=
  let (a, b) := i.factors exponent
  let down := i.value * b / a
  let up := down + 1
  match i.contains exponent down, i.contains exponent up with
  | true, false => some down
  | false, true => some up
  | false, false => none
  | true, true =>
    let belowBy := i.value * b - down * a
    let aboveBy := up * a - i.value * b
    if belowBy < aboveBy then some down
    else if aboveBy < belowBy then some up
    else some (if down % 2 = 0 then down else up)

def Interval.search (i : Interval) (magnitude : Int) : Nat → Nat → Decimal
  | 0, count => ⟨i.value / i.scale, magnitude - count⟩
  | fuel + 1, count =>
    let exponent := magnitude - count
    match i.onGrid? exponent with
    | some d => ⟨d, exponent⟩
    | none => i.search magnitude fuel (count + 1)

def dropZeros : Nat → Decimal → Decimal
  | 0, d => d
  | fuel + 1, d =>
    if d.digits ≠ 0 ∧ d.digits % 10 = 0 then dropZeros fuel ⟨d.digits / 10, d.exponent + 1⟩ else d

/-- The shortest decimal that rounds to `m * 2 ^ e`; seventeen digits always suffice. -/
def shortest (m : Nat) (e : Int) : Decimal :=
  if m = 0 then ⟨0, 0⟩
  else
    let i := Interval.ofBinary m e
    dropZeros 18 (i.search i.magnitude 17 1)

end Decimal

end LexicalEnv
