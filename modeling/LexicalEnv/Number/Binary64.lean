/-!
# Numbers and their binary approximations

`Number` is the number line with both ends, on which integers and binary
fractions are compared exactly. `Binary64` holds the finite and infinite
binary64 values as sign, significand and exponent; a value that is no number
is not among them.
-/

namespace LexicalEnv

/-- An exact number `mantissa * 2 ^ exponent`, or one end of the line. -/
inductive Number where
  | below
  | dyadic (mantissa exponent : Int)
  | above
  deriving DecidableEq, Repr

def Number.order (m n : Int) : Ordering := if m < n then .lt else if n < m then .gt else .eq

def Number.scaled (m : Int) (places : Nat) : Int := m * (Nat.pow 2 places : Nat)

def Number.compare : Number → Number → Ordering
  | .dyadic m e, .dyadic n f =>
    Number.order (Number.scaled m (e - f).toNat) (Number.scaled n (f - e).toNat)
  | .below, .below | .above, .above => .eq
  | .below, _ | _, .above => .lt
  | _, .below | .above, _ => .gt

def Number.ofInt (n : Int) : Number := .dyadic n 0

theorem Number.compare_ofInt (m n : Int) :
    (Number.ofInt m).compare (Number.ofInt n) = Number.order m n := by
  simp [Number.ofInt, Number.compare, Number.scaled]

/-- A binary64 value: `significand * 2 ^ exponent` with a sign, which a zero has too. -/
inductive Binary64 where
  | finite (negative : Bool) (significand : Nat) (exponent : Int)
  | infinite (negative : Bool)
  deriving DecidableEq, Repr, Inhabited

namespace Binary64

def number : Binary64 → Number
  | .finite negative m e => .dyadic (if negative then -(m : Int) else m) e
  | .infinite true => .below
  | .infinite false => .above

def isZero : Binary64 → Bool
  | .finite _ m _ => m == 0
  | .infinite _ => false

end Binary64

end LexicalEnv
