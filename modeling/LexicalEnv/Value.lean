import LexicalEnv.Number.Binary64

/-!
# Values

A value is a scalar, a symbol, or a reference to an object of the heap. Numbers,
texts and symbols that were made at different times are different things even if
they say the same; so two values are one thing exactly when they are equal as
members of this type. What scalars say is compared by `sameScalar`.
-/

namespace LexicalEnv

/-- A place in the heap. Objects are never freed, so an address stays good. -/
abbrev Addr := Nat

/-- When a scalar was made, which tells it from those that say the same. Scalars without a time of
their own are told apart by what they say alone. -/
abbrev Birth := Option Nat

inductive Value where
  | nil
  | bool (b : Bool)
  | integer (n : Int) (birth : Birth)
  | binary (x : Binary64) (birth : Birth)
  | text (text : String) (birth : Birth)
  | symbol (name : String) (birth : Birth)
  | ref (addr : Addr)
  deriving DecidableEq, Repr, Inhabited

namespace Value

-- ---------------------------------------------------------------------------
-- Scalars without a time of their own
-- ---------------------------------------------------------------------------

@[simp] def int (n : Int) : Value := .integer n none

@[simp] def float (x : Binary64) : Value := .binary x none

@[simp] def str (t : String) : Value := .text t none

@[simp] def sym (name : String) : Value := .symbol name none

def isSmall (n : Int) : Bool := -5 ≤ n && n ≤ 256

def isShort (t : String) : Bool :=
  match t.toList with
  | [] => true
  | [c] => c.toNat < 256
  | _ => false

/-- A scalar as made at a time. Small numbers, short texts and all other values stay the same. -/
def bornAt (v : Value) (time : Nat) : Value :=
  match v with
  | .integer n _ => if isSmall n then .int n else .integer n (some time)
  | .binary x _ => .binary x (some time)
  | .text t _ => if isShort t then .str t else .text t (some time)
  | .symbol name _ => .symbol name (some time)
  | _ => v

-- ---------------------------------------------------------------------------
-- What scalars say
-- ---------------------------------------------------------------------------

/-- The number a value is, if it is one; the truth values count as one and zero. -/
def number? : Value → Option Number
  | .bool b => some (.ofInt (if b then 1 else 0))
  | .integer n _ => some (.ofInt n)
  | .binary x _ => some x.number
  | _ => none

def integer? : Value → Option Int
  | .bool b => some (if b then 1 else 0)
  | .integer n _ => some n
  | _ => none

def text? : Value → Option String
  | .text t _ => some t
  | _ => none

def symbol? : Value → Option String
  | .symbol name _ => some name
  | _ => none

@[simp] theorem text?_text (t : String) (birth : Birth) : (text t birth).text? = some t := rfl

@[simp] theorem symbol?_symbol (name : String) (birth : Birth) :
    (symbol name birth).symbol? = some name := rfl

def sameScalar (a b : Value) : Bool :=
  match a, b with
  | .nil, .nil => true
  | .text s _, .text t _ => s == t
  | .symbol s _, .symbol t _ => s == t
  | _, _ =>
    match a.number?, b.number? with
    | some x, some y => x.compare y == .eq
    | _, _ => false

@[simp] theorem sameScalar_symbol (a : Value) (name : String) (birth : Birth) :
    a.sameScalar (.symbol name birth) = (a.symbol? == some name) := by
  cases a <;> simp [sameScalar, number?, symbol?]

@[simp] theorem sameScalar_text (a : Value) (t : String) (birth : Birth) :
    a.sameScalar (.text t birth) = (a.text? == some t) := by
  cases a <;> simp [sameScalar, number?, text?]

end Value

end LexicalEnv
