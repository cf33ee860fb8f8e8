import LexicalEnv.Parameter.Parser

/-!
# Arity

How many arguments a parameter list accepts. An arity is stored as a record of
its least and its greatest number; such a record can also be made by hand, with
any values for bounds, and is then read with their order and equality.
-/

namespace LexicalEnv

structure Arity where
  minimum : Nat
  maximum : Option Nat
  deriving DecidableEq, Repr

namespace Arity

/-- The arity of parameters of the given kinds; an entry of no kind counts for nothing. -/
def ofKinds (kinds : List (Option ParamKind)) : Arity :=
  let positional := kinds.count (some .positional)
  ⟨positional, if some .rest ∈ kinds then none else some positional⟩

def ofParams (params : List Param) : Arity := ofKinds (params.map fun p => some p.kind)

def accepts (a : Arity) (got : Nat) : Bool :=
  a.minimum ≤ got && a.maximum.all fun most => got ≤ most

def text (a : Arity) : String :=
  match a.maximum with
  | none => "at least " ++ Nat.repr a.minimum
  | some most =>
    if a.minimum = most then "exactly " ++ Nat.repr a.minimum
    else "from " ++ Nat.repr a.minimum ++ " to " ++ Nat.repr most

def record (minimum maximum : Value) : Obj :=
  .table [(.str "min", minimum), (.str "max", maximum)]

def check (h : Heap) (a : Arity) (got : Nat) (name : Value) : Except Fault Unit :=
  if a.accepts got then pure () else throw (h.arityFault name (.str a.text) (.int got))

theorem accepts_ofParams_iff (params : List Param) (got : Nat) :
    (ofParams params).accepts got = true ↔
      (params.map Param.kind).count .positional ≤ got ∧
        (.rest ∉ params.map Param.kind → got ≤ (params.map Param.kind).count .positional) := by
  have count : (params.map fun p => some p.kind).count (some .positional) =
      (params.map Param.kind).count .positional := by
    induction params with
    | nil => rfl
    | cons p ps ih => simp [List.count_cons, ih]
  by_cases rest : ParamKind.rest ∈ params.map Param.kind
  · have rest' : some ParamKind.rest ∈ params.map fun p => some p.kind := by simpa using rest
    simp [ofParams, ofKinds, accepts, count, rest, rest']
  · have rest' : some ParamKind.rest ∉ params.map fun p => some p.kind := by simpa using rest
    simp [ofParams, ofKinds, accepts, count, rest, rest']

end Arity

namespace Heap

def arityOf (h : Heap) (params : Value) : Except Fault Arity := do
  pure (.ofKinds (← (← h.items params).mapM h.kindOf))

def arityText (h : Heap) (arity : Value) : Except Fault String := do
  let maximum ← h.field arity "max"
  let minimum ← h.field arity "min"
  if maximum = .nil then pure ("at least " ++ h.display minimum)
  else if ← h.equal minimum maximum then pure ("exactly " ++ h.display minimum)
  else pure ("from " ++ h.display minimum ++ " to " ++ h.display maximum)

def arityAccepts (h : Heap) (arity got : Value) : Except Fault Bool := do
  if ← h.less got (← h.field arity "min") then pure false
  else
    let maximum ← h.field arity "max"
    if maximum = .nil then pure true else h.lessOrEqual got maximum

def checkArity (h : Heap) (arity got name : Value) : Except Fault Unit := do
  if ← h.arityAccepts arity got then pure ()
  else throw (h.arityFault name (.str (← h.arityText arity)) got)

end Heap

end LexicalEnv
