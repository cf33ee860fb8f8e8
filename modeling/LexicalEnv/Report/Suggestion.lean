import LexicalEnv.Sorting

/-!
# Suggestions

Names that may have been meant by one that is not bound: those that start like
it, in order, and only the first few.
-/

namespace LexicalEnv

namespace Suggestion

inductive Start where
  | text (start : List Char)
  | anyOf (starts : List Value)
  | unfit
  deriving DecidableEq, Repr

/-- The first two members of what stands for the symbol. -/
def startOf (h : Heap) (symbol : Value) : Except Fault Start :=
  match symbol with
  | .text text _ => pure (.text (text.toList.take 2))
  | _ =>
    match h.obj? symbol with
    | some (.tuple items) => pure (.anyOf (items.take 2))
    | some (.list _) => pure .unfit
    | _ => throw .wrongType

def startsWithAny (name : List Char) : List Value → Except Fault Bool
  | [] => pure false
  | .text start _ :: rest =>
    if start.toList.isPrefixOf name then pure true else startsWithAny name rest
  | _ :: _ => throw .wrongType

def fits (start : Start) (candidate : Value) : Except Fault Bool :=
  match candidate with
  | .text name _ =>
    match start with
    | .text wanted => pure (wanted.isPrefixOf name.toList)
    | .anyOf starts => startsWithAny name.toList starts
    | .unfit => throw .wrongType
  | _ => throw .missingAttribute

/-- The candidates that start like the symbol, sorted and cut at the limit. -/
def names (h : Heap) (symbol candidates limit : Value) : Except Fault (List Value) :=
  if h.truthy symbol then do
    let start ← startOf h symbol
    let fitting ← (← h.items candidates).filterM (fits start)
    Sequence.takeUpTo (← h.sorted fitting) limit
  else pure []

end Suggestion

end LexicalEnv
