import LexicalEnv.Report.Record
import LexicalEnv.Report.Suggestion

/-!
# Reports

A fault record as text of several lines: what went wrong, where, and which
bindings were visible, cut to a number of lines and each to a width. The report
of an unbound symbol also suggests names.
-/

namespace LexicalEnv

namespace Report

def width : Nat := 60

def usualLimit : Value := .int 10

def suggestionLimit : Value := .int 3

def cut (text : String) : String :=
  String.ofList ((text.toList.map fun c => if c = '\n' then ' ' else c).take width)

def bindingLine (h : Heap) (snapshot name : Value) : Except Fault String := do
  let value ← h.subscript snapshot name
  pure ("    " ++ h.display name ++ " = " ++ cut (h.display value) ++ "\n")

def hiddenLine (h : Heap) (total : Nat) (limit : Value) : Except Fault String := do
  if ← h.less limit (.int total) then
    match limit.integer? with
    | some n => pure ("    ... and " ++ integerText (total - n) ++ " more bindings\n")
    | none => throw .wrongType
  else pure ""

def environmentText (h : Heap) (snapshot limit : Value) : Except Fault String := do
  let names ← h.sorted (← h.items snapshot)
  let lines ← (← Sequence.takeUpTo names limit).mapM (bindingLine h snapshot)
  let hidden ← hiddenLine h names.length limit
  pure ("  Environment at error:\n" ++ String.join lines ++ hidden)

def symbolText (h : Heap) (symbol : Value) : String :=
  if symbol = .nil then "" else "  Symbol: " ++ h.display symbol ++ "\n"

/-- The accepted and the given number of arguments, of which the second is only looked at if
there is a first. -/
def arityText (h : Heap) (record : Value) : Except Fault String := do
  let expected ← h.field record "expected"
  if expected = .nil then pure ""
  else
    let got ← h.field record "got"
    pure ("  Expected: " ++ h.display expected ++ " arguments\n  Got: " ++ h.display got ++ "\n")

def ofRecord (h : Heap) (record limit : Value) : Except Fault String := do
  let kind ← h.field record "kind"
  let message ← h.field record "message"
  let symbol := symbolText h (← h.field record "symbol")
  let arity ← arityText h record
  let snapshot ← h.field record "env_snapshot"
  let visible ← if h.truthy snapshot then environmentText h snapshot limit else pure ""
  pure (h.display kind ++ ": " ++ h.display message ++ "\n" ++ symbol ++ arity ++ visible)

def suggestionText (h : Heap) (symbol snapshot : Value) : Except Fault String := do
  if h.truthy snapshot then
    let names ← Suggestion.names h symbol snapshot suggestionLimit
    if names.isEmpty then pure ""
    else
      let lines := names.map fun name => "    - did you mean '" ++ h.display name ++ "'?\n"
      pure ("  Suggestions:\n" ++ String.join lines)
  else pure ""

def ofValue (v : Value) : Action String := do
  let fault ← FaultRecord.faultOf v
  let record ← FaultRecord.ofFault fault
  let text ← Action.read (ofRecord · record usualLimit)
  match fault with
  | .unbound symbol snapshot _ => do
    pure (text ++ (← Action.read (suggestionText · symbol snapshot)))
  | _ => pure text

end Report

end LexicalEnv
