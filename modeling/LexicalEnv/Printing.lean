import LexicalEnv.Tagged
import LexicalEnv.Text.Escaped

/-!
# Printing

The text of a value of the interpreted language. Readable text quotes strings so
that it can be read back; otherwise their payloads are taken as they are, which
need not be text. Values without a tag stand for the tagged ones they resemble.
-/

namespace LexicalEnv

namespace Printing

/-- A string payload: escaped, which only text can be, or as it is. -/
def string (readably : Bool) (payload : Value) : Except Fault Value :=
  if readably then
    match payload with
    | .text text _ => pure (.str (Text.escaped text))
    | _ => throw .missingAttribute
  else pure payload

def spaced (parts : List Value) : Except Fault String := do
  let texts ← parts.mapM fun
    | .text text _ => pure text
    | _ => throw .wrongType
  pure (" ".intercalate texts)

def entryMembers (entries : Entries) : List Value := entries.flatMap fun e => [e.1, e.2]

def enclosed (opening closing inner : String) : Value := .str (opening ++ inner ++ closing)

def tagged (h : Heap) (readably : Bool) (members : List Value → Except Fault String)
    (type payload : Value) : Except Fault Value :=
  match type with
  | .text "Nil" _ => pure (.str "nil")
  | .text "Bool" _ => pure (.str (if h.truthy payload then "true" else "false"))
  | .text "Num" _ | .text "Symbol" _ => pure (.str (h.display payload))
  | .text "String" _ => string readably payload
  | .text "Keyword" _ => pure (.str (":" ++ h.display payload))
  | .text "List" _ => do pure (enclosed "(" ")" (← members (← h.items payload)))
  | .text "Vector" _ => do pure (enclosed "[" "]" (← members (← h.items payload)))
  | .text "Map" _ =>
    match h.entries? payload with
    | some entries => do pure (enclosed "\x7b" "\x7d" (← members (entryMembers entries)))
    | none => throw .missingAttribute
  | .text "Closure" _ => do
    pure (enclosed "#<function (" ")>" (h.display (← h.field payload "params_text")))
  | _ => pure (.str ("<" ++ h.display type ++ ">"))

def plain (h : Heap) (readably : Bool) (members : List Value → Except Fault String)
    (v : Value) : Except Fault Value :=
  match v with
  | .nil => pure (.str "nil")
  | .bool b => pure (.str (if b then "true" else "false"))
  | .text .. => string readably v
  | _ =>
    match h.obj? v with
    | some (.list items) | some (.tuple items) => do pure (enclosed "(" ")" (← members items))
    | _ => pure (.str (h.display v))

def writeAt (h : Heap) (readably : Bool) : Nat → Value → Except Fault Value
  | 0, _ => throw .tooDeep
  | fuel + 1, v =>
    let members := fun items => do spaced (← items.mapM (writeAt h readably fuel))
    match h.tagged? v with
    | some (type, payload) => tagged h readably members type payload
    | none => plain h readably members v

/-- What a value prints as. It is text whenever it is readable; a value inside itself has none. -/
def write (h : Heap) (readably : Bool) (v : Value) : Except Fault Value :=
  writeAt h readably (h.size + 1) v

def text (h : Heap) (v : Value) : Except Fault String := do
  pure (h.display (← write h true v))

def entries (h : Heap) (readably : Bool) (table : Value) : Except Fault String :=
  match h.entries? table with
  | some entries => do spaced (← (entryMembers entries).mapM (write h readably))
  | none => throw .missingAttribute

end Printing

end LexicalEnv
