import LexicalEnv.Number.Layout
import LexicalEnv.Sequence
import LexicalEnv.Text.Quoted

/-!
# Display

The text of a value as it appears in messages and traces. Containers show their
members, text inside them is quoted, and a container that is met again inside
itself shows as a mark.
-/

namespace LexicalEnv

/-- Numbers are positional from ten thousandths up to sixteen digits; whole ones keep a zero
behind the point, and a power of ten has a sign and at least two digits. -/
def displayedNumber : NumberFormat :=
  { firstPoint := -3
    lastPoint := 16
    wholeTail := ".0"
    exponentDigits := 2
    infinity := "inf"
    undefined := "nan" }

def Fault.title : Fault → String
  | .environment _ => "EnvironmentModelError"
  | .unbound .. => "UnboundSymbolError"
  | .arity .. => "ArityError"
  | .parameters _ => "ParameterListError"
  | .keyRefused _ | .tagRefused _ | .tableAsSequence | .textAsSequence | .closureRefused _
  | .wrongType => "TypeError"
  | .actorUnknown _ => "RuntimeError"
  | .requestUnknown _ | .wrongValue => "ValueError"
  | .missingKey => "KeyError"
  | .missingAttribute => "AttributeError"
  | .outOfRange => "IndexError"
  | .tooDeep => "RecursionError"
  | .actorDead => "ActorDeadError"

def integerText (n : Int) : String := (if n < 0 then "-" else "") ++ Nat.repr n.natAbs

namespace Display

def commas (parts : List String) : String := ", ".intercalate parts

def list (parts : List String) : String := "[" ++ commas parts ++ "]"

/-- A single member is followed by a comma, to tell it from a value in parentheses. -/
def tuple : List String → String
  | [part] => "(" ++ part ++ ",)"
  | parts => "(" ++ commas parts ++ ")"

def table (parts : List (String × String)) : String :=
  "\x7b" ++ commas (parts.map fun p => p.1 ++ ": " ++ p.2) ++ "\x7d"

end Display

namespace Heap

def quotedAt (h : Heap) : Nat → List Addr → Value → String
  | 0, _, _ => ""
  | fuel + 1, around, v =>
    match v with
    | .nil => "None"
    | .bool true => "True"
    | .bool false => "False"
    | .integer n _ => integerText n
    | .binary x _ => displayedNumber.binary x
    | .text text _ => Text.quoted text
    | .symbol name _ => "Symbol(name=" ++ Text.quoted name ++ ")"
    | .ref a =>
      let again := around.contains a
      let inner := h.quotedAt fuel (a :: around)
      match h.obj? v with
      | none => ""
      | some .undefined => displayedNumber.undefined
      | some (.list items) => if again then "[...]" else Display.list (items.map inner)
      | some (.tuple items) => if again then "(...)" else Display.tuple (items.map inner)
      | some (.iterable _ shown) => shown
      | some (.table entries) =>
        if again then "\x7b...\x7d"
        else Display.table (entries.map fun e => (inner e.1, inner e.2))
      | some (.frame parent bindings) =>
        if again then "\x7b...\x7d"
        else Display.table [("'parent'", inner parent), ("'bindings'", inner bindings)]
      | some (.failure fault) =>
        fault.title ++ "(" ++ fault.message?.elim "" (h.quotedAt fuel around) ++ ")"

/-- The display of a value in which text is quoted. No address is met more than twice on a
way inwards, which bounds the nesting. -/
def quoted (h : Heap) (v : Value) : String := h.quotedAt (2 * h.size + 1) [] v

def plainText (h : Heap) (v : Value) : String :=
  match v with
  | .text text _ => text
  | .symbol name _ => name
  | _ => h.quoted v

def displayAt (h : Heap) : Nat → Value → String
  | 0, v => h.plainText v
  | fuel + 1, v =>
    match h.obj? v with
    | some (.failure fault) => fault.message?.elim "" (h.displayAt fuel)
    | _ => h.plainText v

def display (h : Heap) (v : Value) : String := h.displayAt h.size v

@[simp] theorem displayAt_symbol (h : Heap) (fuel : Nat) (name : String) (birth : Birth) :
    h.displayAt fuel (.symbol name birth) = name := by
  cases fuel <;> rfl

@[simp] theorem displayAt_text (h : Heap) (fuel : Nat) (text : String) (birth : Birth) :
    h.displayAt fuel (.text text birth) = text := by
  cases fuel <;> rfl

@[simp] theorem display_symbol (h : Heap) (name : String) (birth : Birth) :
    h.display (.symbol name birth) = name :=
  displayAt_symbol ..

@[simp] theorem display_text (h : Heap) (text : String) (birth : Birth) :
    h.display (.text text birth) = text :=
  displayAt_text ..

def messageOf (h : Heap) (fault : Fault) : Option String := fault.message?.map h.display

-- ---------------------------------------------------------------------------
-- Faults that show values
-- ---------------------------------------------------------------------------

def unboundFault (h : Heap) (symbol snapshot : Value) : Fault :=
  .unbound symbol snapshot ("'" ++ h.display symbol ++ "' not found")

def arityFault (h : Heap) (name expected got : Value) : Fault :=
  .arity name expected got
    ("When evaluating " ++ h.display name ++ " expected " ++ h.display expected ++
      " arguments, but received " ++ h.display got ++ " arguments")

end Heap

end LexicalEnv
