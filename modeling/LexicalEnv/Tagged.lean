import LexicalEnv.World

/-!
# Tagged values

The values of the interpreted language are tables with two fields, a payload and
the name of its type. Three of them exist from the start and are shared, like the
tuple without members; the others are made anew.
-/

namespace LexicalEnv

namespace Tagged

def table (payload type : Value) : Obj := .table [(.str "value", payload), (.str "type", type)]

def make (payload type : Value) : Action Value := Action.alloc (table payload type)

def sequence (members : List Value) (type : String) : Action Value := do
  make (← Action.alloc (.list members)) (.str type)

def list (members : List Value) : Action Value := sequence members "List"

def listOf (elements : Value) : Action Value := do list (← Action.read (·.items elements))

def vectorOf (elements : Value) : Action Value := do
  sequence (← Action.read (·.items elements)) "Vector"

def string (payload : Value) : Action Value := make payload (.str "String")

def keyword (name : Value) : Action Value := make name (.str "Keyword")

def addPair (h : Heap) (entries : Entries) (pair : Value) : Except Fault Entries := do
  match ← h.items pair with
  | [key, value] => h.inserted entries key value
  | _ => throw .wrongValue

def pairs (h : Heap) (source : Value) : Except Fault Entries :=
  match h.entries? source with
  | some entries => pure entries
  | none => do (← h.items source).foldlM (addPair h) []

def mapOf (source : Value) : Action Value := do
  make (← Action.alloc (.table (← Action.read (pairs · source)))) (.str "Map")

end Tagged

def Heap.tagged? (h : Heap) (v : Value) : Option (Value × Value) := do
  let entries ← h.entries? v
  let type ← h.find? entries (.str "type")
  let payload ← h.find? entries (.str "value")
  pure (type, payload)

theorem Heap.tagged?_table {h : Heap} {v payload type : Value}
    (made : h.obj? v = some (Tagged.table payload type)) : h.tagged? v = some (type, payload) := by
  have entries : h.entries? v = some [(.str "value", payload), (.str "type", type)] := by
    simp [entries?, made, Tagged.table, Obj.entries?]
  simp [tagged?, entries, Value.text?]

inductive Constant where
  | nil
  | true
  | false
  | emptyTuple
  deriving DecidableEq, Repr

namespace Constant

def object : Constant → Obj
  | .nil => Tagged.table .nil (.str "Nil")
  | .true => Tagged.table (.bool Bool.true) (.str "Bool")
  | .false => Tagged.table (.bool Bool.false) (.str "Bool")
  | .emptyTuple => .tuple []

def value : Constant → Value
  | .nil => .ref 0
  | .true => .ref 1
  | .false => .ref 2
  | .emptyTuple => .ref 3

end Constant

/-- The world before anything was made: the shared objects alone. -/
def World.start (library : ActorLibrary) : World :=
  { heap := ⟨#[Constant.nil.object, Constant.true.object, Constant.false.object,
      Constant.emptyTuple.object]⟩
    frames := #[]
    actors := .empty library
    printed := ""
    births := 0 }

def World.initial : World := .start .threads

/-- A tuple of the given members. There is only one without members. -/
def Action.tuple : List Value → Action Value
  | [] => pure Constant.emptyTuple.value
  | items => Action.alloc (.tuple items)

end LexicalEnv
