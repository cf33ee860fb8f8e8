import LexicalEnv.Spelling

/-!
# Binding maps

The table of a frame's own bindings, from names to values. A lookup tells a name
bound to nothing from one that is not bound.
-/

namespace LexicalEnv

namespace BindingMap

def addNamed (h : Heap) (entries : Entries) (binding : Value × Value) : Except Fault Entries := do
  let name ← h.nameOf binding.1
  pure (h.insert entries (.sym name) binding.2)

/-- The bindings that another table seeds: its entries in order, keyed by names. Whatever counts
as false seeds none. -/
def seed (h : Heap) (initial : Value) : Except Fault Entries :=
  if h.truthy initial then
    match h.entries? initial with
    | some entries => entries.foldlM (addNamed h) []
    | none => throw .missingAttribute
  else pure []

def make (initial : Value) : Action Value := do
  Action.alloc (.table (← Action.read (seed · initial)))

def lookup (h : Heap) (bindings key : Value) : Except Fault (Option Value) := do
  if ← h.contains bindings key then pure (some (← h.subscript bindings key)) else pure none

def items (h : Heap) (bindings : Value) : Except Fault Entries :=
  match h.entries? bindings with
  | some entries => pure entries
  | none => throw .missingAttribute

theorem contains_table {h : Heap} {v : Value} {entries : Entries} (name : String)
    (table : h.obj? v = some (.table entries)) :
    h.contains v (.sym name) = .ok (h.find? entries (.sym name)).isSome := by
  cases v with
  | ref a => simp [Heap.contains, table, Obj.entries?, pure, Except.pure]
  | _ => simp [Heap.obj?] at table

theorem lookup_table {h : Heap} {v : Value} {entries : Entries} (name : String)
    (table : h.obj? v = some (.table entries)) :
    lookup h v (.sym name) = .ok (h.find? entries (.sym name)) := by
  have contained := contains_table name table
  cases v with
  | ref a =>
    cases found : h.find? entries (.sym name) <;>
      simp_all [lookup, Heap.subscript, Obj.entries?, bind, Except.bind, pure, Except.pure]
  | _ => simp [Heap.obj?] at table

end BindingMap

end LexicalEnv
