import LexicalEnv.Spelling

/-!
# Parameters

A parameter is positional or takes all arguments that are left. It is stored as a
record of its kind and its name.
-/

namespace LexicalEnv

inductive ParamKind where
  | positional
  | rest
  deriving DecidableEq, Repr

def ParamKind.label : ParamKind → String
  | .positional => "positional"
  | .rest => "rest"

def ParamKind.ofValue? : Value → Option ParamKind
  | .text "positional" _ => some .positional
  | .text "rest" _ => some .rest
  | _ => none

@[simp] theorem ParamKind.ofValue?_label (kind : ParamKind) (birth : Birth) :
    ParamKind.ofValue? (.text kind.label birth) = some kind := by
  cases kind <;> rfl

structure Param where
  kind : ParamKind
  name : Value
  deriving DecidableEq, Repr

namespace Param

def positional (name : String) : Param := ⟨.positional, .sym name⟩

def rest (name : String) : Param := ⟨.rest, .sym name⟩

def record (p : Param) : Obj :=
  .table [(.str "kind", .str p.kind.label), (.str "name", p.name)]

def store (p : Param) : Action Value := Action.alloc p.record

def make (kind : ParamKind) (key : Value) : Action Value := do
  let name ← Action.read (·.nameOf key)
  store ⟨kind, .sym name⟩

end Param

namespace Heap

/-- The parameter that a value records: a table with one of the two kinds and a name. -/
def param? (h : Heap) (entry : Value) : Option Param := do
  let fields ← h.entries? entry
  let kind ← ParamKind.ofValue? (← h.find? fields (.str "kind"))
  let name ← h.find? fields (.str "name")
  pure ⟨kind, name⟩

theorem param?_record {h : Heap} {v : Value} {p : Param} (made : h.obj? v = some p.record) :
    h.param? v = some p := by
  have fields : h.entries? v = some [(.str "kind", .str p.kind.label), (.str "name", p.name)] := by
    simp [entries?, made, Param.record, Obj.entries?]
  simp [param?, fields]

def kindOf (h : Heap) (entry : Value) : Except Fault (Option ParamKind) := do
  pure (ParamKind.ofValue? (← h.field entry "kind"))

end Heap

end LexicalEnv
