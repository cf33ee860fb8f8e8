import LexicalEnv.Fault

/-!
# The heap

Objects with identity: sequences, tables, frames, faults kept as values, and the
one number that differs from itself. A heap only grows, and an object changes
only by being overwritten in its place.
-/

namespace LexicalEnv

abbrev Entries := List (Value × Value)

inductive Obj where
  | list (items : List Value)
  | tuple (items : List Value)
  /-- What can be gone through and no more: it has no length and no places, and a display of its
  own. -/
  | iterable (items : List Value) (shown : String)
  | table (entries : Entries)
  /-- A frame: the frame around it, or nothing, and the table of its own bindings. -/
  | frame (parent bindings : Value)
  | failure (fault : Fault)
  /-- The result of an undefined computation, which equals no number. -/
  | undefined
  deriving DecidableEq, Repr, Inhabited

/-- A frame is a table too, with these two keys. -/
def Obj.entries? : Obj → Option Entries
  | .table entries => some entries
  | .frame parent bindings => some [(.str "parent", parent), (.str "bindings", bindings)]
  | _ => none

structure Heap where
  objects : Array Obj
  deriving Inhabited

namespace Heap

def size (h : Heap) : Nat := h.objects.size

def obj? (h : Heap) : Value → Option Obj
  | .ref a => h.objects[a]?
  | _ => none

def add (h : Heap) (o : Obj) : Heap := ⟨h.objects.push o⟩

def overwrite (h : Heap) (a : Addr) (o : Obj) : Heap := ⟨h.objects.setIfInBounds a o⟩

@[simp] theorem size_overwrite (h : Heap) (a : Addr) (o : Obj) :
    (h.overwrite a o).size = h.size := by
  simp [overwrite, size]

@[simp] theorem obj?_add_self (h : Heap) (o : Obj) : (h.add o).obj? (.ref h.size) = some o := by
  simp [add, size, obj?]

theorem obj?_add (h : Heap) (o : Obj) (v : Value) :
    (h.add o).obj? v = if v = .ref h.size then some o else h.obj? v := by
  cases v with
  | ref a => simp [add, size, obj?, Array.getElem?_push]
  | _ => simp [obj?]

theorem obj?_overwrite (h : Heap) (a : Addr) (o : Obj) (v : Value) :
    (h.overwrite a o).obj? v =
      if v = .ref a ∧ a < h.size then some o else h.obj? v := by
  cases v with
  | ref b =>
    simp only [overwrite, obj?, Array.getElem?_setIfInBounds, Value.ref.injEq, size]
    by_cases hab : a = b
    · subst hab
      by_cases hlt : a < h.objects.size
      · simp [hlt]
      · simp [hlt]
    · simp [hab, Ne.symm hab]
  | _ => simp [obj?]

def entries? (h : Heap) (v : Value) : Option Entries := (h.obj? v).bind Obj.entries?

def isUndefined (h : Heap) (v : Value) : Bool := h.obj? v == some .undefined

end Heap

end LexicalEnv
