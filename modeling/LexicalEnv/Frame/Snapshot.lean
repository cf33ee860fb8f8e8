import LexicalEnv.Frame.BindingMap

/-!
# Chains of frames

A frame lies in the frame around it, and so on to a root. Its chain gives its
depth and the bindings that are visible from it, where inner ones hide outer
ones of the same name.
-/

namespace LexicalEnv

namespace Frame

def outer (h : Heap) (env : Value) : Except Fault Value := h.field env "parent"

def bindings (h : Heap) (env : Value) : Except Fault Value := h.field env "bindings"

def chainAt (h : Heap) : Nat → List Value → Value → Except Fault (List Value)
  | _, inner, .nil => pure inner
  | 0, _, _ => throw .tooDeep
  | fuel + 1, inner, frame => do chainAt h fuel (frame :: inner) (← outer h frame)

/-- The frames from the root down to a given one. A chain longer than the heap has no end. -/
def chain (h : Heap) (env : Value) : Except Fault (List Value) := chainAt h h.size [] env

def depth (h : Heap) (env : Value) : Except Fault Nat := do pure (← chain h env).length

def addVisible (h : Heap) (visible : Entries) (binding : Value × Value) : Except Fault Entries := do
  h.inserted visible (← h.nameCarried binding.1) binding.2

def addFrame (h : Heap) (visible : Entries) (frame : Value) : Except Fault Entries := do
  (← BindingMap.items h (← bindings h frame)).foldlM (addVisible h) visible

def visible (h : Heap) (env : Value) : Except Fault Entries := do
  (← chain h env).foldlM (addFrame h) []

/-- A table of the bindings visible from a frame, which later changes leave alone. -/
def snapshot (env : Value) : Action Value := do
  Action.alloc (.table (← Action.read (visible · env)))

end Frame

end LexicalEnv
