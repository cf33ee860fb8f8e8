import LexicalEnv.Actor.System
import LexicalEnv.Display

/-!
# The state of an environment library

Actions read and change one world: the heap, the frames made so far, the actors
and the text printed. A fault ends an action and keeps what was done before it.
-/

namespace LexicalEnv

structure World where
  heap : Heap
  /-- All frames made by the library, oldest first. -/
  frames : Array Value
  actors : ActorSystem
  printed : String
  /-- How many scalars were made. -/
  births : Nat
  deriving Inhabited

abbrev Action := EStateM Fault World

namespace Action

variable {α : Type}

def read (look : Heap → Except Fault α) : Action α := fun w =>
  match look w.heap with
  | .ok a => .ok a w
  | .error fault => .error fault w

def view (look : Heap → α) : Action α := fun w => .ok (look w.heap) w

def alloc (o : Obj) : Action Value := fun w =>
  .ok (.ref w.heap.size) { w with heap := w.heap.add o }

/-- A scalar made now, which is a thing of its own, whatever others say the same. -/
def own (v : Value) : Action Value := fun w =>
  .ok (v.bornAt w.births) { w with births := w.births + 1 }

def overwrite (a : Addr) (o : Obj) : Action Unit := fun w =>
  .ok () { w with heap := w.heap.overwrite a o }

def enroll (frame : Value) : Action Unit := fun w =>
  .ok () { w with frames := w.frames.push frame }

def say (line : String) : Action Unit := fun w =>
  .ok () { w with printed := w.printed ++ line ++ "\n" }

def onActors (change : ActorSystem → α × ActorSystem) : Action α := fun w =>
  let (a, actors) := change w.actors
  .ok a { w with actors := actors }

-- How an action runs, step by step.

theorem run_bind {β : Type} (x : Action α) (next : α → Action β) (w : World) :
    (x >>= next) w =
      match x w with
      | .ok a w' => next a w'
      | .error fault w' => .error fault w' := by
  simp only [bind, EStateM.bind]
  cases x w <;> rfl

@[simp] theorem run_pure (a : α) (w : World) : (pure a : Action α) w = .ok a w := rfl

@[simp] theorem run_throw (fault : Fault) (w : World) :
    (throw fault : Action α) w = .error fault w := rfl

theorem run_read {look : Heap → Except Fault α} {w : World} {a : α}
    (seen : look w.heap = .ok a) : read look w = .ok a w := by
  simp [read, seen]

theorem run_read_error {look : Heap → Except Fault α} {w : World} {fault : Fault}
    (seen : look w.heap = .error fault) : read look w = .error fault w := by
  simp [read, seen]

@[simp] theorem run_view (look : Heap → α) (w : World) : view look w = .ok (look w.heap) w := rfl

end Action

-- ---------------------------------------------------------------------------
-- Assignment
-- ---------------------------------------------------------------------------

/-- The frame object after one of its fields or a further key was assigned. A frame with
further keys is an ordinary table. -/
def Heap.assignedFrame (h : Heap) (parent bindings key value : Value) : Obj :=
  if key.text? = some "parent" then .frame value bindings
  else if key.text? = some "bindings" then .frame parent value
  else .table (h.insert [(.str "parent", parent), (.str "bindings", bindings)] key value)

def Heap.assigned (h : Heap) (container key value : Value) : Except Fault (Addr × Obj) :=
  match container with
  | .ref a =>
    match h.obj? container with
    | some (.table entries) => do pure (a, .table (← h.inserted entries key value))
    | some (.frame parent bindings) =>
      if h.isKey key then pure (a, h.assignedFrame parent bindings key value)
      else throw .wrongType
    | some (.list items) =>
      match key.integer? with
      | none => throw .wrongType
      | some i =>
        match Sequence.place? items.length i with
        | some n => pure (a, .list (items.set n value))
        | none => throw .outOfRange
    | _ => throw .wrongType
  | _ => throw .wrongType

def Action.assign (container key value : Value) : Action Unit := do
  let (a, o) ← Action.read (·.assigned container key value)
  Action.overwrite a o

end LexicalEnv
