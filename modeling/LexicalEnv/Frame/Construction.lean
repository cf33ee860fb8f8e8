import LexicalEnv.Frame.Lookup
import LexicalEnv.Parameter.Arity

/-!
# Making frames

A frame starts with a map of its own: seeded from a table, filled with the
arguments of a call, or filled with the primitives of a root. Every frame that
was made is enrolled, and one that could not be completed is not.
-/

namespace LexicalEnv

namespace Frame

def create (parent : Value) (entries : Entries) : Action Value := do
  let bindings ← Action.alloc (.table entries)
  Action.alloc (.frame parent bindings)

def enrolled (frame : Value) : Action Value := do
  Action.enroll frame
  pure frame

def make (parent seed : Value) : Action Value := do
  enrolled (← create parent (← Action.read (BindingMap.seed · seed)))

/-- The names of the parameters from a position on, with what they take: the argument in the same
position, or a list of all arguments from there on, which ends the pairing. -/
def pairUp (args : List Value) : Nat → List Param → Action (List (Value × Value))
  | _, [] => pure []
  | position, ⟨.rest, name⟩ :: _ => do pure [(name, ← Tagged.list (args.drop position))]
  | position, ⟨.positional, name⟩ :: params => do
    let arg ← Action.read fun _ => Sequence.member args (.int position)
    let bindings ← pairUp args (position + 1) params
    pure ((name, arg) :: bindings)

def report (h : Heap) (frame : Value) : Except Fault String := do
  let own ← h.count (← bindings h frame)
  let depth ← depth h frame
  pure ("New frame with " ++ Nat.repr own ++ " bindings at depth " ++ Nat.repr depth)

/-- A frame in `outer` that binds parameters to arguments. The parameters are checked first, then
the arguments, then their number, which is reported under the given name. -/
def extend (outer binds exprs : Value) (debug : Bool) (name : Value) : Action Value := do
  let list ← Action.read (·.paramList binds)
  let args ← Action.read (·.sequenceOf exprs)
  Action.read fun h => (Arity.ofParams list.params).check h args.length name
  let bindings ← pairUp args 0 list.params
  let frame ← create outer (← Action.read (·.insertAll [] bindings))
  if debug then Action.say (← Action.read (report · frame))
  enrolled frame

def setAll (frame : Value) : Entries → Action Unit
  | [] => pure ()
  | (key, value) :: rest => do
    discard (set frame key value false)
    setAll frame rest

def root (primitives : Value) : Action Value := do
  let frame ← create .nil []
  if ← Action.view (·.truthy primitives) then
    setAll frame (← Action.read (BindingMap.items · primitives))
  enrolled frame

end Frame

end LexicalEnv
