import LexicalEnv.Frame.BindingMap
import LexicalEnv.Frame.Snapshot
import LexicalEnv.Printing

/-!
# Looking names up

A name is looked up in a frame, then in the frame around it, and so on outwards;
the nearest frame that binds it decides. Setting a name writes to the one frame
it is set in. Traces report what was done and change nothing.
-/

namespace LexicalEnv

namespace Frame

-- ---------------------------------------------------------------------------
-- Searching a chain of frames
-- ---------------------------------------------------------------------------

structure Search where
  found : Option Value
  visited : Nat
  deriving DecidableEq, Repr

def searchAt (h : Heap) (name : String) : Nat → Nat → Value → Except Fault Search
  | _, visited, .nil => pure ⟨none, visited⟩
  | 0, _, _ => throw .tooDeep
  | fuel + 1, visited, frame => do
    if ← h.contains (← bindings h frame) (.sym name) then pure ⟨some frame, visited + 1⟩
    else searchAt h name fuel (visited + 1) (← outer h frame)

/-- The nearest frame that binds a name. A chain longer than the heap has no end. -/
def search (h : Heap) (env : Value) (name : String) : Except Fault Search :=
  searchAt h name h.size 0 env

def Search.report (s : Search) (name : String) : String :=
  match s.found with
  | some _ => "Found " ++ name ++ " after visiting " ++ Nat.repr s.visited ++ " frame(s)"
  | none => name ++ " unbound after visiting " ++ Nat.repr s.visited ++ " frame(s)"

def valueIn (h : Heap) (frame : Value) (name : String) : Except Fault Value := do
  pure ((← BindingMap.lookup h (← bindings h frame) (.sym name)).getD .nil)

-- ---------------------------------------------------------------------------
-- Operations
-- ---------------------------------------------------------------------------

def searchTraced (env : Value) (name : String) (debug : Bool) : Action Search := do
  let s ← Action.read (search · env name)
  if debug then Action.say (s.report name)
  pure s

def find (env key : Value) (debug : Bool) : Action Value := do
  let name ← Action.read (·.nameOf key)
  pure ((← searchTraced env name debug).found.getD .nil)

/-- The value of a name in the nearest frame that binds it. The fault of a name that none binds
carries a snapshot of what was visible if the lookup is traced. -/
def getNamed (env : Value) (name : String) (debug : Bool) : Action Value := do
  match (← searchTraced env name debug).found with
  | some frame => Action.read (valueIn · frame name)
  | none =>
    let visible ← if debug then snapshot env else pure .nil
    throw (← Action.view (·.unboundFault (.str name) visible))

def get (env key : Value) (debug : Bool) : Action Value := do
  getNamed env (← Action.read (·.nameOf key)) debug

def setNamed (env : Value) (name : String) (value : Value) : Action Unit := do
  Action.assign (← Action.read (bindings · env)) (.sym name) value

/-- Binds the name that a key means in a frame's own map and answers the value. The trace is
written last and may fault on a value that cannot be printed. -/
def set (env key value : Value) (debug : Bool) : Action Value := do
  let name ← Action.read (·.nameOf key)
  setNamed env name value
  if debug then Action.say ("Set " ++ name ++ " = " ++ (← Action.read (Printing.text · value)))
  pure value

end Frame

end LexicalEnv
