import LexicalEnv.Actor.Request

/-!
# Shared frames

A frame that several clients use is handed to an actor, and every access goes
through it by id. A frame below a shared one is private to its client, who reads
it directly and asks the actor only once the walk arrives at the shared frame.
-/

namespace LexicalEnv

namespace Shared

def spawn (frame debug : Value) : Action String := Action.onActors (·.spawn frame debug)

def known {α : Type} (look : ActorSystem → Value → Option α) (id : Value) : Action (Option α) := do
  if ← Action.view (·.isKey id) then Action.onActors fun s => (look s id, s)
  else throw .wrongType

def frameOf (id : Value) : Action (Option Value) := known ActorSystem.frame? id

def actorOf (id : Value) : Action Actor := do
  match ← known ActorSystem.actor? id with
  | some actor => pure actor
  | none => throw (← Action.view fun h => .actorUnknown (h.display id))

/-- The actor registered under an id, if the library hands it a message. -/
def running (id : Value) : Action Actor := do
  let actor ← actorOf id
  match ← Action.onActors fun s => (s.library.refusal? actor.stops, s) with
  | none => pure actor
  | some fault => throw fault

def announce (id : Value) (actor : Actor) (op : Value) : Action Unit := do
  if ← Action.view (·.truthy actor.debug) then
    Action.say (← Action.view fun h =>
      "Frame actor " ++ h.display id ++ " handling " ++ h.display op)

def ask (id : Value) (request : Request) : Action Value := do
  let actor ← running id
  announce id actor (.str request.op)
  request.perform actor.frame

def deliver (id message : Value) : Action Value := do
  let actor ← running id
  let op ← Action.read (·.field message "op")
  announce id actor op
  (← Action.read (Request.ofMessage · op message)).perform actor.frame

-- ---------------------------------------------------------------------------
-- Lookup from below a shared frame
-- ---------------------------------------------------------------------------

inductive Walk where
  | bound (value : Value)
  | arrived
  | unbound
  deriving DecidableEq, Repr

def walkAt (h : Heap) (shared : Option Value) (name : String) : Nat → Value → Except Fault Walk
  | _, .nil => pure .unbound
  | 0, _ => throw .tooDeep
  | fuel + 1, frame =>
    if shared = some frame then pure .arrived
    else do
      match ← BindingMap.lookup h (← Frame.bindings h frame) (.sym name) with
      | some value => pure (.bound value)
      | none => walkAt h shared name fuel (← Frame.outer h frame)

def walk (h : Heap) (shared : Option Value) (env : Value) (name : String) : Except Fault Walk :=
  walkAt h shared name h.size env

def childGet (id env key : Value) : Action Value := do
  discard (actorOf id)
  let shared ← frameOf id
  let name ← Action.read (·.nameOf key)
  match ← Action.read (walk · shared env name) with
  | .bound value => pure value
  | .arrived => ask id (.get (.sym name))
  | .unbound => throw (← Action.view (·.unboundFault (.str name) .nil))

-- ---------------------------------------------------------------------------
-- The end of actors
-- ---------------------------------------------------------------------------

/-- Stops an actor behind the registry's back and answers whether it still ran. -/
def kill (id : Value) : Action Bool := do
  let actor ← actorOf id
  Action.onActors fun s => (s.alive actor, s.kill id)

/-- Stops an actor and frees its id. An empty registry does not look at the id. -/
def stop (id : Value) : Action Unit := do
  let idle ← Action.onActors fun s => (s.frames.isEmpty, s)
  if idle then pure ()
  else if ← Action.view (·.isKey id) then Action.onActors fun s => ((), s.stop id)
  else throw .wrongType

def stopAll : Action Unit := Action.onActors fun s => ((), s.stopAll)

end Shared

end LexicalEnv
