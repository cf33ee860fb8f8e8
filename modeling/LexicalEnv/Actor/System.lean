import LexicalEnv.Fault

/-!
# Actors and their registry

An actor serves the bindings of one frame until it is stopped. Actors are run by a
library of their own, which is known by its answers alone (`ActorLibrary.Lawful`).
The registry knows running actors by id and keeps the frame handed to each, so that
a frame can be recognised without asking its actor.
-/

namespace LexicalEnv

-- ---------------------------------------------------------------------------
-- The library that runs actors
-- ---------------------------------------------------------------------------

/-- What can be learnt of an actor that was told to stop so many times. -/
structure ActorLibrary where
  isAlive (stops : Nat) : Bool
  /-- Why a message is not handed to the actor, if it is not. -/
  refusal? (stops : Nat) : Option Fault

namespace ActorLibrary

/-- An actor runs until it is told to stop, which waits for its end. A message is handed over as
long as the actor runs; after that, to ask it fails. -/
structure Lawful (library : ActorLibrary) : Prop where
  started : library.isAlive 0 = true
  stopped : ∀ stops, library.isAlive (stops + 1) = false
  handed : ∀ stops, library.isAlive stops = true → library.refusal? stops = none
  refused : ∀ stops, library.isAlive stops = false → library.refusal? stops = some .actorDead

/-- Each actor has a thread, which ends as soon as the actor is told to stop. -/
def threads : ActorLibrary where
  isAlive stops := stops == 0
  refusal? stops := if stops = 0 then none else some .actorDead

theorem threads_lawful : threads.Lawful where
  started := rfl
  stopped _ := rfl
  handed _ h := if_pos (beq_iff_eq.mp h)
  refused _ h := if_neg (beq_eq_false_iff_ne.mp h)

instance : Inhabited ActorLibrary := ⟨threads⟩

end ActorLibrary

-- ---------------------------------------------------------------------------
-- The registry
-- ---------------------------------------------------------------------------

structure Actor where
  frame : Value
  debug : Value
  /-- How often the actor was told to stop. -/
  stops : Nat
  deriving DecidableEq, Repr, Inhabited

structure ActorSystem where
  library : ActorLibrary
  /-- Every actor ever spawned; its place in this list is part of its id. -/
  spawned : List Actor
  actors : List (String × Nat)
  frames : List (String × Value)
  deriving Inhabited

namespace ActorSystem

def empty (library : ActorLibrary) : ActorSystem := ⟨library, [], [], []⟩

def alive (s : ActorSystem) (actor : Actor) : Bool := s.library.isAlive actor.stops

def idOf (n : Nat) : String := "actor-" ++ Nat.repr n

def place? (s : ActorSystem) : Value → Option Nat
  | .text id _ => s.actors.lookup id
  | _ => none

def actor? (s : ActorSystem) (id : Value) : Option Actor := (s.place? id).bind (s.spawned[·]?)

def frame? (s : ActorSystem) : Value → Option Value
  | .text id _ => s.frames.lookup id
  | _ => none

def spawn (s : ActorSystem) (frame debug : Value) : String × ActorSystem :=
  let id := idOf s.spawned.length
  (id,
    { s with
      spawned := s.spawned ++ [⟨frame, debug, 0⟩]
      actors := s.actors ++ [(id, s.spawned.length)]
      frames := s.frames ++ [(id, frame)] })

def halt (s : ActorSystem) (place : Nat) : ActorSystem :=
  { s with
    spawned := s.spawned.modify place fun a =>
      if s.alive a then { a with stops := a.stops + 1 } else a }

def kill (s : ActorSystem) (id : Value) : ActorSystem :=
  match s.place? id with
  | some place => s.halt place
  | none => s

def forget (s : ActorSystem) (id : Value) : ActorSystem :=
  { s with
    actors := s.actors.filter fun entry => some entry.1 ≠ id.text?
    frames := s.frames.filter fun entry => some entry.1 ≠ id.text? }

def stop (s : ActorSystem) (id : Value) : ActorSystem := (s.kill id).forget id

def stopAll (s : ActorSystem) : ActorSystem :=
  { (s.actors.foldl (fun s entry => s.halt entry.2) s) with actors := [], frames := [] }

end ActorSystem

end LexicalEnv
