import LexicalEnv.Proofs.Effect

/-!
# Runs of the library

A client lays out data and calls the operations of the library, in any order
and with any arguments, as long as it passes for frames what the library made.
Calls may fail; the next one starts from whatever the last one left. `Reachable`
are the worlds that such runs lead to. All of them are sound.
-/

namespace LexicalEnv

open LexicalEnv.Action (Ends)

inductive Call where
  | data (o : Obj)
  | scalar (v : Value)
  | make (parent seed : Value)
  | root (primitives : Value)
  | extend (parent binds exprs : Value) (debug : Bool) (name : Value)
  | close (params body env name : Value)
  | enter (closure args : Value) (debug : Bool)
  | set (env key value : Value) (debug : Bool)
  | find (env key : Value) (debug : Bool)
  | get (env key : Value) (debug : Bool)
  | outer (env : Value)
  | bindings (env : Value)
  | depth (env : Value)
  | snapshot (env : Value)
  | spawn (env debug : Value)
  | ask (id : Value) (request : Request)
  | deliver (id message : Value)
  | childGet (id env key : Value)
  | kill (id : Value)
  | stop (id : Value)
  | stopAll
  deriving DecidableEq, Repr

namespace Call

def run : Call → Action Value
  | data o => Action.alloc o
  | scalar v => Action.own v
  | make parent seed => Frame.make parent seed
  | root primitives => Frame.root primitives
  | extend parent binds exprs debug name => Frame.extend parent binds exprs debug name
  | close params body env name => Closure.make params body env name
  | enter closure args debug => Closure.enter closure args debug
  | set env key value debug => Frame.set env key value debug
  | find env key debug => Frame.find env key debug
  | get env key debug => Frame.get env key debug
  | outer env => Action.read (Frame.outer · env)
  | bindings env => Action.read (Frame.bindings · env)
  | depth env => do pure (.int (← Action.read (Frame.depth · env)))
  | snapshot env => Frame.snapshot env
  | spawn env debug => do pure (.str (← Shared.spawn env debug))
  | ask id request => Shared.ask id request
  | deliver id message => Shared.deliver id message
  | childGet id env key => Shared.childGet id env key
  | kill id => do pure (.bool (← Shared.kill id))
  | stop id => do
    Shared.stop id
    pure .nil
  | stopAll => do
    Shared.stopAll
    pure .nil

/-- Frames are passed where frames are due. Nothing may stand for the frame around a frame and for
the start of a lookup. Data are no frames, and records of parameters carry symbols. -/
def Legal (w : World) : Call → Prop
  | data (.frame ..) => False
  | make parent _ => w.IsScope parent
  | extend parent binds .. => w.IsScope parent ∧ w.heap.CarriesSymbols binds
  | close params _ env _ => w.IsScope env ∧ w.heap.CarriesSymbols params
  | enter closure .. => Closure.InScope w closure
  | set env .. | outer env | bindings env | spawn env _ => env ∈ w.frames
  | find env .. | get env .. | depth env | snapshot env | childGet _ env _ => w.IsScope env
  | _ => True

/-- The setting that a call makes, if any: in the frame that it is given, or in that of the actor
that it asks. -/
def setting? (w : World) : Call → Option Setting
  | set env key value _ => (Request.set key value).setting? w.heap env
  | ask id request =>
    (w.actors.running? id).bind fun actor => request.setting? w.heap actor.frame
  | deliver id message =>
    (w.actors.running? id).bind fun actor =>
      (Request.sent? w.heap message).bind fun request => request.setting? w.heap actor.frame
  | _ => none

def registry (w : World) : Call → ActorSystem
  | spawn env debug => (w.actors.spawn env debug).2
  | kill id => if (w.actors.actor? id).isSome then w.actors.kill id else w.actors
  | stop id =>
    if w.actors.frames.isEmpty ∨ w.heap.isKey id = false then w.actors else w.actors.stop id
  | stopAll => w.actors.stopAll
  | _ => w.actors

theorem change {w : World} {c : Call} (hw : w.Sound) (hc : c.Legal w) :
    w.Change (c.setting? w) (c.registry w) (c.run.after w) := by
  have hgrown {x : Action Value} (hx : Action.Preserving x) :
      w.Change none w.actors (x.after w) := .adds (.grown (hx w))
  have hadds {x : Action Value} (hx : Ends x w (fun _ => w.Adds) fun _ => w.Adds) :
      w.Change none w.actors (x.after w) := .adds hx.after
  cases c with
  | data o => exact hgrown (Action.preserving_alloc o)
  | scalar v => exact hgrown (Action.preserving_own v)
  | make parent seed => exact hadds (Frame.make_adds hc seed)
  | root primitives => exact hadds (Frame.root_adds w primitives)
  | extend parent binds exprs debug name =>
    exact hadds (Frame.extend_adds hc.1 hc.2 exprs debug name)
  | close params body env name => exact hgrown (Closure.preserving_make params body env name)
  | enter closure args debug => exact hadds (Closure.enter_adds hc args debug)
  | set env key value debug => exact (hw.set_change hc key value debug).after
  | find env key debug => exact hgrown (Frame.preserving_find env key debug)
  | get env key debug => exact hgrown (Frame.preserving_get env key debug)
  | outer env => exact hgrown (Action.preserving_read (Frame.outer · env))
  | bindings env => exact hgrown (Action.preserving_read (Frame.bindings · env))
  | depth env => exact hgrown (Action.preserving_map _ (Action.preserving_read _))
  | snapshot env => exact hgrown (Frame.preserving_snapshot env)
  | spawn env debug =>
    exact Ends.after ((Shared.spawn_change hw hc debug).bind fun _ _ h => Ends.pure h)
  | ask id request => exact (Shared.ask_change hw id request).after
  | deliver id message => exact (Shared.deliver_change hw id message).after
  | childGet id env key => exact hgrown (Shared.preserving_childGet id env key)
  | kill id => exact Ends.after ((Shared.kill_change hw id).bind fun _ _ h => Ends.pure h)
  | stop id => exact Ends.after ((Shared.stop_change hw id).bind fun _ _ h => Ends.pure h)
  | stopAll => exact Ends.after ((Shared.stopAll_change hw).bind fun _ _ h => Ends.pure h)

theorem effect {w : World} {c : Call} (hw : w.Sound) (hc : c.Legal w) :
    w.Effect (c.run.after w) :=
  (c.change hw hc).effect

end Call

namespace World

variable {w w' : World}

def Step (w w' : World) : Prop := ∃ c : Call, c.Legal w ∧ w' = c.run.after w

/-- The worlds that legal calls lead to, whichever library runs the actors. -/
inductive Reachable : World → Prop
  | start {library : ActorLibrary} (hl : library.Lawful) : Reachable (start library)
  | step {w w' : World} (hw : Reachable w) (hs : w.Step w') : Reachable w'

theorem start_sound {library : ActorLibrary} (hl : library.Lawful) : (start library).Sound := by
  refine ⟨?_, ?_, ?_, ?_, hl⟩ <;> simp [start, ActorSystem.empty]

theorem Sound.step (hw : w.Sound) (hs : w.Step w') : w'.Sound := by
  obtain ⟨c, hc, rfl⟩ := hs
  exact hw.effect (c.effect hw hc)

theorem Reachable.sound (hw : w.Reachable) : w.Sound := by
  induction hw with
  | start hl => exact start_sound hl
  | step _ hs ih => exact ih.step hs

theorem initial_reachable : initial.Reachable := .start ActorLibrary.threads_lawful

theorem Reachable.call (hw : w.Reachable) (c : Call) (hc : c.Legal w) : (c.run.after w).Reachable :=
  .step hw ⟨c, hc, rfl⟩

/-- A frame that binds `x`, and a frame in it. -/
def twoFrames : World :=
  let calls : List Call := [.make .nil .nil, .make (.ref 5) .nil,
    .set (.ref 5) (.str "x") (.int 1) false]
  calls.foldl (fun w c => c.run.after w) initial

theorem twoFrames_frames : twoFrames.frames = #[.ref 5, .ref 7] := rfl

theorem twoFrames_reachable : twoFrames.Reachable := by
  have hfirst : World.Reachable _ := initial_reachable.call (.make .nil .nil) (.inl rfl)
  have hsecond := hfirst.call (.make (.ref 5) .nil) (.inr (mem_frames_iff.mpr ⟨0, rfl⟩))
  exact hsecond.call (.set (.ref 5) (.str "x") (.int 1) false) (mem_frames_iff.mpr ⟨0, rfl⟩)

def listedNames : World :=
  (Call.data (.list [.sym "a", .sym "&", .sym "r"])).run.after twoFrames

theorem listedNames_frames : listedNames.frames = #[.ref 5, .ref 7] := rfl

theorem listedNames_reachable : listedNames.Reachable :=
  twoFrames_reachable.call (.data (.list [.sym "a", .sym "&", .sym "r"])) trivial

theorem listedNames_declares : listedNames.heap.Declares (.ref 8) ⟨["a"], some "r"⟩ :=
  .names (e := .sym "a") rfl List.mem_cons_self rfl rfl (by decide)

end World

end LexicalEnv
