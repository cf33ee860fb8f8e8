import LexicalEnv.Closure
import LexicalEnv.Proofs.Construction

/-!
# What each operation does

Setting a name writes to one map, making a frame and entering a closure add a
frame, a request to an actor does to the actor's frame what it asks for, and
spawning and stopping change the actors alone; all the rest only adds objects.
Each is a `Change`, the same whether the operation succeeds or fails.
-/

namespace LexicalEnv

open LexicalEnv.Action (Ends Preserving preserving_bind preserving_pure preserving_throw
  preserving_read preserving_view preserving_alloc preserving_say preserving_ite
  preserving_onActors)

variable {w w' w'' : World} {f parent map env key value : Value} {entries : Entries} {name : String}

-- ---------------------------------------------------------------------------
-- Lookup
-- ---------------------------------------------------------------------------

theorem Frame.preserving_searchTraced (env : Value) (name : String) (debug : Bool) :
    Preserving (searchTraced env name debug) := by
  refine preserving_bind (preserving_read _) fun s => ?_
  cases debug
  · exact preserving_pure s
  · exact preserving_bind (preserving_say _) fun _ => preserving_pure s

theorem Frame.preserving_find (env key : Value) (debug : Bool) : Preserving (find env key debug) :=
  preserving_bind (preserving_read _) fun name =>
    preserving_bind (preserving_searchTraced env name debug) fun _ => preserving_pure _

theorem Frame.preserving_snapshot (env : Value) : Preserving (snapshot env) :=
  preserving_bind (preserving_read _) fun _ => preserving_alloc _

theorem Frame.preserving_get (env key : Value) (debug : Bool) : Preserving (get env key debug) := by
  refine preserving_bind (preserving_read _) fun name => ?_
  refine preserving_bind (preserving_searchTraced env name debug) fun s => ?_
  cases s.found with
  | some frame => exact preserving_read _
  | none =>
    have hfail (visible : Value) : Preserving (do
        throw (← Action.view (·.unboundFault (.str name) visible)) : Action Value) :=
      preserving_bind (preserving_view _) fun _ => preserving_throw _
    cases debug
    · exact hfail .nil
    · exact preserving_bind (preserving_snapshot env) hfail

-- ---------------------------------------------------------------------------
-- Closures
-- ---------------------------------------------------------------------------

theorem ParamList.preserving_store (list : ParamList) : Preserving list.store := by
  cases list with
  | recorded entries params => exact preserving_pure entries
  | parsed params => exact Action.preserving_mapM (fun p => preserving_alloc p.record) params

theorem Closure.preserving_make (params body env name : Value) :
    Preserving (make params body env name) :=
  preserving_bind (preserving_read _) fun list =>
    preserving_bind list.preserving_store fun _ =>
      preserving_bind (preserving_read _) fun _ =>
        preserving_bind (preserving_view _) fun _ =>
          preserving_bind (preserving_alloc _) fun _ =>
            preserving_bind (preserving_alloc _) fun _ => preserving_alloc _

/-- If the value is a closure, it was written in a frame made so far or in none, and its parameters
carry symbols. -/
def Closure.InScope (w : World) (closure : Value) : Prop :=
  ∀ record ∈ record? w.heap closure,
    (∀ env ∈ (w.heap.field record "closure_env").toOption, w.IsScope env) ∧
      ∀ params ∈ (w.heap.field record "params").toOption, w.heap.CarriesSymbols params

instance (w : World) (closure : Value) : Decidable (Closure.InScope w closure) :=
  inferInstanceAs (Decidable (∀ record ∈ Closure.record? w.heap closure,
    (∀ env ∈ (w.heap.field record "closure_env").toOption, w.IsScope env) ∧
      ∀ params ∈ (w.heap.field record "params").toOption, w.heap.CarriesSymbols params))

theorem Closure.enter_adds {closure : Value} (hc : InScope w closure) (args : Value)
    (debug : Bool) : Ends (enter closure args debug) w (fun _ => w.Adds) (fun _ => w.Adds) := by
  refine Ends.view ?_
  cases hr : record? w.heap closure with
  | none => exact Ends.view (Ends.throw (.grown (.refl w)))
  | some record =>
    -- The trace is written first, so the call starts from a world that differs in what is printed.
    have hcall (printed : String) : Ends (do
          let env ← Action.read (·.field record "closure_env")
          let params ← Action.read (·.field record "params")
          let name ← Action.read (·.field record "name")
          Frame.extend env params args debug name) { w with printed := printed }
        (fun _ => w.Adds) (fun _ => w.Adds) := by
      have hg : w.Grows { w with printed := printed } := ⟨.refl _, rfl, rfl⟩
      refine Ends.read (fun env he => ?_) fun _ _ => .grown hg
      refine Ends.read (fun params hp => ?_) fun _ _ => .grown hg
      refine Ends.read (fun name _ => ?_) fun _ _ => .grown hg
      obtain ⟨henv, hparams⟩ := hc record hr
      have hscope := hg.isScope_iff.mpr (henv env (mem_toOption.mpr he))
      have hsymbols := hparams params (mem_toOption.mpr hp)
      exact (Frame.extend_adds hscope hsymbols args debug name).mono
        (fun _ _ h => h.of_grows hg) fun _ _ h => h.of_grows hg
    cases debug
    · exact hcall w.printed
    · exact Ends.read (fun line _ => Ends.say (hcall _)) fun _ _ => .grown (.refl w)

-- ---------------------------------------------------------------------------
-- Actors
-- ---------------------------------------------------------------------------

namespace ActorSystem

/-- The actor registered under an id, if it is still running. -/
def running? (s : ActorSystem) (id : Value) : Option Actor := (s.actor? id).filter s.alive

theorem mem_of_actor? {s : ActorSystem} {id : Value} {actor : Actor}
    (ha : s.actor? id = some actor) : actor ∈ s.spawned := by
  obtain ⟨place, -, hplace⟩ := Option.bind_eq_some_iff.mp ha
  exact List.mem_of_getElem? hplace

theorem isKey_of_actor? {s : ActorSystem} {id : Value} {actor : Actor}
    (ha : s.actor? id = some actor) (h : Heap) : h.isKey id = true := by
  cases id with
  | text => rfl
  | _ => cases ha

end ActorSystem

namespace Shared

theorem known_run {α : Type} (look : ActorSystem → Value → Option α) {id : Value}
    (hk : w.heap.isKey id = true) : known look id w = .ok (look w.actors id) w := by
  simp only [known, Action.run_bind, Action.run_view, hk, if_true]
  rfl

theorem actorOf_of_some {id : Value} {actor : Actor} (ha : w.actors.actor? id = some actor) :
    actorOf id w = .ok actor w := by
  simp only [actorOf, Action.run_bind, known_run _ (ActorSystem.isKey_of_actor? ha w.heap), ha,
    Action.run_pure]

theorem actorOf_of_none {id : Value} (hk : w.heap.isKey id = true)
    (ha : w.actors.actor? id = none) :
    actorOf id w = .error (.actorUnknown (w.heap.display id)) w := by
  simp only [actorOf, Action.run_bind, known_run _ hk, ha, Action.run_view, Action.run_throw]

theorem actorOf_fails {id : Value} (ha : w.actors.actor? id = none) :
    ∃ fault, actorOf id w = .error fault w := by
  cases hk : w.heap.isKey id with
  | true => exact ⟨_, actorOf_of_none hk ha⟩
  | false => exact ⟨.wrongType, by simp [actorOf, known, Action.run_bind, hk]⟩

theorem actorOf_ends (id : Value) (w : World) :
    Ends (actorOf id) w (fun actor w' => w' = w ∧ w.actors.actor? id = some actor)
      (fun _ w' => w' = w ∧ w.actors.actor? id = none) := by
  cases ha : w.actors.actor? id with
  | some actor => exact .of_ok (actorOf_of_some ha) ⟨rfl, rfl⟩
  | none =>
    obtain ⟨fault, hrun⟩ := actorOf_fails ha
    exact .of_error hrun ⟨rfl, rfl⟩

theorem running_of_some {id : Value} {actor : Actor} (ha : w.actors.actor? id = some actor) :
    running id w =
      match w.actors.library.refusal? actor.stops with
      | none => .ok actor w
      | some fault => .error fault w := by
  have hactor := actorOf_of_some ha
  have hlook : Action.onActors (fun s => (s.library.refusal? actor.stops, s)) w =
    .ok (w.actors.library.refusal? actor.stops) w := rfl
  simp only [running, Action.run_bind, hactor, hlook]
  cases w.actors.library.refusal? actor.stops <;> rfl

theorem running_of_alive {id : Value} {actor : Actor} (hw : w.Sound)
    (ha : w.actors.actor? id = some actor) (hl : w.actors.alive actor) :
    running id w = .ok actor w := by
  rw [running_of_some ha, hw.lawful.handed _ hl]

theorem running_of_dead {id : Value} {actor : Actor} (hw : w.Sound)
    (ha : w.actors.actor? id = some actor) (hl : ¬ w.actors.alive actor) :
    running id w = .error .actorDead w := by
  rw [running_of_some ha, hw.lawful.refused _ (Bool.eq_false_iff.mpr hl)]

theorem running_ends (hw : w.Sound) (id : Value) :
    Ends (running id) w (fun actor w' => w' = w ∧ w.actors.running? id = some actor)
      (fun _ w' => w' = w ∧ w.actors.running? id = none) := by
  cases ha : w.actors.actor? id with
  | none =>
    obtain ⟨fault, hrun⟩ := actorOf_fails ha
    have hfails : running id w = .error fault w := by rw [running, Action.run_bind, hrun]
    exact .of_error hfails ⟨rfl, by simp [ActorSystem.running?, ha]⟩
  | some actor =>
    by_cases hl : w.actors.alive actor
    · exact .of_ok (running_of_alive hw ha hl) ⟨rfl, by simp [ActorSystem.running?, ha, hl]⟩
    · exact .of_error (running_of_dead hw ha hl) ⟨rfl, by simp [ActorSystem.running?, ha, hl]⟩

theorem running_run {id : Value} {actor : Actor} (hw : w.Sound)
    (ha : w.actors.running? id = some actor) : running id w = .ok actor w := by
  obtain ⟨hactor, halive⟩ := Option.filter_eq_some_iff.mp ha
  exact running_of_alive hw hactor halive

theorem preserving_actorOf (id : Value) : Preserving (actorOf id) :=
  Action.preserving_of_ends fun w => (actorOf_ends id w).mono
    (fun _ _ h => h.1 ▸ .refl w) fun _ _ h => h.1 ▸ .refl w

theorem running_same (id : Value) (w : World) :
    Ends (running id) w (fun _ w' => w' = w) (fun _ w' => w' = w) := by
  refine Ends.bind ((actorOf_ends id w).mono (fun _ _ h => h.1) fun _ _ h => h.1) ?_
  rintro actor w' rfl
  refine Ends.bind (Ends.of_ok rfl (Q := fun _ w'' => w'' = w') rfl) ?_
  rintro refusal w' rfl
  cases refusal with
  | none => exact Ends.pure rfl
  | some fault => exact Ends.throw rfl

theorem preserving_running (id : Value) : Preserving (running id) :=
  Action.preserving_of_ends fun w => (running_same id w).mono
    (fun _ _ h => h ▸ .refl w) fun _ _ h => h ▸ .refl w

theorem preserving_known {α : Type} (look : ActorSystem → Value → Option α) (id : Value) :
    Preserving (known look id) :=
  preserving_bind (preserving_view _) fun _ =>
    preserving_ite (preserving_onActors (look · id)) (preserving_throw _)

/-- An announcement is all that an actor adds to what is done to its frame. -/
theorem announce_run (id : Value) (actor : Actor) (op : Value) (w : World) :
    ∃ printed, announce id actor op w = .ok () { w with printed := printed } := by
  simp only [announce, Action.run_bind, Action.run_view]
  split
  · exact ⟨_, rfl⟩
  · exact ⟨w.printed, rfl⟩

theorem preserving_announce (id : Value) (actor : Actor) (op : Value) :
    Preserving (announce id actor op) := by
  intro w
  obtain ⟨printed, hrun⟩ := announce_run id actor op w
  rw [Action.after, hrun]
  exact ⟨.refl _, rfl, rfl⟩

end Shared

theorem Request.perform_change (hw : w.Sound) (hf : f ∈ w.frames) (request : Request) :
    Ends (request.perform f) w (fun _ => w.Change (request.setting? w.heap f) w.actors)
      (fun _ => w.Change (request.setting? w.heap f) w.actors) := by
  have hgrown {x : Action Value} (hx : Preserving x) :
      Ends x w (fun _ => w.Change none w.actors) (fun _ => w.Change none w.actors) :=
    (hx.ends w).mono (fun _ _ h => .adds (.grown h)) fun _ _ h => .adds (.grown h)
  cases request with
  | set key value => exact hw.set_change hf key value false
  | get key => exact hgrown (Frame.preserving_get f key false)
  | find key =>
    exact hgrown (preserving_bind (Frame.preserving_find f key false) fun _ => preserving_pure _)
  | snapshot => exact hgrown (Frame.preserving_snapshot f)

theorem Shared.announced_change {actor : Actor} (hw : w.Sound) (hf : actor.frame ∈ w.frames)
    (id op : Value) (look : Heap → Except Fault Request) {s : Option Setting}
    (hs : ((look w.heap).toOption.bind fun request => request.setting? w.heap actor.frame) = s) :
    Ends (do
        announce id actor op
        (← Action.read look).perform actor.frame) w (fun _ => w.Change s w.actors)
      (fun _ => w.Change s w.actors) := by
  obtain ⟨printed, hrun⟩ := announce_run id actor op w
  have hg : w.Grows { w with printed := printed } := ⟨.refl _, rfl, rfl⟩
  refine Ends.bind (Ends.of_ok hrun (Q := fun _ w' => w' = { w with printed := printed }) rfl) ?_
  rintro _ _ rfl
  refine Ends.read (fun request hr => ?_) fun fault hr => ?_
  · obtain rfl : request.setting? w.heap actor.frame = s := by
      rw [← hs, show look w.heap = .ok request from hr]
      rfl
    have hw' : World.Sound { w with printed := printed } := hw.effect (.grown hg)
    exact (request.perform_change hw' hf).mono (fun _ _ h => h.of_grows hw hg)
      fun _ _ h => h.of_grows hw hg
  · obtain rfl : none = s := by
      rw [← hs, show look w.heap = .error fault from hr]
      rfl
    exact .adds (.grown hg)

theorem ActorSystem.frame_of_running? {id : Value} {actor : Actor} (hw : w.Sound)
    (hr : w.actors.running? id = some actor) : actor.frame ∈ w.frames :=
  hw.served actor (mem_of_actor? (Option.filter_eq_some_iff.mp hr).1)

theorem Shared.ask_change (hw : w.Sound) (id : Value) (request : Request) :
    Ends (ask id request) w
      (fun _ => w.Change ((w.actors.running? id).bind fun actor =>
        request.setting? w.heap actor.frame) w.actors)
      (fun _ => w.Change ((w.actors.running? id).bind fun actor =>
        request.setting? w.heap actor.frame) w.actors) := by
  refine Ends.bind ((running_ends hw id).mono (fun _ _ h => h) ?_) ?_
  · rintro _ _ ⟨rfl, hr⟩
    rw [hr]
    exact .adds (.grown (.refl _))
  · rintro actor w' ⟨rfl, hr⟩
    rw [hr]
    exact announced_change hw (ActorSystem.frame_of_running? hw hr) id (.str request.op)
      (fun _ => .ok request) rfl

def Request.sent? (h : Heap) (message : Value) : Option Request := do
  (ofMessage h (← (h.field message "op").toOption) message).toOption

theorem Shared.deliver_change (hw : w.Sound) (id message : Value) :
    Ends (deliver id message) w
      (fun _ => w.Change ((w.actors.running? id).bind fun actor =>
        (Request.sent? w.heap message).bind fun request =>
          request.setting? w.heap actor.frame) w.actors)
      (fun _ => w.Change ((w.actors.running? id).bind fun actor =>
        (Request.sent? w.heap message).bind fun request =>
          request.setting? w.heap actor.frame) w.actors) := by
  refine Ends.bind ((running_ends hw id).mono (fun _ _ h => h) ?_) ?_
  · rintro _ _ ⟨rfl, hr⟩
    rw [hr]
    exact .adds (.grown (.refl _))
  · rintro actor w' ⟨rfl, hr⟩
    rw [hr]
    refine Ends.read (fun op hop => ?_) fun fault hop => ?_
    · exact announced_change hw (ActorSystem.frame_of_running? hw hr) id op _ (by
        simp [Request.sent?, hop, Except.toOption])
    · rw [Option.bind_some, Request.sent?, hop]
      exact .adds (.grown (.refl _))

theorem Shared.preserving_childGet (id env key : Value) : Preserving (childGet id env key) := by
  refine preserving_bind (Action.preserving_discard (preserving_actorOf id)) fun _ => ?_
  refine preserving_bind (preserving_known _ id) fun shared => ?_
  refine preserving_bind (preserving_read _) fun name => ?_
  refine preserving_bind (preserving_read _) fun walk => ?_
  cases walk with
  | bound value => exact preserving_pure value
  | arrived =>
    exact preserving_bind (preserving_running id) fun actor =>
      preserving_bind (preserving_announce id actor _) fun _ =>
        Frame.preserving_get actor.frame _ false
  | unbound => exact preserving_bind (preserving_view _) fun _ => preserving_throw _

def ActorSystem.handed (s : ActorSystem) : List Value := s.spawned.map Actor.frame

theorem ActorSystem.handed_halt (s : ActorSystem) (place : Nat) :
    (s.halt place).handed = s.handed := by
  apply List.ext_getElem?
  intro i
  simp only [handed, halt, List.getElem?_map, List.getElem?_modify]
  cases s.spawned[i]? with
  | none => rfl
  | some actor => by_cases hp : place = i <;> simp [hp, apply_ite Actor.frame]

-- All ways to stop actors come down to telling some of them to stop, one after the other.

section
variable {P : ActorSystem → Prop} {s : ActorSystem}

theorem ActorSystem.kill_of_halt (hh : ∀ {t}, P t → ∀ place, P (t.halt place)) (hs : P s)
    (id : Value) : P (s.kill id) := by
  unfold kill
  split
  · exact hh hs _
  · exact hs

theorem ActorSystem.haltAll_of_halt (hh : ∀ {t}, P t → ∀ place, P (t.halt place)) (hs : P s)
    (entries : List (String × Nat)) : P (entries.foldl (fun s entry => s.halt entry.2) s) := by
  induction entries generalizing s with
  | nil => exact hs
  | cons entry rest ih => exact ih (hh hs entry.2)

end

theorem ActorSystem.handed_kill (s : ActorSystem) (id : Value) : (s.kill id).handed = s.handed :=
  kill_of_halt (P := fun t => t.handed = s.handed) (fun h place => (handed_halt _ place).trans h)
    rfl id

theorem ActorSystem.handed_stop (s : ActorSystem) (id : Value) : (s.stop id).handed = s.handed :=
  s.handed_kill id

theorem ActorSystem.handed_stopAll (s : ActorSystem) : s.stopAll.handed = s.handed :=
  haltAll_of_halt (P := fun t => t.handed = s.handed) (fun h place => (handed_halt _ place).trans h)
    rfl s.actors

theorem ActorSystem.library_kill (s : ActorSystem) (id : Value) : (s.kill id).library = s.library :=
  kill_of_halt (P := fun t => t.library = s.library) (fun h _ => h) rfl id

theorem ActorSystem.library_stop (s : ActorSystem) (id : Value) : (s.stop id).library = s.library :=
  s.library_kill id

theorem ActorSystem.library_stopAll (s : ActorSystem) : s.stopAll.library = s.library :=
  haltAll_of_halt (P := fun t => t.library = s.library) (fun h _ => h) rfl s.actors

theorem Shared.onActors_change {α : Type} (hw : w.Sound) {change : ActorSystem → α × ActorSystem}
    (hl : (change w.actors).2.library = w.actors.library)
    (hc : ∀ f ∈ (change w.actors).2.handed, f ∈ w.actors.handed ∨ f ∈ w.frames) :
    Ends (Action.onActors change) w (fun _ => w.Change none (change w.actors).2)
      (fun _ => w.Change none (change w.actors).2) := by
  have hserved : ∀ actor ∈ (change w.actors).2.spawned, actor.frame ∈ w.frames := by
    intro actor ha
    rcases hc actor.frame (List.mem_map_of_mem ha) with h | h
    · obtain ⟨actor', ha', he⟩ := List.mem_map.mp h
      exact he ▸ hw.served actor' ha'
    · exact h
  let w' : World := { w with actors := (change w.actors).2 }
  have hchange : w.Change none w'.actors w' := .actors (.refl _) rfl hl hserved
  exact hchange

theorem Shared.spawn_change (hw : w.Sound) (hf : f ∈ w.frames) (debug : Value) :
    Ends (spawn f debug) w (fun _ => w.Change none (w.actors.spawn f debug).2)
      (fun _ => w.Change none (w.actors.spawn f debug).2) := by
  refine onActors_change hw rfl fun g hg => ?_
  simp only [ActorSystem.handed, ActorSystem.spawn, List.map_append, List.mem_append, List.map_cons,
    List.map_nil, List.mem_singleton] at hg
  rcases hg with hg | rfl
  · exact .inl hg
  · exact .inr hf

theorem Shared.kill_change (hw : w.Sound) (id : Value) :
    Ends (kill id) w
      (fun _ => w.Change none
        (if (w.actors.actor? id).isSome then w.actors.kill id else w.actors))
      (fun _ => w.Change none
        (if (w.actors.actor? id).isSome then w.actors.kill id else w.actors)) := by
  refine Ends.bind ((actorOf_ends id w).mono (fun _ _ h => h) ?_) ?_
  · rintro _ _ ⟨rfl, ha⟩
    rw [ha]
    exact .adds (.grown (.refl _))
  · rintro actor w' ⟨rfl, ha⟩
    rw [ha]
    exact onActors_change hw (w'.actors.library_kill id) fun f hf =>
      .inl (ActorSystem.handed_kill _ id ▸ hf)

theorem Shared.stop_change (hw : w.Sound) (id : Value) :
    Ends (stop id) w
      (fun _ => w.Change none
        (if w.actors.frames.isEmpty ∨ w.heap.isKey id = false then w.actors else w.actors.stop id))
      (fun _ => w.Change none
        (if w.actors.frames.isEmpty ∨ w.heap.isKey id = false then w.actors
          else w.actors.stop id)) := by
  have hsame : w.Change none w.actors w := .adds (.grown (.refl w))
  show Ends (if w.actors.frames.isEmpty then pure () else _) w _ _
  split
  · rename_i hempty
    rw [if_pos (.inl hempty)]
    exact Ends.pure hsame
  · rename_i hempty
    refine Ends.view ?_
    split
    · rename_i hkey
      rw [if_neg (by simp [hempty, hkey])]
      exact onActors_change hw (w.actors.library_stop id) fun f hf =>
        .inl (ActorSystem.handed_stop _ id ▸ hf)
    · rename_i hkey
      rw [if_pos (.inr (by simpa using hkey))]
      exact Ends.throw hsame

theorem Shared.stopAll_change (hw : w.Sound) :
    Ends stopAll w (fun _ => w.Change none w.actors.stopAll)
      (fun _ => w.Change none w.actors.stopAll) :=
  onActors_change hw w.actors.library_stopAll fun _ hf => .inl (ActorSystem.handed_stopAll _ ▸ hf)

end LexicalEnv
