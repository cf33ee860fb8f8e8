import LexicalEnv.Proofs.Past
import LexicalEnv.Proofs.Places
import LexicalEnv.Proofs.Refusal
import LexicalEnv.Proofs.Sharing

/-!
# The lives of actors

A chronicle lists the actors that were spawned and stopped. In every run the
registry knows exactly those that were spawned and not stopped since, and no other
actor runs (`life_cycle`). An actor that died on its own stays registered until it
is stopped.
-/

namespace LexicalEnv

open LexicalEnv.Action (Ends)

inductive LifeEvent where
  | spawned (id : String) (frame : Value)
  | stopped (id : String)
  | stoppedAll
  deriving DecidableEq, Repr

def LifeEvent.Ends : LifeEvent → String → Prop
  | spawned .., _ => False
  | stopped id, id' => id = id'
  | stoppedAll, _ => True

abbrev Chronicle := List LifeEvent

namespace Chronicle

def ids (lives : Chronicle) : List String :=
  lives.filterMap fun
    | .spawned id _ => some id
    | _ => none

/-- An actor was spawned under the id for the frame and not stopped since. -/
def Serving (lives : Chronicle) (id : String) (frame : Value) : Prop :=
  ∃ before after, lives = before ++ .spawned id frame :: after ∧ ∀ e ∈ after, ¬ e.Ends id

end Chronicle

/-- The event in the lives of actors that a call is, by what it replies. -/
def Call.lifeEvent? : Call → Except Fault Value → Option LifeEvent
  | spawn frame _, .ok (.text id _) => some (.spawned id frame)
  | stop (.text id _), _ => some (.stopped id)
  | stopAll, _ => some .stoppedAll
  | _, _ => none

def Call.OfLife : Call → Prop
  | spawn .. | kill _ | stop _ | stopAll => True
  | _ => False

def World.lives (w : World) : List Call → Chronicle
  | [] => []
  | c :: calls => (c.lifeEvent? (c.run.answer w)).toList ++ lives (c.run.after w) calls

namespace Chronicle

variable {lives : Chronicle} {id : String} {frame : Value} {e : LifeEvent}

theorem ids_append (lives lives' : Chronicle) : ids (lives ++ lives') = lives.ids ++ lives'.ids :=
  List.filterMap_append

theorem Serving.mem_ids (hs : lives.Serving id frame) : id ∈ lives.ids := by
  obtain ⟨before, after, rfl, -⟩ := hs
  exact List.mem_filterMap.mpr ⟨.spawned id frame, by simp, rfl⟩

theorem serving_append_iff {lives' : Chronicle} : Serving (lives ++ lives') id frame ↔
    lives'.Serving id frame ∨ (lives.Serving id frame ∧ ∀ e ∈ lives', ¬ e.Ends id) := by
  constructor
  · rintro ⟨before, after, heq, hn⟩
    rcases List.append_eq_append_iff.mp heq with ⟨mid, rfl, rfl⟩ | ⟨mid, rfl, hmid⟩
    · exact .inl ⟨mid, after, rfl, hn⟩
    · cases mid with
      | nil => exact .inl ⟨[], after, hmid.symm, hn⟩
      | cons e mid =>
        obtain ⟨rfl, rfl⟩ := List.cons.inj hmid
        exact .inr ⟨⟨before, mid, rfl, fun e he => hn e (List.mem_append_left _ he)⟩,
          fun e he => hn e (List.mem_append_right _ he)⟩
  · rintro (⟨before, after, rfl, hn⟩ | ⟨⟨before, after, rfl, hn⟩, hn'⟩)
    · exact ⟨lives ++ before, after, (List.append_assoc ..).symm, hn⟩
    · exact ⟨before, after ++ lives', by simp, List.forall_mem_append.mpr ⟨hn, hn'⟩⟩

theorem serving_singleton_iff : Serving [e] id frame ↔ e = .spawned id frame := by
  constructor
  · rintro ⟨before, after, heq, -⟩
    obtain ⟨-, he⟩ | ⟨-, he⟩ := List.singleton_eq_append_iff.mp heq
    · exact (List.cons.inj he).1.symm
    · cases he
  · rintro rfl
    exact ⟨[], [], rfl, by simp⟩

/-- An id that was ended serves no more, unless it is handed out for the first time after that. -/
theorem not_serving_of_ends {earlier later : Chronicle} (he : e.Ends id)
    (hd : (ids (earlier ++ e :: later)).Nodup) (hi : id ∈ earlier.ids ∨ id ∉ later.ids) :
    ¬ Serving (earlier ++ e :: later) id frame := by
  have hlater : ¬ later.Serving id frame := by
    intro hs
    rcases hi with hi | hi
    · rw [List.append_cons, ids_append, ids_append] at hd
      exact (List.nodup_append.mp hd).2.2 _ (List.mem_append_left _ hi) _ hs.mem_ids rfl
    · exact hi hs.mem_ids
  rw [serving_append_iff, ← List.singleton_append, serving_append_iff, serving_singleton_iff]
  rintro ((hs | ⟨rfl, -⟩) | ⟨-, hn⟩)
  · exact hlater hs
  · exact he
  · exact hn e List.mem_cons_self he

end Chronicle

-- ---------------------------------------------------------------------------
-- What a chronicle tells
-- ---------------------------------------------------------------------------

open ActorSystem (idOf idOf_injective)

variable {s : ActorSystem} {lives : Chronicle} {id : String} {frame : Value}

structure Chronicle.Tells (lives : Chronicle) (s : ActorSystem) : Prop where
  orderly : s.Orderly
  serving : ∀ id frame, s.frames.lookup id = some frame ↔ lives.Serving id frame
  ids : lives.ids = (List.range s.handed.length).map idOf

theorem Call.registry_stop {w : World} (hs : w.actors.Consistent) (id : Value) :
    (stop id).registry w = w.actors.stop id := by
  rw [registry]
  split
  · rename_i hidle
    refine (hs.stop_of_unknown ?_).symm
    cases id with
    | text id birth =>
      obtain hempty | hkey := hidle
      · rw [ActorSystem.frame?, List.isEmpty_iff.mp hempty]
        rfl
      · cases hkey
    | _ => rfl
  · rfl

namespace Chronicle

theorem tells_empty {library : ActorLibrary} (hl : library.Lawful) : Tells [] (.empty library) := by
  refine ⟨ActorSystem.orderly_empty hl, fun id frame => ?_, rfl⟩
  simp [ActorSystem.empty, Serving]

theorem Tells.nodup_ids (ht : lives.Tells s) : lives.ids.Nodup := by
  rw [ht.ids]
  exact List.nodup_range.map idOf_injective

theorem Tells.fresh (ht : lives.Tells s) : idOf s.spawned.length ∉ lives.ids := by
  rw [ht.ids, ActorSystem.handed, List.length_map]
  intro hm
  obtain ⟨place, hlt, hid⟩ := List.mem_map.mp hm
  exact Nat.ne_of_lt (List.mem_range.mp hlt) (idOf_injective hid)

theorem Tells.spawn (ht : lives.Tells s) (frame debug : Value) :
    Tells (lives ++ [.spawned (s.spawn frame debug).1 frame]) (s.spawn frame debug).2 := by
  have hfresh : s.frames.lookup (idOf s.spawned.length) = none :=
    Option.eq_none_iff_forall_ne_some.mpr fun f hf => ht.fresh ((ht.serving _ f).mp hf).mem_ids
  refine ⟨ht.orderly.spawn frame debug, fun id f => ?_, ?_⟩
  · show (s.frames ++ [(idOf s.spawned.length, frame)]).lookup id = some f ↔ _
    rw [List.lookup_append, serving_append_iff, serving_singleton_iff, ← ht.serving]
    by_cases hid : id = idOf s.spawned.length
    · subst hid
      simp [hfresh, ActorSystem.spawn, LifeEvent.Ends]
    · have hother : List.lookup id [(idOf s.spawned.length, frame)] = none := by
        rw [List.lookup_cons, beq_eq_false_iff_ne.mpr hid]
        rfl
      rw [hother]
      simp [Ne.symm hid, ActorSystem.spawn, LifeEvent.Ends]
  · have hhanded : (s.spawn frame debug).2.handed.length = s.spawned.length + 1 := by
      simp [ActorSystem.handed, ActorSystem.spawn]
    have hids : lives.ids = (List.range s.spawned.length).map idOf := by
      rw [ht.ids, ActorSystem.handed, List.length_map]
    rw [hhanded, ids_append, hids, List.range_succ, List.map_append]
    rfl

theorem Tells.kill (ht : lives.Tells s) (id : Value) : lives.Tells (s.kill id) :=
  ⟨ht.orderly.kill id, (s.frames_kill id).symm ▸ ht.serving, (s.handed_kill id).symm ▸ ht.ids⟩

theorem Tells.stop (ht : lives.Tells s) (id : String) (birth : Birth) :
    Tells (lives ++ [.stopped id]) (s.stop (.text id birth)) := by
  refine ⟨ht.orderly.stop _, fun other f => ?_, ?_⟩
  · rw [ActorSystem.lookup_frames_stop, serving_append_iff, serving_singleton_iff, ← ht.serving]
    by_cases ho : other = id
    · simp [ho, LifeEvent.Ends]
    · simp [ho, Ne.symm ho, LifeEvent.Ends]
  · rw [ActorSystem.handed_stop, ids_append, ht.ids]
    exact List.append_nil _

theorem Tells.stopAll (ht : lives.Tells s) : Tells (lives ++ [.stoppedAll]) s.stopAll := by
  refine ⟨ht.orderly.stopAll, fun id f => ?_, ?_⟩
  · rw [serving_append_iff, serving_singleton_iff]
    simp [ActorSystem.stopAll, LifeEvent.Ends]
  · rw [ActorSystem.handed_stopAll, ids_append, ht.ids]
    exact List.append_nil _

variable {w : World}

theorem Tells.call (ht : lives.Tells w.actors) (c : Call) :
    Tells (lives ++ (c.lifeEvent? (c.run.answer w)).toList) (c.registry w) := by
  have hsame : Tells (lives ++ []) w.actors := (List.append_nil lives).symm ▸ ht
  cases c with
  | spawn env debug => exact ht.spawn env debug
  | kill id =>
    rw [Call.registry]
    split
    · exact hsame.kill id
    · exact hsame
  | stop id =>
    rw [Call.registry_stop ht.orderly.consistent]
    cases id with
    | text id birth => exact ht.stop id birth
    | _ => rwa [ht.orderly.consistent.stop_of_unknown rfl]
  | stopAll => exact ht.stopAll
  | _ => exact hsame

theorem Tells.calls {calls : List Call} (ht : lives.Tells w.actors) (hw : w.Sound)
    (hl : w.AllLegal calls) :
    (lives ++ w.lives calls).Tells (w.final Call.plainly calls).actors := by
  induction calls generalizing lives w with
  | nil =>
    rw [World.lives, List.append_nil]
    exact ht
  | cons c calls ih =>
    obtain ⟨hc, hl⟩ := hl
    have hactors := (c.change hw hc).actors_eq
    rw [World.lives, ← List.append_assoc]
    exact ih (hactors ▸ ht.call c) (hw.effect (c.effect hw hc)) hl

end Chronicle

-- ---------------------------------------------------------------------------
-- The calls
-- ---------------------------------------------------------------------------

variable {w : World} {actor : Actor}

def World.stopped (w : World) (id : Value) : World := { w with actors := w.actors.stop id }

theorem Shared.stop_run (hs : w.actors.Consistent) (id : String) (birth : Birth) :
    stop (.text id birth) w = .ok () (w.stopped (.text id birth)) := by
  show (if w.actors.frames.isEmpty then _ else _ : Action Unit) w = _
  split
  · rename_i hempty
    have hf : w.actors.frame? (.text id birth) = none := by
      rw [ActorSystem.frame?, List.isEmpty_iff.mp hempty]
      rfl
    rw [World.stopped, hs.stop_of_unknown hf]
    rfl
  · rfl

theorem Call.after_of_life {c : Call} (hc : c.OfLife) (w : World) :
    c.run.after w = { w with actors := (c.run.after w).actors } := by
  cases c with
  | spawn frame debug => rfl
  | kill id =>
    refine Ends.after (P := fun w' => w' = { w with actors := w'.actors }) ?_
    refine Ends.bind (Ends.bind (Shared.actorOf_ends id w |>.mono (fun _ _ h => h) ?_) ?_)
      fun _ _ h => Ends.pure h
    · rintro _ _ ⟨rfl, -⟩
      rfl
    · rintro actor _ ⟨rfl, -⟩
      exact Ends.of_ok rfl rfl
  | stop id =>
    refine Ends.after (P := fun w' => w' = { w with actors := w'.actors }) ?_
    refine Ends.bind (Q := fun _ w' => w' = { w with actors := w'.actors }) ?_
      fun _ _ h => Ends.pure h
    show Ends (if w.actors.frames.isEmpty then pure () else _) w _ _
    split
    · exact Ends.pure rfl
    · refine Ends.view ?_
      split
      · exact Ends.of_ok rfl rfl
      · exact Ends.throw rfl
  | stopAll => rfl
  | _ => cases hc

namespace World

/-- The world that a run leads to, with what the run did to actors. -/
def Lived (w : World) (lives : Chronicle) : Prop :=
  ∃ (library : ActorLibrary) (calls : List Call), library.Lawful ∧
    (start library).AllLegal calls ∧ w = (start library).final Call.plainly calls ∧
    lives = (start library).lives calls

/-- The registry is as the lives of the actors have left it. -/
structure Registers (w : World) (lives : Chronicle) : Prop where
  sameIds : w.actors.actors.map Prod.fst = w.actors.frames.map Prod.fst
  frame : ∀ id birth frame, w.actors.frame? (.text id birth) = some frame ↔ lives.Serving id frame
  served : ∀ id, (w.actors.actor? id).map Actor.frame = w.actors.frame? id
  running : ∀ place actor, w.actors.spawned[place]? = some actor → w.actors.alive actor →
    ∃ id, w.actors.place? (.str id) = some place
  distinct : lives.ids.Nodup

structure Gone (w : World) (id : String) : Prop where
  ask : ∀ birth request, w.Refuses "RuntimeError" (Shared.ask (.text id birth) request)
  deliver : ∀ birth message, w.Refuses "RuntimeError" (Shared.deliver (.text id birth) message)
  childGet : ∀ birth env key, w.Refuses "RuntimeError" (Shared.childGet (.text id birth) env key)

/-- Stopping an id succeeds, twice as well as once, and ends one actor at most. -/
structure Stops (w : World) (id : String) (birth : Birth) : Prop where
  run : Shared.stop (.text id birth) w = .ok () (w.stopped (.text id birth))
  again : Shared.stop (.text id birth) (w.stopped (.text id birth)) =
    .ok () (w.stopped (.text id birth))
  unknown : w.actors.frame? (.text id birth) = none → w.stopped (.text id birth) = w
  dead : ∀ actor, w.actors.actor? (.text id birth) = some actor →
    w.actors.alive actor = false →
    (w.stopped (.text id birth)).actors = w.actors.forget (.text id birth)
  others : ∀ other birth', other ≠ id →
    (w.stopped (.text id birth)).actors.frame? (.text other birth') =
        w.actors.frame? (.text other birth') ∧
      (w.stopped (.text id birth)).actors.actor? (.text other birth') =
        w.actors.actor? (.text other birth')

theorem gone_of_unknown (hs : w.actors.Consistent)
    (hf : ∀ birth, w.actors.frame? (.text id birth) = none) : w.Gone id := by
  have hunknown (birth : Birth) : Shared.actorOf (.text id birth) w =
      .error (.actorUnknown (w.heap.display (.text id birth))) w := by
    have ha := hs.frame?_eq (.text id birth)
    rw [hf, eq_comm, Option.map_eq_none_iff] at ha
    exact Shared.actorOf_of_none rfl ha
  have hrefuses (birth : Birth) {x : Action Value} (hx : x w =
      .error (.actorUnknown (w.heap.display (.text id birth))) w) : w.Refuses "RuntimeError" x :=
    ⟨_, hx, rfl⟩
  refine ⟨fun birth request => hrefuses birth ?_, fun birth message => hrefuses birth ?_,
    fun birth env key => hrefuses birth (Shared.childGet_of_error (hunknown birth) env key)⟩
  · simp only [Shared.ask, Shared.running, Action.run_bind, hunknown]
  · simp only [Shared.deliver, Shared.running, Action.run_bind, hunknown]

theorem Lived.tells {lives : Chronicle} (hw : w.Lived lives) : lives.Tells w.actors := by
  obtain ⟨library, calls, hlib, hl, rfl, rfl⟩ := hw
  exact (Chronicle.tells_empty hlib).calls (start_sound hlib) hl

theorem registers_of_tells {lives : Chronicle} (ht : lives.Tells w.actors) :
    w.Registers lives := by
  have hs := ht.orderly
  refine ⟨hs.consistent.ids_eq, fun id _ => ht.serving id,
    fun id => (hs.consistent.frame?_eq id).symm, fun place actor ha hl => ⟨idOf place, ?_⟩,
    ht.nodup_ids⟩
  exact (hs.place?_eq_some_iff none).mpr ⟨rfl, hs.running place actor ha hl⟩

theorem stops_of_orderly (hs : w.actors.Orderly) (id : String) (birth : Birth) :
    w.Stops id birth := by
  have hs' : (w.stopped (.text id birth)).actors.Orderly := hs.stop _
  have hf : (w.stopped (.text id birth)).actors.frame? (.text id birth) = none := by
    rw [ActorSystem.frame?, stopped, ActorSystem.lookup_frames_stop, if_pos rfl]
  refine ⟨Shared.stop_run hs.consistent id birth, ?_, fun hn => ?_,
    fun actor ha hd => ActorSystem.stop_of_dead ha hd,
    fun other birth' hne => hs.stop_of_ne hne _ _⟩
  · rw [Shared.stop_run hs'.consistent, stopped, hs'.consistent.stop_of_unknown hf]
  · rw [stopped, hs.consistent.stop_of_unknown hn]

/-- In every run both tables of the registry have the ids of the actors that were spawned and not
stopped since, with the frame that the actor was given and serves. No id is handed out twice, and
every actor that runs is registered. Once an id was stopped, alone or with all others, no request
reaches an actor under it for the rest of the run. To stop an id always succeeds. It changes nothing
if the id is not registered, only frees the id if its actor died before, and is nothing to other
ids. When all are stopped, no actor runs and none is registered. None of this touches a frame. -/
theorem life_cycle {lives : Chronicle} (hw : w.Lived lives) :
    w.Registers lives ∧
      (∀ frame debug, ∃ id w', Shared.spawn frame debug w = .ok id w' ∧ id ∉ lives.ids ∧
        w'.actors.running? (.str id) = some ⟨frame, debug, 0⟩) ∧
      (∀ (earlier later : Chronicle) e id, lives = earlier ++ e :: later → e.Ends id →
        id ∈ earlier.ids ∨ id ∉ later.ids → w.Gone id) ∧
      (∀ id birth, w.Stops id birth) ∧
      (∃ w', Shared.stopAll w = .ok () w' ∧ w'.actors.actors = [] ∧ w'.actors.frames = [] ∧
        ∀ actor ∈ w'.actors.spawned, w'.actors.alive actor = false) ∧
      ∀ c : Call, c.OfLife → c.run.after w = { w with actors := (c.run.after w).actors } := by
  have ht := hw.tells
  have hs := ht.orderly
  refine ⟨registers_of_tells ht, fun frame debug => ?_, fun earlier later e id hlives he hi => ?_,
    stops_of_orderly hs, ⟨_, rfl, rfl, rfl, fun actor ha => ?_⟩,
    fun c hc => c.after_of_life hc w⟩
  · exact ⟨_, _, rfl, ht.fresh, hs.running?_spawn frame debug⟩
  · subst hlives
    refine gone_of_unknown hs.consistent fun birth => ?_
    refine Option.eq_none_iff_forall_ne_some.mpr fun f hf => ?_
    exact Chronicle.not_serving_of_ends he ht.nodup_ids hi ((ht.serving id f).mp hf)
  · rw [ActorSystem.alive_of_library_eq w.actors.library_stopAll]
    exact hs.halted_stopAll ha

/-- Two actors serve one frame. The first one dies and is stopped then. -/
def twoActors : List Call :=
  [.make .nil .nil, .spawn (.ref 5) .nil, .spawn (.ref 5) .nil, .kill (.str "actor-0"),
    .stop (.str "actor-0"), .ask (.str "actor-1") (.set (.str "x") (.int 1))]

theorem life_cycle_twoActors : initial.AllLegal twoActors ∧
    initial.lives twoActors =
      [.spawned "actor-0" (.ref 5), .spawned "actor-1" (.ref 5), .stopped "actor-0"] ∧
    (initial.final Call.plainly twoActors).Gone "actor-0" ∧
    (initial.final Call.plainly twoActors).actors.frame? (.str "actor-1") = some (.ref 5) ∧
    Shared.stop (.str "actor-0") (initial.final Call.plainly twoActors) =
      .ok () (initial.final Call.plainly twoActors) := by
  have hlegal : initial.AllLegal twoActors :=
    ⟨.inl rfl, mem_frames_iff.mpr ⟨0, rfl⟩, mem_frames_iff.mpr ⟨0, rfl⟩, trivial, trivial, trivial,
      trivial⟩
  have hlives : initial.lives twoActors =
      [.spawned "actor-0" (.ref 5), .spawned "actor-1" (.ref 5), .stopped "actor-0"] := rfl
  obtain ⟨hregisters, -, hgone, hstops, -⟩ := life_cycle
    ⟨.threads, twoActors, ActorLibrary.threads_lawful, hlegal, rfl, hlives.symm⟩
  have hserving : Chronicle.Serving [.spawned "actor-0" (.ref 5), .spawned "actor-1" (.ref 5),
      .stopped "actor-0"] "actor-1" (.ref 5) :=
    ⟨[.spawned "actor-0" (.ref 5)], [.stopped "actor-0"], rfl, by simp [LifeEvent.Ends]⟩
  have hunknown : (initial.final Call.plainly twoActors).actors.frame? (.str "actor-0") = none :=
    rfl
  refine ⟨hlegal, hlives, ?_, ?_, ?_⟩
  · exact hgone [.spawned "actor-0" (.ref 5), .spawned "actor-1" (.ref 5)] [] (.stopped "actor-0")
      "actor-0" rfl rfl (.inl List.mem_cons_self)
  · exact (hregisters.frame _ none _).mpr hserving
  · obtain ⟨hrun, -, hsame, -⟩ := hstops "actor-0" none
    rw [hsame hunknown] at hrun
    exact hrun

end World

end LexicalEnv
