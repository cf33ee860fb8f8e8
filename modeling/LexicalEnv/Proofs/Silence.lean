import LexicalEnv.Proofs.Call

/-!
# What is printed

No operation looks at what was printed, nor at more of an actor than its frame and
whether it runs, but to print. Run from worlds that differ in nothing else it
answers the same, and the worlds that it leaves differ in nothing else
(`Call.steady_of`). So what was printed has no influence (`Call.steady`).
-/

namespace LexicalEnv

structure World.Alike (w w' : World) : Prop where
  heap : w'.heap = w.heap
  frames : w'.frames = w.frames
  actors : w'.actors = w.actors
  births : w'.births = w.births

theorem World.Alike.refl (w : World) : w.Alike w := ⟨rfl, rfl, rfl, rfl⟩

theorem World.Alike.symm {w w' : World} (a : w.Alike w') : w'.Alike w :=
  ⟨a.heap.symm, a.frames.symm, a.actors.symm, a.births.symm⟩

theorem World.Alike.trans {w w' w'' : World} (a : w.Alike w') (b : w'.Alike w'') : w.Alike w'' :=
  ⟨b.heap.trans a.heap, b.frames.trans a.frames, b.actors.trans a.actors, b.births.trans a.births⟩

/-- The same world but for what was printed, with registries that are related. -/
structure World.Like (R : ActorSystem → ActorSystem → Prop) (w w' : World) : Prop where
  heap : w'.heap = w.heap
  frames : w'.frames = w.frames
  actors : R w.actors w'.actors
  births : w'.births = w.births

theorem World.Alike.grows {w w' : World} (h : w.Alike w') : w.Grows w' :=
  ⟨h.heap ▸ .refl w.heap, h.frames, h.actors⟩

theorem World.alike_iff {w w' : World} : w.Alike w' ↔ w.Like (fun s s' => s' = s) w' :=
  ⟨fun h => ⟨h.heap, h.frames, h.actors, h.births⟩, fun h => ⟨h.heap, h.frames, h.actors, h.births⟩⟩

def Actor.work (a : Actor) : Value × Nat := (a.frame, a.stops)

/-- Related registries know the same ids of actors with the same work, run by the same library, and
stay related under every change. -/
structure ActorSystem.Bisimulation (R : ActorSystem → ActorSystem → Prop) : Prop where
  library : ∀ {s s'}, R s s' → s'.library = s.library
  frames : ∀ {s s'}, R s s' → s'.frames = s.frames
  actor? : ∀ {s s'}, R s s' → ∀ id, (s'.actor? id).map Actor.work = (s.actor? id).map Actor.work
  spawn : ∀ {s s'}, R s s' → ∀ frame debug, (s'.spawn frame debug).1 = (s.spawn frame debug).1 ∧
    R (s.spawn frame debug).2 (s'.spawn frame debug).2
  kill : ∀ {s s'}, R s s' → ∀ id, R (s.kill id) (s'.kill id)
  stop : ∀ {s s'}, R s s' → ∀ id, R (s.stop id) (s'.stop id)
  stopAll : ∀ {s s'}, R s s' → R s.stopAll s'.stopAll

theorem ActorSystem.bisimulation_eq : Bisimulation fun s s' => s' = s := by
  constructor <;> rintro s _ rfl <;> simp

variable {R : ActorSystem → ActorSystem → Prop}

namespace Action

variable {α β : Type} {x x' : Action α} {next next' : α → Action β}

/-- Run from worlds that are like each other, both answer the same and leave worlds that are. -/
def Matches (R : ActorSystem → ActorSystem → Prop) (x x' : Action α) : Prop :=
  ∀ w w' : World, w.Like R w' → x'.answer w' = x.answer w ∧ (x.after w).Like R (x'.after w')

def Steady (R : ActorSystem → ActorSystem → Prop) (x : Action α) : Prop := Matches R x x

theorem Matches.ok {w w' v : World} {a : α} (h : Matches R x x') (hw : w.Like R w')
    (hx : x w = .ok a v) : ∃ v', x' w' = .ok a v' ∧ v.Like R v' := by
  obtain ⟨hanswer, hafter⟩ := h w w' hw
  simp only [answer, after, hx] at hanswer hafter
  cases hx' : x' w' with
  | ok a' v' =>
    simp only [hx', Except.ok.injEq] at hanswer hafter
    exact ⟨v', by rw [hanswer], hafter⟩
  | error fault v' => simp [hx'] at hanswer

theorem Matches.error {w w' v : World} {fault : Fault} (h : Matches R x x') (hw : w.Like R w')
    (hx : x w = .error fault v) : ∃ v', x' w' = .error fault v' ∧ v.Like R v' := by
  obtain ⟨hanswer, hafter⟩ := h w w' hw
  simp only [answer, after, hx] at hanswer hafter
  cases hx' : x' w' with
  | ok a' v' => simp [hx'] at hanswer
  | error fault' v' =>
    simp only [hx', Except.error.injEq] at hanswer hafter
    exact ⟨v', by rw [hanswer], hafter⟩

theorem Matches.bind (hx : Matches R x x') (hn : ∀ a, Matches R (next a) (next' a)) :
    Matches R (x >>= next) (x' >>= next') := by
  intro w w' hw
  simp only [answer, after, run_bind]
  cases hrun : x w with
  | ok a v =>
    obtain ⟨v', hrun', hv⟩ := hx.ok hw hrun
    simp only [hrun']
    exact hn a v v' hv
  | error fault v =>
    obtain ⟨v', hrun', hv⟩ := hx.error hw hrun
    simp only [hrun']
    exact ⟨trivial, hv⟩

theorem steady_pure (a : α) : Steady R (pure a) := fun _ _ hw => ⟨rfl, hw⟩

theorem steady_throw (fault : Fault) : Steady R (throw fault : Action α) := fun _ _ hw => ⟨rfl, hw⟩

theorem steady_read (look : Heap → Except Fault α) : Steady R (read look) := by
  intro w w' hw
  simp only [answer, after, read, hw.heap]
  cases look w.heap <;> exact ⟨rfl, hw⟩

theorem steady_view (look : Heap → α) : Steady R (view look) := by
  intro w w' hw
  simp only [answer, after, view, hw.heap]
  exact ⟨trivial, hw⟩

theorem steady_alloc (o : Obj) : Steady R (alloc o) := by
  intro w w' hw
  simp only [answer, after, alloc, hw.heap]
  exact ⟨trivial, rfl, hw.frames, hw.actors, hw.births⟩

theorem steady_own (v : Value) : Steady R (own v) := by
  intro w w' hw
  simp only [answer, after, own, hw.births]
  exact ⟨trivial, hw.heap, hw.frames, hw.actors, rfl⟩

theorem steady_overwrite (a : Addr) (o : Obj) : Steady R (overwrite a o) := by
  intro w w' hw
  simp only [answer, after, overwrite, hw.heap]
  exact ⟨trivial, rfl, hw.frames, hw.actors, hw.births⟩

theorem steady_enroll (frame : Value) : Steady R (enroll frame) := by
  intro w w' hw
  simp only [answer, after, enroll, hw.frames]
  exact ⟨trivial, hw.heap, rfl, hw.actors, hw.births⟩

theorem matches_onActors {change change' : ActorSystem → α × ActorSystem}
    (hc : ∀ s s', R s s' → (change' s').1 = (change s).1 ∧ R (change s).2 (change' s').2) :
    Matches R (onActors change) (onActors change') := by
  intro w w' hw
  obtain ⟨hanswer, hactors⟩ := hc w.actors w'.actors hw.actors
  exact ⟨congrArg Except.ok hanswer, hw.heap, hw.frames, hactors, hw.births⟩

theorem matches_say (line line' : String) : Matches R (say line) (say line') :=
  fun _ _ hw => ⟨rfl, hw.heap, hw.frames, hw.actors, hw.births⟩

theorem Matches.ite {c : Prop} [Decidable c] {y y' : Action α} (hx : Matches R x x')
    (hy : Matches R y y') : Matches R (if c then x else y) (if c then x' else y') := by
  split
  · exact hx
  · exact hy

theorem steady_mapM {f : α → Action β} (hf : ∀ a, Steady R (f a)) (l : List α) :
    Steady R (l.mapM f) := by
  induction l with
  | nil => exact steady_pure []
  | cons a l ih =>
    rw [List.mapM_cons]
    exact (hf a).bind fun b => ih.bind fun bs => steady_pure (b :: bs)

theorem discard_eq (x : Action α) : discard x = x >>= fun _ => pure () :=
  map_eq_pure_bind (Function.const α ()) x

theorem steady_discard (hx : Steady R x) : Steady R (discard x) := by
  rw [discard_eq]
  exact hx.bind fun _ => steady_pure ()

end Action

open LexicalEnv.Action

-- ---------------------------------------------------------------------------
-- Operations
-- ---------------------------------------------------------------------------

namespace Frame

theorem steady_create (parent : Value) (entries : Entries) : Steady R (create parent entries) :=
  (steady_alloc _).bind fun _ => steady_alloc _

theorem steady_enrolled (frame : Value) : Steady R (enrolled frame) :=
  (steady_enroll frame).bind fun _ => steady_pure frame

theorem steady_make (parent seed : Value) : Steady R (make parent seed) :=
  (steady_read _).bind fun _ => (steady_create parent _).bind steady_enrolled

theorem steady_setNamed (env : Value) (name : String) (value : Value) :
    Steady R (setNamed env name value) :=
  (steady_read _).bind fun _ => (steady_read _).bind fun _ => steady_overwrite _ _

theorem steady_set (env key value : Value) (debug : Bool) : Steady R (set env key value debug) := by
  refine (steady_read _).bind fun name => (steady_setNamed env name value).bind fun _ => ?_
  cases debug
  · exact steady_pure value
  · exact (steady_read _).bind fun _ => (matches_say _ _).bind fun _ => steady_pure value

theorem steady_setAll (frame : Value) (entries : Entries) : Steady R (setAll frame entries) := by
  induction entries with
  | nil => exact steady_pure ()
  | cons e rest ih =>
    exact (steady_discard (steady_set frame e.1 e.2 false)).bind fun _ => ih

theorem steady_root (primitives : Value) : Steady R (root primitives) := by
  refine (steady_create .nil []).bind fun frame => (steady_view _).bind fun filled => ?_
  cases filled
  · exact steady_enrolled frame
  · exact (steady_read _).bind fun _ => (steady_setAll frame _).bind fun _ => steady_enrolled frame

theorem steady_pairUp (args : List Value) (position : Nat) (params : List Param) :
    Steady R (pairUp args position params) := by
  induction params generalizing position with
  | nil => exact steady_pure []
  | cons p params ih =>
    obtain ⟨kind, name⟩ := p
    cases kind with
    | positional =>
      exact (steady_read _).bind fun _ => (ih (position + 1)).bind fun _ => steady_pure _
    | rest => exact ((steady_alloc _).bind fun _ => steady_alloc _).bind fun _ => steady_pure _

theorem steady_extend (outer binds exprs : Value) (debug : Bool) (name : Value) :
    Steady R (extend outer binds exprs debug name) := by
  refine (steady_read _).bind fun list => (steady_read _).bind fun args => ?_
  refine (steady_read _).bind fun _ => (steady_pairUp args 0 list.params).bind fun _ => ?_
  refine (steady_read _).bind fun entries => (steady_create outer entries).bind fun frame => ?_
  cases debug
  · exact steady_enrolled frame
  · exact (steady_read _).bind fun _ => (matches_say _ _).bind fun _ => steady_enrolled frame

theorem steady_searchTraced (env : Value) (name : String) (debug : Bool) :
    Steady R (searchTraced env name debug) := by
  refine (steady_read _).bind fun s => ?_
  cases debug
  · exact steady_pure s
  · exact (matches_say _ _).bind fun _ => steady_pure s

theorem steady_find (env key : Value) (debug : Bool) : Steady R (find env key debug) :=
  (steady_read _).bind fun name =>
    (steady_searchTraced env name debug).bind fun _ => steady_pure _

theorem steady_snapshot (env : Value) : Steady R (snapshot env) :=
  (steady_read _).bind fun _ => steady_alloc _

theorem steady_get (env key : Value) (debug : Bool) : Steady R (get env key debug) := by
  refine (steady_read _).bind fun name => (steady_searchTraced env name debug).bind fun s => ?_
  cases s.found with
  | some frame => exact steady_read _
  | none =>
    have hfail (visible : Value) : Steady R (do
        throw (← Action.view (·.unboundFault (.str name) visible)) : Action Value) :=
      (steady_view _).bind fun _ => steady_throw _
    cases debug
    · exact hfail .nil
    · exact (steady_snapshot env).bind hfail

end Frame

theorem Request.steady_perform (frame : Value) (request : Request) :
    Steady R (request.perform frame) := by
  cases request with
  | set key value => exact Frame.steady_set frame key value false
  | get key => exact Frame.steady_get frame key false
  | find key => exact (Frame.steady_find frame key false).bind fun _ => steady_pure _
  | snapshot => exact Frame.steady_snapshot frame

namespace Closure

theorem steady_make (params body env name : Value) : Steady R (make params body env name) := by
  refine (steady_read _).bind fun list => Matches.bind ?_ fun entries => ?_
  · cases list with
    | recorded entries _ => exact steady_pure entries
    | parsed params => exact steady_mapM (fun p => steady_alloc p.record) params
  · refine (steady_read _).bind fun _ => (steady_view _).bind fun _ => ?_
    exact (steady_alloc _).bind fun _ => (steady_alloc _).bind fun _ => steady_alloc _

theorem steady_enter (closure args : Value) (debug : Bool) :
    Steady R (enter closure args debug) := by
  refine (steady_view _).bind fun found => ?_
  cases found with
  | none => exact (steady_view _).bind fun _ => steady_throw _
  | some record =>
    have hcall : Steady R (do
        let env ← Action.read (·.field record "closure_env")
        let params ← Action.read (·.field record "params")
        let name ← Action.read (·.field record "name")
        Frame.extend env params args debug name) :=
      (steady_read _).bind fun env => (steady_read _).bind fun params =>
        (steady_read _).bind fun name => Frame.steady_extend env params args debug name
    cases debug
    · exact hcall
    · exact (steady_read _).bind fun _ => (matches_say _ _).bind fun _ => hcall

end Closure

namespace Shared

open LexicalEnv.ActorSystem (Bisimulation)

section
variable {α : Type} {next next' : Actor → Action α}

theorem actorOf_matches (hR : Bisimulation R) (id : Value)
    (hn : ∀ a a', a'.work = a.work → Matches R (next a) (next' a')) :
    Matches R (actorOf id >>= next) (actorOf id >>= next') := by
  intro w w' hw
  have hactors := hR.actor? hw.actors id
  simp only [answer, after, run_bind]
  cases ha : w.actors.actor? id with
  | some actor =>
    rw [ha] at hactors
    obtain ⟨actor', ha', hwork⟩ := Option.map_eq_some_iff.mp hactors
    rw [actorOf_of_some ha, actorOf_of_some ha']
    exact hn actor actor' hwork w w' hw
  | none =>
    rw [ha, Option.map_none, Option.map_eq_none_iff] at hactors
    cases hk : w.heap.isKey id with
    | true =>
      rw [actorOf_of_none hk ha, actorOf_of_none (hw.heap ▸ hk) hactors, hw.heap]
      exact ⟨rfl, hw⟩
    | false =>
      have hk' : w'.heap.isKey id = false := hw.heap ▸ hk
      simp only [actorOf, known, run_bind, run_view, hk, hk', Bool.false_eq_true, if_false,
        run_throw]
      exact ⟨trivial, hw⟩

theorem running_matches (hR : Bisimulation R) (id : Value)
    (hn : ∀ a a', a'.frame = a.frame → Matches R (next a) (next' a')) :
    Matches R (running id >>= next) (running id >>= next') := by
  simp only [running, bind_assoc]
  refine actorOf_matches hR id fun a a' hwork => ?_
  obtain ⟨hframe, hstops⟩ := Prod.mk.inj hwork
  rw [hstops]
  refine (matches_onActors fun s s' hs => ⟨by rw [hR.library hs], hs⟩).bind fun refusal => ?_
  cases refusal with
  | none => exact hn a a' hframe
  | some fault => exact steady_throw fault

end

theorem steady_frameOf (hR : Bisimulation R) (id : Value) : Steady R (frameOf id) := by
  refine (steady_view _).bind fun _ => .ite (matches_onActors fun s s' hs => ⟨?_, hs⟩)
    (steady_throw _)
  cases id with
  | text id birth => exact congrArg (List.lookup id) (hR.frames hs)
  | _ => rfl

theorem announce_matches (id : Value) (actor actor' : Actor) (op : Value) :
    Matches R (announce id actor op) (announce id actor' op) := by
  intro w w' hw
  obtain ⟨printed, hrun⟩ := announce_run id actor op w
  obtain ⟨printed', hrun'⟩ := announce_run id actor' op w'
  simp only [answer, after, hrun, hrun']
  exact ⟨trivial, hw.heap, hw.frames, hw.actors, hw.births⟩

theorem steady_ask (hR : Bisimulation R) (id : Value) (request : Request) :
    Steady R (ask id request) := by
  refine running_matches hR id fun a a' hframe => (announce_matches id a a' _).bind fun _ => ?_
  rw [hframe]
  exact request.steady_perform a.frame

theorem steady_deliver (hR : Bisimulation R) (id message : Value) :
    Steady R (deliver id message) := by
  refine running_matches hR id fun a a' hframe => (steady_read _).bind fun op => ?_
  refine (announce_matches id a a' op).bind fun _ => (steady_read _).bind fun request => ?_
  rw [hframe]
  exact request.steady_perform a.frame

theorem steady_childGet (hR : Bisimulation R) (id env key : Value) :
    Steady R (childGet id env key) := by
  refine Matches.bind ?_ fun _ => (steady_frameOf hR id).bind fun shared => ?_
  · rw [discard_eq]
    exact actorOf_matches hR id fun _ _ _ => steady_pure ()
  · refine (steady_read _).bind fun name => (steady_read _).bind fun walk => ?_
    cases walk with
    | bound value => exact steady_pure value
    | arrived => exact steady_ask hR id _
    | unbound => exact (steady_view _).bind fun _ => steady_throw _

theorem steady_kill (hR : Bisimulation R) (id : Value) : Steady R (kill id) :=
  actorOf_matches hR id fun _ _ hwork => matches_onActors fun _ _ hs =>
    ⟨congrArg₂ ActorLibrary.isAlive (hR.library hs) (congrArg Prod.snd hwork), hR.kill hs id⟩

theorem steady_stop (hR : Bisimulation R) (id : Value) : Steady R (stop id) := by
  refine Matches.bind (matches_onActors fun _ _ hs => ?_) fun idle => ?_
  · exact ⟨congrArg List.isEmpty (hR.frames hs), hs⟩
  · refine .ite (steady_pure ()) ((steady_view _).bind fun _ => ?_)
    exact .ite (matches_onActors fun _ _ hs => ⟨rfl, hR.stop hs id⟩) (steady_throw _)

theorem steady_stopAll (hR : Bisimulation R) : Steady R stopAll :=
  matches_onActors fun _ _ hs => ⟨rfl, hR.stopAll hs⟩

end Shared

theorem Call.steady_of (hR : ActorSystem.Bisimulation R) (c : Call) : Steady R c.run := by
  cases c with
  | data o => exact steady_alloc o
  | scalar v => exact steady_own v
  | make parent seed => exact Frame.steady_make parent seed
  | root primitives => exact Frame.steady_root primitives
  | extend parent binds exprs debug name => exact Frame.steady_extend parent binds exprs debug name
  | close params body env name => exact Closure.steady_make params body env name
  | enter closure args debug => exact Closure.steady_enter closure args debug
  | set env key value debug => exact Frame.steady_set env key value debug
  | find env key debug => exact Frame.steady_find env key debug
  | get env key debug => exact Frame.steady_get env key debug
  | outer env => exact steady_read (Frame.outer · env)
  | bindings env => exact steady_read (Frame.bindings · env)
  | depth env => exact (steady_read _).bind fun _ => steady_pure _
  | snapshot env => exact Frame.steady_snapshot env
  | spawn env debug =>
    exact (matches_onActors fun _ _ hs => hR.spawn hs env debug).bind fun _ => steady_pure _
  | ask id request => exact Shared.steady_ask hR id request
  | deliver id message => exact Shared.steady_deliver hR id message
  | childGet id env key => exact Shared.steady_childGet hR id env key
  | kill id => exact (Shared.steady_kill hR id).bind fun _ => steady_pure _
  | stop id => exact (Shared.steady_stop hR id).bind fun _ => steady_pure _
  | stopAll => exact (Shared.steady_stopAll hR).bind fun _ => steady_pure _

theorem Call.steady (c : Call) (w w' : World) (hw : w.Alike w') :
    c.run.answer w' = c.run.answer w ∧ (c.run.after w).Alike (c.run.after w') := by
  have hsame := c.steady_of ActorSystem.bisimulation_eq w w' (World.alike_iff.mp hw)
  exact ⟨hsame.1, World.alike_iff.mpr hsame.2⟩

theorem Request.perform_steady (frame : Value) (request : Request) {w w' : World}
    (hw : w.Alike w') : (request.perform frame).answer w' = (request.perform frame).answer w ∧
      ((request.perform frame).after w).Alike ((request.perform frame).after w') := by
  have hsame := request.steady_perform frame w w' (World.alike_iff.mp hw)
  exact ⟨hsame.1, World.alike_iff.mpr hsame.2⟩

/-- Asking an actor that runs is as good as doing the request to its frame. -/
theorem Shared.ask_matches_perform {w : World} {id : Value} {actor : Actor}
    (hs : w.Sound) (ha : w.actors.running? id = some actor) (request : Request) {w' : World}
    (hw : w.Alike w') :
    (request.perform actor.frame).answer w' = (ask id request).answer w ∧
      ((ask id request).after w).Alike ((request.perform actor.frame).after w') := by
  obtain ⟨printed, hannounce⟩ := announce_run id actor (.str request.op) w
  have hrun : ask id request w = request.perform actor.frame { w with printed := printed } := by
    simp only [ask, Action.run_bind, running_run hs ha, hannounce]
  have hw' : World.Alike { w with printed := printed } w' :=
    ⟨hw.heap, hw.frames, hw.actors, hw.births⟩
  have hdone := request.perform_steady actor.frame hw'
  simp only [answer, after, hrun] at hdone ⊢
  exact hdone

end LexicalEnv
