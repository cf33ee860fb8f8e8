import LexicalEnv.Proofs.Lookup
import LexicalEnv.Proofs.Registry
import LexicalEnv.Proofs.Write

/-!
# Lookup from below a shared frame

A client below a shared frame walks outwards on its own and asks the actor once
it arrives at the shared frame. What it learns is what a plain lookup answers,
except that a stopped actor cannot be asked (`Reachable.childGet_agrees`).
-/

namespace LexicalEnv

open LexicalEnv.Shared (Walk walked childGet)

-- ---------------------------------------------------------------------------
-- Where the walk ends
-- ---------------------------------------------------------------------------

section
variable {h : Heap} {frames : List Value} {shared : Value} {name : String}

theorem Shared.walked_eq_arrived_iff :
    walked h (some shared) name frames = .arrived ↔ ∃ inner outer,
      frames = inner ++ shared :: outer ∧ ∀ g ∈ inner, Frame.bound? h g name = none := by
  induction frames with
  | nil => simp [walked]
  | cons f frames ih =>
    rw [walked]
    by_cases hf : some shared = some f
    · obtain rfl := Option.some.inj hf
      simp only [if_true, true_iff]
      exact ⟨[], frames, rfl, by simp⟩
    · rw [if_neg hf]
      constructor
      · intro harrived
        cases hb : Frame.bound? h f name with
        | some value => simp [hb] at harrived
        | none =>
          rw [hb] at harrived
          obtain ⟨inner, outer, rfl, hn⟩ := ih.mp harrived
          exact ⟨f :: inner, outer, rfl, List.forall_mem_cons.mpr ⟨hb, hn⟩⟩
      · rintro ⟨inner, outer, heq, hn⟩
        cases inner with
        | nil => exact absurd (congrArg some (List.cons.inj heq).1.symm) hf
        | cons g inner =>
          obtain ⟨rfl, rfl⟩ := List.cons.inj heq
          obtain ⟨hb, hn⟩ := List.forall_mem_cons.mp hn
          rw [hb]
          exact ih.mpr ⟨inner, outer, rfl, hn⟩

theorem Shared.walked_of_ne_arrived (hw : walked h (some shared) name frames ≠ .arrived) :
    walked h (some shared) name frames =
      (Frame.resolve? h name frames).elim .unbound .bound := by
  induction frames with
  | nil => rfl
  | cons f frames ih =>
    rw [walked] at hw ⊢
    by_cases hf : some shared = some f
    · simp [hf] at hw
    · rw [if_neg hf] at hw ⊢
      rw [Frame.resolve?, List.findSome?_cons]
      cases hb : Frame.bound? h f name with
      | some value => rfl
      | none =>
        rw [hb] at hw
        exact ih hw

end

-- ---------------------------------------------------------------------------
-- Lookup through an actor
-- ---------------------------------------------------------------------------

section
variable {w : World} {id env key : Value} {actor : Actor} {frames : List Value} {name : String}

theorem Shared.ask_of_alive (hw : w.Sound) (ha : w.actors.actor? id = some actor)
    (hl : w.actors.alive actor) (request : Request) : ∃ printed,
      ask id request w = request.perform actor.frame { w with printed := printed } := by
  obtain ⟨printed, hrun⟩ := announce_run id actor (.str request.op) w
  exact ⟨printed, by simp only [ask, Action.run_bind, running_of_alive hw ha hl, hrun]⟩

theorem Shared.ask_of_dead (hw : w.Sound) (ha : w.actors.actor? id = some actor)
    (hl : ¬ w.actors.alive actor) (request : Request) :
    ask id request w = .error .actorDead w := by
  simp only [ask, Action.run_bind, running_of_dead hw ha hl]

theorem Shared.childGet_of_error {fault : Fault} (ha : actorOf id w = .error fault w)
    (env key : Value) : childGet id env key w = .error fault w := by
  simp only [childGet, Action.run_bind, Action.run_discard, ha]

theorem Heap.Chain.childGet_run (hc : w.heap.Chain env frames)
    (hl : frames.length ≤ w.heap.size) (hk : w.heap.nameOf key = .ok name)
    (hs : w.actors.Consistent) (ha : w.actors.actor? id = some actor) :
    childGet id env key w =
      match walked w.heap (some actor.frame) name frames with
      | .bound value => .ok value w
      | .arrived => Shared.ask id (.get (.sym name)) w
      | .unbound => .error (.unboundName name) w := by
  have hactor : Shared.actorOf id w = .ok actor w := Shared.actorOf_of_some ha
  have hframe : Shared.frameOf id w = .ok (some actor.frame) w := by
    rw [Shared.frameOf, Shared.known_run _ (ActorSystem.isKey_of_actor? ha w.heap), hs.frame?_eq,
      ha, Option.map_some]
  have hname : Action.read (·.nameOf key) w = .ok name w := Action.run_read hk
  have hwalk : Action.read (Shared.walk · (some actor.frame) env name) w = .ok _ w :=
    Action.run_read (hc.walk hl (some actor.frame) name)
  simp only [childGet, Action.run_bind, Action.run_discard, hactor, hframe, hname, hwalk]
  cases walked w.heap (some actor.frame) name frames <;>
    simp [Action.run_bind, unboundFault, Fault.unboundName]

theorem Heap.Chain.childGet_of_not_arrived (hc : w.heap.Chain env frames)
    (hl : frames.length ≤ w.heap.size) (hk : w.heap.nameOf key = .ok name)
    (hs : w.actors.Consistent) (ha : w.actors.actor? id = some actor)
    (hn : ¬ Frame.Unshadowed w.heap actor.frame env name) :
    childGet id env key w = Frame.get env key false w := by
  have hne : walked w.heap (some actor.frame) name frames ≠ .arrived :=
    fun harrived => hn ((hc.unshadowed_iff hl).mpr (Shared.walked_eq_arrived_iff.mp harrived))
  rw [hc.childGet_run hl hk hs ha, Shared.walked_of_ne_arrived hne, hc.get_run hl hk]
  cases Frame.resolve? w.heap name frames <;> rfl

theorem Heap.Chain.childGet_of_arrived (hc : w.heap.Chain env frames)
    (hl : frames.length ≤ w.heap.size) (hk : w.heap.nameOf key = .ok name)
    (hs : w.actors.Consistent) (ha : w.actors.actor? id = some actor)
    (hu : Frame.Unshadowed w.heap actor.frame env name) :
    childGet id env key w = Shared.ask id (.get (.sym name)) w := by
  rw [hc.childGet_run hl hk hs ha,
    Shared.walked_eq_arrived_iff.mpr ((hc.unshadowed_iff hl).mp hu)]

/-- From the shared frame on, the actor resolves the name as the frames from `env` on do, for the
frames in between do not bind it. -/
theorem Heap.Chain.ask_get_run (hw : w.Sound) (hc : w.heap.Chain env frames)
    (hl : frames.length ≤ w.heap.size) (ha : w.actors.actor? id = some actor)
    (halive : w.actors.alive actor) (hu : Frame.Unshadowed w.heap actor.frame env name) : ∃ printed,
      Shared.ask id (.get (.sym name)) w =
        match Frame.resolve? w.heap name frames with
        | some value => .ok value { w with printed := printed }
        | none => .error (.unboundName name) { w with printed := printed } := by
  obtain ⟨inner, outer, rfl, hn⟩ := (hc.unshadowed_iff hl).mp hu
  have hinner : Frame.resolve? w.heap name inner = none := List.findSome?_eq_none_iff.mpr hn
  have hresolve : Frame.resolve? w.heap name (inner ++ actor.frame :: outer) =
      Frame.resolve? w.heap name (actor.frame :: outer) := by
    rw [Frame.resolve?, List.findSome?_append, ← Frame.resolve?, hinner, Option.none_or,
      Frame.resolve?]
  have hsize : (actor.frame :: outer).length ≤ w.heap.size := by
    rw [List.length_append] at hl
    omega
  obtain ⟨printed, hrun⟩ := Shared.ask_of_alive hw ha halive (.get (.sym name))
  exact ⟨printed, by
    rw [hrun, hresolve]
    exact hc.from_mem.get_run (w := { w with printed := printed }) hsize rfl⟩

theorem Heap.Chain.childGet_after (hw : w.Sound) (hc : w.heap.Chain env frames)
    (hl : frames.length ≤ w.heap.size) (hk : w.heap.nameOf key = .ok name)
    (hs : w.actors.Consistent) (id : Value) :
    ∃ printed, (childGet id env key).after w = { w with printed := printed } := by
  cases ha : w.actors.actor? id with
  | none =>
    obtain ⟨fault, herror⟩ := Shared.actorOf_fails ha
    exact ⟨w.printed, by rw [Action.after, Shared.childGet_of_error herror]⟩
  | some actor =>
    by_cases hu : Frame.Unshadowed w.heap actor.frame env name
    · by_cases halive : w.actors.alive actor
      · obtain ⟨printed, hrun⟩ := ask_get_run hw hc hl ha halive hu
        refine ⟨printed, ?_⟩
        rw [Action.after, hc.childGet_of_arrived hl hk hs ha hu, hrun]
        cases Frame.resolve? w.heap name frames <;> rfl
      · refine ⟨w.printed, ?_⟩
        rw [Action.after, hc.childGet_of_arrived hl hk hs ha hu, Shared.ask_of_dead hw ha halive]
    · refine ⟨w.printed, ?_⟩
      rw [Action.after, hc.childGet_of_not_arrived hl hk hs ha hu, hc.get_run hl hk]
      cases Frame.resolve? w.heap name frames <;> rfl

end

namespace World

variable {w : World} {env key : Value} {name : String}

/-- A lookup from below through an actor that runs has the outcome of a plain lookup. If the actor
was stopped but is still registered, the lookup fails as such exactly if it arrives at the actor's
frame, and has the outcome of a plain lookup else. An id that is not registered is refused, wherever
the lookup starts and whatever its key is. Nothing but what is printed ever changes. -/
theorem Reachable.childGet_agrees (hw : w.Reachable) (he : w.IsScope env)
    (hk : w.heap.nameOf key = .ok name) :
    (∀ id shared, w.actors.frame? id = some shared → ∃ actor,
      w.actors.actor? id = some actor ∧ actor.frame = shared ∧
        (w.actors.alive actor →
          (childGet id env key).answer w = (Frame.get env key false).answer w) ∧
        (¬ w.actors.alive actor →
          ((childGet id env key).answer w = .error .actorDead ↔
            Frame.Unshadowed w.heap shared env name) ∧
          (¬ Frame.Unshadowed w.heap shared env name →
            (childGet id env key).answer w = (Frame.get env key false).answer w))) ∧
      (∀ id, w.heap.isKey id = true → w.actors.frame? id = none → ∀ env' key',
        (childGet id env' key').answer w = .error (.actorUnknown (w.heap.display id))) ∧
      ∀ id, ∃ printed, (childGet id env key).after w = { w with printed := printed } := by
  have hs := hw.sound
  have hreg := hw.consistent
  obtain ⟨frames, hc, hl, -⟩ := hs.chain he
  have hsize := Nat.le_trans hl hs.frames_le
  have hget := hc.get_answer hsize hk
  refine ⟨fun id shared hf => ?_, fun id hkey hf env' key' => ?_,
    Heap.Chain.childGet_after hs hc hsize hk hreg⟩
  · rw [hreg.frame?_eq] at hf
    obtain ⟨actor, ha, rfl⟩ := Option.map_eq_some_iff.mp hf
    have hplain (hn : ¬ Frame.Unshadowed w.heap actor.frame env name) :
        (childGet id env key).answer w = (Frame.get env key false).answer w := by
      rw [Action.answer, hc.childGet_of_not_arrived hsize hk hreg ha hn, Action.answer]
    refine ⟨actor, ha, rfl, fun halive => ?_, fun hdead => ⟨⟨fun hanswer => ?_, fun hu => ?_⟩,
      hplain⟩⟩
    · by_cases hu : Frame.Unshadowed w.heap actor.frame env name
      · obtain ⟨printed, hrun⟩ := Heap.Chain.ask_get_run hs hc hsize ha halive hu
        rw [hget, Action.answer, hc.childGet_of_arrived hsize hk hreg ha hu, hrun]
        cases Frame.resolve? w.heap name frames <;> rfl
      · exact hplain hu
    · -- A plain lookup never fails for a stopped actor.
      by_contra hn
      rw [hplain hn, hget] at hanswer
      cases hresolve : Frame.resolve? w.heap name frames <;>
        simp [hresolve, Fault.unboundName] at hanswer
    · rw [Action.answer, hc.childGet_of_arrived hsize hk hreg ha hu, Shared.ask_of_dead hs ha hdead]
  · rw [hreg.frame?_eq, Option.map_eq_none_iff] at hf
    rw [Action.answer, Shared.childGet_of_error (Shared.actorOf_of_none hkey hf)]

def servedFrame : World := (Call.spawn (.ref 5) .nil).run.after twoFrames

theorem servedFrame_reachable : servedFrame.Reachable :=
  twoFrames_reachable.call (.spawn (.ref 5) .nil) (by simp [Call.Legal, twoFrames_frames])

def deserted : World := (Call.kill (.str "actor-0")).run.after servedFrame

theorem deserted_reachable : deserted.Reachable :=
  servedFrame_reachable.call (.kill (.str "actor-0")) trivial

theorem childGet_agrees_twoFrames : servedFrame.Reachable ∧ deserted.Reachable ∧
    (childGet (.str "actor-0") (.ref 7) (.str "x")).answer servedFrame = .ok (.int 1) ∧
    (childGet (.str "actor-0") (.ref 7) (.str "x")).answer deserted = .error .actorDead ∧
    (childGet (.str "actor-1") (.ref 7) (.str "x")).answer deserted =
      .error (.actorUnknown (deserted.heap.display (.str "actor-1"))) := by
  have hscope : servedFrame.IsScope (.ref 7) := .inr (mem_frames_iff.mpr ⟨1, rfl⟩)
  have hscope' : deserted.IsScope (.ref 7) := .inr (mem_frames_iff.mpr ⟨1, rfl⟩)
  have hx : servedFrame.heap.nameOf (.str "x") = .ok "x" := rfl
  obtain ⟨hserved, -, -⟩ := Reachable.childGet_agrees servedFrame_reachable hscope hx
  obtain ⟨hdeserted, hunknown, -⟩ := Reachable.childGet_agrees deserted_reachable hscope' hx
  obtain ⟨actor, ha, -, hagrees, -⟩ := hserved (.str "actor-0") (.ref 5) rfl
  obtain rfl : ⟨.ref 5, .nil, 0⟩ = actor := Option.some.inj ha
  obtain ⟨actor, ha, -, -, hdead⟩ := hdeserted (.str "actor-0") (.ref 5) rfl
  obtain rfl : ⟨.ref 5, .nil, 1⟩ = actor := Option.some.inj ha
  have hseen : Frame.Unshadowed deserted.heap (.ref 5) (.ref 7) "x" :=
    ⟨[], [.ref 7], rfl, by decide⟩
  refine ⟨servedFrame_reachable, deserted_reachable, hagrees rfl, ?_, ?_⟩
  · exact (hdead (by decide)).1.mpr hseen
  · exact hunknown (.str "actor-1") rfl rfl _ _

end World

end LexicalEnv
