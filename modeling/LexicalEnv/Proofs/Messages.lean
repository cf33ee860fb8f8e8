import LexicalEnv.Proofs.Atomicity
import LexicalEnv.Proofs.Clients
import LexicalEnv.Proofs.Parsing
import LexicalEnv.Proofs.Refusal

/-!
# Bad messages

A message that sets a name does to the actor's frame what setting the name there
does. No other message changes a frame, and one that fails leaves everything but
the trace as it was. So the messages that fail could as well not have been sent
(`Reachable.messages_handled`).
-/

namespace LexicalEnv

open LexicalEnv.Action (Ends ends_read preserving_bind preserving_pure)

-- ---------------------------------------------------------------------------
-- What a message asks for
-- ---------------------------------------------------------------------------

namespace Request

def fields? : String → Option (List String)
  | "set" => some ["key", "value"]
  | "get" | "find" => some ["key"]
  | "snapshot" => some []
  | _ => none

def args : Request → List (String × Value)
  | .set key value => [("key", key), ("value", value)]
  | .get key | .find key => [("key", key)]
  | .snapshot => []

end Request

structure Heap.Asks (h : Heap) (fields : Entries) (request : Request) : Prop where
  op : ∃ birth, h.find? fields (.str "op") = some (.text request.op birth)
  args : ∀ arg ∈ request.args, h.find? fields (.str arg.1) = some arg.2

/-- The fields of a message hold no request, for which the fault has the given title. -/
inductive Heap.Misfit (h : Heap) (fields : Entries) : String → Prop
  | noOp (ho : h.find? fields (.str "op") = none) : h.Misfit fields "KeyError"
  | noArg {op name : String} {birth : Birth} {needed : List String}
    (ho : h.find? fields (.str "op") = some (.text op birth))
    (hf : Request.fields? op = some needed) (hm : name ∈ needed)
    (hn : h.find? fields (.str name) = none) : h.Misfit fields "KeyError"
  | unknown {op : Value} (ho : h.find? fields (.str "op") = some op)
    (hn : op.text?.bind Request.fields? = none) : h.Misfit fields "ValueError"

/-- How an actor of the frame ends with a message of these fields: without a fault, or with one of
the given title. -/
inductive Heap.Ruling (h : Heap) (frame : Value) (fields : Entries) : Option String → Prop
  | misfit {title : String} (hm : h.Misfit fields title) : h.Ruling frame fields (some title)
  | noName {request : Request} {key : Value} {fault : Fault} (ha : h.Asks fields request)
    (hk : request.key? = some key) (hn : h.nameOf key = .error fault) :
    h.Ruling frame fields (some "TypeError")
  | unbound {key : Value} {name : String} (ha : h.Asks fields (.get key))
    (hn : h.nameOf key = .ok name) (hu : Frame.Unbound h frame name) :
    h.Ruling frame fields (some "UnboundSymbolError")
  | answered {request : Request} (ha : h.Asks fields request)
    (hk : ∀ key ∈ request.key?, ∃ name, h.nameOf key = .ok name ∧
      (request = .get key → ¬ Frame.Unbound h frame name)) : h.Ruling frame fields none

namespace Heap

variable {h : Heap} {message frame op : Value} {fields : Entries} {request : Request}
  {name : String} {birth : Birth}

theorem field_eq (he : h.entries? message = some fields) (name : String) :
    h.field message name = ((h.find? fields (.str name)).elim (.error .missingKey) .ok) := by
  cases hf : h.find? fields (.str name) with
  | some value => exact field_of_entries he hf
  | none =>
    obtain ⟨o, ho, hentries⟩ := Option.bind_eq_some_iff.mp he
    obtain ⟨a, rfl, -⟩ := exists_ref_of_obj? ho
    rw [Value.str] at hf
    cases o <;> simp_all [field, subscript, Obj.entries?] <;> rfl

theorem ofMessage_noArg {op : String} {needed : List String} (he : h.entries? message = some fields)
    (hf : Request.fields? op = some needed) (hm : name ∈ needed)
    (hn : h.find? fields (.str name) = none) (birth : Birth) :
    Request.ofMessage h (.text op birth) message = .error .missingKey := by
  have hfield := field_eq he
  unfold Request.fields? at hf
  split at hf
  · obtain rfl := Option.some.inj hf
    rw [Request.ofMessage, hfield, hfield]
    cases hk : h.find? fields (.str "key") with
    | none => rfl
    | some key =>
      obtain rfl : name = "value" := by
        rcases List.mem_pair.mp hm with rfl | rfl
        · cases hk.symm.trans hn
        · rfl
      rw [hn]
      rfl
  · obtain rfl := Option.some.inj hf
    rw [List.mem_singleton.mp hm] at hn
    rw [Request.ofMessage, hfield, hn]
    rfl
  · obtain rfl := Option.some.inj hf
    rw [List.mem_singleton.mp hm] at hn
    rw [Request.ofMessage, hfield, hn]
    rfl
  · obtain rfl := Option.some.inj hf
    cases hm
  · cases hf

theorem ofMessage_unknown {op : Value} (hn : op.text?.bind Request.fields? = none)
    (message : Value) :
    Request.ofMessage h op message = .error (.requestUnknown (h.display op)) := by
  unfold Request.ofMessage
  split
  · cases hn
  · cases hn
  · cases hn
  · cases hn
  · rfl

theorem Asks.ofMessage (ha : h.Asks fields request) (he : h.entries? message = some fields)
    (birth : Birth) : Request.ofMessage h (.text request.op birth) message = .ok request := by
  have harg {name : String} {value : Value} (hm : (name, value) ∈ request.args) :
      h.field message name = .ok value := field_of_entries he (ha.args _ hm)
  cases request with
  | set key value =>
    simp only [Request.ofMessage, Request.op, harg (.head _), harg (.tail _ (.head _))]
    rfl
  | get key =>
    simp only [Request.ofMessage, Request.op, harg (.head _)]
    rfl
  | find key =>
    simp only [Request.ofMessage, Request.op, harg (.head _)]
    rfl
  | snapshot => rfl

theorem exists_asks {op : String} {needed : List String}
    (ho : h.find? fields (.str "op") = some (.text op birth))
    (hf : Request.fields? op = some needed)
    (hall : ∀ name ∈ needed, ∃ value, h.find? fields (.str name) = some value) :
    ∃ request, h.Asks fields request := by
  unfold Request.fields? at hf
  split at hf <;> cases hf
  · obtain ⟨key, hkey⟩ := hall "key" (.head _)
    obtain ⟨value, hvalue⟩ := hall "value" (.tail _ (.head _))
    exact ⟨.set key value, ⟨birth, ho⟩, by simpa [Request.args] using ⟨hkey, hvalue⟩⟩
  · obtain ⟨key, hkey⟩ := hall "key" (.head _)
    exact ⟨.get key, ⟨birth, ho⟩, by simpa [Request.args] using hkey⟩
  · obtain ⟨key, hkey⟩ := hall "key" (.head _)
    exact ⟨.find key, ⟨birth, ho⟩, by simpa [Request.args] using hkey⟩
  · exact ⟨.snapshot, ⟨birth, ho⟩, by simp [Request.args]⟩

theorem misfit_or_asks (h : Heap) (fields : Entries) :
    (∃ title, h.Misfit fields title) ∨ ∃ request, h.Asks fields request := by
  cases ho : h.find? fields (.str "op") with
  | none => exact .inl ⟨_, .noOp ho⟩
  | some op =>
    cases hn : op.text?.bind Request.fields? with
    | none => exact .inl ⟨_, .unknown ho hn⟩
    | some needed =>
      obtain ⟨name, ht, hf⟩ := Option.bind_eq_some_iff.mp hn
      cases op with
      | text op birth =>
        obtain rfl := Option.some.inj ht
        by_cases hmissing : ∃ field ∈ needed, h.find? fields (.str field) = none
        · obtain ⟨field, hm, hfield⟩ := hmissing
          exact .inl ⟨_, .noArg ho hf hm hfield⟩
        · exact .inr (exists_asks ho hf fun field hm =>
            Option.ne_none_iff_exists'.mp fun hfield => hmissing ⟨field, hm, hfield⟩)
      | _ => cases ht

theorem exists_ruling (h : Heap) (frame : Value) (fields : Entries) :
    ∃ title, h.Ruling frame fields title := by
  rcases h.misfit_or_asks fields with ⟨title, hm⟩ | ⟨request, ha⟩
  · exact ⟨_, .misfit hm⟩
  by_cases hrefused : ∃ key fault, request.key? = some key ∧ h.nameOf key = .error fault
  · obtain ⟨key, fault, hk, hn⟩ := hrefused
    exact ⟨_, .noName ha hk hn⟩
  by_cases hunbound : ∃ key name, request = .get key ∧ h.nameOf key = .ok name ∧
      Frame.Unbound h frame name
  · obtain ⟨key, name, rfl, hn, hu⟩ := hunbound
    exact ⟨_, .unbound ha hn hu⟩
  refine ⟨_, .answered ha fun key hk => ?_⟩
  cases hn : h.nameOf key with
  | error fault => exact absurd ⟨key, fault, hk, hn⟩ hrefused
  | ok name => exact ⟨name, rfl, fun hget hu => hunbound ⟨key, name, hget, hn, hu⟩⟩

end Heap

-- ---------------------------------------------------------------------------
-- What a request does
-- ---------------------------------------------------------------------------

section
variable {w w' : World} {f key message : Value} {fields : Entries} {name : String}
  {request : Request} {fault : Fault}

theorem Action.title?_eq {α : Type} (x : Action α) (w : World) :
    x.title? w = match x.answer w with
      | .ok _ => none
      | .error fault => some fault.title := by
  rw [title?, answer]
  cases x w <;> rfl

namespace Request

theorem perform_ends (f : Value) (request : Request) (w : World) :
    Ends (request.perform f) w (fun _ _ => True) (fun _ w' => w' = w) := by
  cases request with
  | set key value =>
    refine Ends.read (fun name _ => ?_) fun _ _ => rfl
    refine Ends.bind (Q := fun _ _ => True) ?_ fun _ _ _ => Ends.pure trivial
    refine Ends.read (fun map _ => ?_) fun _ _ => rfl
    exact Ends.read (fun _ _ => trivial) fun _ _ => rfl
  | get key =>
    refine Ends.read (fun name _ => ?_) fun _ _ => rfl
    refine Ends.bind (Q := fun _ w' => w' = w)
      (Ends.read (fun _ _ => Ends.pure rfl) fun _ _ => rfl) ?_
    rintro s w' rfl
    cases s.found with
    | some frame =>
      exact (ends_read (Frame.valueIn · frame name) w').mono (fun _ _ _ => trivial) fun _ _ h => h
    | none =>
      refine Ends.bind (Q := fun _ w'' => w'' = w') (Ends.pure rfl) ?_
      rintro visible _ rfl
      exact Ends.view (Ends.throw rfl)
  | find key =>
    refine Ends.bind (Q := fun _ _ => True) ?_ fun _ _ _ => Ends.pure trivial
    refine Ends.read (fun name _ => ?_) fun _ _ => rfl
    refine Ends.bind (Q := fun _ _ => True) ?_ fun _ _ _ => Ends.pure trivial
    exact Ends.read (fun _ _ => Ends.pure trivial) fun _ _ => rfl
  | snapshot => exact Ends.read (fun _ _ => trivial) fun _ _ => rfl

theorem perform_grows (hn : request.setting? w.heap f = none) :
    w.Grows ((request.perform f).after w) := by
  cases request with
  | set key value =>
    cases hk : w.heap.nameOf key with
    | ok name => simp [setting?, hk, Except.toOption] at hn
    | error fault =>
      have hread : Action.read (·.nameOf key) w = .error fault w := Action.run_read_error hk
      simp only [perform, Frame.set, Action.after, Action.run_bind, hread]
      exact .refl w
  | get key => exact Frame.preserving_get f key false w
  | find key =>
    exact preserving_bind (Frame.preserving_find f key false) (fun _ => preserving_pure _) w
  | snapshot => exact Frame.preserving_snapshot f w

theorem perform_answer (hw : w.Sound) (hf : f ∈ w.frames)
    (hk : ∀ key ∈ request.key?, ∃ name, w.heap.nameOf key = .ok name ∧
      (request = .get key → ¬ Frame.Unbound w.heap f name)) :
    ∃ value, (request.perform f).answer w = .ok value := by
  obtain ⟨frames, hc, hl, -⟩ := hw.chain (.inr hf)
  have hsize := Nat.le_trans hl hw.frames_le
  cases request with
  | set key value =>
    obtain ⟨name, hn, -⟩ := hk key rfl
    obtain ⟨_, _, _, hi, -⟩ := hw.isFrame hf
    exact ⟨value, hi.set_answer hn value⟩
  | get key =>
    obtain ⟨name, hn, hbound⟩ := hk key rfl
    have hresolve := mt hc.unbound_iff_resolve?.mpr (hbound rfl)
    obtain ⟨value, hvalue⟩ := Option.ne_none_iff_exists'.mp hresolve
    exact ⟨value, by rw [perform, hc.get_answer hsize hn, hvalue]⟩
  | find key =>
    obtain ⟨name, hn, -⟩ := hk key rfl
    exact ⟨_, hc.perform_find_answer hsize hn⟩
  | snapshot => exact ⟨_, by rw [perform, Action.answer, hc.snapshot_run hsize]⟩

theorem perform_unbound (hw : w.Sound) (hf : f ∈ w.frames) (hn : w.heap.nameOf key = .ok name)
    (hu : Frame.Unbound w.heap f name) :
    ((Request.get key).perform f).answer w = .error (.unboundName name) := by
  obtain ⟨frames, hc, hl, -⟩ := hw.chain (.inr hf)
  rw [perform, hc.get_answer (Nat.le_trans hl hw.frames_le) hn, hc.unbound_iff_resolve?.mp hu]

end Request

-- ---------------------------------------------------------------------------
-- What a message does
-- ---------------------------------------------------------------------------

namespace Shared

variable {id op : Value} {actor : Actor}

theorem deliver_eq (hw : w.Sound) (ha : w.actors.running? id = some actor)
    (ho : w.heap.field message "op" = .ok op) : ∃ w', w.Alike w' ∧ deliver id message w = (do
      (← Action.read (Request.ofMessage · op message)).perform actor.frame : Action Value) w' := by
  have hread : Action.read (·.field message "op") w = .ok op w := Action.run_read ho
  obtain ⟨printed, hrun⟩ := announce_run id actor op w
  refine ⟨{ w with printed := printed }, ⟨rfl, rfl, rfl, rfl⟩, ?_⟩
  simp only [deliver, Action.run_bind, running_run hw ha, hread, hrun]

theorem deliver_misfit {title : String} (hw : w.Sound) (ha : w.actors.running? id = some actor)
    (he : w.heap.entries? message = some fields) (hm : w.heap.Misfit fields title) :
    ∃ fault w', w.Alike w' ∧ deliver id message w = .error fault w' ∧ fault.title = title := by
  have hrefused {op : Value} {fault : Fault} (ho : w.heap.find? fields (.str "op") = some op)
      (hr : Request.ofMessage w.heap op message = .error fault) :
      ∃ w', w.Alike w' ∧ deliver id message w = .error fault w' := by
    obtain ⟨w', halike, hrun⟩ := deliver_eq hw ha (Heap.field_of_entries he ho)
    have hread : Action.read (Request.ofMessage · op message) w' = .error fault w' :=
      Action.run_read_error (halike.heap ▸ hr)
    exact ⟨w', halike, by rw [hrun, Action.run_bind, hread]⟩
  cases hm with
  | noOp ho =>
    have hfield : w.heap.field message "op" = .error .missingKey := by
      rw [Heap.field_eq he, ho, Option.elim_none]
    have hread : Action.read (·.field message "op") w = .error .missingKey w :=
      Action.run_read_error hfield
    refine ⟨.missingKey, w, .refl w, ?_, rfl⟩
    simp only [deliver, Action.run_bind, running_run hw ha, hread]
  | noArg ho hf hm hn =>
    obtain ⟨w', halike, hrun⟩ := hrefused ho (Heap.ofMessage_noArg he hf hm hn _)
    exact ⟨_, w', halike, hrun, rfl⟩
  | unknown ho hn =>
    obtain ⟨w', halike, hrun⟩ := hrefused ho (Heap.ofMessage_unknown hn message)
    exact ⟨_, w', halike, hrun, rfl⟩

theorem deliver_request (hw : w.Sound) (ha : w.actors.running? id = some actor)
    (he : w.heap.entries? message = some fields) (hr : w.heap.Asks fields request) :
    (deliver id message).answer w = (request.perform actor.frame).answer w ∧
      ((request.perform actor.frame).after w).Alike ((deliver id message).after w) := by
  obtain ⟨birth, ho⟩ := hr.op
  obtain ⟨w', halike, hrun⟩ := deliver_eq hw ha (Heap.field_of_entries he ho)
  have hread : Action.read (Request.ofMessage · (.text request.op birth) message) w' =
      .ok request w' := Action.run_read (halike.heap ▸ hr.ofMessage he birth)
  have hdone := request.perform_steady actor.frame halike
  rw [Action.run_bind, hread] at hrun
  simp only [Action.answer, Action.after, hrun] at hdone ⊢
  exact hdone

theorem deliver_ends (id message : Value) (w : World) :
    Ends (deliver id message) w (fun _ _ => True) (fun _ w' => w.Alike w') := by
  refine Ends.bind ((running_same id w).mono (fun _ _ h => h) fun _ _ h => h ▸ .refl w) ?_
  rintro actor w' rfl
  refine Ends.read (fun op _ => ?_) fun _ _ => .refl w'
  obtain ⟨printed, hrun⟩ := announce_run id actor op w'
  have halike : w'.Alike { w' with printed := printed } := ⟨rfl, rfl, rfl, rfl⟩
  refine Ends.bind (Ends.of_ok hrun (Q := fun _ w'' => w'.Alike w'') halike) ?_
  intro _ w'' halike
  refine Ends.read (fun request _ => ?_) fun _ _ => halike
  exact (request.perform_ends actor.frame w'').mono (fun _ _ _ => trivial) fun _ _ h => h ▸ halike

end Shared

end

namespace World

/-- A message of these fields to an actor of the frame. -/
structure Handles (w : World) (id frame message : Value) (fields : Entries) : Prop where
  ruling : ∀ title, (Shared.deliver id message).title? w = title ↔
    w.heap.Ruling frame fields title
  set : ∀ key value name, w.heap.Asks fields (.set key value) → w.heap.nameOf key = .ok name →
    (Shared.deliver id message).answer w = (Frame.set frame key value false).answer w ∧
      ((Frame.set frame key value false).after w).Alike ((Shared.deliver id message).after w)
  other : (∀ key value name, w.heap.Asks fields (.set key value) →
    w.heap.nameOf key ≠ .ok name) → w.Grows ((Shared.deliver id message).after w)
  untouched : w.Untouched ((Shared.deliver id message).after w) ↔
    ∀ key value name, w.heap.Asks fields (.set key value) → w.heap.nameOf key = .ok name →
      Frame.bound? w.heap frame name = some value
  frames : ((Shared.deliver id message).after w).frames = w.frames
  actors : ((Shared.deliver id message).after w).actors = w.actors
  raised : ∀ fault w', Shared.deliver id message w = .error fault w' → w.Alike w'

def answered (w : World) : List Call → List Call
  | [] => []
  | c :: calls =>
    let later := answered (c.run.after w) calls
    if (c.run.answer w).isOk then c :: later else later

section
variable {w w' : World} {id message : Value} {actor : Actor} {fields : Entries}

theorem Sound.deliver_title (hw : w.Sound) (ha : w.actors.running? id = some actor)
    (he : w.heap.entries? message = some fields) {title : Option String}
    (hr : w.heap.Ruling actor.frame fields title) :
    (Shared.deliver id message).title? w = title := by
  have hf := ActorSystem.frame_of_running? hw ha
  cases hr with
  | misfit hm =>
    obtain ⟨fault, w', -, hrun, rfl⟩ := Shared.deliver_misfit hw ha he hm
    rw [Action.title?, hrun]
  | noName hr hk hn =>
    rw [Action.title?_eq, (Shared.deliver_request hw ha he hr).1, Request.perform_refused hk hn]
    exact congrArg some (Heap.nameOf_error hn)
  | unbound hr hn hu =>
    rw [Action.title?_eq, (Shared.deliver_request hw ha he hr).1,
      Request.perform_unbound hw hf hn hu]
    rfl
  | answered hr hk =>
    obtain ⟨value, hvalue⟩ := Request.perform_answer hw hf hk
    rw [Action.title?_eq, (Shared.deliver_request hw ha he hr).1, hvalue]

theorem deliver_grows (hw : w.Sound) (ha : w.actors.running? id = some actor)
    (he : w.heap.entries? message = some fields)
    (hn : ∀ key value name, w.heap.Asks fields (.set key value) → w.heap.nameOf key ≠ .ok name) :
    w.Grows ((Shared.deliver id message).after w) := by
  rcases w.heap.misfit_or_asks fields with ⟨title, hm⟩ | ⟨request, hr⟩
  · obtain ⟨fault, w', halike, hrun, -⟩ := Shared.deliver_misfit hw ha he hm
    rw [Action.after, hrun]
    exact halike.grows
  · refine (Request.perform_grows ?_).trans (Shared.deliver_request hw ha he hr).2.grows
    cases request with
    | set key value =>
      cases hk : w.heap.nameOf key with
      | ok name => exact absurd hk (hn key value name hr)
      | error fault => simp [Request.setting?, hk, Except.toOption]
    | _ => rfl

theorem Sound.deliver_untouched (hw : w.Sound) (ha : w.actors.running? id = some actor)
    (he : w.heap.entries? message = some fields) :
    ((Shared.deliver id message).after w).frames = w.frames ∧
      (w.Untouched ((Shared.deliver id message).after w) ↔
        ∀ key value name, w.heap.Asks fields (.set key value) → w.heap.nameOf key = .ok name →
          Frame.bound? w.heap actor.frame name = some value) := by
  have hf := ActorSystem.frame_of_running? hw ha
  by_cases hset : ∃ key value name, w.heap.Asks fields (.set key value) ∧
      w.heap.nameOf key = .ok name
  · obtain ⟨key, value, name, hr, hk⟩ := hset
    have halike := (Shared.deliver_request hw ha he hr).2
    obtain ⟨w', hrun, -, huntouched, -⟩ := (hw.setEnds hf key value).bound name hk
    have hafter : ((Request.set key value).perform actor.frame).after w = w' := by
      rw [Action.after, Request.perform, hrun]
    rw [hafter] at halike
    refine ⟨?_, ?_⟩
    · rw [halike.frames, ← hafter, Request.perform_frames hw hf]
    · rw [Untouched, halike.heap, ← Untouched, huntouched]
      refine ⟨fun hb key' value' name' hr' hk' => ?_, fun hall => hall key value name hr hk⟩
      have hkey := (hr.args ("key", key) (.head _)).symm.trans (hr'.args ("key", key') (.head _))
      have hvalue := (hr.args ("value", value) (.tail _ (.head _))).symm.trans
        (hr'.args ("value", value') (.tail _ (.head _)))
      obtain rfl := Option.some.inj hkey
      obtain rfl := Option.some.inj hvalue
      obtain rfl := Except.ok.inj (hk.symm.trans hk')
      exact hb
  · have hgrows := deliver_grows hw ha he fun key value name hr hk =>
      hset ⟨key, value, name, hr, hk⟩
    exact ⟨hgrows.frames, fun _ key value name hr hk => absurd ⟨key, value, name, hr, hk⟩ hset,
      fun _ => hgrows.untouched hw⟩

theorem Sound.handles (hw : w.Sound) (ha : w.actors.running? id = some actor)
    (he : w.heap.entries? message = some fields) : w.Handles id actor.frame message fields := by
  have hchange := (Call.deliver id message).change hw trivial
  obtain ⟨hframes, huntouched⟩ := hw.deliver_untouched ha he
  refine ⟨fun title => ⟨?_, hw.deliver_title ha he⟩,
    fun key value name hr _ => Shared.deliver_request hw ha he hr, deliver_grows hw ha he,
    huntouched, hframes, hchange.actors_eq, fun fault w' hrun => ?_⟩
  · rintro rfl
    obtain ⟨title, hr⟩ := w.heap.exists_ruling actor.frame fields
    exact hw.deliver_title ha he hr ▸ hr
  · have hends := Shared.deliver_ends id message w
    rwa [Ends, hrun] at hends

/-- Run from a world that is alike, the calls that answer have the replies that they have among the
others. -/
theorem Alike.answered {calls : List Call} (hw : w.Alike w')
    (hc : ∀ c ∈ calls, ∃ id message, c = .deliver id message) :
    w'.replies Call.plainly (w.answered calls) =
        (w.replies Call.plainly calls).filter (·.isOk) ∧
      (w.final Call.plainly calls).Alike (w'.final Call.plainly (w.answered calls)) := by
  induction calls generalizing w w' with
  | nil => exact ⟨rfl, hw⟩
  | cons c calls ih =>
    obtain ⟨⟨id, message, rfl⟩, hcalls⟩ := List.forall_mem_cons.mp hc
    have hends := Shared.deliver_ends id message w
    obtain ⟨hanswer, hafter⟩ := (Call.deliver id message).steady w w' hw
    cases hrun : Shared.deliver id message w with
    | ok value w₁ =>
      have hok : (Call.deliver id message).run.answer w = .ok value := by
        rw [Action.answer, Call.run, hrun]
      obtain ⟨hreplies, hfinal⟩ := ih hafter hcalls
      rw [hok] at hanswer
      simp only [World.answered, hok, Except.isOk, Except.toBool, if_true, replies, final,
        Call.plainly, hanswer, List.filter_cons]
      exact ⟨congrArg _ hreplies, hfinal⟩
    | error fault w₁ =>
      have herror : (Call.deliver id message).run.answer w = .error fault := by
        rw [Action.answer, Call.run, hrun]
      have hafter₁ : (Call.deliver id message).run.after w = w₁ := by
        rw [Action.after, Call.run, hrun]
      rw [Ends, hrun] at hends
      simp only [World.answered, herror, Except.isOk, Except.toBool, Bool.false_eq_true, if_false,
        replies, final, Call.plainly, List.filter_cons, hafter₁]
      exact ih (hends.symm.trans hw) hcalls

/-- A message to an actor that runs sets a name in the actor's frame if it asks for that with both
arguments and a key that means a name, and then it does what setting the name there does, so that it
shows unless the name had the value already. Every other message leaves all objects, frames and
actors as they are. It is answered, or raises as its fields deserve, and a message that raises
changes nothing but the trace. So to leave the messages out that raise changes neither the replies
to the others nor the world in the end. -/
theorem Reachable.messages_handled (hw : w.Reachable) (ha : w.actors.running? id = some actor) :
    (∀ message fields, w.heap.entries? message = some fields →
        w.Handles id actor.frame message fields) ∧
      ∀ calls : List Call, (∀ c ∈ calls, ∃ id message, c = .deliver id message) →
        w.replies Call.plainly (w.answered calls) =
            (w.replies Call.plainly calls).filter (·.isOk) ∧
          (w.final Call.plainly calls).Alike (w.final Call.plainly (w.answered calls)) :=
  ⟨fun _ _ he => hw.sound.handles ha he, fun _ hc => (Alike.refl w).answered hc⟩

end

/-- The outer one of two frames has an actor, and there are two messages that set `y`. The second
one lacks the value. -/
def posted : World :=
  let message (fields : Entries) : Call :=
    .data (.table ([(.str "op", .str "set"), (.str "key", .str "y")] ++ fields))
  [message [(.str "value", .int 3)], message []].foldl (fun w c => c.run.after w) servedFrame

theorem posted_reachable : posted.Reachable :=
  (servedFrame_reachable.call (.data (.table _)) trivial).call (.data (.table _)) trivial

theorem messages_handled_posted : posted.Reachable ∧
    (Shared.deliver (.str "actor-0") (.ref 9)).title? posted = some "KeyError" ∧
    posted.Untouched ((Shared.deliver (.str "actor-0") (.ref 9)).after posted) ∧
    ¬ posted.Untouched ((Shared.deliver (.str "actor-0") (.ref 8)).after posted) ∧
    let calls : List Call := [.deliver (.str "actor-0") (.ref 9), .deliver (.str "actor-0") (.ref 8)]
    posted.answered calls = [.deliver (.str "actor-0") (.ref 8)] ∧
      posted.replies Call.plainly (posted.answered calls) = [.ok (.int 3)] := by
  have hrunning : posted.actors.running? (.str "actor-0") = some ⟨.ref 5, .nil, 0⟩ := rfl
  obtain ⟨hhandles, herase⟩ := Reachable.messages_handled posted_reachable hrunning
  have hset := hhandles (.ref 8) _ rfl
  have hlacking := hhandles (.ref 9) _ rfl
  refine ⟨posted_reachable, ?_, ?_, ?_, rfl, ?_⟩
  · exact (hlacking.ruling _).mpr (.misfit (.noArg rfl rfl (.tail _ (.head _)) rfl))
  · refine hlacking.untouched.mpr fun key value name hr _ => ?_
    cases hr.args ("value", value) (.tail _ (.head _))
  · intro huntouched
    have hbound := hset.untouched.mp huntouched (.str "y") (.int 3) "y" ⟨⟨none, rfl⟩, by decide⟩ rfl
    cases hbound
  · rw [(herase _ (by simp)).1]
    rfl

end World

end LexicalEnv
