import LexicalEnv.Proofs.Past
import LexicalEnv.Proofs.Sharing

/-!
# Clients with names of their own

Clients send requests to actors, one after the other, in any order. A request
depends on what the frames bind its own name to, so messages about other names
make no difference to it. Hence clients that have no name in common do not notice
each other (`Reachable.clients_undisturbed`).
-/

namespace LexicalEnv

open LexicalEnv.Action (Ends)
open LexicalEnv.World (lastSet?)

def Request.key? : Request → Option Value
  | set key _ | get key | find key => some key
  | snapshot => none

structure Message (ι : Type) where
  client : ι
  id : Value
  request : Request

namespace Message

variable {ι : Type}

def call (m : Message ι) : Call := .ask m.id m.request

def name? (h : Heap) (m : Message ι) : Option String :=
  m.request.key?.bind fun key => (h.nameOf key).toOption

/-- The message is about a key that is there, and its actor runs. -/
structure Due (w : World) (m : Message ι) : Prop where
  running : ∃ actor, w.actors.running? m.id = some actor
  key : ∃ key, m.request.key? = some key ∧ ∀ a : Nat, key = .ref a → a < w.heap.size

/-- Messages about the same name are from the same client. -/
def Apart (h : Heap) (messages : List (Message ι)) : Prop :=
  ∀ m ∈ messages, ∀ m' ∈ messages, m.name? h ≠ none → m.name? h = m'.name? h →
    m.client = m'.client

/-- The same message with the same reply. If its key means no name, both replies refuse the key,
which may be shown differently. -/
def SameReply (h : Heap) (a b : Message ι × Except Fault Value) : Prop :=
  a.1 = b.1 ∧ (a.1.name? h ≠ none → a.2 = b.2) ∧
    (a.1.name? h = none → ∃ shown shown', a.2 = .error (.keyRefused shown) ∧
      b.2 = .error (.keyRefused shown'))

end Message

namespace World

variable {ι : Type}

def exchange (w : World) : List (Message ι) → List (Message ι × Except Fault Value)
  | [] => []
  | m :: messages => (m, m.call.run.answer w) :: (m.call.run.after w).exchange messages

def sent (w : World) (messages : List (Message ι)) : World :=
  messages.foldl (fun w m => m.call.run.after w) w

def settings (w : World) (messages : List (Message ι)) : List Setting :=
  messages.filterMap fun m => m.call.setting? w

end World

-- ---------------------------------------------------------------------------
-- Keys
-- ---------------------------------------------------------------------------

namespace World

variable {w w' : World} {f key : Value} {name : String}

theorem Later.isMap (hw : w.Sound) (hl : w.Later w') (hm : w.IsMap key) : w'.IsMap key := by
  obtain ⟨f, hf, hb⟩ := hm
  obtain ⟨parent, map, entries, hi, -⟩ := hw.isFrame hf
  obtain rfl := Except.ok.inj (hi.bindings.symm.trans hb)
  obtain ⟨hf', entries', hi'⟩ := hl.frames f hf parent map entries hi
  exact ⟨f, hf', hi'.bindings⟩

theorem Later.nameOf_iff (hw : w.Sound) (hw' : w'.Sound) (hl : w.Later w')
    (hk : ∀ a : Nat, key = .ref a → a < w.heap.size) :
    w'.heap.nameOf key = .ok name ↔ w.heap.nameOf key = .ok name := by
  constructor
  · intro hn
    have hfixed : w.Fixed key := by
      by_cases hv : ∀ a : Nat, key ≠ .ref a
      · exact .scalar hv
      · simp only [ne_eq, not_forall, Decidable.not_not] at hv
        obtain ⟨a, rfl⟩ := hv
        refine .object (Array.getElem?_eq_getElem (hk a rfl)) fun hm => ?_
        rcases hw'.fixed_of_nameOf hn with hv' | ⟨-, hm'⟩
        · exact hv' a rfl
        · exact hm' (hl.isMap hw hm)
    exact Heap.nameOf_congr (hl.fixed key hfixed).2.symm hn
  · intro hn
    exact Heap.nameOf_congr (hl.fixed key (hw.fixed_of_nameOf hn)).2 hn

theorem Later.chain {frames : List Value} (hw : w.Sound) (hw' : w'.Sound) (hl : w.Later w')
    (he : w.IsScope f) (hc : w.heap.Chain f frames) :
    w'.heap.Chain f frames ∧ frames.length ≤ w'.heap.size ∧ ∀ g ∈ frames, g ∈ w.frames := by
  obtain ⟨frames', hc₀, -, hmem⟩ := hw.chain he
  obtain rfl := hc.unique hc₀
  have hc' : w'.heap.Chain f frames := by
    clear he hc₀
    induction hc with
    | root => exact .root
    | frame hi _ ih =>
      obtain ⟨hg, hrest⟩ := List.forall_mem_cons.mp hmem
      obtain ⟨-, entries, hi'⟩ := hl.frames _ hg _ _ _ hi
      exact .frame hi' (ih hrest)
  obtain ⟨frames', hc₁, hlen, -⟩ := hw'.chain (hl.isScope hw he)
  obtain rfl := hc'.unique hc₁
  exact ⟨hc', Nat.le_trans hlen hw'.frames_le, hmem⟩

end World

-- ---------------------------------------------------------------------------
-- Requests
-- ---------------------------------------------------------------------------

theorem Request.perform_frames {w : World} {f : Value} (hw : w.Sound) (hf : f ∈ w.frames)
    (request : Request) : ((request.perform f).after w).frames = w.frames := by
  cases request with
  | set key value =>
    obtain ⟨parent, map, entries, hi, -⟩ := hw.isFrame hf
    have hends : Ends (Frame.set f key value false) w (fun _ w' => w'.frames = w.frames)
        fun _ w' => w'.frames = w.frames := by
      refine (hi.set_ends key value false).mono ?_ ?_
      · rintro _ w' ⟨_, -, h⟩
        exact h.frames
      · rintro _ w' (⟨-, rfl⟩ | ⟨_, -, h⟩)
        · rfl
        · exact h.frames
    exact hends.after
  | get key => exact (Frame.preserving_get f key false w).frames
  | find key =>
    exact (Action.preserving_bind (Frame.preserving_find f key false)
      (fun _ => Action.preserving_pure _) w).frames
  | snapshot => exact (Frame.preserving_snapshot f w).frames

theorem Request.perform_refused {w : World} {key : Value} {fault : Fault} {request : Request}
    (hk : request.key? = some key) (hn : w.heap.nameOf key = .error fault) (f : Value) :
    (request.perform f).answer w = .error fault := by
  have hread : Action.read (·.nameOf key) w = .error fault w := Action.run_read_error hn
  cases request with
  | snapshot => cases hk
  | _ =>
    obtain rfl := Option.some.inj hk
    simp only [perform, Frame.set, Frame.get, Frame.find, Action.answer, Action.run_bind, hread]

theorem World.Run.perform_congr {w w₁ w₂ : World} {log₁ log₂ : List Setting} {f key : Value}
    {name : String} {request : Request} (hw : w.Sound) (h₁ : w.Run log₁ w₁) (h₂ : w.Run log₂ w₂)
    (hf : f ∈ w.frames) (hk : request.key? = some key) (hn : w.heap.nameOf key = .ok name)
    (hlog : ∀ g, lastSet? log₁ g name = lastSet? log₂ g name) :
    (request.perform f).answer w₁ = (request.perform f).answer w₂ := by
  have hfixed := hw.fixed_of_nameOf hn
  have hn₁ := Heap.nameOf_congr ((h₁.later hw).fixed key hfixed).2 hn
  have hn₂ := Heap.nameOf_congr ((h₂.later hw).fixed key hfixed).2 hn
  have hs₁ := h₁.sound hw
  have hs₂ := h₂.sound hw
  obtain ⟨frames, hc, -⟩ := hw.chain (.inr hf)
  obtain ⟨hc₁, hl₁, hmem⟩ := (h₁.later hw).chain hw hs₁ (.inr hf) hc
  obtain ⟨hc₂, hl₂, -⟩ := (h₂.later hw).chain hw hs₂ (.inr hf) hc
  have hresolve : Frame.resolve? w₁.heap name frames = Frame.resolve? w₂.heap name frames :=
    findSome?_congr fun g hg => by
      rw [h₁.bound?_eq hw (hmem g hg), h₂.bound?_eq hw (hmem g hg), hlog]
  cases request with
  | set _ value =>
    obtain rfl := Option.some.inj hk
    obtain ⟨_, _, _, hi₁, -⟩ := hs₁.isFrame ((h₁.later hw).mem_frames hw hf)
    obtain ⟨_, _, _, hi₂, -⟩ := hs₂.isFrame ((h₂.later hw).mem_frames hw hf)
    exact (hi₁.set_answer hn₁ value).trans (hi₂.set_answer hn₂ value).symm
  | get =>
    obtain rfl := Option.some.inj hk
    rw [Request.perform, hc₁.get_answer hl₁ hn₁, hc₂.get_answer hl₂ hn₂, hresolve]
  | find =>
    obtain rfl := Option.some.inj hk
    rw [hc₁.perform_find_answer hl₁ hn₁, hc₂.perform_find_answer hl₂ hn₂, hresolve]
  | snapshot => cases hk

-- ---------------------------------------------------------------------------
-- Messages
-- ---------------------------------------------------------------------------

namespace World

variable {ι : Type} {w w' w₁ w₂ : World} {log log₁ log₂ : List Setting} {m : Message ι}
  {messages : List (Message ι)}

/-- What messages lead to: a run with the settings that they make, which leaves all frames and
actors there are. -/
structure Serves (w : World) (log : List Setting) (w' : World) : Prop where
  run : w.Run log w'
  frames : w'.frames = w.frames
  actors : w'.actors = w.actors

theorem Serves.start (w : World) : w.Serves [] w := ⟨.start, rfl, rfl⟩

theorem Serves.setting?_eq (hw : w.Sound) (h : w.Serves log w') (hd : m.Due w) :
    m.call.setting? w' = m.call.setting? w := by
  obtain ⟨actor, hactor⟩ := hd.running
  obtain ⟨key, hkey, hthere⟩ := hd.key
  obtain ⟨client, id, request⟩ := m
  simp only [Message.call, Call.setting?, h.actors, hactor, Option.bind_some]
  cases request with
  | set k value =>
    obtain rfl := Option.some.inj hkey
    have hname (name : String) : w'.heap.nameOf k = .ok name ↔ w.heap.nameOf k = .ok name :=
      (h.run.later hw).nameOf_iff hw (h.run.sound hw) hthere
    have hsame : (w'.heap.nameOf k).toOption = (w.heap.nameOf k).toOption :=
      Option.ext fun name => by simp only [← Option.mem_def, mem_toOption, hname]
    rw [Request.setting?, Request.setting?, hsame]
  | _ => rfl

theorem Serves.message (hw : w.Sound) (h : w.Serves log w') (hd : m.Due w) :
    w.Serves (log ++ (m.call.setting? w).toList) (m.call.run.after w') := by
  obtain ⟨actor, hactor⟩ := hd.running
  have hs := h.run.sound hw
  have hactor' : w'.actors.running? m.id = some actor := h.actors ▸ hactor
  have halike := (Shared.ask_matches_perform hs hactor' m.request (.refl w')).2
  refine ⟨h.setting?_eq hw hd ▸ h.run.call m.call trivial, ?_, ?_⟩
  · have hframes := m.request.perform_frames hs (ActorSystem.frame_of_running? hs hactor')
    exact halike.frames.symm.trans (hframes.trans h.frames)
  · exact (m.call.change hs trivial).actors_eq.trans h.actors

theorem Serves.sent (hw : w.Sound) (h : w.Serves log w') (hd : ∀ m ∈ messages, m.Due w) :
    w.Serves (log ++ w.settings messages) (w'.sent messages) := by
  induction messages generalizing log w' with
  | nil => simpa [settings, World.sent] using h
  | cons m messages ih =>
    obtain ⟨hm, hd⟩ := List.forall_mem_cons.mp hd
    have hrest := ih (h.message hw hm) hd
    have hlog : (m.call.setting? w).toList ++ w.settings messages = w.settings (m :: messages) := by
      cases hs : m.call.setting? w <;> simp [settings, hs]
    rw [List.append_assoc, hlog] at hrest
    exact hrest

theorem Serves.sameReply (hw : w.Sound) (h₁ : w.Serves log₁ w₁) (h₂ : w.Serves log₂ w₂)
    (hd : m.Due w) (hlog : ∀ name, m.name? w.heap = some name →
      ∀ g, lastSet? log₁ g name = lastSet? log₂ g name) :
    Message.SameReply w.heap (m, m.call.run.answer w₁) (m, m.call.run.answer w₂) := by
  obtain ⟨actor, hactor⟩ := hd.running
  obtain ⟨key, hkey, hthere⟩ := hd.key
  have hf := ActorSystem.frame_of_running? hw hactor
  have hname? : m.name? w.heap = (w.heap.nameOf key).toOption := by
    rw [Message.name?, hkey, Option.bind_some]
  have hanswer {log' : List Setting} {w' : World} (h : w.Serves log' w') :
      m.call.run.answer w' = (m.request.perform actor.frame).answer w' :=
    (Shared.ask_matches_perform (h.run.sound hw) (h.actors ▸ hactor) m.request (.refl w')).1.symm
  rw [Message.SameReply, hanswer h₁, hanswer h₂, hname?]
  refine ⟨rfl, ?_⟩
  cases hn : w.heap.nameOf key with
  | ok name =>
    have hsame := h₁.run.perform_congr hw h₂.run hf hkey hn
      (hlog name (by rw [hname?, hn]; rfl))
    exact ⟨fun _ => hsame, fun hnone => by cases hnone⟩
  | error fault =>
    have hrefused {log' : List Setting} {w' : World} (h : w.Serves log' w') : ∃ shown,
        (m.request.perform actor.frame).answer w' = .error (.keyRefused shown) := by
      cases hn' : w'.heap.nameOf key with
      | ok name =>
        rw [(h.run.later hw).nameOf_iff hw (h.run.sound hw) hthere, hn] at hn'
        cases hn'
      | error fault' =>
        rw [Heap.nameOf_refused hn'] at hn'
        exact ⟨_, Request.perform_refused hkey hn' actor.frame⟩
    obtain ⟨shown₁, hrefused₁⟩ := hrefused h₁
    obtain ⟨shown₂, hrefused₂⟩ := hrefused h₂
    exact ⟨fun hsome => absurd rfl hsome, fun _ => ⟨shown₁, shown₂, hrefused₁, hrefused₂⟩⟩

theorem setting?_name {s : Setting} (hs : m.call.setting? w = some s) :
    m.name? w.heap = some s.name := by
  obtain ⟨actor, -, hs⟩ := Option.bind_eq_some_iff.mp hs
  obtain ⟨client, id, request⟩ := m
  cases request with
  | set key value =>
    obtain ⟨name, hn, rfl⟩ := Option.map_eq_some_iff.mp hs
    exact hn
  | _ => cases hs

theorem filter_settings {p : Setting → Bool} {q : Message ι → Bool}
    (hq : ∀ m ∈ messages, ∀ s, m.call.setting? w = some s → p s → q m) :
    (w.settings messages).filter p = (w.settings (messages.filter q)).filter p := by
  induction messages with
  | nil => rfl
  | cons m messages ih =>
    obtain ⟨hm, hq⟩ := List.forall_mem_cons.mp hq
    have hrest := ih hq
    simp only [settings] at hrest ⊢
    cases hs : m.call.setting? w with
    | none => by_cases hqm : q m <;> simp [hs, hqm, hrest]
    | some s =>
      by_cases hqm : q m
      · simp [hs, hqm, hrest, List.filter_cons]
      · have hps : p s = false := by simpa using fun hp => hqm (hm s hs hp)
        simp [hs, hqm, hrest, hps]

theorem name?_of_mem_settings {s : Setting} (hs : s ∈ w.settings messages) :
    ∃ m ∈ messages, m.name? w.heap = some s.name := by
  obtain ⟨m, hm, hs⟩ := List.mem_filterMap.mp hs
  exact ⟨m, hm, setting?_name hs⟩

/-- If no name is set twice, the order in which the names are set makes no difference. -/
theorem lastSet?_perm {log' : List Setting} (hp : log.Perm log')
    (hn : (log.map Setting.name).Nodup) (f : Value) (name : String) :
    lastSet? log f name = lastSet? log' f name := by
  let p (s : Setting) : Bool := s.frame = f ∧ s.name = name
  have hperm : (log.filter p).Perm (log'.filter p) := hp.filter p
  have hnodup : ((log.filter p).map Setting.name).Nodup := hn.sublist (List.filter_sublist.map _)
  have hname : ∀ s ∈ log.filter p, s.name = name := by
    intro s hs
    exact (of_decide_eq_true (List.mem_filter.mp hs).2).2
  have hsame : log.filter p = log'.filter p := by
    cases hl : log.filter p with
    | nil =>
      rw [hl] at hperm
      exact hperm.nil_eq
    | cons s rest =>
      rw [hl] at hperm hnodup hname
      cases rest with
      | nil => exact List.singleton_perm.mp hperm
      | cons t _ =>
        have hst : s.name = t.name := (hname s (by simp)).trans (hname t (by simp)).symm
        simp [hst] at hnodup
  exact congrArg (fun l => l.getLast?.map Setting.value) hsame

-- ---------------------------------------------------------------------------
-- Clients
-- ---------------------------------------------------------------------------

variable [DecidableEq ι]

theorem Serves.exchange {c : ι} (hw : w.Sound) (h₁ : w.Serves log₁ w₁) (h₂ : w.Serves log₂ w₂)
    (hd : ∀ m ∈ messages, m.Due w) (ha : Message.Apart w.heap messages)
    (hlog : ∀ m ∈ messages, m.client = c → ∀ name, m.name? w.heap = some name →
      ∀ g, lastSet? log₁ g name = lastSet? log₂ g name) :
    List.Forall₂ (Message.SameReply w.heap)
      ((w₁.exchange messages).filter fun e => e.1.client = c)
      (w₂.exchange (messages.filter fun m => m.client = c)) := by
  induction messages generalizing log₁ log₂ w₁ w₂ with
  | nil => exact .nil
  | cons m messages ih =>
    obtain ⟨hm, hd⟩ := List.forall_mem_cons.mp hd
    have ha' : Message.Apart w.heap messages := fun m₁ h₁ m₂ h₂ =>
      ha m₁ (List.mem_cons_of_mem _ h₁) m₂ (List.mem_cons_of_mem _ h₂)
    obtain ⟨hlogm, hlog⟩ := List.forall_mem_cons.mp hlog
    have h₁' := h₁.message hw hm
    by_cases hc : m.client = c
    · have hlog' : ∀ m' ∈ messages, m'.client = c → ∀ name, m'.name? w.heap = some name → ∀ g,
          lastSet? (log₁ ++ (m.call.setting? w).toList) g name =
            lastSet? (log₂ ++ (m.call.setting? w).toList) g name := by
        intro m' hm' hc' name hn g
        rw [lastSet?_append, lastSet?_append, hlog m' hm' hc' name hn g]
      simpa [World.exchange, hc] using
        ⟨h₁.sameReply hw h₂ hm (hlogm hc), ih h₁' (h₂.message hw hm) hd ha' hlog'⟩
    · -- What another client sets is no name of this one's.
      have hlog' : ∀ m' ∈ messages, m'.client = c → ∀ name, m'.name? w.heap = some name → ∀ g,
          lastSet? (log₁ ++ (m.call.setting? w).toList) g name = lastSet? log₂ g name := by
        intro m' hm' hc' name hn g
        have hnone : lastSet? (m.call.setting? w).toList g name = none := by
          refine lastSet?_eq_none fun s hs => ?_
          rintro ⟨-, rfl⟩
          have hsame := setting?_name (Option.mem_toList.mp hs)
          exact hc ((ha m List.mem_cons_self m' (List.mem_cons_of_mem _ hm') (by simp [hsame])
            (hsame.trans hn.symm)).trans hc')
        rw [lastSet?_append, hnone, Option.none_or, hlog m' hm' hc' name hn g]
      simpa [World.exchange, hc] using ih h₁' h₂ hd ha' hlog'

structure SameLookups (w w' : World) : Prop where
  frames : w'.frames = w.frames
  get : ∀ f ∈ w.frames, ∀ name birth,
    (Frame.get f (.symbol name birth) false).answer w' =
      (Frame.get f (.symbol name birth) false).answer w

theorem Serves.sameLookups (hw : w.Sound) (h₁ : w.Serves log₁ w₁) (h₂ : w.Serves log₂ w₂)
    (hlog : ∀ g name, lastSet? log₁ g name = lastSet? log₂ g name) : w₁.SameLookups w₂ := by
  refine ⟨h₂.frames.trans h₁.frames.symm, fun f hf name birth => ?_⟩
  have hsame : ((Request.get (.symbol name birth)).perform f).answer w₁ =
      ((Request.get (.symbol name birth)).perform f).answer w₂ :=
    h₁.run.perform_congr hw h₂.run (h₁.frames ▸ hf) rfl (w.heap.nameOf_symbol name birth)
      fun g => hlog g name
  exact hsame.symm

theorem mem_of_interleaved {messages' : List (Message ι)}
    (hi : ∀ c, messages'.filter (·.client = c) = messages.filter (·.client = c))
    (hm : m ∈ messages') : m ∈ messages := by
  have hclient : m ∈ messages'.filter (·.client = m.client) := by simp [hm]
  rw [hi] at hclient
  exact List.mem_of_mem_filter hclient

theorem lastSet?_interleaved {messages' : List (Message ι)} (ha : Message.Apart w.heap messages)
    (hi : ∀ c, messages'.filter (·.client = c) = messages.filter (·.client = c)) (f : Value)
    (name : String) :
    lastSet? (w.settings messages) f name = lastSet? (w.settings messages') f name := by
  by_cases h : ∃ m ∈ messages, m.name? w.heap = some name
  · -- All messages about the name are from one client.
    obtain ⟨m, hm, hn⟩ := h
    have hone {l : List (Message ι)} (hl : ∀ m' ∈ l, m' ∈ messages) :
        lastSet? (w.settings l) f name =
          lastSet? (w.settings (l.filter (·.client = m.client))) f name := by
      refine congrArg (fun log => log.getLast?.map Setting.value) (filter_settings ?_)
      intro m' hm' s hs hp
      have hn' : m'.name? w.heap = some name := by
        rw [setting?_name hs]
        simpa using (of_decide_eq_true hp).2
      simpa using ha m' (hl m' hm') m hm (by simp [hn']) (hn'.trans hn.symm)
    rw [hone fun _ h => h, hone fun _ => mem_of_interleaved hi, hi]
  · have hnone {l : List (Message ι)} (hl : ∀ m' ∈ l, m' ∈ messages) :
        lastSet? (w.settings l) f name = none := by
      refine lastSet?_eq_none fun s hs => ?_
      rintro ⟨-, rfl⟩
      obtain ⟨m, hm, hn⟩ := name?_of_mem_settings hs
      exact h ⟨m, hl m hm, hn⟩
    rw [hnone fun _ h => h, hnone fun _ => mem_of_interleaved hi]

/-- Clients send messages to actors that run, and no two clients are about the same name. Then each
client gets the replies that it gets when it sends its messages alone. Whichever way the messages are
interleaved, all lookups have the same outcomes afterwards. So they have in whatever order the
messages are sent, if no two of them set the same name. -/
theorem Reachable.clients_undisturbed (hw : w.Reachable) (hd : ∀ m ∈ messages, m.Due w)
    (ha : Message.Apart w.heap messages) :
    (∀ c, List.Forall₂ (Message.SameReply w.heap)
        ((w.exchange messages).filter fun e => e.1.client = c)
        (w.exchange (messages.filter fun m => m.client = c))) ∧
      (∀ messages' : List (Message ι),
        (∀ c, messages'.filter (·.client = c) = messages.filter (·.client = c)) →
        (w.sent messages).SameLookups (w.sent messages')) ∧
      ∀ messages' : List (Message ι), messages'.Perm messages →
        ((w.settings messages).map Setting.name).Nodup →
        (w.sent messages).SameLookups (w.sent messages') := by
  have hs := hw.sound
  have hsent {messages' : List (Message ι)} (hm : ∀ m ∈ messages', m ∈ messages) :
      w.Serves (w.settings messages') (w.sent messages') :=
    (Serves.start w).sent hs fun m h => hd m (hm m h)
  refine ⟨fun c => (Serves.start w).exchange hs (Serves.start w) hd ha (by simp),
    fun messages' hi => ?_, fun messages' hp hn => ?_⟩
  · exact (hsent fun m h => h).sameLookups hs (hsent fun _ => mem_of_interleaved hi)
      (lastSet?_interleaved ha hi)
  · have hperm : (w.settings messages).Perm (w.settings messages') := hp.symm.filterMap _
    exact (hsent fun m h => h).sameLookups hs (hsent fun m h => hp.subset h)
      (lastSet?_perm hperm hn)

/-- Two clients of one actor, one about `x` and one about `y`. -/
def twoClients : List (Message Bool) :=
  [⟨true, .str "actor-0", .set (.str "x") (.int 2)⟩,
    ⟨false, .str "actor-0", .set (.str "y") (.int 3)⟩, ⟨true, .str "actor-0", .get (.str "x")⟩]

theorem clients_undisturbed_twoClients : servedFrame.Reachable ∧
    (∀ m ∈ twoClients, m.Due servedFrame) ∧ Message.Apart servedFrame.heap twoClients ∧
    List.Forall₂ (Message.SameReply servedFrame.heap)
      ((servedFrame.exchange twoClients).filter (·.1.client = true))
      (servedFrame.exchange (twoClients.filter (·.client = true))) ∧
    (servedFrame.sent twoClients).SameLookups (servedFrame.sent twoClients.reverse) := by
  have hdue : ∀ m ∈ twoClients, m.Due servedFrame := by
    have hthere {t : String} (a : Nat) (ha : Value.str t = .ref a) : a < servedFrame.heap.size := by
      cases ha
    simp only [twoClients, List.forall_mem_cons, List.not_mem_nil, false_imp_iff, implies_true,
      and_true]
    exact ⟨⟨⟨_, rfl⟩, _, rfl, hthere⟩, ⟨⟨_, rfl⟩, _, rfl, hthere⟩, ⟨_, rfl⟩, _, rfl, hthere⟩
  have hapart : Message.Apart servedFrame.heap twoClients := by
    simp [Message.Apart, twoClients, Message.name?, Request.key?, Except.toOption]
  obtain ⟨hsame, -, hlookups⟩ :=
    Reachable.clients_undisturbed servedFrame_reachable hdue hapart
  exact ⟨servedFrame_reachable, hdue, hapart, hsame true,
    hlookups _ (List.reverse_perm _) (by decide)⟩

end World

end LexicalEnv
