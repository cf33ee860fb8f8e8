import LexicalEnv.Proofs.History
import LexicalEnv.Proofs.Visible
import Mathlib.Logic.Relation

/-!
# Frames own their maps

A client gets hold of the very map of a frame and may seed other frames with it or
put names into it himself. Still no map is shared: each frame has its own, which is
neither what the frame was seeded from nor what a snapshot answered. So what is
written to one frame shows nowhere else (`ownership`).
-/

namespace LexicalEnv

open LexicalEnv.Action (Ends)

inductive Deed where
  | call (c : Call)
  | put (mapping key value : Value)
  deriving DecidableEq, Repr

namespace Deed

def run : Deed → Action Value
  | call c => c.run
  | put mapping key value => do
    Action.assign mapping key value
    pure mapping

/-- Frames are changed by calls only, and their maps have symbols for keys. -/
def Legal (w : World) : Deed → Prop
  | call c => c.Legal w
  | put mapping key _ =>
    mapping ∉ w.frames ∧ (w.IsMap mapping → ∃ name birth, key = .symbol name birth)

def target? (w : World) : Deed → Option Value
  | call c => (c.setting? w).bind fun s => (Frame.bindings w.heap s.frame).toOption
  | put mapping _ _ => some mapping

end Deed

namespace World

variable {w w' w'' : World} {f g parent map seed v : Value} {entries : Entries} {T : Value → Prop}

structure Foreign (w : World) (v : Value) : Prop where
  object : ∃ o, w.heap.obj? v = some o
  noFrame : v ∉ w.frames
  noMap : ¬ w.IsMap v

/-- Whatever happened, frames keep their maps, and only certain objects have new content. -/
structure Confined (w : World) (T : Value → Prop) (w' : World) : Prop where
  sound : w'.Sound
  frames : ∀ f ∈ w.frames, f ∈ w'.frames ∧ Frame.bindings w'.heap f = Frame.bindings w.heap f
  kept : ∀ v o, w.heap.obj? v = some o → ¬ T v → w'.heap.obj? v = some o
  foreign : ∀ v, w.Foreign v → w'.Foreign v

theorem Confined.refl (hw : w.Sound) (T : Value → Prop) : w.Confined T w :=
  ⟨hw, fun _ hf => ⟨hf, rfl⟩, fun _ _ ho _ => ho, fun _ hv => hv⟩

theorem Confined.trans (a : w.Confined T w') (b : w'.Confined T w'') : w.Confined T w'' := by
  refine ⟨b.sound, fun f hf => ?_, fun v o ho hn => b.kept v o (a.kept v o ho hn) hn,
    fun v hv => b.foreign v (a.foreign v hv)⟩
  obtain ⟨hf', hmap⟩ := a.frames f hf
  obtain ⟨hf'', hmap'⟩ := b.frames f hf'
  exact ⟨hf'', hmap'.trans hmap⟩

theorem Confined.mono {T' : Value → Prop} (h : w.Confined T w') (ht : ∀ v, T v → T' v) :
    w.Confined T' w' :=
  ⟨h.sound, h.frames, fun v o ho hn => h.kept v o ho fun hv => hn (ht v hv), h.foreign⟩

theorem Effect.exists_obj (h : w.Effect w') {o : Obj} (ho : w.heap.obj? v = some o) :
    ∃ o', w'.heap.obj? v = some o' := by
  cases h with
  | grown h => exact ⟨o, h.kept v o ho⟩
  | made _ h => exact ⟨o, h.kept v o ho⟩
  | @written _ _ map _ _ _ _ _ h =>
    by_cases hv : v = map
    · exact ⟨_, hv ▸ h.table⟩
    · exact ⟨o, h.kept v o hv ho⟩
  | actors hk => exact ⟨o, hk v o ho⟩

theorem Effect.foreign (hw : w.Sound) (h : w.Effect w') (hv : w.Foreign v) : w'.Foreign v := by
  obtain ⟨⟨o, ho⟩, hframe, hmap⟩ := hv
  refine ⟨h.exists_obj ho, fun hf => ?_, h.not_isMap hw ho hmap⟩
  obtain hf | ⟨_, _, _, hmade⟩ := h.mem_frames hf
  · exact hframe hf
  · rw [hmade.fresh] at ho
    cases ho

theorem Change.obj? {s : Option Setting} {a : ActorSystem} {o : Obj} (h : w.Change s a w')
    (ho : w.heap.obj? v = some o)
    (hn : ∀ x ∈ s, Frame.bindings w.heap x.frame ≠ .ok v) : w'.heap.obj? v = some o := by
  cases h with
  | adds h => exact h.kept v o ho
  | @sets f parent map value entries name _ hf hi h =>
    refine h.kept v o ?_ ho
    rintro rfl
    exact hn ⟨f, name, value⟩ rfl hi.bindings
  | actors hk => exact hk v o ho

end World

namespace Deed

open World

variable {w : World} {d : Deed} {mapping key value : Value}

theorem confined_call {c : Call} (hw : w.Sound) (hc : c.Legal w) :
    w.Confined (fun v => (call c).target? w = some v) (c.run.after w) := by
  have h := c.effect hw hc
  refine ⟨hw.effect h, fun f hf => ?_, fun v o ho hn => ?_, fun v hv => h.foreign hw hv⟩
  · obtain ⟨_, _, _, hi, -⟩ := hw.isFrame hf
    obtain ⟨_, hi'⟩ := h.isFrame hw hf hi
    exact ⟨h.frames_subset hf, hi'.bindings.trans hi.bindings.symm⟩
  · refine (c.change hw hc).obj? ho fun s hs hmap => hn ?_
    rw [target?, Option.mem_def.mp hs, Option.bind_some, hmap]
    rfl

theorem assigned_ok {h : Heap} {a : Addr} {o : Obj}
    (ha : h.assigned mapping key value = .ok (a, o)) : mapping = .ref a := by
  cases mapping with
  | ref b =>
    simp only [Heap.assigned] at ha
    split at ha
    · obtain ⟨_, -, ha⟩ := bind_ok.mp ha
      cases ha
      rfl
    · split at ha <;> cases ha
      rfl
    · split at ha
      · cases ha
      · split at ha <;> cases ha
        rfl
    · cases ha
  | _ => cases ha

theorem assigned_table {h : Heap} {a : Addr} {o : Obj} {entries : Entries} {name : String}
    {birth : Birth} (ht : h.obj? mapping = some (.table entries))
    (ha : h.assigned mapping (.symbol name birth) value = .ok (a, o)) :
    o = .table (h.insert entries (.symbol name birth) value) := by
  obtain rfl := assigned_ok ha
  simp only [Heap.assigned, ht, Heap.inserted_symbol] at ha
  exact (Prod.mk.inj (Except.ok.inj ha)).2.symm

theorem put_cases (w : World) (mapping key value : Value) :
    (put mapping key value).run.after w = w ∨ ∃ a o,
      w.heap.assigned mapping key value = .ok (a, o) ∧
        (put mapping key value).run.after w = { w with heap := w.heap.overwrite a o } := by
  cases ha : w.heap.assigned mapping key value with
  | error fault =>
    have hread : Action.read (·.assigned mapping key value) w = .error fault w :=
      Action.run_read_error ha
    exact .inl (by simp only [run, Action.after, Action.assign, Action.run_bind, hread])
  | ok target =>
    obtain ⟨a, o⟩ := target
    have hread : Action.read (·.assigned mapping key value) w = .ok (a, o) w :=
      Action.run_read ha
    refine .inr ⟨a, o, rfl, ?_⟩
    simp only [run, Action.after, Action.assign, Action.run_bind, hread]
    rfl

theorem confined_overwrite {a : Addr} {o : Obj} (hw : w.Sound) (hframe : .ref a ∉ w.frames)
    (hmap : ∀ entries, w.IsMap (.ref a) → w.heap.obj? (.ref a) = some (.table entries) →
      Entries.Named entries → ∃ entries', o = .table entries' ∧ Entries.Named entries') :
    w.Confined (· = .ref a) { w with heap := w.heap.overwrite a o } := by
  have hkept {v : Value} {o' : Obj} (hv : v ≠ .ref a) (ho : w.heap.obj? v = some o') :
      (w.heap.overwrite a o).obj? v = some o' := by
    rw [Heap.obj?_overwrite, if_neg fun h => hv h.1, ho]
  have hself {o' : Obj} (ho : w.heap.obj? (.ref a) = some o') :
      (w.heap.overwrite a o).obj? (.ref a) = some o := by
    rw [Heap.obj?_overwrite, if_pos ⟨rfl, Heap.lt_size_of_obj? ho⟩]
  have hi (f) (hf : f ∈ w.frames) (parent map entries) (hif : w.heap.IsFrame f parent map entries) :
      ∃ entries', (w.heap.overwrite a o).IsFrame f parent map entries' := by
    have hne : f ≠ .ref a := fun h => hframe (h ▸ hf)
    by_cases hm : map = .ref a
    · subst hm
      obtain ⟨entries', rfl, hn⟩ := hmap entries ⟨f, hf, hif.bindings⟩ hif.table hif.named
      exact ⟨entries', hkept hne hif.frame, hself hif.table, hn⟩
    · exact ⟨entries, hkept hne hif.frame, hkept hm hif.table, hif.named⟩
  have hbindings {f : Value} (hf : f ∈ w.frames) :
      Frame.bindings (w.heap.overwrite a o) f = Frame.bindings w.heap f := by
    obtain ⟨_, _, _, hif, -⟩ := hw.isFrame hf
    obtain ⟨_, hif'⟩ := hi f hf _ _ _ hif
    exact hif'.bindings.trans hif.bindings.symm
  refine ⟨hw.of_same_frames rfl hi rfl hw.served, fun f hf => ⟨hf, hbindings hf⟩,
    fun v o' ho hv => hkept hv ho, ?_⟩
  rintro v ⟨⟨o', ho⟩, hv, hm⟩
  refine ⟨?_, hv, fun ⟨f, hf, hfmap⟩ => hm ⟨f, hf, (hbindings hf).symm.trans hfmap⟩⟩
  by_cases hva : v = .ref a
  · subst hva
    exact ⟨o, hself ho⟩
  · exact ⟨o', hkept hva ho⟩

theorem confined_put (hw : w.Sound) (hl : (put mapping key value).Legal w) :
    w.Confined (· = mapping) ((put mapping key value).run.after w) := by
  obtain hsame | ⟨a, o, ha, hrun⟩ := put_cases w mapping key value
  · rw [hsame]
    exact .refl hw _
  · obtain ⟨hframe, hkey⟩ := hl
    obtain rfl := assigned_ok ha
    rw [hrun]
    refine confined_overwrite hw hframe fun entries hmap htable hn => ?_
    obtain ⟨name, birth, rfl⟩ := hkey hmap
    exact ⟨_, assigned_table htable ha, hn.insert _ _ _ _⟩

theorem confined (hw : w.Sound) (hl : d.Legal w) :
    w.Confined (fun v => d.target? w = some v) (d.run.after w) := by
  cases d with
  | call c => exact confined_call hw hl
  | put mapping key value => exact (confined_put hw hl).mono fun v hv => congrArg some hv.symm

end Deed

-- ---------------------------------------------------------------------------
-- Runs of deeds
-- ---------------------------------------------------------------------------

namespace World

variable {w w' w₁ w₂ : World} {f g map seed table v : Value}

def Becomes : World → World → Prop :=
  Relation.ReflTransGen fun w w' => ∃ d : Deed, d.Legal w ∧ w' = d.run.after w

/-- The same if no deed writes to anything but the map of the frame. -/
def WritesTo (f : Value) : World → World → Prop :=
  Relation.ReflTransGen fun w w' => ∃ d : Deed, d.Legal w ∧
    (∀ target ∈ d.target? w, Frame.bindings w.heap f = .ok target) ∧ w' = d.run.after w

inductive Seeds (w : World) (f seed : Value) : World → Prop
  | make {parent : Value} {w' : World} {o : Obj} (hp : w.IsScope parent)
    (ho : w.heap.obj? seed = some o) (h : Frame.make parent seed w = .ok f w') : Seeds w f seed w'
  | root {w' : World} {o : Obj} (ho : w.heap.obj? seed = some o)
    (h : Frame.root seed w = .ok f w') : Seeds w f seed w'

/-- A snapshot is taken: as such, by an actor, or for the fault of a lookup. -/
inductive Snaps (w : World) (table : Value) : World → Prop
  | plain {env : Value} {w' : World} (h : Frame.snapshot env w = .ok table w') : Snaps w table w'
  | asked {id : Value} {w' : World} (h : Shared.ask id .snapshot w = .ok table w') :
    Snaps w table w'
  | fault {env key symbol : Value} {message : String} {w' : World} (he : w.IsScope env)
    (h : Frame.get env key true w = .error (.unbound symbol table message) w') : Snaps w table w'

theorem Becomes.confined (hw : w.Sound) (h : w.Becomes w') : w.Confined (fun _ => True) w' := by
  induction h with
  | refl => exact .refl hw _
  | tail _ hstep ih =>
    obtain ⟨d, hl, rfl⟩ := hstep
    exact ih.trans ((d.confined ih.sound hl).mono fun _ _ => trivial)

theorem WritesTo.confined (hw : w.Sound) (hf : f ∈ w.frames) (h : w.WritesTo f w') :
    w.Confined (Frame.bindings w.heap f = .ok ·) w' := by
  induction h with
  | refl => exact .refl hw _
  | tail _ hstep ih =>
    obtain ⟨d, hl, hd, rfl⟩ := hstep
    refine ih.trans ((d.confined ih.sound hl).mono fun v hv => ?_)
    rw [← (ih.frames f hf).2]
    exact hd v hv

theorem Confined.own? {T : Value → Prop} (hw : w.Sound) (h : w.Confined T w') (hg : g ∈ w.frames)
    (hn : ∀ map, Frame.bindings w.heap g = .ok map → ¬ T map) :
    Frame.own? w'.heap g = Frame.own? w.heap g := by
  obtain ⟨_, _, _, hi, -⟩ := hw.isFrame hg
  obtain ⟨hg', hmap⟩ := h.frames g hg
  obtain ⟨_, _, _, hi', -⟩ := h.sound.isFrame hg'
  obtain rfl := Except.ok.inj (hi'.bindings.symm.trans (hmap.trans hi.bindings))
  have htable := h.kept _ _ hi.table (hn _ hi.bindings)
  obtain rfl := Obj.table.inj (Option.some.inj (hi'.table.symm.trans htable))
  rw [hi'.own?, hi.own?]

theorem Sound.bindings_ne (hw : w.Sound) (hf : f ∈ w.frames) (hg : g ∈ w.frames) (hne : g ≠ f)
    (hmap : Frame.bindings w.heap f = .ok map) : Frame.bindings w.heap g ≠ .ok map := by
  intro hmap'
  obtain ⟨_, _, _, hif, -⟩ := hw.isFrame hf
  obtain ⟨_, _, _, hig, -⟩ := hw.isFrame hg
  obtain rfl := Except.ok.inj (hif.bindings.symm.trans hmap)
  obtain rfl := Except.ok.inj (hig.bindings.symm.trans hmap')
  exact hne (hw.apart g hg f hf _ _ _ _ _ hig hif)

-- ---------------------------------------------------------------------------
-- Seeds and snapshots
-- ---------------------------------------------------------------------------

theorem Seeds.made (h : w.Seeds f seed w') : ∃ parent map entries,
    w.IsScope parent ∧ w.Made w' f parent map entries ∧ seed ≠ map := by
  have hne {parent map : Value} {entries : Entries} {o : Obj} (ho : w.heap.obj? seed = some o)
      (hm : w.Made w' f parent map entries) : seed ≠ map := by
    rintro rfl
    rw [hm.freshMap] at ho
    cases ho
  cases h with
  | make hp ho h =>
    obtain ⟨map, entries, hm⟩ := (Frame.make_ends w _ seed).ok h
    exact ⟨_, map, entries, hp, hm, hne ho hm⟩
  | root ho h =>
    obtain ⟨map, entries, hm⟩ := (Frame.root_ends w seed).ok h
    exact ⟨_, map, entries, .inl rfl, hm, hne ho hm⟩

structure Tabled (w : World) (table : Value) (w' : World) : Prop where
  grows : w.Grows w'
  fresh : w.heap.obj? table = none
  object : ∃ entries, w'.heap.obj? table = some (.table entries)

theorem Tabled.foreign (hw : w.Sound) (h : w.Tabled table w') : w'.Foreign table := by
  obtain ⟨entries, ho⟩ := h.object
  refine ⟨⟨_, ho⟩, fun hf => ?_, fun ⟨f, hf, hmap⟩ => ?_⟩
  · rw [h.grows.frames] at hf
    obtain ⟨_, _, _, hi, -⟩ := hw.isFrame hf
    exact absurd hi.frame (by simp [h.fresh])
  · rw [h.grows.frames] at hf
    obtain ⟨_, _, _, hi, -⟩ := hw.isFrame hf
    obtain rfl := Except.ok.inj ((hi.kept h.grows.kept).bindings.symm.trans hmap)
    exact absurd hi.table (by simp [h.fresh])

theorem snapshot_ends (w : World) (env : Value) :
    Ends (Frame.snapshot env) w w.Tabled (fun _ _ => True) := by
  refine Ends.read (fun entries _ => ?_) fun _ _ => trivial
  exact ⟨⟨w.heap.kept_add _, rfl, rfl⟩, w.heap.obj?_size, entries, Heap.obj?_add_self _ _⟩

theorem ask_snapshot_ends (w : World) (id : Value) :
    Ends (Shared.ask id .snapshot) w w.Tabled (fun _ _ => True) := by
  refine Ends.bind ((Shared.running_same id w).mono (fun _ _ h => h) fun _ _ _ => trivial) ?_
  rintro actor w rfl
  obtain ⟨printed, hrun⟩ := Shared.announce_run id actor (.str Request.snapshot.op) w
  refine Ends.bind (Ends.of_ok hrun (Q := fun _ w' => w' = { w with printed := printed }) rfl) ?_
  rintro _ _ rfl
  refine (snapshot_ends { w with printed := printed } actor.frame).mono ?_ fun _ _ _ => trivial
  exact fun table w' h => ⟨⟨h.grows.kept, h.grows.frames, h.grows.actors⟩, h.fresh, h.object⟩

theorem Sound.fault_tabled {env key symbol : Value} {message : String} (hw : w.Sound)
    (he : w.IsScope env)
    (h : Frame.get env key true w = .error (.unbound symbol table message) w') :
    w.Tabled table w' := by
  have hgrows : w.Grows w' := by
    have hg := Frame.preserving_get env key true w
    rwa [Action.after, h] at hg
  obtain ⟨frames, hc, hl, -⟩ := hw.chain he
  have hsize := Nat.le_trans hl hw.frames_le
  cases hk : w.heap.nameOf key with
  | error fault =>
    have hread : Action.read (·.nameOf key) w = .error fault w := Action.run_read_error hk
    simp only [Frame.get, Action.run_bind, hread] at h
    obtain ⟨rfl, -⟩ := EStateM.Result.error.inj h
    have htitle := Heap.nameOf_error hk
    simp [Fault.title] at htitle
  | ok name =>
    cases hr : Frame.resolve? w.heap name frames with
    | some value =>
      obtain ⟨s, hrun⟩ := hc.get_eq hsize hk true
      rw [hr, h] at hrun
      cases hrun
    | none =>
      obtain ⟨w'', hrun, hheap⟩ := hc.get_traced_unbound hsize hk hr
      obtain ⟨hfault, rfl⟩ := EStateM.Result.error.inj (h.symm.trans hrun)
      obtain rfl := (Fault.unbound.inj hfault).2.1
      exact ⟨hgrows, w.heap.obj?_size, _, hheap ▸ Heap.obj?_add_self _ _⟩

theorem Snaps.tabled (hw : w.Sound) (h : w.Snaps table w') : w.Tabled table w' := by
  cases h with
  | plain h => exact (snapshot_ends w _).ok h
  | asked h => exact (ask_snapshot_ends w _).ok h
  | fault he h => exact hw.fault_tabled he h

/-- After any calls and bindings put into mappings, frames have maps of their own. What a frame was
seeded from never becomes its map, and no snapshot ever becomes the map of a frame, whether it was
asked for or came with a fault. So what is written to one frame leaves all other objects as they
are: the maps of other frames, its seeds and the snapshots. A binding that is put into any object but
a frame or the map of one, such as a snapshot, changes no frame. -/
theorem ownership {library : ActorLibrary} (hl : library.Lawful) (hw : (start library).Becomes w) :
    (∀ f ∈ w.frames, ∃ map, Frame.bindings w.heap f = .ok map ∧
      ∀ g ∈ w.frames, g ≠ f → Frame.bindings w.heap g ≠ .ok map) ∧
    (∀ f seed w₁ w₂, w.Seeds f seed w₁ → w₁.Becomes w₂ → Frame.bindings w₂.heap f ≠ .ok seed ∧
      ∀ w₃ o, w₂.WritesTo f w₃ → w₂.heap.obj? seed = some o → w₃.heap.obj? seed = some o) ∧
    (∀ table w₁ w₂, w.Snaps table w₁ → w₁.Becomes w₂ → w₂.Foreign table ∧
      ∀ f ∈ w₂.frames, ∀ w₃, w₂.WritesTo f w₃ → w₃.heap.obj? table = w₂.heap.obj? table) ∧
    (∀ f ∈ w.frames, ∀ w', w.WritesTo f w' →
      (∀ g ∈ w.frames, g ≠ f → Frame.own? w'.heap g = Frame.own? w.heap g) ∧
      ∀ v o, w.heap.obj? v = some o → Frame.bindings w.heap f ≠ .ok v →
        w'.heap.obj? v = some o) ∧
    ∀ mapping key value w', w.Foreign mapping → w' = (Deed.put mapping key value).run.after w →
      w'.frames = w.frames ∧ ∀ f ∈ w.frames, w'.heap.obj? f = w.heap.obj? f ∧
        Frame.own? w'.heap f = Frame.own? w.heap f := by
  have hs := (hw.confined (start_sound hl)).sound
  refine ⟨fun f hf => ?_, fun f seed w₁ w₂ hseeds hlater => ?_,
    fun table w₁ w₂ hsnaps hlater => ?_, fun f hf w' hwrites => ?_, ?_⟩
  · obtain ⟨_, map, _, hi, -⟩ := hs.isFrame hf
    exact ⟨map, hi.bindings, fun g hg hne => hs.bindings_ne hf hg hne hi.bindings⟩
  · obtain ⟨parent, map, entries, hp, hm, hne⟩ := hseeds.made
    have hf : f ∈ w₁.frames := by simp [hm.frames]
    have hl := hlater.confined (hs.made hp hm)
    obtain ⟨hf', hmap⟩ := hl.frames f hf
    have hown : Frame.bindings w₂.heap f ≠ .ok seed := by
      rw [hmap, hm.isFrame.bindings]
      exact fun h => hne (Except.ok.inj h).symm
    exact ⟨hown, fun w₃ o hwrites ho => (hwrites.confined hl.sound hf').kept seed o ho hown⟩
  · have htabled := hsnaps.tabled hs
    have hl := hlater.confined (hs.effect (.grown htabled.grows))
    have hforeign := hl.foreign table (htabled.foreign hs)
    refine ⟨hforeign, fun f hf w₃ hwrites => ?_⟩
    obtain ⟨o', ho'⟩ := hforeign.object
    rw [ho', (hwrites.confined hl.sound hf).kept table o' ho' fun h => hforeign.noMap ⟨f, hf, h⟩]
  · have hc := hwrites.confined hs hf
    exact ⟨fun g hg hne => hc.own? hs hg fun map hmap h => hs.bindings_ne hf hg hne h hmap, hc.kept⟩
  · rintro mapping key value w' hforeign rfl
    have hlegal : (Deed.put mapping key value).Legal w :=
      ⟨hforeign.noFrame, fun h => absurd h hforeign.noMap⟩
    have hc := Deed.confined_put hs hlegal
    refine ⟨?_, fun f hf => ⟨?_, hc.own? hs hf fun map hmap h => ?_⟩⟩
    · obtain hsame | ⟨a, o, -, hrun⟩ := Deed.put_cases w mapping key value
      · rw [hsame]
      · rw [hrun]
    · obtain ⟨_, _, _, hi, -⟩ := hs.isFrame hf
      rw [hi.frame, hc.kept f _ hi.frame fun h => hforeign.noFrame (h ▸ hf)]
    · exact hforeign.noMap ⟨f, hf, h ▸ hmap⟩

def reseeded : World := (Call.make .nil (.ref 4)).run.after twoFrames

def rewritten : World :=
  (Deed.call (.set (.ref 9) (.str "x") (.int 3) false)).run.after
    ((Deed.put (.ref 8) (.sym "y") (.int 2)).run.after reseeded)

theorem twoFrames_becomes : initial.Becomes twoFrames := by
  have hfirst : initial.Becomes _ := .single ⟨.call (.make .nil .nil), .inl rfl, rfl⟩
  have hsecond : initial.Becomes _ :=
    hfirst.tail ⟨.call (.make (.ref 5) .nil), .inr (mem_frames_iff.mpr ⟨0, rfl⟩), rfl⟩
  exact hsecond.tail ⟨.call (.set (.ref 5) (.str "x") (.int 1) false),
    mem_frames_iff.mpr ⟨0, rfl⟩, rfl⟩

theorem ownership_rewritten : initial.Becomes twoFrames ∧ reseeded.WritesTo (.ref 9) rewritten ∧
    Frame.bindings reseeded.heap (.ref 9) ≠ .ok (.ref 4) ∧
    rewritten.heap.obj? (.ref 4) = some (.table [(.sym "x", .int 1)]) ∧
    rewritten.heap.obj? (.ref 8) = some (.table [(.sym "x", .int 3), (.sym "y", .int 2)]) := by
  have hseeds : twoFrames.Seeds (.ref 9) (.ref 4) reseeded := .make (.inl rfl) rfl rfl
  have hframes : reseeded.frames = #[.ref 5, .ref 7, .ref 9] := rfl
  have hput : (Deed.put (.ref 8) (.sym "y") (.int 2)).Legal reseeded :=
    ⟨by simp [hframes], fun _ => ⟨"y", none, rfl⟩⟩
  have hwrites : reseeded.WritesTo (.ref 9) rewritten := by
    refine .tail (.single ⟨.put (.ref 8) (.sym "y") (.int 2), hput, ?_, rfl⟩)
      ⟨.call (.set (.ref 9) (.str "x") (.int 3) false), mem_frames_iff.mpr ⟨2, rfl⟩, ?_, rfl⟩
    · rintro _ ⟨rfl⟩
      rfl
    · rintro _ ⟨rfl⟩
      rfl
  obtain ⟨-, hseeded, -⟩ := ownership ActorLibrary.threads_lawful twoFrames_becomes
  obtain ⟨hown, hkept⟩ := hseeded (.ref 9) (.ref 4) reseeded reseeded hseeds .refl
  exact ⟨twoFrames_becomes, hwrites, hown, hkept rewritten _ hwrites rfl, rfl⟩

end World

end LexicalEnv
