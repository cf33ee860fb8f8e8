import LexicalEnv.Proofs.Chain
import Mathlib.Data.List.Perm.Subperm

/-!
# Sound worlds

In a sound world every frame lies in none or in one made before it, each has a
map of names to itself, and actors serve such frames only. `Effect` lists all
that an operation may do to a world; whatever it does, a sound world stays
sound (`Sound.effect`) and every frame keeps its place and its map
(`Effect.isFrame`). `Change` says it with the name that the operation sets and
the registry that it leaves.
-/

namespace LexicalEnv

structure Setting where
  frame : Value
  name : String
  value : Value
  deriving DecidableEq, Repr

namespace World

variable {w w' : World} {f g parent map env value : Value} {entries : Entries} {name : String}

/-- What a frame can lie in and a lookup can start from: nothing, or a frame made so far. -/
def IsScope (w : World) (v : Value) : Prop := v = .nil ∨ v ∈ w.frames

instance (w : World) (v : Value) : Decidable (w.IsScope v) :=
  inferInstanceAs (Decidable (v = .nil ∨ v ∈ w.frames))

theorem Grows.isScope_iff (hg : w.Grows w') {v : Value} : w'.IsScope v ↔ w.IsScope v := by
  rw [IsScope, IsScope, hg.frames]

structure Sound (w : World) : Prop where
  frame : ∀ (i : Nat) f, w.frames[i]? = some f → ∃ parent map entries,
    w.heap.IsFrame f parent map entries ∧ (parent = .nil ∨ ∃ j < i, w.frames[j]? = some parent)
  /-- No two frames share a map. -/
  apart : ∀ f ∈ w.frames, ∀ g ∈ w.frames, ∀ parent parent' map entries entries',
    w.heap.IsFrame f parent map entries → w.heap.IsFrame g parent' map entries' → f = g
  distinct : w.frames.toList.Nodup
  served : ∀ actor ∈ w.actors.spawned, actor.frame ∈ w.frames
  lawful : w.actors.library.Lawful

theorem mem_frames_iff : f ∈ w.frames ↔ ∃ i : Nat, w.frames[i]? = some f := Array.mem_iff_getElem?

theorem Sound.isFrame (hw : w.Sound) (hf : f ∈ w.frames) :
    ∃ parent map entries, w.heap.IsFrame f parent map entries ∧ w.IsScope parent := by
  obtain ⟨i, hi⟩ := mem_frames_iff.mp hf
  obtain ⟨parent, map, entries, hframe, hp⟩ := hw.frame i f hi
  refine ⟨parent, map, entries, hframe, hp.imp_right ?_⟩
  rintro ⟨j, -, hj⟩
  exact mem_frames_iff.mpr ⟨j, hj⟩

/-- Going outwards from the frame made as number `i` one meets older frames only, hence at most
`i` further ones. -/
theorem Sound.chain_of_index (hw : w.Sound) (i : Nat) (hi : w.frames[i]? = some f) :
    ∃ frames, w.heap.Chain f frames ∧ frames.length ≤ i + 1 ∧ ∀ g ∈ frames, g ∈ w.frames := by
  induction i using Nat.strongRecOn generalizing f with
  | ind i ih =>
    obtain ⟨parent, map, entries, hframe, rfl | ⟨j, hj, hp⟩⟩ := hw.frame i f hi
    · exact ⟨[f], .frame hframe .root, by simp, by simpa using mem_frames_iff.mpr ⟨i, hi⟩⟩
    · obtain ⟨frames, hc, hl, hm⟩ := ih j hj hp
      refine ⟨f :: frames, .frame hframe hc, by simp only [List.length_cons]; omega, ?_⟩
      exact List.forall_mem_cons.mpr ⟨mem_frames_iff.mpr ⟨i, hi⟩, hm⟩

theorem Sound.chain (hw : w.Sound) (he : w.IsScope env) :
    ∃ frames, w.heap.Chain env frames ∧ frames.length ≤ w.frames.size ∧
      ∀ g ∈ frames, g ∈ w.frames := by
  rcases he with rfl | he
  · exact ⟨[], .root, by simp, by simp⟩
  · obtain ⟨i, hi⟩ := mem_frames_iff.mp he
    obtain ⟨frames, hc, hl, hm⟩ := hw.chain_of_index i hi
    have hlt := (Array.getElem?_eq_some_iff.mp hi).1
    exact ⟨frames, hc, by omega, hm⟩

/-- Frames are different objects, so the heap is large enough for all of them. -/
theorem Sound.frames_le (hw : w.Sound) : w.frames.size ≤ w.heap.size := by
  have hsub : w.frames.toList ⊆ (List.range w.heap.size).map Value.ref := by
    intro f hf
    obtain ⟨parent, map, entries, hframe, -⟩ := hw.isFrame (Array.mem_toList_iff.mp hf)
    obtain ⟨a, rfl, ha⟩ := Heap.exists_ref_of_obj? hframe.frame
    exact List.mem_map.mpr ⟨a, List.mem_range.mpr ha, rfl⟩
  simpa using (List.subperm_of_subset hw.distinct hsub).length_le

-- ---------------------------------------------------------------------------
-- What an operation does
-- ---------------------------------------------------------------------------

structure Made (w w' : World) (f parent map : Value) (entries : Entries) : Prop where
  kept : w.heap.Kept w'.heap
  frames : w'.frames = w.frames.push f
  actors : w'.actors = w.actors
  isFrame : w'.heap.IsFrame f parent map entries
  fresh : w.heap.obj? f = none
  freshMap : w.heap.obj? map = none

structure Written (w w' : World) (map : Value) (entries : Entries) (name : String) (value : Value) :
    Prop where
  kept : ∀ v o, v ≠ map → w.heap.obj? v = some o → w'.heap.obj? v = some o
  table : w'.heap.obj? map = some (.table (w.heap.insert entries (.sym name) value))
  frames : w'.frames = w.frames
  actors : w'.actors = w.actors

inductive Effect (w w' : World) : Prop
  | grown (h : w.Grows w')
  | made {f parent map : Value} {entries : Entries} (hp : w.IsScope parent)
    (h : w.Made w' f parent map entries)
  | written {f parent map value : Value} {entries : Entries} {name : String} (hf : f ∈ w.frames)
    (hi : w.heap.IsFrame f parent map entries) (h : w.Written w' map entries name value)
  | actors (hk : w.heap.Kept w'.heap) (hf : w'.frames = w.frames)
    (hl : w'.actors.library = w.actors.library)
    (h : ∀ actor ∈ w'.actors.spawned, actor.frame ∈ w.frames)

/-- What most operations do: they add objects, and one frame at most. -/
inductive Adds (w w' : World) : Prop
  | grown (h : w.Grows w')
  | made {f parent map : Value} {entries : Entries} (hp : w.IsScope parent)
    (h : w.Made w' f parent map entries)

/-- An effect with the setting that is made, if any, and the registry that is left. -/
inductive Change (w : World) : Option Setting → ActorSystem → World → Prop
  | adds {w' : World} (h : w.Adds w') : Change w none w.actors w'
  | sets {f parent map value : Value} {entries : Entries} {name : String} {w' : World}
    (hf : f ∈ w.frames) (hi : w.heap.IsFrame f parent map entries)
    (h : w.Written w' map entries name value) : Change w (some ⟨f, name, value⟩) w.actors w'
  | actors {w' : World} (hk : w.heap.Kept w'.heap) (hf : w'.frames = w.frames)
    (hl : w'.actors.library = w.actors.library)
    (h : ∀ actor ∈ w'.actors.spawned, actor.frame ∈ w.frames) : Change w none w'.actors w'

theorem Made.not_mem (hw : w.Sound) (h : w.Made w' f parent map entries) : f ∉ w.frames := by
  intro hf
  obtain ⟨_, _, _, hi, -⟩ := hw.isFrame hf
  exact absurd hi.frame (by simp [h.fresh])

theorem Made.of_grows {w'' : World} (hg : w.Grows w') (h : w'.Made w'' f parent map entries) :
    w.Made w'' f parent map entries :=
  ⟨hg.kept.trans h.kept, hg.frames ▸ h.frames, h.actors.trans hg.actors, h.isFrame,
    hg.kept.obj?_eq_none h.fresh, hg.kept.obj?_eq_none h.freshMap⟩

theorem Written.isFrame_self (h : w.Written w' map entries name value)
    (hi : w.heap.IsFrame f parent map entries) :
    w'.heap.IsFrame f parent map (w.heap.insert entries (.sym name) value) := by
  have hne : f ≠ map := by
    rintro rfl
    exact absurd (hi.frame.symm.trans hi.table) (by simp)
  exact ⟨h.kept f _ hne hi.frame, h.table, hi.named.insert _ _ _ _⟩

theorem Written.isFrame_of_ne {parent' map' : Value} {entries' : Entries}
    (h : w.Written w' map entries name value) (hi : w.heap.IsFrame f parent map entries)
    (hg : w.heap.IsFrame g parent' map' entries') (hne : map' ≠ map) :
    w'.heap.IsFrame g parent' map' entries' := by
  have hgne : g ≠ map := by
    rintro rfl
    exact absurd (hg.frame.symm.trans hi.table) (by simp)
  exact ⟨h.kept g _ hgne hg.frame, h.kept map' _ hne hg.table, hg.named⟩

theorem Effect.isFrame (hw : w.Sound) (h : w.Effect w') (hg : g ∈ w.frames)
    (hi : w.heap.IsFrame g parent map entries) :
    ∃ entries', w'.heap.IsFrame g parent map entries' := by
  cases h with
  | grown h => exact ⟨entries, hi.kept h.kept⟩
  | made _ h => exact ⟨entries, hi.kept h.kept⟩
  | @written f parent' map' value entries' name hf hf' h =>
    by_cases hm : map = map'
    · subst hm
      obtain rfl := hw.apart g hg f hf _ _ _ _ _ hi hf'
      obtain ⟨rfl, -, rfl⟩ := hi.unique hf'
      exact ⟨_, h.isFrame_self hi⟩
    · exact ⟨entries, h.isFrame_of_ne hf' hi hm⟩
  | actors hk => exact ⟨entries, hi.kept hk⟩

theorem Adds.kept (h : w.Adds w') : w.heap.Kept w'.heap := by
  cases h with
  | grown h => exact h.kept
  | made _ h => exact h.kept

theorem Adds.of_grows {w'' : World} (hg : w.Grows w') (h : w'.Adds w'') : w.Adds w'' := by
  cases h with
  | grown h => exact .grown (hg.trans h)
  | made hp h => exact .made (hg.isScope_iff.mp hp) (h.of_grows hg)

theorem Change.effect {s : Option Setting} {a : ActorSystem} (h : w.Change s a w') :
    w.Effect w' := by
  cases h with
  | adds h =>
    cases h with
    | grown h => exact .grown h
    | made hp h => exact .made hp h
  | sets hf hi h => exact .written hf hi h
  | actors hk hf hl h => exact .actors hk hf hl h

theorem Change.actors_eq {s : Option Setting} {a : ActorSystem} (h : w.Change s a w') :
    w'.actors = a := by
  cases h with
  | adds h =>
    cases h with
    | grown h => exact h.actors
    | made _ h => exact h.actors
  | sets _ _ h => exact h.actors
  | actors => rfl

theorem Change.of_grows {w'' : World} {s : Option Setting} {a : ActorSystem} (hw : w.Sound)
    (hg : w.Grows w') (h : w'.Change s a w'') : w.Change s a w'' := by
  cases h with
  | adds h =>
    rw [hg.actors]
    exact .adds (h.of_grows hg)
  | @sets f parent map value entries name _ hf hi h =>
    rw [hg.frames] at hf
    obtain ⟨_, _, _, hi₀, -⟩ := hw.isFrame hf
    obtain ⟨rfl, rfl, rfl⟩ := hi.unique (hi₀.kept hg.kept)
    have htable := h.table
    rw [Value.sym, w'.heap.insert_symbol w.heap] at htable
    rw [hg.actors]
    exact .sets hf hi₀ ⟨fun v o hv ho => h.kept v o hv (hg.kept v o ho), htable,
      h.frames.trans hg.frames, h.actors.trans hg.actors⟩
  | actors hk hf hl h =>
    exact .actors (hg.kept.trans hk) (hf.trans hg.frames) (hg.actors ▸ hl) (hg.frames ▸ h)

theorem Effect.frames_subset (h : w.Effect w') (hg : g ∈ w.frames) : g ∈ w'.frames := by
  cases h with
  | grown h => rwa [h.frames]
  | made _ h => simp [h.frames, hg]
  | written _ _ h => rwa [h.frames]
  | actors _ hf => rwa [hf]

theorem Sound.of_same_frames (hw : w.Sound) (hf : w'.frames = w.frames)
    (hi : ∀ f ∈ w.frames, ∀ parent map entries, w.heap.IsFrame f parent map entries →
      ∃ entries', w'.heap.IsFrame f parent map entries')
    (hl : w'.actors.library = w.actors.library)
    (hs : ∀ actor ∈ w'.actors.spawned, actor.frame ∈ w.frames) : w'.Sound := by
  refine ⟨fun i f hget => ?_, ?_, hf ▸ hw.distinct, hf ▸ hs, hl ▸ hw.lawful⟩
  · rw [hf] at hget ⊢
    obtain ⟨parent, map, entries, hframe, hp⟩ := hw.frame i f hget
    obtain ⟨entries', hframe'⟩ := hi f (mem_frames_iff.mpr ⟨i, hget⟩) _ _ _ hframe
    exact ⟨parent, map, entries', hframe', hp⟩
  · intro f hmf g hmg parent parent' map entries entries' hif hig
    rw [hf] at hmf hmg
    obtain ⟨_, _, _, hf₀, -⟩ := hw.isFrame hmf
    obtain ⟨_, _, _, hg₀, -⟩ := hw.isFrame hmg
    obtain ⟨_, hf₁⟩ := hi f hmf _ _ _ hf₀
    obtain ⟨_, hg₁⟩ := hi g hmg _ _ _ hg₀
    obtain ⟨-, rfl, -⟩ := hif.unique hf₁
    obtain ⟨-, rfl, -⟩ := hig.unique hg₁
    exact hw.apart f hmf g hmg _ _ _ _ _ hf₀ hg₀

theorem Sound.made (hw : w.Sound) (hp : w.IsScope parent) (h : w.Made w' f parent map entries) :
    w'.Sound := by
  have hold {g : Value} (hg : g ∈ w.frames) : ∃ parent map entries,
      w.heap.IsFrame g parent map entries ∧ w'.heap.IsFrame g parent map entries := by
    obtain ⟨_, _, _, hi, -⟩ := hw.isFrame hg
    exact ⟨_, _, _, hi, hi.kept h.kept⟩
  have hown {g parent' map' : Value} {entries' : Entries} (hg : g ∈ w.frames)
      (hi : w'.heap.IsFrame g parent' map' entries') : map' ≠ map := by
    obtain ⟨_, _, _, hi₀, hi₁⟩ := hold hg
    obtain ⟨-, rfl, -⟩ := hi.unique hi₁
    rintro rfl
    exact absurd hi₀.table (by simp [h.freshMap])
  refine ⟨fun i g hget => ?_, ?_, ?_, ?_, h.actors ▸ hw.lawful⟩
  · rw [h.frames, Array.getElem?_push] at hget
    split at hget
    · cases hget
      refine ⟨parent, map, entries, h.isFrame, hp.imp_right fun hm => ?_⟩
      obtain ⟨j, hj⟩ := mem_frames_iff.mp hm
      have hlt := (Array.getElem?_eq_some_iff.mp hj).1
      exact ⟨j, by omega, by rw [h.frames, Array.getElem?_push_lt hlt]; simpa [hlt] using hj⟩
    · obtain ⟨parent', map', entries', hi, hp'⟩ := hw.frame i g hget
      refine ⟨parent', map', entries', hi.kept h.kept, hp'.imp_right ?_⟩
      rintro ⟨j, hj, hpj⟩
      have hlt := (Array.getElem?_eq_some_iff.mp hpj).1
      exact ⟨j, hj, by rw [h.frames, Array.getElem?_push_lt hlt]; simpa [hlt] using hpj⟩
  · intro a ha b hb _ _ _ _ _ hia hib
    rw [h.frames, Array.mem_push] at ha hb
    rcases ha with ha | rfl <;> rcases hb with hb | rfl
    · obtain ⟨_, _, _, ha₀, ha₁⟩ := hold ha
      obtain ⟨_, _, _, hb₀, hb₁⟩ := hold hb
      obtain ⟨-, rfl, -⟩ := hia.unique ha₁
      obtain ⟨-, rfl, -⟩ := hib.unique hb₁
      exact hw.apart a ha b hb _ _ _ _ _ ha₀ hb₀
    · obtain ⟨-, rfl, -⟩ := hib.unique h.isFrame
      exact absurd rfl (hown ha hia)
    · obtain ⟨-, rfl, -⟩ := hia.unique h.isFrame
      exact absurd rfl (hown hb hib)
    · rfl
  · have hnew : f ∉ w.frames.toList := fun hf => h.not_mem hw (Array.mem_toList_iff.mp hf)
    rw [h.frames, Array.toList_push]
    refine List.nodup_append.mpr ⟨hw.distinct, by simp, ?_⟩
    rintro a ha b hb rfl
    exact hnew (List.mem_singleton.mp hb ▸ ha)
  · intro actor ha
    rw [h.frames, Array.mem_push]
    exact .inl (hw.served actor (h.actors ▸ ha))

theorem Sound.effect (hw : w.Sound) (h : w.Effect w') : w'.Sound := by
  have hi (f) (hf : f ∈ w.frames) (parent map entries) (hif : w.heap.IsFrame f parent map entries) :
      ∃ entries', w'.heap.IsFrame f parent map entries' := h.isFrame hw hf hif
  cases h with
  | grown h => exact hw.of_same_frames h.frames hi (h.actors ▸ rfl) (h.actors ▸ hw.served)
  | made hp h => exact hw.made hp h
  | written _ _ h => exact hw.of_same_frames h.frames hi (h.actors ▸ rfl) (h.actors ▸ hw.served)
  | actors _ hf hl h => exact hw.of_same_frames hf hi hl h

end World

end LexicalEnv
