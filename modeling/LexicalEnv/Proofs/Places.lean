import LexicalEnv.Proofs.Registry

/-!
# The places of actors

The registry numbers its actors, and an actor has the id of its number. As long as
an actor runs, it is registered under that id (`Orderly`). Spawning, stopping and
dying keep this, and nobody but the actor that is stopped notices.
-/

namespace LexicalEnv

theorem repr_injective : Function.Injective Nat.repr := by
  intro n n' h
  have hrepr := congrArg String.toList h
  rw [Nat.toList_repr, Nat.toList_repr] at hrepr
  rw [← @Nat.ofDigitChars_ten_toDigits n, hrepr, Nat.ofDigitChars_ten_toDigits]

namespace ActorSystem

variable {s : ActorSystem} {place : Nat} {actor : Actor} {id : String}

section
variable {α : Type} {l : List (String × α)}

theorem lookup_eq_none_iff_not_mem : l.lookup id = none ↔ id ∉ l.map Prod.fst := by
  rw [List.lookup_eq_none_iff, List.mem_map]
  constructor
  · rintro hn ⟨entry, he, rfl⟩
    exact absurd rfl (bne_iff_ne.mp (hn entry he))
  · exact fun hn entry he => bne_iff_ne.mpr fun hid => hn ⟨entry, he, hid.symm⟩

theorem filter_ne_of_not_mem (hn : id ∉ l.map Prod.fst) :
    l.filter (fun entry => some entry.1 ≠ some id) = l := by
  refine List.filter_eq_self.mpr fun entry he => decide_eq_true fun hid => hn ?_
  exact Option.some.inj hid ▸ List.mem_map_of_mem he

theorem lookup_filter_ne (l : List (String × α)) (id other : String) :
    (l.filter fun entry => some entry.1 ≠ some id).lookup other =
      if other = id then none else l.lookup other := by
  induction l with
  | nil => simp
  | cons entry l ih =>
    by_cases hid : entry.1 = id
    · rw [List.filter_cons_of_neg (by simp [hid]), ih, List.lookup_cons]
      by_cases ho : other = id
      · simp [ho]
      · simp [hid, ho, beq_eq_false_iff_ne.mpr ho]
    · rw [List.filter_cons_of_pos (by simp [hid]), List.lookup_cons, ih, List.lookup_cons]
      by_cases ho : other = entry.1
      · simp [ho, hid]
      · simp [beq_eq_false_iff_ne.mpr ho]

end

-- ---------------------------------------------------------------------------
-- Places and ids
-- ---------------------------------------------------------------------------

theorem idOf_injective : Function.Injective idOf :=
  fun _ _ h => repr_injective ((String.append_right_inj _).mp h)

/-- An actor has the id of its place, and one that runs is registered. -/
structure Orderly (s : ActorSystem) : Prop where
  lawful : s.library.Lawful
  consistent : s.Consistent
  named : ∀ entry ∈ s.actors, entry.1 = idOf entry.2
  running : ∀ place actor, s.spawned[place]? = some actor → s.alive actor →
    (idOf place, place) ∈ s.actors

theorem orderly_empty {library : ActorLibrary} (hl : library.Lawful) : (empty library).Orderly := by
  refine ⟨hl, ?_, ?_, ?_⟩ <;> simp [empty, Consistent]

theorem Orderly.place?_eq_some_iff (hs : s.Orderly) (birth : Birth) :
    s.place? (.text id birth) = some place ↔ id = idOf place ∧ (id, place) ∈ s.actors := by
  rw [place?, List.lookup_eq_some_iff]
  constructor
  · rintro ⟨before, after, heq, -⟩
    have hm : (id, place) ∈ s.actors := by simp [heq]
    exact ⟨hs.named _ hm, hm⟩
  · rintro ⟨rfl, hm⟩
    obtain ⟨before, after, heq, hn⟩ := List.eq_append_cons_of_mem hm
    refine ⟨before, after, heq, fun entry he => bne_iff_ne.mpr fun hid => hn ?_⟩
    -- Another entry of this id would be of the same place.
    have hname : entry.1 = idOf entry.2 := hs.named entry (by simp [heq, he])
    obtain rfl := idOf_injective (hid.trans hname)
    rwa [hid]

-- ---------------------------------------------------------------------------
-- Who still runs
-- ---------------------------------------------------------------------------

theorem alive_of_library_eq {s' : ActorSystem} (h : s'.library = s.library) (actor : Actor) :
    s'.alive actor = s.alive actor := by
  rw [alive, alive, h]

theorem running_halt (hlawful : s.library.Lawful) {other : Nat}
    (ha : (s.halt other).spawned[place]? = some actor) (hl : s.alive actor) :
    place ≠ other ∧ s.spawned[place]? = some actor := by
  rw [halt, List.getElem?_modify, Option.map_eq_map, Option.map_eq_some_iff] at ha
  obtain ⟨actor', ha', rfl⟩ := ha
  by_cases hp : other = place
  · rw [if_pos hp] at hl
    split at hl
    · rw [alive, hlawful.stopped] at hl
      cases hl
    · contradiction
  · exact ⟨Ne.symm hp, by simpa [hp] using ha'⟩

theorem running_haltAll (hlawful : s.library.Lawful) {entries : List (String × Nat)}
    (ha : (entries.foldl (fun s entry => s.halt entry.2) s).spawned[place]? = some actor)
    (hl : s.alive actor) :
    (∀ entry ∈ entries, place ≠ entry.2) ∧ s.spawned[place]? = some actor := by
  induction entries generalizing s with
  | nil => exact ⟨by simp, ha⟩
  | cons entry entries ih =>
    obtain ⟨hn, ha⟩ := ih (s := s.halt entry.2) hlawful ha hl
    obtain ⟨hne, ha⟩ := running_halt hlawful ha hl
    exact ⟨List.forall_mem_cons.mpr ⟨hne, hn⟩, ha⟩

theorem Orderly.running_kill (hs : s.Orderly) {birth : Birth}
    (ha : (s.kill (.text id birth)).spawned[place]? = some actor) (hl : s.alive actor) :
    idOf place ≠ id ∧ s.spawned[place]? = some actor := by
  unfold ActorSystem.kill at ha
  split at ha
  · rename_i other hother
    obtain ⟨rfl, -⟩ := (hs.place?_eq_some_iff birth).mp hother
    obtain ⟨hne, ha⟩ := running_halt hs.lawful ha hl
    exact ⟨fun h => hne (idOf_injective h), ha⟩
  · rename_i hnone
    refine ⟨?_, ha⟩
    rintro rfl
    rw [(hs.place?_eq_some_iff birth).mpr ⟨rfl, hs.running place actor ha hl⟩] at hnone
    cases hnone

theorem Orderly.halted_stopAll (hs : s.Orderly) (ha : actor ∈ s.stopAll.spawned) :
    s.alive actor = false := by
  obtain ⟨place, hplace⟩ := List.mem_iff_getElem?.mp ha
  refine Bool.eq_false_iff.mpr fun hl => ?_
  obtain ⟨hn, hran⟩ := running_haltAll hs.lawful hplace hl
  exact hn _ (hs.running place actor hran hl) rfl

-- ---------------------------------------------------------------------------
-- What keeps the places in order
-- ---------------------------------------------------------------------------

theorem Orderly.spawn (hs : s.Orderly) (frame debug : Value) : (s.spawn frame debug).2.Orderly := by
  refine ⟨hs.lawful, hs.consistent.spawn frame debug, ?_, fun place actor ha hl => ?_⟩
  · exact List.forall_mem_append.mpr ⟨hs.named, by simp⟩
  · rw [ActorSystem.spawn, List.getElem?_append] at ha
    rw [ActorSystem.spawn, List.mem_append]
    split at ha
    · exact .inl (hs.running place actor ha hl)
    · rename_i hlt
      obtain ⟨hp, -⟩ := List.getElem?_eq_some_iff.mp ha
      obtain rfl : place = s.spawned.length := by
        rw [List.length_singleton] at hp
        omega
      exact .inr (by simp)

theorem Orderly.running?_spawn (hs : s.Orderly) (frame debug : Value) :
    (s.spawn frame debug).2.running? (.str (s.spawn frame debug).1) =
      some ⟨frame, debug, 0⟩ := by
  have hplace : (s.spawn frame debug).2.place? (.str (s.spawn frame debug).1) =
      some s.spawned.length :=
    ((hs.spawn frame debug).place?_eq_some_iff none).mpr ⟨rfl, by simp [ActorSystem.spawn]⟩
  have hactor : (s.spawn frame debug).2.actor? (.str (s.spawn frame debug).1) =
      some ⟨frame, debug, 0⟩ := by
    rw [actor?, hplace]
    simp [ActorSystem.spawn]
  have halive : (s.spawn frame debug).2.alive ⟨frame, debug, 0⟩ = true := hs.lawful.started
  rw [running?, hactor, Option.filter_some, if_pos halive]

theorem Orderly.halt (hs : s.Orderly) (place : Nat) : (s.halt place).Orderly :=
  ⟨hs.lawful, hs.consistent.halt place, hs.named,
    fun _ _ ha hl => hs.running _ _ (running_halt hs.lawful ha hl).2 hl⟩

theorem Orderly.kill (hs : s.Orderly) (id : Value) : (s.kill id).Orderly :=
  kill_of_halt Orderly.halt hs id

@[simp] theorem actors_kill (s : ActorSystem) (id : Value) : (s.kill id).actors = s.actors :=
  kill_of_halt (P := fun t => t.actors = s.actors) (fun h _ => h) rfl id

@[simp] theorem frames_kill (s : ActorSystem) (id : Value) : (s.kill id).frames = s.frames :=
  kill_of_halt (P := fun t => t.frames = s.frames) (fun h _ => h) rfl id

theorem Consistent.ids_eq (hs : s.Consistent) :
    s.actors.map Prod.fst = s.frames.map Prod.fst := by
  have hids := congrArg (List.map Prod.fst) hs
  rw [List.map_map, List.map_map] at hids
  exact hids

theorem Consistent.stop_of_unknown (hs : s.Consistent) {id : Value} (hf : s.frame? id = none) :
    s.stop id = s := by
  cases id with
  | text id birth =>
    have hframes : id ∉ s.frames.map Prod.fst := lookup_eq_none_iff_not_mem.mp hf
    have hactors : id ∉ s.actors.map Prod.fst := hs.ids_eq ▸ hframes
    have hplace : s.place? (.text id birth) = none := lookup_eq_none_iff_not_mem.mpr hactors
    have hkill : s.kill (.text id birth) = s := by rw [ActorSystem.kill, hplace]
    rw [ActorSystem.stop, hkill, ActorSystem.forget, Value.text?, filter_ne_of_not_mem hactors,
      filter_ne_of_not_mem hframes]
  | _ => simp [ActorSystem.stop, ActorSystem.kill, place?, ActorSystem.forget, Value.text?]

theorem Orderly.stop (hs : s.Orderly) (id : Value) : (s.stop id).Orderly := by
  cases id with
  | text id birth =>
    refine ⟨s.library_stop _ ▸ hs.lawful, hs.consistent.stop _, fun entry he => ?_,
      fun place actor ha hl => ?_⟩
    · exact hs.named entry (by simpa using (List.mem_filter.mp he).1)
    · rw [alive_of_library_eq (s.library_stop _)] at hl
      obtain ⟨hne, hran⟩ := hs.running_kill ha hl
      refine List.mem_filter.mpr ⟨by simpa using hs.running place actor hran hl, ?_⟩
      simpa [Value.text?] using hne
  | _ => rwa [hs.consistent.stop_of_unknown rfl]

theorem Orderly.stopAll (hs : s.Orderly) : s.stopAll.Orderly := by
  refine ⟨s.library_stopAll ▸ hs.lawful, s.consistent_stopAll, by simp [ActorSystem.stopAll],
    fun place actor ha hl => ?_⟩
  rw [alive_of_library_eq s.library_stopAll, hs.halted_stopAll (List.mem_of_getElem? ha)] at hl
  cases hl

-- ---------------------------------------------------------------------------
-- What stopping one actor leaves
-- ---------------------------------------------------------------------------

theorem lookup_frames_stop (s : ActorSystem) (id other : String) (birth : Birth) :
    (s.stop (.text id birth)).frames.lookup other =
      if other = id then none else s.frames.lookup other := by
  show ((s.kill (.text id birth)).frames.filter _).lookup other = _
  rw [frames_kill]
  exact lookup_filter_ne s.frames id other

theorem lookup_actors_stop (s : ActorSystem) (id other : String) (birth : Birth) :
    (s.stop (.text id birth)).actors.lookup other =
      if other = id then none else s.actors.lookup other := by
  show ((s.kill (.text id birth)).actors.filter _).lookup other = _
  rw [actors_kill]
  exact lookup_filter_ne s.actors id other

theorem Orderly.stop_of_ne (hs : s.Orderly) {other : String} (hne : other ≠ id)
    (birth birth' : Birth) :
    (s.stop (.text id birth)).frame? (.text other birth') = s.frame? (.text other birth') ∧
      (s.stop (.text id birth)).actor? (.text other birth') = s.actor? (.text other birth') := by
  have hframe : (s.stop (.text id birth)).frame? (.text other birth') =
      s.frame? (.text other birth') := by
    rw [frame?, frame?, lookup_frames_stop, if_neg hne]
  have hplace : (s.stop (.text id birth)).place? (.text other birth') =
      s.place? (.text other birth') := by
    rw [place?, place?, lookup_actors_stop, if_neg hne]
  refine ⟨hframe, ?_⟩
  rw [actor?, actor?, hplace]
  cases hp : s.place? (.text other birth') with
  | none => rfl
  | some place =>
    obtain ⟨rfl, -⟩ := (hs.place?_eq_some_iff birth').mp hp
    show (s.kill (.text id birth)).spawned[place]? = s.spawned[place]?
    unfold ActorSystem.kill
    split
    · rename_i place' hp'
      obtain ⟨rfl, -⟩ := (hs.place?_eq_some_iff birth).mp hp'
      have hplaces : place' ≠ place := fun h => hne (h ▸ rfl)
      simp [ActorSystem.halt, hplaces]
    · rfl

theorem halt_of_dead (ha : s.spawned[place]? = some actor) (hd : s.alive actor = false) :
    s.halt place = s := by
  have hspawned : s.spawned.modify place (fun a =>
      if s.alive a then { a with stops := a.stops + 1 } else a) = s.spawned := by
    refine List.ext_getElem? fun i => ?_
    rw [List.getElem?_modify]
    by_cases hi : place = i
    · subst hi
      simp [ha, hd]
    · simp [hi]
  rw [ActorSystem.halt, hspawned]

theorem stop_of_dead {id : Value} (ha : s.actor? id = some actor)
    (hd : s.alive actor = false) : s.stop id = s.forget id := by
  obtain ⟨place, hp, hplace⟩ := Option.bind_eq_some_iff.mp ha
  rw [ActorSystem.stop, ActorSystem.kill, hp]
  simp only [halt_of_dead hplace hd]

end ActorSystem

end LexicalEnv
