import LexicalEnv.Proofs.Call

/-!
# The registry of actors

The registry keeps its actors and their frames in two tables. In every reachable
world these know the same ids, and the frame kept for an id is the one that the
actor of the id serves (`Reachable.consistent`).
-/

namespace LexicalEnv

namespace ActorSystem

variable {s : ActorSystem}

/-- Id by id, the one table has the place of the actor that serves the frame in the other. -/
def Consistent (s : ActorSystem) : Prop :=
  s.actors.map (fun entry => (entry.1, s.handed[entry.2]?)) =
    s.frames.map fun entry => (entry.1, some entry.2)

theorem consistent_empty (library : ActorLibrary) : (empty library).Consistent := rfl

theorem Consistent.spawn (hs : s.Consistent) (frame debug : Value) :
    (s.spawn frame debug).2.Consistent := by
  have hold : s.actors.map (fun entry => (entry.1, (s.handed ++ [frame])[entry.2]?)) =
      s.actors.map fun entry => (entry.1, s.handed[entry.2]?) := by
    refine List.map_congr_left fun entry he => ?_
    have hm : (entry.1, s.handed[entry.2]?) ∈ s.frames.map fun entry => (entry.1, some entry.2) :=
      hs ▸ List.mem_map_of_mem he
    obtain ⟨entry', -, heq⟩ := List.mem_map.mp hm
    have hplace : s.handed[entry.2]? = some entry'.2 := (Prod.mk.inj heq).2.symm
    have hlt := (List.getElem?_eq_some_iff.mp hplace).1
    rw [List.getElem?_append_left hlt]
  have hlast : (s.handed ++ [frame])[s.spawned.length]? = some frame := by
    simp [handed]
  have hhanded : (s.spawn frame debug).2.handed = s.handed ++ [frame] := by
    simp [handed, ActorSystem.spawn]
  show (s.actors ++ [(idOf s.spawned.length, s.spawned.length)]).map _ =
    (s.frames ++ [(idOf s.spawned.length, frame)]).map _
  rw [List.map_append, List.map_append, hhanded, hold, hs, List.map_singleton, hlast]
  rfl

theorem Consistent.halt (hs : s.Consistent) (place : Nat) : (s.halt place).Consistent := by
  rw [Consistent, handed_halt]
  exact hs

theorem Consistent.kill (hs : s.Consistent) (id : Value) : (s.kill id).Consistent :=
  kill_of_halt Consistent.halt hs id

theorem Consistent.forget (hs : s.Consistent) (id : Value) : (s.forget id).Consistent := by
  have hkept := congrArg
    (List.filter fun entry : String × Option Value => some entry.1 ≠ id.text?) hs
  rw [List.filter_map, List.filter_map] at hkept
  exact hkept

theorem Consistent.stop (hs : s.Consistent) (id : Value) : (s.stop id).Consistent :=
  (hs.kill id).forget id

theorem consistent_stopAll (s : ActorSystem) : s.stopAll.Consistent := rfl

theorem lookup_map_snd {α β : Type} (l : List (String × α)) (g : α → β) (key : String) :
    (l.map fun entry => (entry.1, g entry.2)).lookup key = (l.lookup key).map g := by
  induction l with
  | nil => rfl
  | cons entry l ih =>
    rw [List.map_cons, List.lookup_cons, List.lookup_cons]
    split
    · rfl
    · exact ih

theorem Consistent.frame?_eq (hs : s.Consistent) (id : Value) :
    s.frame? id = (s.actor? id).map Actor.frame := by
  cases id with
  | text id birth =>
    have hlookup := congrArg (List.lookup id) hs
    rw [lookup_map_snd s.actors (s.handed[·]?), lookup_map_snd s.frames some] at hlookup
    simp only [frame?, actor?, place?]
    cases hplace : s.actors.lookup id with
    | none =>
      rw [hplace, Option.map_none, eq_comm, Option.map_eq_none_iff] at hlookup
      rw [hlookup]
      rfl
    | some place =>
      rw [hplace, Option.map_some, eq_comm, Option.map_eq_some_iff] at hlookup
      obtain ⟨frame, hframe, hhanded⟩ := hlookup
      rw [handed, List.getElem?_map] at hhanded
      rw [hframe, hhanded]
      rfl
  | _ => rfl

end ActorSystem

namespace World

variable {w : World}

theorem consistent_registry (hs : w.actors.Consistent) (c : Call) :
    (c.registry w).Consistent := by
  cases c with
  | spawn env debug => exact hs.spawn env debug
  | kill id =>
    rw [Call.registry]
    split
    · exact hs.kill id
    · exact hs
  | stop id =>
    rw [Call.registry]
    split
    · exact hs
    · exact hs.stop id
  | stopAll => exact w.actors.consistent_stopAll
  | _ => exact hs

theorem Reachable.consistent (hw : w.Reachable) : w.actors.Consistent := by
  induction hw with
  | start => exact ActorSystem.consistent_empty _
  | step hw hstep ih =>
    obtain ⟨c, hc, rfl⟩ := hstep
    rw [(c.change hw.sound hc).actors_eq]
    exact consistent_registry ih c

end World

end LexicalEnv
