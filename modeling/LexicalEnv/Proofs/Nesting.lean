import LexicalEnv.Proofs.Visible

/-!
# Frames nest

Whatever a client does, frames lie in older frames and stay where they are, and
their maps are keyed by names. So every walk outwards ends, after as many rounds
as the frame it starts from is deep (`Reachable.frames_nested`).
-/

namespace LexicalEnv

/-- Walks outwards from `env` end within a number of rounds: a search for any name, the collection
of the chain, and a lookup from below any shared frame. -/
structure Frame.WalksWithin (h : Heap) (env : Value) (rounds : Nat) : Prop where
  search : ∀ name, ∃ s, s.visited ≤ rounds ∧ searchAt h name rounds 0 env = .ok s ∧
    search h env name = .ok s
  chain : ∃ frames, chainAt h rounds [] env = .ok frames ∧ chain h env = .ok frames
  visible : ∃ entries, visible h env = .ok entries
  shared : ∀ shared name, ∃ r, Shared.walkAt h shared name rounds env = .ok r ∧
    Shared.walk h shared env name = .ok r

theorem Heap.Chain.walksWithin {h : Heap} {env : Value} {frames : List Value}
    (hc : h.Chain env frames) (hl : frames.length ≤ h.size) :
    Frame.WalksWithin h env frames.length := by
  refine ⟨fun name => ?_, ?_, ⟨_, hc.visible_eq hl⟩, fun shared name => ?_⟩
  · refine ⟨_, ?_, hc.searchAt (Nat.le_refl _) 0, hc.searchAt hl 0⟩
    exact (Nat.zero_add _).symm ▸ Nat.min_le_right _ _
  · exact ⟨_, hc.chainAt (Nat.le_refl _) [], hc.chainAt hl []⟩
  · exact ⟨_, hc.walkAt (Nat.le_refl _) shared name, hc.walk hl shared name⟩

namespace World

variable {w : World}

theorem Sound.walks_end (hw : w.Sound) {f : Value} (hf : f ∈ w.frames) :
    ∃ parent depth, Frame.outer w.heap f = .ok parent ∧ Frame.depth w.heap parent = .ok depth ∧
      Frame.depth w.heap f = .ok (1 + depth) ∧ 1 + depth ≤ w.frames.size ∧
      Frame.WalksWithin w.heap f (1 + depth) := by
  obtain ⟨chain, hchain, hl, -⟩ := hw.chain (.inr hf)
  have hsize : chain.length ≤ w.heap.size := Nat.le_trans hl hw.frames_le
  have hdepth := hchain.depth hsize
  have hwalks := hchain.walksWithin hsize
  cases hchain with
  | root =>
    obtain ⟨_, _, _, hi, -⟩ := hw.isFrame hf
    exact absurd hi Heap.not_isFrame_nil
  | @frame _ parent map entries frames hi hc =>
    rw [List.length_cons, Nat.add_comm] at hl hdepth hwalks hsize
    exact ⟨parent, frames.length, hi.outer, hc.depth (by omega), hdepth, hl, hwalks⟩

/-- In every reachable world: each frame lies in none or in one made before it, and no call moves a
frame; the keys of its map are symbols, no two of them equal; and walks outwards from it end within
as many rounds as it is deep, which is one more than the frame around it and at most the number of
frames made. -/
theorem Reachable.frames_nested (hw : w.Reachable) :
    (∀ (i : Nat) f, w.frames[i]? = some f → ∃ parent, Frame.outer w.heap f = .ok parent ∧
        (parent = .nil ∨ ∃ j < i, w.frames[j]? = some parent)) ∧
      (∀ c : Call, c.Legal w → ∀ f ∈ w.frames, f ∈ (c.run.after w).frames ∧
        Frame.outer (c.run.after w).heap f = Frame.outer w.heap f) ∧
      (∀ f ∈ w.frames, ∃ entries, Frame.own? w.heap f = some entries ∧
        (∀ e ∈ entries, ∃ name birth, e.1 = .symbol name birth) ∧
        entries.Pairwise fun a b => w.heap.sameKey a.1 b.1 = false) ∧
      Frame.depth w.heap .nil = .ok 0 ∧
      ∀ f ∈ w.frames, ∃ parent depth, Frame.outer w.heap f = .ok parent ∧
        Frame.depth w.heap parent = .ok depth ∧ Frame.depth w.heap f = .ok (1 + depth) ∧
        1 + depth ≤ w.frames.size ∧ Frame.WalksWithin w.heap f (1 + depth) := by
  have hs := hw.sound
  refine ⟨fun i f hi => ?_, fun c hc f hf => ?_, fun f hf => ?_, ?_, fun f hf => hs.walks_end hf⟩
  · obtain ⟨parent, map, entries, hframe, hp⟩ := hs.frame i f hi
    exact ⟨parent, hframe.outer, hp⟩
  · obtain ⟨parent, map, entries, hframe, -⟩ := hs.isFrame hf
    have he := c.effect hs hc
    obtain ⟨entries', hframe'⟩ := he.isFrame hs hf hframe
    exact ⟨he.frames_subset hf, by rw [hframe.outer, hframe'.outer]⟩
  · obtain ⟨parent, map, entries, hframe, -⟩ := hs.isFrame hf
    exact ⟨entries, hframe.own?, hframe.named.symbols, hframe.named.pairwise w.heap⟩
  · exact Heap.Chain.root.depth (Nat.zero_le _)

theorem twoFrames_walks : twoFrames.Reachable ∧ Frame.WalksWithin twoFrames.heap (.ref 7) 2 := by
  have hmem : Value.ref 7 ∈ twoFrames.frames := by simp [twoFrames_frames]
  obtain ⟨-, -, -, -, hwalks⟩ := Reachable.frames_nested twoFrames_reachable
  obtain ⟨parent, depth, houter, hdepth, -, -, hwithin⟩ := hwalks (.ref 7) hmem
  have hparent : Frame.outer twoFrames.heap (.ref 7) = .ok (.ref 5) := rfl
  obtain rfl := Except.ok.inj (hparent.symm.trans houter)
  have hone : Frame.depth twoFrames.heap (.ref 5) = .ok 1 := rfl
  obtain rfl := Except.ok.inj (hone.symm.trans hdepth)
  exact ⟨twoFrames_reachable, hwithin⟩

end World

end LexicalEnv
