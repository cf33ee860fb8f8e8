import LexicalEnv.Proofs.Call

/-!
# The frame of a call

If the arguments of a call fit its parameters, one frame is made, with an entry
for each name of a parameter. Nothing else changes, so all other names have the
values that they have around the new frame (`Reachable.extend_binds`).
-/

namespace LexicalEnv

variable {w w' : World} {outer binds exprs f parent map new : Value} {entries : Entries}
  {frames : List Value} {args : List Value} {list : ParamList} {s : Signature}

theorem Heap.IsFrame.report {h : Heap} (hi : h.IsFrame f parent map entries) (hc : h.Chain f frames)
    (hl : frames.length ≤ h.size) : ∃ line, Frame.report h f = .ok line := by
  have hcount : h.count map = .ok entries.length := by
    obtain ⟨a, rfl, -⟩ := exists_ref_of_obj? hi.table
    simp [count, items, hi.table, Obj.entries?, bind, Except.bind, pure, Except.pure]
  simp only [Frame.report, hi.bindings, hcount, hc.depth hl, bind, Except.bind]
  exact ⟨_, rfl⟩

/-- The trace of a new frame cannot fail, as the frames around it come to an end. -/
theorem World.Draft.report (hw : w.Sound) (ho : w.IsScope outer)
    (h : w.Draft w' f outer map entries) : ∃ line, Frame.report w'.heap f = .ok line := by
  obtain ⟨frames, hc, hl, -⟩ := hw.chain ho
  have hlt := Heap.size_lt_of_fresh h.fresh h.isFrame.frame
  have hle := hw.frames_le
  refine h.isFrame.report (.frame h.isFrame (hc.kept h.grows.kept)) ?_
  rw [List.length_cons]
  omega

theorem World.Sound.extend_run (hw : w.Sound) (ho : w.IsScope outer)
    (hl : w.heap.paramList binds = .ok list) (hd : s.Describes list.params)
    (he : w.heap.sequenceOf exprs = .ok args) (ha : s.Accepts args.length) (debug : Bool)
    (name : Value) : ∃ new w', Frame.extend outer binds exprs debug name w = .ok new w' ∧
      (∃ map entries, w.Made w' new outer map entries) ∧ s.Binds w'.heap new args := by
  rw [Frame.extend_of_described outer name debug hl hd he, if_pos ha]
  refine (Frame.fill_ends w outer hd ha debug).exists_ok ?_
  rintro fault w' ⟨-, f, map, entries, h, hf⟩
  obtain ⟨line, hline⟩ := h.report hw ho
  simp [hline] at hf

/-- In a frame a name means what the frame binds it to, and else what it means around the frame. -/
theorem World.Sound.get_answer {key : Value} {name : String} (hw : w.Sound) (hf : f ∈ w.frames)
    (hi : w.heap.IsFrame f parent map entries) (hk : w.heap.nameOf key = .ok name) :
    (Frame.get f key false).answer w =
      match Frame.bound? w.heap f name with
      | some value => .ok value
      | none => (Frame.get parent key false).answer w := by
  obtain ⟨frames, hc, hl, -⟩ := hw.chain (.inr hf)
  have hsize := Nat.le_trans hl hw.frames_le
  cases hc with
  | root => exact absurd hi Heap.not_isFrame_nil
  | @frame _ parent' map' entries' frames hi' hc' =>
    obtain ⟨rfl, rfl, rfl⟩ := hi.unique hi'
    rw [(Heap.Chain.frame hi hc').get_answer hsize hk,
      hc'.get_answer (Nat.le_of_succ_le hsize) hk, Heap.resolve?_cons hi, ← hi.bound?]
    cases Frame.bound? w.heap f name <;> rfl

theorem World.Made.get_answer (hw : w.Sound) (ho : w.IsScope outer)
    (h : w.Made w' new outer map entries) (name : String) (birth : Birth) :
    (Frame.get new (.symbol name birth) false).answer w' =
      match Frame.bound? w'.heap new name with
      | some value => .ok value
      | none => (Frame.get outer (.symbol name birth) false).answer w := by
  obtain ⟨frames, hc, hl, -⟩ := hw.chain ho
  have hle := Nat.le_trans hl hw.frames_le
  have hlt := Heap.size_lt_of_fresh h.fresh h.isFrame.frame
  have haround : (Frame.get outer (.symbol name birth) false).answer w' =
      (Frame.get outer (.symbol name birth) false).answer w := by
    rw [(hc.kept h.kept).get_answer (by omega) (Heap.nameOf_symbol _ name birth),
      hc.get_answer hle (Heap.nameOf_symbol _ name birth), hc.resolve?_kept h.kept]
  have hmem : new ∈ w'.frames := h.frames ▸ Array.mem_push_self
  rw [(hw.made ho h).get_answer hmem h.isFrame (Heap.nameOf_symbol _ name birth), haround]

theorem Signature.Binds.bound?_isSome (hb : s.Binds w.heap f args) {name : String}
    (hi : w.heap.IsFrame f parent map entries) :
    (Frame.bound? w.heap f name).isSome ↔ name ∈ s.names := by
  obtain ⟨entries', hown, hkeys⟩ := hb.names
  obtain rfl := Option.some.inj (hi.own?.symm.trans hown)
  rw [hi.bound?_isSome, Heap.mem_names, hkeys]
  simp [List.mem_eraseDups]

/-- A list of parameters that is accepted declares a signature. A call with as many arguments as
that accepts makes exactly one frame and changes no object that was there. The frame lies in the
given one and binds the names of the signature to the arguments. The names have these values there,
and every other name has the outcome that it has in the frame around. -/
theorem World.Reachable.extend_binds (hw : w.Reachable) (ho : w.IsScope outer)
    (hs : w.heap.CarriesSymbols binds) (hl : w.heap.paramList binds = .ok list) :
    ∃ s : Signature, w.heap.Declares binds s ∧ s.Describes list.params ∧
      ∀ exprs args, w.heap.sequenceOf exprs = .ok args → s.Accepts args.length → ∀ debug name,
        ∃ new w', Frame.extend outer binds exprs debug name w = .ok new w' ∧
          w'.frames = w.frames.push new ∧ new ∉ w.frames ∧ w.heap.Kept w'.heap ∧
          Frame.outer w'.heap new = .ok outer ∧ s.Binds w'.heap new args ∧
          (∀ name ∈ s.names, ∃ value, Frame.bound? w'.heap new name = some value ∧
            ∀ birth, (Frame.get new (.symbol name birth) false).answer w' = .ok value) ∧
          ∀ name ∉ s.names, ∀ birth, (Frame.get new (.symbol name birth) false).answer w' =
            (Frame.get outer (.symbol name birth) false).answer w := by
  have hsound := hw.sound
  obtain ⟨s, hdeclares, hd⟩ := Heap.declares_of_paramList hs hl
  refine ⟨s, hdeclares, hd, fun exprs args he ha debug name => ?_⟩
  obtain ⟨new, w', hrun, ⟨map, entries, hm⟩, hb⟩ := hsound.extend_run ho hl hd he ha debug name
  refine ⟨new, w', hrun, hm.frames, hm.not_mem hsound, hm.kept, hm.isFrame.outer, hb, ?_, ?_⟩
  · intro name hname
    obtain ⟨value, hvalue⟩ := Option.isSome_iff_exists.mp ((hb.bound?_isSome hm.isFrame).mpr hname)
    refine ⟨value, hvalue, fun birth => ?_⟩
    rw [hm.get_answer hsound ho, hvalue]
  · intro name hname birth
    have hnone : Frame.bound? w'.heap new name = none := by
      rw [← Option.not_isSome_iff_eq_none, hb.bound?_isSome hm.isFrame]
      exact hname
    rw [hm.get_answer hsound ho, hnone]

theorem World.extend_binds_listedNames : listedNames.Reachable ∧
    ∃ new w', Frame.extend (.ref 7) (.ref 8) (.ref 8) false (.str "f") listedNames = .ok new w' ∧
      (Frame.get new (.sym "a") false).answer w' = .ok (.sym "a") ∧
      (Frame.get new (.sym "x") false).answer w' = .ok (.int 1) := by
  have hscope : listedNames.IsScope (.ref 7) := .inr (by simp [listedNames_frames])
  have hlist : listedNames.heap.paramList (.ref 8) =
      .ok (.parsed [.positional "a", .rest "r"]) := rfl
  obtain ⟨s, -, hd, hcall⟩ :=
    Reachable.extend_binds listedNames_reachable hscope (by decide) hlist
  obtain rfl : s = ⟨["a"], some "r"⟩ := hd.unique (by decide)
  obtain ⟨new, w', hrun, -, -, -, -, hb, hnames, hothers⟩ :=
    hcall (.ref 8) [.sym "a", .sym "&", .sym "r"] rfl (by decide) false (.str "f")
  obtain ⟨value, hvalue, hbound⟩ := hb.positional 0 "a" rfl (by decide) (by
    intro j hj
    simp [List.getElem?_eq_none (show ["a"].length ≤ j from hj)])
  obtain ⟨value', hbound', hget⟩ := hnames "a" (by decide)
  obtain rfl := Option.some.inj (hbound.symm.trans hbound')
  obtain rfl := Option.some.inj hvalue
  exact ⟨listedNames_reachable, new, w', hrun, hget none, hothers "x" (by decide) none⟩

end LexicalEnv
