import LexicalEnv.Proofs.Call

/-!
# Seeing a set name

Setting a name in a frame shows in that frame and in those nested in it, down to
where a nearer frame binds the name itself. No other lookup in any frame notices
(`Reachable.get_set`).
-/

namespace LexicalEnv

/-- Going outwards from `f` one comes to `e` before any other frame that binds the name. -/
def Frame.Unshadowed (h : Heap) (e f : Value) (name : String) : Prop :=
  ∃ outer inner, chain h f = .ok (outer ++ e :: inner) ∧ ∀ g ∈ inner, bound? h g name = none

section
variable {α β : Type} {F F' : α → Option β} {e : α} {v : β} {l : List α}

theorem findSome?_of_update {inner outer : List α} (he : F' e = some v)
    (hF : ∀ a ∈ inner, a ≠ e → F' a = F a) (hn : ∀ a ∈ inner, F a = none) :
    (inner ++ e :: outer).findSome? F' = some v := by
  induction inner with
  | nil => simp [he]
  | cons a inner ih =>
    have hrest := ih (fun b hb => hF b (List.mem_cons_of_mem _ hb))
      fun b hb => hn b (List.mem_cons_of_mem _ hb)
    rw [List.cons_append, List.findSome?_cons]
    by_cases ha : a = e
    · rw [ha, he]
    · rw [hF a List.mem_cons_self ha, hn a List.mem_cons_self, hrest]

theorem findSome?_congr (hF : ∀ a ∈ l, F' a = F a) : l.findSome? F' = l.findSome? F := by
  induction l with
  | nil => rfl
  | cons a l ih =>
    rw [List.findSome?_cons, List.findSome?_cons, hF a List.mem_cons_self,
      ih fun b hb => hF b (List.mem_cons_of_mem _ hb)]

theorem findSome?_eq_of_update (hF : ∀ a ∈ l, a ≠ e → F' a = F a)
    (hn : ¬ ∃ inner outer, l = inner ++ e :: outer ∧ ∀ a ∈ inner, F a = none) :
    l.findSome? F' = l.findSome? F := by
  induction l with
  | nil => rfl
  | cons a l ih =>
    have ha : a ≠ e := fun ha => hn ⟨[], l, by rw [ha, List.nil_append], by simp⟩
    rw [List.findSome?_cons, List.findSome?_cons, hF a List.mem_cons_self ha]
    cases hv : F a with
    | some w => rfl
    | none =>
      refine ih (fun b hb => hF b (List.mem_cons_of_mem _ hb)) ?_
      rintro ⟨inner, outer, rfl, hinner⟩
      exact hn ⟨a :: inner, outer, rfl, List.forall_mem_cons.mpr ⟨hv, hinner⟩⟩

end

theorem Heap.Chain.unshadowed_iff {h : Heap} {e f : Value} {frames : List Value} {name : String}
    (hc : h.Chain f frames) (hl : frames.length ≤ h.size) :
    Frame.Unshadowed h e f name ↔
      ∃ inner outer, frames = inner ++ e :: outer ∧ ∀ g ∈ inner, Frame.bound? h g name = none := by
  simp only [Frame.Unshadowed, hc.chain_eq hl, Except.ok.injEq]
  constructor
  · rintro ⟨outer, inner, he, hn⟩
    refine ⟨inner.reverse, outer.reverse, ?_, by simpa using hn⟩
    rw [← List.reverse_reverse frames, he]
    simp
  · rintro ⟨inner, outer, rfl, hn⟩
    exact ⟨outer.reverse, inner.reverse, by simp, by simpa using hn⟩

namespace World

variable {w w' : World} {e f parent map key value : Value} {entries : Entries} {name : String}
  {frames : List Value}

theorem Written.isFrame (hw : w.Sound) (he : e ∈ w.frames)
    (hi : w.heap.IsFrame e parent map entries)
    (h : w.Written w' map entries name value) {g parent' map' : Value} {entries' : Entries}
    (hg : g ∈ w.frames) (hig : w.heap.IsFrame g parent' map' entries') (hne : g ≠ e) :
    w'.heap.IsFrame g parent' map' entries' := by
  refine h.isFrame_of_ne hi hig ?_
  rintro rfl
  exact hne (hw.apart g hg e he _ _ _ _ _ hig hi)

theorem Written.chain (hw : w.Sound) (he : e ∈ w.frames) (hi : w.heap.IsFrame e parent map entries)
    (h : w.Written w' map entries name value) (hc : w.heap.Chain f frames)
    (hm : ∀ g ∈ frames, g ∈ w.frames) : w'.heap.Chain f frames := by
  have heffect : w.Effect w' := .written he hi h
  induction hc with
  | root => exact .root
  | frame hg _ ih =>
    obtain ⟨_, hg'⟩ := heffect.isFrame hw (hm _ List.mem_cons_self) hg
    exact .frame hg' (ih fun g hg => hm g (List.mem_cons_of_mem _ hg))

theorem Written.bound?_self (hi : w.heap.IsFrame e parent map entries)
    (h : w.Written w' map entries name value) (other : String) :
    Frame.bound? w'.heap e other =
      if other = name then some value else Frame.bound? w.heap e other := by
  rw [(h.isFrame_self hi).bound?, hi.bound?, Value.sym, Value.sym, Heap.find?_insert_symbol,
    w'.heap.find?_symbol w.heap]

theorem Written.bound?_of_ne (hw : w.Sound) (he : e ∈ w.frames)
    (hi : w.heap.IsFrame e parent map entries) (h : w.Written w' map entries name value) {g : Value}
    (hg : g ∈ w.frames) (hne : g ≠ e) (other : String) :
    Frame.bound? w'.heap g other = Frame.bound? w.heap g other := by
  obtain ⟨_, _, _, hig, -⟩ := hw.isFrame hg
  rw [(h.isFrame hw he hi hg hig hne).bound?, hig.bound?, Value.sym, w'.heap.find?_symbol w.heap]

theorem Written.resolve? (hw : w.Sound) (he : e ∈ w.frames)
    (hi : w.heap.IsFrame e parent map entries) (h : w.Written w' map entries name value)
    (hc : w.heap.Chain f frames) (hm : ∀ g ∈ frames, g ∈ w.frames)
    (hl : frames.length ≤ w.heap.size) (other : String) :
    (other = name → Frame.Unshadowed w.heap e f name →
      Frame.resolve? w'.heap other frames = some value) ∧
    (¬ (other = name ∧ Frame.Unshadowed w.heap e f name) →
      Frame.resolve? w'.heap other frames = Frame.resolve? w.heap other frames) := by
  have hother : ∀ g ∈ frames, g ≠ e →
      Frame.bound? w'.heap g other = Frame.bound? w.heap g other :=
    fun g hg hne => h.bound?_of_ne hw he hi (hm g hg) hne other
  have hself := h.bound?_self hi other
  rw [hc.unshadowed_iff hl]
  constructor
  · rintro rfl ⟨inner, outer, rfl, hn⟩
    rw [if_pos rfl] at hself
    exact findSome?_of_update hself (fun g hg => hother g (List.mem_append_left _ hg)) hn
  · intro hns
    by_cases hname : other = name
    · subst hname
      exact findSome?_eq_of_update hother fun hu => hns ⟨rfl, hu⟩
    · rw [if_neg hname] at hself
      refine findSome?_congr fun g hg => ?_
      by_cases hge : g = e
      · rw [hge, hself]
      · exact hother g hg hge

/-- Setting a name returns the value, and then the name has it in every frame from which the way
outwards comes to `e` before another frame that binds the name. Every other lookup has the outcome
that it had. In the map of `e` a bound name keeps its place and a new one goes last; all other
entries, maps and frames stay as they are. -/
theorem Reachable.get_set (hw : w.Reachable) (he : e ∈ w.frames)
    (hk : w.heap.nameOf key = .ok name) (value : Value) :
    ∃ w', Frame.set e key value false w = .ok value w' ∧ w'.frames = w.frames ∧
      (∀ f ∈ w.frames, ∀ other birth,
        (other = name → Frame.Unshadowed w.heap e f name →
          (Frame.get f (.symbol other birth) false).answer w' = .ok value) ∧
        (¬ (other = name ∧ Frame.Unshadowed w.heap e f name) →
          (Frame.get f (.symbol other birth) false).answer w' =
            (Frame.get f (.symbol other birth) false).answer w)) ∧
      (∃ entries, Frame.own? w.heap e = some entries ∧
        ((∃ front k old back, entries = front ++ (k, old) :: back ∧ k.symbol? = some name ∧
            Frame.own? w'.heap e = some (front ++ (k, value) :: back)) ∨
          (Frame.bound? w.heap e name = none ∧
            Frame.own? w'.heap e = some (entries ++ [(.sym name, value)])))) ∧
      (∀ f ∈ w.frames, f ≠ e → Frame.own? w'.heap f = Frame.own? w.heap f) ∧
      ∀ f ∈ w.frames, Frame.outer w'.heap f = Frame.outer w.heap f ∧
        Frame.bindings w'.heap f = Frame.bindings w.heap f := by
  have hs := hw.sound
  obtain ⟨parent, map, entries, hi, -⟩ := hs.isFrame he
  obtain ⟨a, rfl, ha, hrun⟩ := hi.setNamed_run name value
  have hwritten := written_overwrite ha entries name value
  have hname : Action.read (·.nameOf key) w = .ok name w := Action.run_read hk
  refine ⟨{ w with heap := w.heap.overwrite a (.table (w.heap.insert entries (.sym name) value)) },
    ?_, rfl, fun f hf other birth => ?_, ⟨entries, hi.own?, ?_⟩, fun f hf hne => ?_, fun f hf => ?_⟩
  · simp only [Frame.set, Action.run_bind, hname, hrun]
    rfl
  · obtain ⟨frames, hc, hl, hm⟩ := hs.chain (.inr hf)
    have hsize := Nat.le_trans hl hs.frames_le
    have hc' := hwritten.chain hs he hi hc hm
    have hget := hc.get_answer hsize (w.heap.nameOf_symbol other birth)
    have hget' := hc'.get_answer (by simpa using hsize) (Heap.nameOf_symbol _ other birth)
    obtain ⟨hnew, hold⟩ := hwritten.resolve? hs he hi hc hm hsize other
    refine ⟨fun ho hu => ?_, fun hu => ?_⟩
    · rw [hget', hnew ho hu]
    · rw [hget', hget, hold hu]
  · rw [(hwritten.isFrame_self hi).own?, hi.bound?, Value.sym, Heap.find?_eq_none_iff]
    rcases w.heap.insert_symbol_cases entries name none value with
      ⟨front, k, old, back, hentries, hkey, hins⟩ | ⟨hn, hins⟩
    · exact .inl ⟨front, k, old, back, hentries, hkey, congrArg some hins⟩
    · exact .inr ⟨hn, congrArg some hins⟩
  · obtain ⟨_, _, _, hif, -⟩ := hs.isFrame hf
    rw [(hwritten.isFrame hs he hi hf hif hne).own?, hif.own?]
  · obtain ⟨_, _, _, hif, -⟩ := hs.isFrame hf
    have heffect : w.Effect _ := .written he hi hwritten
    obtain ⟨_, hif'⟩ := heffect.isFrame hs hf hif
    rw [hif'.outer, hif.outer, hif'.bindings, hif.bindings]
    exact ⟨rfl, rfl⟩

theorem get_set_twoFrames : twoFrames.Reachable ∧ Value.ref 5 ∈ twoFrames.frames ∧
    ∃ w', Frame.set (.ref 5) (.str "x") (.int 2) false twoFrames = .ok (.int 2) w' ∧
      (Frame.get (.ref 7) (.sym "x") false).answer w' = .ok (.int 2) := by
  have houter : Value.ref 5 ∈ twoFrames.frames := by simp [twoFrames_frames]
  have hinner : Value.ref 7 ∈ twoFrames.frames := by simp [twoFrames_frames]
  have hkey : twoFrames.heap.nameOf (.str "x") = .ok "x" := rfl
  have hseen : Frame.Unshadowed twoFrames.heap (.ref 5) (.ref 7) "x" :=
    ⟨[], [.ref 7], rfl, by decide⟩
  obtain ⟨w', hset, -, hget, -⟩ := Reachable.get_set twoFrames_reachable houter hkey (.int 2)
  exact ⟨twoFrames_reachable, houter, w', hset, (hget (.ref 7) hinner "x" none).1 rfl hseen⟩

end World

end LexicalEnv
