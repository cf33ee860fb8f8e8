import LexicalEnv.Proofs.Call

/-!
# Lookup

A search goes outwards to the nearest frame that binds the name, and says how
many frames it visited. A lookup answers what that frame binds the name to. Both
are what the recursion says: a frame's own binding, else what is found around it
(`Reachable.find_get`).
-/

namespace LexicalEnv

namespace Frame

/-- Going outwards from `env`, `g` is the first frame that binds the name. -/
def Nearest (h : Heap) (env : Value) (name : String) (g : Value) : Prop :=
  ∃ inner outer, h.Chain env (inner ++ g :: outer) ∧ (bound? h g name).isSome ∧
    ∀ f ∈ inner, bound? h f name = none

def Unbound (h : Heap) (env : Value) (name : String) : Prop :=
  ∃ frames, h.Chain env frames ∧ ∀ f ∈ frames, bound? h f name = none

/-- Resolution by recursion: the frame and the value of its own binding, else what the frame around
it resolves the name to. -/
inductive Resolves (h : Heap) (name : String) : Value → Option (Value × Value) → Prop
  | root : Resolves h name .nil none
  | own {f value : Value} (hb : bound? h f name = some value) : Resolves h name f (some (f, value))
  | outward {f parent : Value} {r : Option (Value × Value)} (hb : bound? h f name = none)
    (ho : outer h f = .ok parent) (hr : Resolves h name parent r) : Resolves h name f r

def locate? (h : Heap) (name : String) (frames : List Value) : Option (Value × Value) :=
  frames.findSome? fun f => (bound? h f name).map (Prod.mk f)

theorem bound?_nil (h : Heap) (name : String) : bound? h .nil name = none := rfl

theorem locate?_fst (h : Heap) (name : String) (frames : List Value) :
    (locate? h name frames).map Prod.fst = frames.find? fun f => (bound? h f name).isSome := by
  induction frames with
  | nil => rfl
  | cons f frames ih =>
    simp only [locate?, List.findSome?_cons, List.find?_cons] at ih ⊢
    cases bound? h f name with
    | some value => rfl
    | none => exact ih

theorem locate?_snd (h : Heap) (name : String) (frames : List Value) :
    (locate? h name frames).map Prod.snd = resolve? h name frames := by
  simp [locate?, resolve?, List.map_findSome?, Function.comp_def]

theorem Resolves.unique {h : Heap} {name : String} {env : Value} {r r' : Option (Value × Value)}
    (hr : Resolves h name env r) (hr' : Resolves h name env r') : r = r' := by
  induction hr with
  | root =>
    cases hr' with
    | root => rfl
    | own hb => cases hb
    | outward _ ho => cases ho
  | own hb =>
    cases hr' with
    | root => cases hb
    | own hb' => rw [Option.some.inj (hb.symm.trans hb')]
    | outward hb' => simp [hb] at hb'
  | outward hb ho _ ih =>
    cases hr' with
    | root => cases ho
    | own hb' => simp [hb] at hb'
    | outward _ ho' hr' =>
      obtain rfl := Except.ok.inj (ho.symm.trans ho')
      exact ih hr'

end Frame

namespace Heap

variable {h : Heap} {env g : Value} {frames inner outer : List Value} {name : String}

theorem Chain.from_mem (hc : h.Chain env (inner ++ g :: outer)) : h.Chain g (g :: outer) := by
  induction inner generalizing env with
  | nil =>
    cases hc with
    | frame hf hc => exact .frame hf hc
  | cons f inner ih =>
    cases hc with
    | frame _ hc => exact ih hc

theorem Chain.nearest_iff (hc : h.Chain env frames) :
    Frame.Nearest h env name g ↔
      frames.find? (fun f => (Frame.bound? h f name).isSome) = some g := by
  rw [List.find?_eq_some_iff_append]
  constructor
  · rintro ⟨inner, outer, hc', hg, hn⟩
    obtain rfl := hc.unique hc'
    exact ⟨hg, inner, outer, rfl, fun f hf => by simp [hn f hf]⟩
  · rintro ⟨hg, inner, outer, rfl, hn⟩
    exact ⟨inner, outer, hc, hg, fun f hf => by simpa using hn f hf⟩

theorem Chain.unbound_iff (hc : h.Chain env frames) :
    Frame.Unbound h env name ↔
      frames.find? (fun f => (Frame.bound? h f name).isSome) = none := by
  rw [List.find?_eq_none]
  constructor
  · rintro ⟨frames', hc', hn⟩ f hf
    obtain rfl := hc.unique hc'
    simp [hn f hf]
  · intro hn
    exact ⟨frames, hc, fun f hf => by simpa using hn f hf⟩

theorem Chain.unbound_iff_resolve? (hc : h.Chain env frames) :
    Frame.Unbound h env name ↔ Frame.resolve? h name frames = none := by
  rw [Frame.resolve?, List.findSome?_eq_none_iff]
  constructor
  · rintro ⟨frames', hc', hn⟩
    rwa [hc.unique hc']
  · exact fun hn => ⟨frames, hc, hn⟩

theorem Chain.exists_nearest_iff (hc : h.Chain env frames) :
    (∃ f, Frame.Nearest h env name f) ↔ (Frame.resolve? h name frames).isSome := by
  rw [← Frame.locate?_snd, Option.isSome_map, ← Option.isSome_map (f := Prod.fst),
    Frame.locate?_fst, Option.isSome_iff_exists]
  exact exists_congr fun f => hc.nearest_iff

theorem Chain.resolves (hc : h.Chain env frames) (name : String) :
    Frame.Resolves h name env (Frame.locate? h name frames) := by
  induction hc with
  | root => exact .root
  | @frame f parent map entries frames hf _ ih =>
    rw [Frame.locate?, List.findSome?_cons]
    cases hb : Frame.bound? h f name with
    | some value => exact .own hb
    | none => exact .outward hb hf.outer ih

end Heap

-- ---------------------------------------------------------------------------
-- Search and lookup along a chain
-- ---------------------------------------------------------------------------

section
variable {w : World} {env key g value : Value} {frames : List Value} {name : String}

theorem Heap.Chain.find_run (hc : w.heap.Chain env frames) (hl : frames.length ≤ w.heap.size)
    (hk : w.heap.nameOf key = .ok name) (debug : Bool) :
    ∃ s, Frame.search w.heap env name = .ok s ∧
      Frame.find env key debug w =
        .ok ((Frame.locate? w.heap name frames).elim .nil Prod.fst) (w.traced debug s name) := by
  have hname : Action.read (·.nameOf key) w = .ok name w := Action.run_read hk
  obtain ⟨s, hsearch, hfound, hrun⟩ := hc.searchTraced_run hl name debug
  refine ⟨s, hsearch, ?_⟩
  rw [← Frame.locate?_fst] at hfound
  simp only [Frame.find, Action.run_bind, hname, hrun, hfound]
  cases Frame.locate? w.heap name frames <;> rfl

theorem Heap.Chain.find_answer (hc : w.heap.Chain env frames) (hl : frames.length ≤ w.heap.size)
    (hk : w.heap.nameOf key = .ok name) :
    (Frame.find env key false).answer w =
      .ok ((Frame.locate? w.heap name frames).elim .nil Prod.fst) := by
  obtain ⟨s, -, hrun⟩ := hc.find_run hl hk false
  rw [Action.answer, hrun]

theorem Heap.Chain.get_located (hc : w.heap.Chain env frames) (hl : frames.length ≤ w.heap.size)
    (hk : w.heap.nameOf key = .ok name) :
    (Frame.get env key false).answer w =
      (Frame.locate? w.heap name frames).elim (.error (.unboundName name)) fun found =>
        .ok found.2 := by
  rw [hc.get_answer hl hk, ← Frame.locate?_snd]
  cases Frame.locate? w.heap name frames <;> rfl

theorem Heap.Chain.located (hc : w.heap.Chain env frames)
    (hf : Frame.locate? w.heap name frames = some (g, value)) :
    Frame.Nearest w.heap env name g ∧ Frame.bound? w.heap g name = some value ∧ g ≠ .nil := by
  have hfind := Frame.locate?_fst w.heap name frames
  have hvalue := Frame.locate?_snd w.heap name frames
  rw [hf] at hfind hvalue
  rw [← Heap.find?_bind_bound?, ← hfind] at hvalue
  have hbound : Frame.bound? w.heap g name = some value := hvalue.symm
  refine ⟨hc.nearest_iff.mpr hfind.symm, hbound, ?_⟩
  rintro rfl
  cases hbound

theorem Heap.Chain.find_traced (hc : w.heap.Chain env frames) (hl : frames.length ≤ w.heap.size)
    (hk : w.heap.nameOf key = .ok name) (hg : Frame.Nearest w.heap env name g) :
    ∃ depth depth', Frame.depth w.heap env = .ok depth ∧ Frame.depth w.heap g = .ok depth' ∧
      Frame.find env key true w = .ok g (w.traced true ⟨some g, depth - depth' + 1⟩ name) := by
  have hfound := hc.nearest_iff.mp hg
  have hlocated := Frame.locate?_fst w.heap name frames
  obtain ⟨inner, outer, hc', hsome, hn⟩ := hg
  obtain rfl := hc.unique hc'
  have hlen : (inner ++ g :: outer).length = inner.length + (outer.length + 1) := by simp
  have hidx : (inner ++ g :: outer).findIdx (fun f => (Frame.bound? w.heap f name).isSome) =
      inner.length := by
    have hinner : inner.findIdx (fun f => (Frame.bound? w.heap f name).isSome) = inner.length :=
      List.findIdx_eq_length.mpr fun f hf => by simp [hn f hf]
    simp [List.findIdx_append, hinner, List.findIdx_cons, hsome]
  have hvisited : min (inner.length + 1) (inner ++ g :: outer).length =
      (inner ++ g :: outer).length - (g :: outer).length + 1 := by
    rw [hlen, List.length_cons]
    omega
  refine ⟨_, _, hc.depth hl, hc.from_mem.depth (by rw [List.length_cons]; omega), ?_⟩
  obtain ⟨s, hsearch, hrun⟩ := hc.find_run hl hk true
  rw [hc.search hl, hfound, hidx, hvisited] at hsearch
  obtain rfl := Except.ok.inj hsearch
  rw [hrun]
  rw [hfound] at hlocated
  obtain ⟨found, hl, hfst⟩ := Option.map_eq_some_iff.mp hlocated
  rw [hl, Option.elim_some, hfst]

theorem Heap.Chain.find_traced_unbound (hc : w.heap.Chain env frames)
    (hl : frames.length ≤ w.heap.size) (hk : w.heap.nameOf key = .ok name)
    (hu : Frame.Unbound w.heap env name) :
    ∃ depth, Frame.depth w.heap env = .ok depth ∧
      Frame.find env key true w = .ok .nil (w.traced true ⟨none, depth⟩ name) := by
  have hfound := hc.unbound_iff.mp hu
  have hlocated := Frame.locate?_fst w.heap name frames
  have hidx : frames.findIdx (fun f => (Frame.bound? w.heap f name).isSome) = frames.length :=
    List.findIdx_eq_length.mpr fun f hf => by simpa using List.find?_eq_none.mp hfound f hf
  refine ⟨_, hc.depth hl, ?_⟩
  obtain ⟨s, hsearch, hrun⟩ := hc.find_run hl hk true
  rw [hc.search hl, hfound, hidx, Nat.min_eq_right (Nat.le_succ _)] at hsearch
  obtain rfl := Except.ok.inj hsearch
  rw [hfound, Option.map_eq_none_iff] at hlocated
  rw [hrun, hlocated, Option.elim_none]

end

namespace World

variable {w : World} {env key : Value} {name : String}

/-- A search answers the nearest frame that binds the name, and nothing exactly if none does. A
lookup answers what the frame found binds the name to, and fails exactly if none is found, with the
fault that names the name. Both do what resolution by recursion says. The trace of a search counts
the frames from the start up to the one that is found, or all if none is. -/
theorem Reachable.find_get (hw : w.Reachable) (he : w.IsScope env)
    (hk : w.heap.nameOf key = .ok name) :
    (∀ g, g ≠ .nil → ((Frame.find env key false).answer w = .ok g ↔
        Frame.Nearest w.heap env name g)) ∧
      ((Frame.find env key false).answer w = .ok .nil ↔ Frame.Unbound w.heap env name) ∧
      (∀ value, (Frame.get env key false).answer w = .ok value ↔
        ∃ g, (Frame.find env key false).answer w = .ok g ∧
          Frame.bound? w.heap g name = some value) ∧
      (∀ fault, (Frame.get env key false).answer w = .error fault ↔
        (Frame.find env key false).answer w = .ok .nil ∧ fault = .unboundName name) ∧
      (∃ r, Frame.Resolves w.heap name env r ∧ (∀ r', Frame.Resolves w.heap name env r' → r' = r) ∧
        (Frame.find env key false).answer w = .ok (r.elim .nil Prod.fst) ∧
        (Frame.get env key false).answer w =
          r.elim (.error (.unboundName name)) fun found => .ok found.2) ∧
      (∀ g, g ≠ .nil → (Frame.find env key false).answer w = .ok g → ∃ depth depth',
        Frame.depth w.heap env = .ok depth ∧ Frame.depth w.heap g = .ok depth' ∧
          Frame.find env key true w = .ok g (w.traced true ⟨some g, depth - depth' + 1⟩ name)) ∧
      ((Frame.find env key false).answer w = .ok .nil → ∃ depth,
        Frame.depth w.heap env = .ok depth ∧
          Frame.find env key true w = .ok .nil (w.traced true ⟨none, depth⟩ name)) := by
  have hs := hw.sound
  obtain ⟨frames, hc, hl, -⟩ := hs.chain he
  have hsize := Nat.le_trans hl hs.frames_le
  have hfind := hc.find_answer hsize hk
  have hget := hc.get_located hsize hk
  have hresolves := hc.resolves name
  have hfound (g : Value) (hg : g ≠ .nil) : (Frame.find env key false).answer w = .ok g ↔
      Frame.Nearest w.heap env name g := by
    rw [hfind, hc.nearest_iff, ← Frame.locate?_fst]
    cases Frame.locate? w.heap name frames <;> simp [Ne.symm hg]
  have hmissing : (Frame.find env key false).answer w = .ok .nil ↔
      Frame.Unbound w.heap env name := by
    rw [hc.unbound_iff, ← Frame.locate?_fst, hfind]
    cases hlocated : Frame.locate? w.heap name frames with
    | none => simp
    | some found => simpa using (hc.located hlocated).2.2
  refine ⟨hfound, hmissing, fun value => ?_, fun fault => ?_,
    ⟨_, hresolves, fun r' hr' => hr'.unique hresolves, hfind, hget⟩,
    fun g hg hanswer => hc.find_traced hsize hk ((hfound g hg).mp hanswer),
    fun hanswer => hc.find_traced_unbound hsize hk (hmissing.mp hanswer)⟩
  · rw [hget, hfind]
    cases hlocated : Frame.locate? w.heap name frames with
    | none => simp [Frame.bound?_nil]
    | some found =>
      have hbound := (hc.located hlocated).2.1
      simp [hbound]
  · rw [hget, hfind]
    cases hlocated : Frame.locate? w.heap name frames with
    | none => simp [eq_comm]
    | some found =>
      have hne := (hc.located hlocated).2.2
      simp [hne]

theorem find_get_twoFrames : twoFrames.Reachable ∧ twoFrames.IsScope (.ref 7) ∧
    twoFrames.heap.nameOf (.str "x") = .ok "x" ∧
    (Frame.find (.ref 7) (.str "x") false).answer twoFrames = .ok (.ref 5) ∧
    Frame.Nearest twoFrames.heap (.ref 7) "x" (.ref 5) ∧
    (Frame.find (.ref 7) (.str "y") false).answer twoFrames = .ok .nil ∧
    (Frame.get (.ref 7) (.str "y") false).answer twoFrames = .error (.unboundName "y") := by
  have hscope : twoFrames.IsScope (.ref 7) := .inr (by simp [twoFrames_frames])
  have hx : twoFrames.heap.nameOf (.str "x") = .ok "x" := rfl
  have hy : twoFrames.heap.nameOf (.str "y") = .ok "y" := rfl
  have hfind : (Frame.find (.ref 7) (.str "x") false).answer twoFrames = .ok (.ref 5) := rfl
  have hnil : (Frame.find (.ref 7) (.str "y") false).answer twoFrames = .ok .nil := rfl
  obtain ⟨hfound, -⟩ := Reachable.find_get twoFrames_reachable hscope hx
  obtain ⟨-, -, -, hunbound, -⟩ := Reachable.find_get twoFrames_reachable hscope hy
  exact ⟨twoFrames_reachable, hscope, hx, hfind, (hfound (.ref 5) (by simp)).mp hfind, hnil,
    (hunbound _).mpr ⟨hnil, rfl⟩⟩

end World

end LexicalEnv
