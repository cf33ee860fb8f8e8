import LexicalEnv.Proofs.Lookup
import Mathlib.Data.List.Nodup

/-!
# What a snapshot lists

A snapshot reads the maps of a chain from the root inwards and overwrites, a
lookup goes outwards and stops at the first hit. They agree: the snapshot lists
the names that can be looked up, each once, with the values that a lookup
answers, in the order in which they first occur (`Reachable.snapshot_lists`).
-/

namespace LexicalEnv

namespace Entries

variable {entries : Entries}

def texts (entries : Entries) : Entries :=
  entries.map fun e => (e.1.symbol?.elim e.1 .str, e.2)

theorem texts_keys (hs : ∀ e ∈ entries, ∃ name birth, e.1 = .symbol name birth) :
    (texts entries).map Prod.fst = (names entries).map .str := by
  induction entries with
  | nil => rfl
  | cons e rest ih =>
    rw [List.forall_mem_cons] at hs
    obtain ⟨⟨name, birth, he⟩, hrest⟩ := hs
    simpa [texts, names, he] using ih hrest

theorem find?_texts (hs : ∀ e ∈ entries, ∃ name birth, e.1 = .symbol name birth) (h h' : Heap)
    (name : String) (birth : Birth) :
    h.find? (texts entries) (.text name birth) = h'.find? entries (.sym name) := by
  induction entries with
  | nil => rfl
  | cons e rest ih =>
    rw [List.forall_mem_cons] at hs
    obtain ⟨key, value⟩ := e
    obtain ⟨⟨other, birth', rfl⟩, hrest⟩ := hs
    have htail := ih hrest
    simp only [texts, Value.sym] at htail
    simp [texts, Heap.find?, htail]

theorem insert_texts (hs : ∀ e ∈ entries, ∃ name birth, e.1 = .symbol name birth) (h : Heap)
    (name : String) (birth : Birth) (value : Value) :
    h.insert (texts entries) (.str name) value =
      texts (h.insert entries (.symbol name birth) value) := by
  induction entries with
  | nil => rfl
  | cons e rest ih =>
    rw [List.forall_mem_cons] at hs
    obtain ⟨key, old⟩ := e
    obtain ⟨⟨other, birth', rfl⟩, hrest⟩ := hs
    have htail := ih hrest
    simp only [texts, Value.str] at htail
    by_cases hn : other = name
    · simp [texts, Heap.insert, hn]
    · simp [texts, Heap.insert, hn, htail]

end Entries

-- ---------------------------------------------------------------------------
-- Reading maps one over the other
-- ---------------------------------------------------------------------------

def Frame.layers (h : Heap) (frames : List Value) : Entries :=
  frames.flatMap fun f => (own? h f).getD []

/-- The entries that a snapshot collects from some frames, the first of which is the root. -/
def Frame.overlaid (h : Heap) (frames : List Value) : Entries := h.bindAll [] (layers h frames)

namespace Heap

variable {h : Heap} {f parent map env : Value} {entries visible bindings : Entries}
  {frames : List Value} {name : String}

theorem addVisible_texts (hv : Entries.Named visible)
    (hs : ∀ e ∈ bindings, ∃ name birth, e.1 = .symbol name birth) :
    bindings.foldlM (Frame.addVisible h) (Entries.texts visible) =
      .ok (Entries.texts (h.bindAll visible bindings)) := by
  induction bindings generalizing visible with
  | nil => rfl
  | cons e rest ih =>
    rw [List.forall_mem_cons] at hs
    obtain ⟨key, value⟩ := e
    obtain ⟨⟨name, birth, rfl⟩, hrest⟩ := hs
    have hadd : Frame.addVisible h (Entries.texts visible) (.symbol name birth, value) =
        .ok (Entries.texts (h.insert visible (.symbol name birth) value)) := by
      rw [← Entries.insert_texts hv.symbols]
      rfl
    rw [List.foldlM_cons, hadd]
    exact ih (hv.insert h name birth value) hrest

theorem IsFrame.addFrame (hf : h.IsFrame f parent map entries) (hv : Entries.Named visible) :
    Frame.addFrame h (Entries.texts visible) f =
      .ok (Entries.texts (h.bindAll visible entries)) := by
  have hitems : BindingMap.items h map = .ok entries := by
    simp [BindingMap.items, entries?, hf.table, Obj.entries?, pure, Except.pure]
  simp only [Frame.addFrame, hf.bindings, hitems, bind, Except.bind]
  exact addVisible_texts hv hf.named.symbols

theorem IsFrame.overlaid_append (hf : h.IsFrame f parent map entries) (frames : List Value) :
    Frame.overlaid h (frames ++ [f]) = h.bindAll (Frame.overlaid h frames) entries := by
  simp [Frame.overlaid, Frame.layers, hf.own?, bindAll_append]

theorem Chain.overlaid_named (hc : h.Chain env frames) :
    Entries.Named (Frame.overlaid h frames.reverse) := by
  induction hc with
  | root => exact Entries.named_nil
  | frame hf _ ih =>
    rw [List.reverse_cons, hf.overlaid_append]
    exact bindAll_named ih hf.named.symbols

theorem Chain.foldlM_addFrame (hc : h.Chain env frames) :
    frames.reverse.foldlM (Frame.addFrame h) [] =
      .ok (Entries.texts (Frame.overlaid h frames.reverse)) := by
  induction hc with
  | root => rfl
  | @frame f parent map entries frames hf hc ih =>
    rw [List.reverse_cons, List.foldlM_append, ih, hf.overlaid_append]
    simp only [bind, Except.bind, List.foldlM_cons, hf.addFrame hc.overlaid_named]
    rfl

theorem Chain.visible_eq (hc : h.Chain env frames) (hl : frames.length ≤ h.size) :
    Frame.visible h env = .ok (Entries.texts (Frame.overlaid h frames.reverse)) := by
  simp only [Frame.visible, hc.chain_eq hl, bind, Except.bind]
  exact hc.foldlM_addFrame

/-- What is read last, coming from the root, is what is met first, going outwards. -/
theorem Chain.find?_overlaid (hc : h.Chain env frames) (h' : Heap) (name : String) :
    h'.find? (Frame.overlaid h frames.reverse) (.sym name) = Frame.resolve? h name frames := by
  rw [Value.sym, h'.find?_symbol h _ _ none none]
  induction hc with
  | root => rfl
  | frame hf _ ih =>
    rw [List.reverse_cons, hf.overlaid_append, find?_bindAll_named hf.named, ih, resolve?_cons hf,
      Value.sym]

theorem Chain.names_overlaid (hc : h.Chain env frames) :
    Entries.names (Frame.overlaid h frames.reverse) =
      (Entries.names (Frame.layers h frames.reverse)).eraseDups := by
  refine names_bindAll fun e he => ?_
  obtain ⟨f, hf, hm⟩ := List.mem_flatMap.mp he
  obtain ⟨parent, map, entries, hi⟩ := hc.mem_isFrame (List.mem_reverse.mp hf)
  rw [hi.own?, Option.getD_some] at hm
  exact hi.named.symbols e hm

end Heap

-- ---------------------------------------------------------------------------
-- Snapshots
-- ---------------------------------------------------------------------------

theorem Heap.find?_isSome_iff_mem_texts {h : Heap} {entries : Entries}
    (hs : ∀ e ∈ entries, ∃ name birth, e.1 = .symbol name birth) (name : String) (birth : Birth) :
    (h.find? (Entries.texts entries) (.text name birth)).isSome ↔
      Value.str name ∈ (Entries.texts entries).map Prod.fst := by
  rw [Entries.find?_texts hs h h, Value.sym, Heap.find?_isSome_iff, Entries.texts_keys hs]
  simp

/-- The entries are what can be looked up from `env`: the names as texts, each once, with the values
that a lookup answers, in the order in which they first occur in the maps from the root inwards. -/
structure Frame.Lists (w : World) (env : Value) (entries : Entries) : Prop where
  key : ∀ name birth, Value.str name ∈ entries.map Prod.fst ↔
    ∃ value, (get env (.text name birth) false).answer w = .ok value
  value : ∀ name birth value, w.heap.find? entries (.text name birth) = some value ↔
    (get env (.text name birth) false).answer w = .ok value
  distinct : (entries.map Prod.fst).Nodup
  order : ∃ frames, w.heap.Chain env frames ∧ entries.map Prod.fst =
    (Entries.names (layers w.heap frames.reverse)).eraseDups.map .str

theorem Heap.Chain.lists {w : World} {env : Value} {frames : List Value}
    (hc : w.heap.Chain env frames) (hl : frames.length ≤ w.heap.size) :
    Frame.Lists w env (Entries.texts (Frame.overlaid w.heap frames.reverse)) := by
  have hs := hc.overlaid_named.symbols
  have hkeys := Entries.texts_keys hs
  have hvalue (name : String) (birth : Birth) (value : Value) :
      w.heap.find? (Entries.texts (Frame.overlaid w.heap frames.reverse)) (.text name birth) =
          some value ↔ (Frame.get env (.text name birth) false).answer w = .ok value := by
    rw [hc.get_answer hl (w.heap.nameOf_text name birth), Entries.find?_texts hs _ w.heap,
      hc.find?_overlaid]
    cases Frame.resolve? w.heap name frames <;> simp
  refine ⟨fun name birth => ?_, hvalue, ?_, frames, hc, ?_⟩
  · rw [← Heap.find?_isSome_iff_mem_texts hs name birth, Option.isSome_iff_exists]
    exact exists_congr fun value => hvalue name birth value
  · rw [hkeys]
    exact hc.overlaid_named.distinct.map (fun _ _ h => (Value.text.inj h).1)
  · rw [hkeys, hc.names_overlaid]

theorem Heap.Chain.snapshot_run {w : World} {env : Value} {frames : List Value}
    (hc : w.heap.Chain env frames) (hl : frames.length ≤ w.heap.size) :
    Frame.snapshot env w = .ok (.ref w.heap.size) { w with
      heap := w.heap.add (.table (Entries.texts (Frame.overlaid w.heap frames.reverse))) } := by
  have hread : Action.read (Frame.visible · env) w = .ok _ w := Action.run_read (hc.visible_eq hl)
  simp only [Frame.snapshot, Action.run_bind, hread]
  rfl

theorem Heap.Chain.get_traced_unbound {w : World} {env key : Value} {frames : List Value}
    {name : String} (hc : w.heap.Chain env frames) (hl : frames.length ≤ w.heap.size)
    (hk : w.heap.nameOf key = .ok name) (hn : Frame.resolve? w.heap name frames = none) :
    ∃ w', Frame.get env key true w =
        .error (.unbound (.str name) (.ref w.heap.size) ("'" ++ name ++ "' not found")) w' ∧
      w'.heap = w.heap.add (.table (Entries.texts (Frame.overlaid w.heap frames.reverse))) := by
  obtain ⟨s, hrun⟩ := hc.get_eq hl hk true
  rw [hn] at hrun
  have hsnapshot := Heap.Chain.snapshot_run (w := w.traced true s name) hc hl
  refine ⟨{ w.traced true s name with heap := w.heap.add (.table _) }, hrun.trans ?_, rfl⟩
  simp only [if_true, Action.run_bind, hsnapshot, Action.run_view, Heap.unboundFault,
    Heap.display_text, Value.str]
  rfl

namespace World

variable {w : World} {env : Value}

/-- A snapshot is a new table that lists what can be looked up. So is the one in the fault of a
traced lookup, which fails for the names that are not listed and for no others. -/
theorem Reachable.snapshot_lists (hw : w.Reachable) (he : w.IsScope env) :
    ∃ entries, Frame.Lists w env entries ∧
      (∃ table w', Frame.snapshot env w = .ok table w' ∧ w.Grows w' ∧ w.heap.obj? table = none ∧
        w'.heap.obj? table = some (.table entries)) ∧
      ∀ key name, w.heap.nameOf key = .ok name →
        (Value.str name ∈ entries.map Prod.fst →
          ∃ value, (Frame.get env key true).answer w = .ok value) ∧
        (Value.str name ∉ entries.map Prod.fst → ∃ table w',
          Frame.get env key true w =
            .error (.unbound (.str name) table ("'" ++ name ++ "' not found")) w' ∧
          w'.heap.obj? table = some (.table entries)) := by
  have hs := hw.sound
  obtain ⟨frames, hc, hl, -⟩ := hs.chain he
  have hsize := Nat.le_trans hl hs.frames_le
  have hlists := hc.lists hsize
  have hlisted (name : String) : Value.str name ∈ List.map Prod.fst
      (Entries.texts (Frame.overlaid w.heap frames.reverse)) ↔
        (Frame.resolve? w.heap name frames).isSome := by
    rw [hlists.key name none, hc.get_answer hsize (w.heap.nameOf_text name none)]
    cases Frame.resolve? w.heap name frames <;> simp
  refine ⟨_, hlists, ⟨_, _, hc.snapshot_run hsize, ⟨w.heap.kept_add _, rfl, rfl⟩, ?_,
    Heap.obj?_add_self _ _⟩, fun key name hk => ⟨fun hm => ?_, fun hm => ?_⟩⟩
  · exact w.heap.obj?_size
  · obtain ⟨value, hvalue⟩ := Option.isSome_iff_exists.mp ((hlisted name).mp hm)
    obtain ⟨s, hrun⟩ := hc.get_eq hsize hk true
    rw [Action.answer, hrun, hvalue]
    exact ⟨value, rfl⟩
  · have hnone : Frame.resolve? w.heap name frames = none := by
      rw [← Option.not_isSome_iff_eq_none, ← hlisted]
      exact hm
    obtain ⟨w', hrun, hheap⟩ := hc.get_traced_unbound hsize hk hnone
    exact ⟨_, w', hrun, hheap ▸ Heap.obj?_add_self _ _⟩

theorem snapshot_lists_twoFrames : twoFrames.Reachable ∧ twoFrames.IsScope (.ref 7) ∧
    ∃ entries, Frame.Lists twoFrames (.ref 7) entries ∧ Value.str "x" ∈ entries.map Prod.fst ∧
      twoFrames.heap.find? entries (.str "x") = some (.int 1) := by
  have hscope : twoFrames.IsScope (.ref 7) := .inr (by simp [twoFrames_frames])
  have hget : (Frame.get (.ref 7) (.str "x") false).answer twoFrames = .ok (.int 1) := rfl
  obtain ⟨entries, hlists, -⟩ := Reachable.snapshot_lists twoFrames_reachable hscope
  exact ⟨twoFrames_reachable, hscope, entries, hlists, (hlists.key "x" none).mpr ⟨_, hget⟩,
    (hlists.value "x" none _).mpr hget⟩

end World

end LexicalEnv
