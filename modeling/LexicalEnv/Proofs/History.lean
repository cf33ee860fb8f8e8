import LexicalEnv.Proofs.Write

/-!
# What lasts

Along a run of calls, frames stay where they are with the maps that they have,
and an object that is no frame's map stays as it is (`Run.later`). So the names
and the parameters that were read from such objects are read again. What a frame
binds a name to is what the name was last set to there (`Run.bound?_eq`).
-/

namespace LexicalEnv

namespace World

variable {w w' w'' : World} {f parent map v : Value} {entries : Entries} {name : String}

def IsMap (w : World) (v : Value) : Prop := ∃ f ∈ w.frames, Frame.bindings w.heap f = .ok v

/-- A value that nothing can change: no reference, or an object that is no frame's map. -/
inductive Fixed (w : World) (v : Value) : Prop
  | scalar (hv : ∀ a : Nat, v ≠ .ref a)
  | object {o : Obj} (ho : w.heap.obj? v = some o) (hm : ¬ w.IsMap v)

/-- What was there before is still there, but for the entries of the maps. -/
structure Later (w w' : World) : Prop where
  frames : ∀ f ∈ w.frames, ∀ parent map entries, w.heap.IsFrame f parent map entries →
    f ∈ w'.frames ∧ ∃ entries', w'.heap.IsFrame f parent map entries'
  fixed : ∀ v, w.Fixed v → w'.Fixed v ∧ w'.heap.obj? v = w.heap.obj? v

theorem Sound.isFrame_of_isMap (hw : w.Sound) (hm : w.IsMap v) :
    ∃ f parent entries, w.heap.IsFrame f parent v entries := by
  obtain ⟨f, hf, hb⟩ := hm
  obtain ⟨parent, map, entries, hi, -⟩ := hw.isFrame hf
  obtain rfl := Except.ok.inj (hi.bindings.symm.trans hb)
  exact ⟨f, parent, entries, hi⟩

-- ---------------------------------------------------------------------------
-- One operation
-- ---------------------------------------------------------------------------

theorem Effect.mem_frames (h : w.Effect w') (hf : f ∈ w'.frames) :
    f ∈ w.frames ∨ ∃ parent map entries, w.Made w' f parent map entries := by
  cases h with
  | grown h => exact .inl (h.frames ▸ hf)
  | made _ h =>
    rw [h.frames, Array.mem_push] at hf
    rcases hf with hf | rfl
    · exact .inl hf
    · exact .inr ⟨_, _, _, h⟩
  | written _ _ h => exact .inl (h.frames ▸ hf)
  | actors _ he => exact .inl (he ▸ hf)

theorem Effect.not_isMap (hw : w.Sound) (h : w.Effect w') {o : Obj}
    (ho : w.heap.obj? v = some o) (hm : ¬ w.IsMap v) : ¬ w'.IsMap v := by
  rintro ⟨f, hf, hb⟩
  rcases h.mem_frames hf with hf | ⟨parent, map, entries, hmade⟩
  · obtain ⟨parent, map, entries, hi, -⟩ := hw.isFrame hf
    obtain ⟨entries', hi'⟩ := h.isFrame hw hf hi
    obtain rfl := Except.ok.inj (hi'.bindings.symm.trans hb)
    exact hm ⟨f, hf, hi.bindings⟩
  · -- The map of a new frame is new.
    obtain rfl := Except.ok.inj (hmade.isFrame.bindings.symm.trans hb)
    rw [hmade.freshMap] at ho
    cases ho

theorem Effect.obj? (h : w.Effect w') {o : Obj} (ho : w.heap.obj? v = some o)
    (hm : ¬ w.IsMap v) : w'.heap.obj? v = some o := by
  cases h with
  | grown h => exact h.kept v o ho
  | made _ h => exact h.kept v o ho
  | @written f _ map _ _ _ hf hi h =>
    refine h.kept v o ?_ ho
    rintro rfl
    exact hm ⟨f, hf, hi.bindings⟩
  | actors hk => exact hk v o ho

theorem Effect.later (hw : w.Sound) (h : w.Effect w') : w.Later w' := by
  refine ⟨fun f hf parent map entries hi => ⟨h.frames_subset hf, h.isFrame hw hf hi⟩, ?_⟩
  rintro v (hv | ⟨ho, hm⟩)
  · refine ⟨.scalar hv, ?_⟩
    cases v with
    | ref a => exact absurd rfl (hv a)
    | _ => rfl
  · have hobj := h.obj? ho hm
    exact ⟨.object hobj (h.not_isMap hw ho hm), hobj.trans ho.symm⟩

theorem Later.refl (w : World) : w.Later w :=
  ⟨fun _ hf _ _ entries hi => ⟨hf, entries, hi⟩, fun _ hv => ⟨hv, rfl⟩⟩

theorem Later.trans (a : w.Later w') (b : w'.Later w'') : w.Later w'' := by
  refine ⟨fun f hf parent map entries hi => ?_, fun v hv => ?_⟩
  · obtain ⟨hf', entries', hi'⟩ := a.frames f hf parent map entries hi
    exact b.frames f hf' parent map entries' hi'
  · obtain ⟨hv', ho'⟩ := a.fixed v hv
    obtain ⟨hv'', ho''⟩ := b.fixed v hv'
    exact ⟨hv'', ho''.trans ho'⟩

theorem Later.mem_frames (hw : w.Sound) (hl : w.Later w') (hf : f ∈ w.frames) : f ∈ w'.frames := by
  obtain ⟨parent, map, entries, hi, -⟩ := hw.isFrame hf
  exact (hl.frames f hf parent map entries hi).1

theorem Later.isScope (hw : w.Sound) (hl : w.Later w') (hv : w.IsScope v) : w'.IsScope v :=
  hv.imp_right (hl.mem_frames hw)

-- ---------------------------------------------------------------------------
-- Runs
-- ---------------------------------------------------------------------------

/-- Legal calls one after the other, with the settings that they make. -/
inductive Run (w : World) : List Setting → World → Prop
  | start : w.Run [] w
  | call {log : List Setting} {w' : World} (hr : w.Run log w') (c : Call) (hc : c.Legal w') :
    w.Run (log ++ (c.setting? w').toList) (c.run.after w')

def lastSet? (log : List Setting) (frame : Value) (name : String) : Option Value :=
  (log.filter fun s => s.frame = frame ∧ s.name = name).getLast?.map Setting.value

theorem lastSet?_append (log log' : List Setting) (frame : Value) (name : String) :
    lastSet? (log ++ log') frame name =
      (lastSet? log' frame name).or (lastSet? log frame name) := by
  simp [lastSet?, List.filter_append, List.getLast?_append, Option.map_or]

theorem lastSet?_eq_none {log : List Setting}
    (hn : ∀ s ∈ log, ¬ (s.frame = f ∧ s.name = name)) : lastSet? log f name = none := by
  have hfilter : log.filter (fun s => s.frame = f ∧ s.name = name) = [] :=
    List.filter_eq_nil_iff.mpr fun s hs => by simpa using hn s hs
  rw [lastSet?, hfilter]
  rfl

theorem Run.sound {log : List Setting} (hw : w.Sound) (hr : w.Run log w') : w'.Sound := by
  induction hr with
  | start => exact hw
  | call _ c hc ih => exact ih.effect (c.effect ih hc)

theorem Run.later {log : List Setting} (hw : w.Sound) (hr : w.Run log w') : w.Later w' := by
  induction hr with
  | start => exact .refl w
  | call hr c hc ih => exact ih.trans ((c.effect (hr.sound hw) hc).later (hr.sound hw))

theorem Change.bound?_eq {s : Option Setting} {a : ActorSystem} (hw : w.Sound)
    (h : w.Change s a w') (hf : f ∈ w.frames) (name : String) :
    Frame.bound? w'.heap f name =
      (lastSet? s.toList f name).or (Frame.bound? w.heap f name) := by
  obtain ⟨parent, map, entries, hi, -⟩ := hw.isFrame hf
  have hkept (hk : w.heap.Kept w'.heap) :
      Frame.bound? w'.heap f name = Frame.bound? w.heap f name := by
    rw [(hi.kept hk).bound?, hi.bound?, Value.sym, w'.heap.find?_symbol w.heap]
  cases h with
  | adds h => exact hkept h.kept
  | actors hk => exact hkept hk
  | @sets g _ _ value _ other _ hg hig h =>
    -- No two frames share a map, so a setting shows in its own frame alone.
    by_cases hgf : g = f
    · subst hgf
      rw [h.bound?_self hig]
      by_cases hn : name = other
      · simp [lastSet?, hn]
      · simp [lastSet?, hn, Ne.symm hn]
    · rw [h.bound?_of_ne hw hg hig hf (Ne.symm hgf)]
      simp [lastSet?, hgf]

/-- A frame binds a name to what the name was last set to there, else to what it was bound to
before. -/
theorem Run.bound?_eq {log : List Setting} (hw : w.Sound) (hr : w.Run log w')
    (hf : f ∈ w.frames) (name : String) :
    Frame.bound? w'.heap f name = (lastSet? log f name).or (Frame.bound? w.heap f name) := by
  induction hr with
  | start => rfl
  | @call log w' hr c hc ih =>
    have hf' := (hr.later hw).mem_frames hw hf
    rw [(c.change (hr.sound hw) hc).bound?_eq (hr.sound hw) hf', ih, lastSet?_append,
      Option.or_assoc]

end World

-- ---------------------------------------------------------------------------
-- Reading again
-- ---------------------------------------------------------------------------

namespace Heap

variable {h h' : Heap} {v : Value} {name : String}

theorem param?_congr (ho : h'.obj? v = h.obj? v) : h'.param? v = h.param? v := by
  simp only [param?, entries?, ho, Value.str, h'.find?_text h _ _ none none]

theorem Kept.param? (hk : h.Kept h') {p : Param} (hp : h.param? v = some p) :
    h'.param? v = some p := by
  obtain ⟨entries, he, -⟩ := Option.bind_eq_some_iff.mp hp
  obtain ⟨o, ho, -⟩ := Option.bind_eq_some_iff.mp he
  exact (param?_congr ((hk v o ho).trans ho.symm)).trans hp

theorem tagged?_congr (ho : h'.obj? v = h.obj? v) : h'.tagged? v = h.tagged? v := by
  simp only [tagged?, entries?, ho, Value.str, h'.find?_text h _ _ none none]

theorem items_congr (ho : h'.obj? v = h.obj? v) : h'.items v = h.items v := by
  simp only [items, ho]

theorem sequenceOf_congr (ho : h'.obj? v = h.obj? v) (ht : h.tagged? v = none) :
    h'.sequenceOf v = h.sequenceOf v := by
  simp only [sequenceOf, tagged?_congr ho, ht, entries?, ho, items_congr ho]
  cases v <;> rfl

theorem unwrap_congr (ho : h'.obj? v = h.obj? v) (wanted : String) (default : Value) :
    h'.unwrap v (.str wanted) default = h.unwrap v (.str wanted) default := by
  have htag (tag : Value) : h'.tagIs (.str wanted) tag = h.tagIs (.str wanted) tag := by
    simp [tagIs]
  simp only [unwrap, ho, tagged?_congr ho, htag]

theorem nameOf_congr (ho : h'.obj? v = h.obj? v) (hn : h.nameOf v = .ok name) :
    h'.nameOf v = .ok name := by
  obtain ⟨inner, hinner⟩ := h.unwrap_ok v "Symbol" .nil
  have hinner' : h'.unwrap v (.str "Symbol") .nil = .ok inner :=
    (unwrap_congr ho "Symbol" .nil).trans hinner
  cases v with
  | symbol => exact hn
  | _ =>
    simp only [nameOf, hinner, hinner', bind, Except.bind] at hn ⊢
    cases inner <;> first | exact hn | cases hn

end Heap

namespace World

variable {w w' : World} {v params params' : Value} {entries : Entries} {members : List Value}
  {list : ParamList} {name : String}

theorem Sound.fixed_of_obj (hw : w.Sound) {o : Obj} (ho : w.heap.obj? v = some o)
    (hn : ∀ entries, o = .table entries → ¬ Entries.Named entries) : w.Fixed v := by
  refine .object ho fun hm => ?_
  obtain ⟨f, parent, entries, hi⟩ := hw.isFrame_of_isMap hm
  exact hn entries (Option.some.inj (ho.symm.trans hi.table)) hi.named

theorem Sound.fixed_of_table (hw : w.Sound) (he : w.heap.entries? v = some entries) {text : String}
    {value : Value} (hf : w.heap.find? entries (.str text) = some value) : w.Fixed v := by
  obtain ⟨o, ho, hentries⟩ := Option.bind_eq_some_iff.mp he
  refine hw.fixed_of_obj ho ?_
  rintro entries' rfl hnamed
  obtain rfl := Option.some.inj hentries
  rw [Value.str, Heap.find?_text_of_symbols hnamed.symbols] at hf
  cases hf

theorem Sound.fixed_of_tagged? (hw : w.Sound) {type payload : Value}
    (ht : w.heap.tagged? v = some (type, payload)) : w.Fixed v := by
  obtain ⟨entries, he, ht⟩ := Option.bind_eq_some_iff.mp ht
  obtain ⟨type, hf, -⟩ := Option.bind_eq_some_iff.mp ht
  exact hw.fixed_of_table he hf

theorem Sound.fixed_of_param? (hw : w.Sound) {p : Param} (hp : w.heap.param? v = some p) :
    w.Fixed v := by
  obtain ⟨entries, he, hp⟩ := Option.bind_eq_some_iff.mp hp
  obtain ⟨name, hf, -⟩ := Option.bind_eq_some_iff.mp hp
  exact hw.fixed_of_table he hf

theorem Sound.fixed_of_nameOf (hw : w.Sound) (hn : w.heap.nameOf v = .ok name) : w.Fixed v := by
  by_cases hv : ∀ a : Nat, v ≠ .ref a
  · exact .scalar hv
  · simp only [ne_eq, not_forall, Decidable.not_not] at hv
    obtain ⟨a, rfl⟩ := hv
    cases ht : w.heap.tagged? (.ref a) with
    | some tagged => exact hw.fixed_of_tagged? ht
    | none =>
      -- What is neither tagged nor a tuple means no name.
      simp only [Heap.nameOf, Heap.unwrap, ht] at hn
      split at hn
      · exact hw.fixed_of_obj ‹_› (by simp)
      · cases hn

theorem Later.param? (hw : w.Sound) (hl : w.Later w') {p : Param}
    (hp : w.heap.param? v = some p) : w'.heap.param? v = some p :=
  (Heap.param?_congr (hl.fixed v (hw.fixed_of_param? hp)).2).trans hp

theorem fixed_of_items (hi : w.heap.items v = .ok members) (hm : ¬ w.IsMap v) : w.Fixed v := by
  cases v with
  | ref a =>
    cases ho : w.heap.obj? (.ref a) with
    | some o => exact .object ho hm
    | none =>
      simp only [Heap.items, ho] at hi
      cases hi
  | _ => exact .scalar fun a => by simp

/-- A sequence has the same members later, unless it is a tagged value that holds a frame's map. -/
theorem Later.sequenceOf_eq (hw : w.Sound) (hl : w.Later w')
    (hm : w.heap.sequenceOf v = .ok members)
    (hp : ∀ type payload, w.heap.tagged? v = some (type, payload) → ¬ w.IsMap payload) :
    w'.heap.sequenceOf v = .ok members := by
  cases ht : w.heap.tagged? v with
  | some tagged =>
    obtain ⟨type, payload⟩ := tagged
    have ht' := (Heap.tagged?_congr (hl.fixed v (hw.fixed_of_tagged? ht)).2).trans ht
    simp only [Heap.sequenceOf, ht, ht'] at hm ⊢
    split at hm
    · have hfixed := fixed_of_items hm (hp type payload ht)
      rw [if_pos ‹_›, Heap.items_congr (hl.fixed payload hfixed).2, hm]
    · cases hm
  | none =>
    have hseq : w.heap.sequenceOf v = .ok members := hm
    simp only [Heap.sequenceOf, ht] at hm
    split at hm
    · cases hm
    · rename_i he
      have hmap : ¬ w.IsMap v := by
        intro hv
        obtain ⟨f, parent, entries, hi⟩ := hw.isFrame_of_isMap hv
        exact he (by simp [Heap.entries?, hi.table, Obj.entries?])
      have hfixed : w.Fixed v := by
        cases v with
        | ref a => exact fixed_of_items hm hmap
        | _ => exact .scalar fun a => by simp
      rw [Heap.sequenceOf_congr (hl.fixed v hfixed).2 ht, hseq]

theorem Later.paramList_eq (hw : w.Sound) (hl : w.Later w')
    (hlist : w.heap.paramList params = .ok list)
    (hs : w'.heap.sequenceOf params' = w.heap.sequenceOf params) :
    w'.heap.paramList params' = .ok list := by
  obtain ⟨members, hm, hlist⟩ := bind_ok.mp hlist
  rw [Heap.paramList, hs, hm]
  refine Eq.trans ?_ hlist
  cases hp : members.mapM w.heap.param? with
  | some records =>
    have hsame : members.mapM w'.heap.param? = some records :=
      mapM_some_mono (fun e p => hl.param? hw) hp
    simp only [hsame, bind, Except.bind]
  | none =>
    simp only [hp] at hlist
    obtain ⟨parsed, hparsed, -⟩ := bind_ok.mp hlist
    obtain ⟨names, hnames, -⟩ := bind_ok.mp hparsed
    have hfixed (e : Value) (he : e ∈ members) : w.Fixed e := by
      obtain ⟨name, hname⟩ := mapM_ok_mem hnames e he
      exact hw.fixed_of_nameOf hname
    have hsame : members.mapM w'.heap.param? = members.mapM w.heap.param? :=
      mapM_congr fun e he => Heap.param?_congr (hl.fixed e (hfixed e he)).2
    have hsame' : members.mapM w'.heap.nameOf = members.mapM w.heap.nameOf := by
      refine mapM_congr fun e he => ?_
      obtain ⟨name, hname⟩ := mapM_ok_mem hnames e he
      rw [hname, Heap.nameOf_congr (hl.fixed e (hfixed e he)).2 hname]
    simp only [hsame, hp, Heap.parseParams, hsame', bind, Except.bind]

end World

end LexicalEnv
