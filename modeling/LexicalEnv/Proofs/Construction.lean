import LexicalEnv.Actor.Request
import LexicalEnv.Proofs.Pairing

/-!
# Making frames

A frame in the making is a `Draft`: it has its map, but is not counted among
the frames, and it is lost if the operation fails. Making a frame drafts one
and counts it. The frame of a call is drafted when the parameters, the arguments
and their number are found to be fit (`extend_eq`), with one entry for each name.
-/

namespace LexicalEnv

open LexicalEnv.Action (Ends Preserving preserving_bind preserving_pure preserving_read
  preserving_say)

variable {w w' w'' : World} {f parent map key value : Value} {entries : Entries} {name : String}

-- ---------------------------------------------------------------------------
-- Setting a name
-- ---------------------------------------------------------------------------

theorem World.Written.grows (h : w.Written w' map entries name value) (hg : w'.Grows w'') :
    w.Written w'' map entries name value :=
  ⟨fun v o hv ho => hg.kept v o (h.kept v o hv ho), hg.kept _ _ h.table, hg.frames.trans h.frames,
    hg.actors.trans h.actors⟩

theorem Heap.IsFrame.setNamed_run (hi : w.heap.IsFrame f parent map entries) (name : String)
    (value : Value) : ∃ a : Nat, map = .ref a ∧ a < w.heap.size ∧
      Frame.setNamed f name value w = .ok () { w with
        heap := w.heap.overwrite a (.table (w.heap.insert entries (.sym name) value)) } := by
  obtain ⟨a, rfl, ha⟩ := Heap.exists_ref_of_obj? hi.table
  have hmap : Action.read (Frame.bindings · f) w = .ok (.ref a) w := Action.run_read hi.bindings
  have hassigned : w.heap.assigned (.ref a) (.sym name) value =
      .ok (a, .table (w.heap.insert entries (.sym name) value)) := by
    simp [Heap.assigned, hi.table, bind, Except.bind, pure, Except.pure]
  have hread : Action.read (·.assigned (.ref a) (.sym name) value) w = .ok _ w :=
    Action.run_read hassigned
  refine ⟨a, rfl, ha, ?_⟩
  simp only [Frame.setNamed, Action.run_bind, hmap, Action.assign, hread]
  rfl

theorem World.written_overwrite {a : Nat} (ha : a < w.heap.size) (entries : Entries) (name : String)
    (value : Value) :
    w.Written { w with
      heap := w.heap.overwrite a (.table (w.heap.insert entries (.sym name) value)) }
      (.ref a) entries name value := by
  refine ⟨fun v o hv ho => ?_, ?_, rfl, rfl⟩
  · simpa [Heap.obj?_overwrite, hv] using ho
  · simp [Heap.obj?_overwrite, ha]

theorem Heap.IsFrame.set_eq (hi : w.heap.IsFrame f parent map entries)
    (hk : w.heap.nameOf key = .ok name) (value : Value) : ∃ w',
      w.Written w' map entries name value ∧ ∀ debug, Frame.set f key value debug w = (do
        if debug then
          Action.say ("Set " ++ name ++ " = " ++ (← Action.read (Printing.text · value)))
        pure value : Action Value) w' := by
  have hname : Action.read (·.nameOf key) w = .ok name w := Action.run_read hk
  obtain ⟨a, rfl, ha, hrun⟩ := hi.setNamed_run name value
  refine ⟨_, World.written_overwrite ha entries name value, fun debug => ?_⟩
  simp only [Frame.set, Action.run_bind, hname, hrun]

theorem Heap.IsFrame.set_run (hi : w.heap.IsFrame f parent map entries)
    (hk : w.heap.nameOf key = .ok name) (value : Value) : ∃ w',
      Frame.set f key value false w = .ok value w' ∧ w.Written w' map entries name value := by
  obtain ⟨w', hwritten, hrun⟩ := hi.set_eq hk value
  exact ⟨w', hrun false, hwritten⟩

theorem Heap.IsFrame.set_ends (hi : w.heap.IsFrame f parent map entries) (key value : Value)
    (debug : Bool) : Ends (Frame.set f key value debug) w
      (fun _ w' => ∃ name, w.heap.nameOf key = .ok name ∧ w.Written w' map entries name value)
      (fun fault w' => (w.heap.nameOf key = .error fault ∧ w' = w) ∨
        ∃ name, w.heap.nameOf key = .ok name ∧ w.Written w' map entries name value) := by
  refine Ends.read (fun name hk => ?_) fun fault hk => .inl ⟨hk, rfl⟩
  obtain ⟨a, rfl, ha, hrun⟩ := hi.setNamed_run name value
  have hwritten := World.written_overwrite ha entries name value
  have htrace (debug : Bool) : Preserving (do
      if debug then Action.say ("Set " ++ name ++ " = " ++ (← Action.read (Printing.text · value)))
      pure value : Action Value) := by
    cases debug
    · exact preserving_pure value
    · exact preserving_bind (preserving_read _) fun _ =>
        preserving_bind (preserving_say _) fun _ => preserving_pure value
  refine Ends.bind
    (Ends.of_ok hrun (Q := fun _ w' => w.Written w' _ entries name value) hwritten) ?_
  intro _ w' hw'
  exact ((htrace debug).ends w').mono (fun _ _ hg => ⟨name, hk, hw'.grows hg⟩)
    (fun _ _ hg => .inr ⟨name, hk, hw'.grows hg⟩)

def Request.setting? (h : Heap) (frame : Value) : Request → Option Setting
  | .set key value => (h.nameOf key).toOption.map fun name => ⟨frame, name, value⟩
  | _ => none

theorem World.Sound.set_change (hw : w.Sound) (hf : f ∈ w.frames) (key value : Value)
    (debug : Bool) : Ends (Frame.set f key value debug) w
      (fun _ => w.Change ((Request.set key value).setting? w.heap f) w.actors)
      (fun _ => w.Change ((Request.set key value).setting? w.heap f) w.actors) := by
  obtain ⟨parent, map, entries, hi, -⟩ := hw.isFrame hf
  have hset {w' : World} {name : String} (hk : w.heap.nameOf key = .ok name)
      (h : w.Written w' map entries name value) :
      w.Change ((Request.set key value).setting? w.heap f) w.actors w' := by
    rw [Request.setting?, hk]
    exact .sets hf hi h
  refine (hi.set_ends key value debug).mono ?_ ?_
  · rintro _ w' ⟨name, hk, h⟩
    exact hset hk h
  · rintro fault w' (⟨hk, rfl⟩ | ⟨name, hk, h⟩)
    · rw [Request.setting?, hk]
      exact .adds (.grown (.refl _))
    · exact hset hk h

structure World.Refilled (w w' : World) (map : Value) (entries : Entries) : Prop where
  kept : ∀ v o, v ≠ map → w.heap.obj? v = some o → w'.heap.obj? v = some o
  table : w'.heap.obj? map = some (.table entries)
  frames : w'.frames = w.frames
  actors : w'.actors = w.actors

theorem World.Written.refilled (h : w.Written w' map entries name value) :
    w.Refilled w' map (w.heap.insert entries (.sym name) value) :=
  ⟨h.kept, h.table, h.frames, h.actors⟩

theorem World.Refilled.kept_older {h : Heap} (hr : w.Refilled w' map entries) (hk : h.Kept w.heap)
    (hfresh : h.obj? map = none) : h.Kept w'.heap := by
  intro v o ho
  refine hr.kept v o ?_ (hk v o ho)
  rintro rfl
  rw [hfresh] at ho
  cases ho

theorem World.Refilled.isFrame {old : Entries} (hr : w.Refilled w' map entries)
    (hi : w.heap.IsFrame f parent map old) (hn : Entries.Named entries) :
    w'.heap.IsFrame f parent map entries := by
  have hne : f ≠ map := by
    rintro rfl
    exact absurd (hi.frame.symm.trans hi.table) (by simp)
  exact ⟨hr.kept f _ hne hi.frame, hr.table, hn⟩

-- ---------------------------------------------------------------------------
-- Making a frame
-- ---------------------------------------------------------------------------

/-- A frame that is there but not counted yet, with a map of its own. -/
structure World.Draft (w w' : World) (f parent map : Value) (entries : Entries) : Prop where
  grows : w.Grows w'
  isFrame : w'.heap.IsFrame f parent map entries
  fresh : w.heap.obj? f = none
  freshMap : w.heap.obj? map = none

theorem World.Draft.of_grows (hg : w.Grows w') (h : w'.Draft w'' f parent map entries) :
    w.Draft w'' f parent map entries :=
  ⟨hg.trans h.grows, h.isFrame, hg.kept.obj?_eq_none h.fresh, hg.kept.obj?_eq_none h.freshMap⟩

theorem World.Draft.grows_after (h : w.Draft w' f parent map entries) (hg : w'.Grows w'') :
    w.Draft w'' f parent map entries :=
  ⟨h.grows.trans hg, h.isFrame.kept hg.kept, h.fresh, h.freshMap⟩

theorem World.Draft.refilled {old : Entries} (h : w.Draft w' f parent map old)
    (hr : w'.Refilled w'' map entries) (hn : Entries.Named entries) :
    w.Draft w'' f parent map entries := by
  have hgrows : w.Grows w'' := ⟨hr.kept_older h.grows.kept h.freshMap,
    hr.frames.trans h.grows.frames, hr.actors.trans h.grows.actors⟩
  exact ⟨hgrows, hr.isFrame h.isFrame hn, h.fresh, h.freshMap⟩

theorem World.Draft.enrolled (h : w.Draft w' f parent map entries) :
    Ends (Frame.enrolled f) w' (fun g w'' => g = f ∧ w.Made w'' f parent map entries)
      (fun _ _ => False) :=
  Ends.of_ok rfl ⟨rfl, h.grows.kept, by rw [h.grows.frames], h.grows.actors, h.isFrame, h.fresh,
    h.freshMap⟩

theorem World.Draft.made (h : w.Draft w' f parent map entries) : Ends (Frame.enrolled f) w'
    (fun f w'' => ∃ map entries, w.Made w'' f parent map entries) (fun _ _ => False) := by
  refine h.enrolled.mono ?_ fun _ _ hf => hf
  rintro _ w'' ⟨rfl, hm⟩
  exact ⟨map, entries, hm⟩

theorem Frame.create_stored (w : World) (parent : Value) (entries : Entries) :
    Ends (create parent entries) w
      (fun f w' => w.Grows w' ∧ w.heap.obj? f = none ∧
        ∃ map, w.heap.obj? map = none ∧ w'.heap.obj? f = some (.frame parent map) ∧
          w'.heap.obj? map = some (.table entries))
      (fun _ _ => False) := by
  have hk := w.heap.kept_add (.table entries)
  have hk' := (w.heap.add (.table entries)).kept_add (.frame parent (.ref w.heap.size))
  refine Ends.of_ok rfl ⟨⟨hk.trans hk', rfl, rfl⟩, hk.obj?_eq_none (Heap.obj?_size _),
    .ref w.heap.size, Heap.obj?_size _, ?_, ?_⟩
  · exact Heap.obj?_add_self _ _
  · exact hk' _ _ (Heap.obj?_add_self _ _)

theorem Frame.create_ends (w : World) (parent : Value) (hn : Entries.Named entries) :
    Ends (create parent entries) w (fun f w' => ∃ map, w.Draft w' f parent map entries)
      (fun _ _ => False) := by
  refine (create_stored w parent entries).mono ?_ fun _ _ hf => hf
  rintro f w' ⟨hgrows, hfresh, map, hfreshMap, hframe, hmap⟩
  exact ⟨map, hgrows, ⟨hframe, hmap, hn⟩, hfresh, hfreshMap⟩

theorem Frame.make_ends (w : World) (parent seed : Value) : Ends (Frame.make parent seed) w
    (fun f w' => ∃ map entries, w.Made w' f parent map entries) (fun _ w' => w' = w) := by
  refine Ends.read (fun entries hs => ?_) fun _ _ => rfl
  refine Ends.bind ((Frame.create_ends w parent (BindingMap.seed_named hs)).mono (fun _ _ h => h)
    fun _ _ h => h.elim) ?_
  rintro f w' ⟨map, h⟩
  exact h.made.mono (fun _ _ hm => hm) fun _ _ hf => hf.elim

theorem Frame.make_adds (hp : w.IsScope parent) (seed : Value) :
    Ends (Frame.make parent seed) w (fun _ => w.Adds) (fun _ => w.Adds) := by
  refine (Frame.make_ends w parent seed).mono ?_ ?_
  · rintro f w' ⟨map, entries, h⟩
    exact .made hp h
  · rintro _ _ rfl
    exact .grown (.refl _)

theorem World.Draft.setAll (h : w.Draft w' f parent map entries) (bindings : Entries) :
    Ends (Frame.setAll f bindings) w' (fun _ w'' => ∃ entries', w.Draft w'' f parent map entries')
      (fun _ w'' => w.Grows w'') := by
  induction bindings generalizing w' entries with
  | nil => exact Ends.pure ⟨entries, h⟩
  | cons binding rest ih =>
    have hset {w'' : World} {name : String} {value : Value}
        (hw : w'.Written w'' map entries name value) :
        w.Draft w'' f parent map (w'.heap.insert entries (.sym name) value) :=
      h.refilled hw.refilled (h.isFrame.named.insert _ _ _ _)
    have hdiscard : Ends (discard (Frame.set f binding.1 binding.2 false)) w'
        (fun _ w'' => ∃ entries', w.Draft w'' f parent map entries')
        (fun _ w'' => w.Grows w'') := by
      refine Ends.map ((h.isFrame.set_ends binding.1 binding.2 false).mono ?_ ?_)
      · rintro _ w'' ⟨name, -, hw⟩
        exact ⟨_, hset hw⟩
      · rintro _ w'' (⟨-, rfl⟩ | ⟨name, -, hw⟩)
        · exact h.grows
        · exact (hset hw).grows
    refine Ends.bind hdiscard ?_
    rintro _ w'' ⟨entries', h'⟩
    exact ih h'

theorem Frame.root_ends (w : World) (primitives : Value) : Ends (Frame.root primitives) w
    (fun f w' => ∃ map entries, w.Made w' f .nil map entries) (fun _ w' => w.Grows w') := by
  refine Ends.bind ((Frame.create_ends w .nil Entries.named_nil).mono (fun _ _ h => h)
    fun _ _ h => h.elim) ?_
  rintro f w' ⟨map, h⟩
  refine Ends.view ?_
  split
  · refine Ends.read (fun bindings _ => ?_) fun _ _ => h.grows
    refine Ends.bind ((h.setAll bindings).mono (fun _ _ h => h) fun _ _ hg => hg) ?_
    rintro _ w'' ⟨entries, h''⟩
    exact h''.made.mono (fun _ _ hm => hm) fun _ _ hf => hf.elim
  · exact h.made.mono (fun _ _ hm => hm) fun _ _ hf => hf.elim

theorem Frame.root_adds (w : World) (primitives : Value) :
    Ends (Frame.root primitives) w (fun _ => w.Adds) (fun _ => w.Adds) := by
  refine (Frame.root_ends w primitives).mono ?_ fun _ _ hg => .grown hg
  rintro f w' ⟨map, entries, h⟩
  exact .made (.inl rfl) h

-- ---------------------------------------------------------------------------
-- The frame of a call
-- ---------------------------------------------------------------------------

/-- The frame binds each positional name to its argument, to the last if the name is repeated, and
the name for the rest to a list of the arguments left. It binds no other names. -/
structure Signature.Binds (s : Signature) (h : Heap) (f : Value) (args : List Value) : Prop where
  names : ∃ entries, Frame.own? h f = some entries ∧
    entries.map (·.1.symbol?) = s.names.eraseDups.map some
  positional : ∀ (i : Nat) name, s.positional[i]? = some name → s.rest ≠ some name →
    (∀ j, i < j → s.positional[j]? ≠ some name) →
    ∃ value, args[i]? = some value ∧ Frame.bound? h f name = some value
  rest : ∀ name, s.rest = some name → ∃ value, Frame.bound? h f name = some value ∧
    h.IsList value (args.drop s.positional.length)

theorem Entries.Spells.binds {s : Signature} {h h' : Heap} {bindings : Entries} {args : List Value}
    {rest : Value} (hs : Spells bindings (s.pairs args rest))
    (hl : s.positional.length ≤ args.length) (hf : h.IsFrame f parent map (h'.bindAll [] bindings))
    (hr : s.rest.isSome → h.IsList rest (args.drop s.positional.length)) : s.Binds h f args := by
  refine ⟨⟨_, hf.own?, ?_⟩, fun i name hi hne hlast => ?_, fun name hname => ?_⟩
  · rw [hf.named.keys, Heap.names_bindAll hs.symbols, hs.names, Signature.pairs_names hl]
  · obtain ⟨before, value, after, hvalue, hpairs, hn⟩ :=
      Signature.pairs_positional rest hl hi hlast hne
    refine ⟨value, hvalue, ?_⟩
    rw [hf.bound?, Value.sym, h.find?_symbol h']
    exact (hpairs ▸ hs).find?_bindAll hn h' []
  · refine ⟨rest, ?_, hr (by simp [hname])⟩
    have hpairs : s.pairs args rest = s.positional.zip args ++ (name, rest) :: [] := by
      simp [Signature.pairs, hname]
    rw [hf.bound?, Value.sym, h.find?_symbol h']
    exact (hpairs ▸ hs).find?_bindAll (by simp) h' []

namespace Frame

variable {s : Signature} {params : List Param} {args : List Value}

/-- What is left to do when parameters and arguments are found to be fit. -/
def fill (outer : Value) (params : List Param) (args : List Value) (debug : Bool) :
    Action Value := do
  let bindings ← pairUp args 0 params
  let frame ← create outer (← Action.read (·.insertAll [] bindings))
  if debug then Action.say (← Action.read (report · frame))
  enrolled frame

theorem fill_ends (w : World) (outer : Value) (hd : s.Describes params)
    (ha : s.Accepts args.length) (debug : Bool) : Ends (fill outer params args debug) w
      (fun f w' => (∃ map entries, w.Made w' f outer map entries) ∧ s.Binds w'.heap f args)
      (fun fault w' => debug = true ∧ ∃ f map entries, w.Draft w' f outer map entries ∧
        report w'.heap f = .error fault) := by
  refine Ends.bind ((pairUp_ends w (hd.fits ha)).mono (fun _ _ h => h) fun _ _ h => h.elim) ?_
  rintro bindings w₁ ⟨hg, hpairs⟩
  obtain ⟨rest, hs, hrest⟩ := hd.spells hpairs
  rw [List.drop_zero] at hs
  rw [Nat.zero_add] at hrest
  have hnamed := w₁.heap.bindAll_named Entries.named_nil hs.symbols
  refine Ends.read (fun entries he => ?_) fun fault he => ?_
  · rw [Heap.insertAll_symbols hs.symbols] at he
    cases he
    refine Ends.bind ((create_ends w₁ outer hnamed).mono (fun _ _ h => h) fun _ _ h => h.elim) ?_
    rintro f w₂ ⟨map, h⟩
    have hmade (f' : Value) (w' : World)
        (hm : f' = f ∧ w₁.Made w' f outer map (w₁.heap.bindAll [] bindings)) :
        (∃ map entries, w.Made w' f' outer map entries) ∧ s.Binds w'.heap f' args := by
      obtain ⟨rfl, hm⟩ := hm
      exact ⟨⟨map, _, hm.of_grows hg⟩,
        hs.binds ha.length_le hm.isFrame fun hr => (hrest hr).kept hm.kept⟩
    cases debug
    · exact h.enrolled.mono hmade fun _ _ hf => hf.elim
    · refine Ends.read (fun line _ => ?_) fun fault hf => ⟨rfl, f, map, _, .of_grows hg h, hf⟩
      have hsaid := (h.grows_after (Action.preserving_say line w₂)).enrolled
      exact Ends.say (hsaid.mono hmade fun _ _ hf => hf.elim)
  · rw [Heap.insertAll_symbols hs.symbols] at he
    cases he

theorem extend_eq (outer binds exprs : Value) (debug : Bool) (name : Value) :
    extend outer binds exprs debug name = (do
      let list ← Action.read (·.paramList binds)
      let args ← Action.read (·.sequenceOf exprs)
      Action.read fun h => (Arity.ofParams list.params).check h args.length name
      fill outer list.params args debug) := rfl

section
variable {binds exprs : Value} {list : ParamList} {fault : Fault}

theorem extend_of_binds (outer exprs callee : Value) (debug : Bool)
    (hl : w.heap.paramList binds = .error fault) :
    extend outer binds exprs debug callee w = .error fault w := by
  have hread : Action.read (·.paramList binds) w = .error fault w := Action.run_read_error hl
  rw [extend_eq, Action.run_bind, hread]

theorem extend_congr {binds' : Value} {list' : ParamList} (hl : w.heap.paramList binds = .ok list)
    (hl' : w.heap.paramList binds' = .ok list') (hp : list'.params = list.params)
    (outer exprs : Value) (debug : Bool) (callee : Value) :
    extend outer binds' exprs debug callee w = extend outer binds exprs debug callee w := by
  have hread : Action.read (·.paramList binds) w = .ok list w := Action.run_read hl
  have hread' : Action.read (·.paramList binds') w = .ok list' w := Action.run_read hl'
  simp only [extend_eq, Action.run_bind, hread, hread', hp]

theorem extend_of_args (outer callee : Value) (debug : Bool)
    (hl : w.heap.paramList binds = .ok list)
    (he : w.heap.sequenceOf exprs = .error fault) :
    extend outer binds exprs debug callee w = .error fault w := by
  have hlist : Action.read (·.paramList binds) w = .ok list w := Action.run_read hl
  have hread : Action.read (·.sequenceOf exprs) w = .error fault w := Action.run_read_error he
  simp only [extend_eq, Action.run_bind, hlist, hread]

theorem extend_of_described (outer callee : Value) (debug : Bool)
    (hl : w.heap.paramList binds = .ok list) (hd : s.Describes list.params)
    (he : w.heap.sequenceOf exprs = .ok args) :
    extend outer binds exprs debug callee w =
      if s.Accepts args.length then fill outer list.params args debug w
      else .error (w.heap.arityFault callee (.str s.expected) (.int args.length)) w := by
  have hlist : Action.read (·.paramList binds) w = .ok list w := Action.run_read hl
  have hargs : Action.read (·.sequenceOf exprs) w = .ok args w := Action.run_read he
  have hcheck := hd.check w.heap args.length callee
  simp only [extend_eq, Action.run_bind, hlist, hargs]
  by_cases ha : s.Accepts args.length
  · rw [if_pos ha] at hcheck ⊢
    have hread : Action.read (fun h => (Arity.ofParams list.params).check h args.length callee) w =
      .ok () w := Action.run_read hcheck
    rw [hread]
  · rw [if_neg ha] at hcheck ⊢
    have hread : Action.read (fun h => (Arity.ofParams list.params).check h args.length callee) w =
      .error _ w := Action.run_read_error hcheck
    rw [hread]

end

theorem extend_adds {binds : Value} (hp : w.IsScope parent) (hs : w.heap.CarriesSymbols binds)
    (exprs : Value) (debug : Bool) (callee : Value) :
    Ends (extend parent binds exprs debug callee) w (fun _ => w.Adds) (fun _ => w.Adds) := by
  have hsame : w.Adds w := .grown (.refl w)
  cases hl : w.heap.paramList binds with
  | error fault => exact .of_error (extend_of_binds parent exprs callee debug hl) hsame
  | ok list =>
    cases he : w.heap.sequenceOf exprs with
    | error fault => exact .of_error (extend_of_args parent callee debug hl he) hsame
    | ok args =>
      obtain ⟨s, -, hd⟩ := Heap.declares_of_paramList hs hl
      rw [Ends, extend_of_described parent callee debug hl hd he]
      by_cases ha : s.Accepts args.length
      · rw [if_pos ha]
        refine (fill_ends w parent hd ha debug).mono ?_ ?_
        · rintro f w' ⟨⟨map, entries, hm⟩, -⟩
          exact .made hp hm
        · rintro fault w' ⟨-, f, map, entries, h, -⟩
          exact .grown h.grows
      · rw [if_neg ha]
        exact hsame

end Frame

end LexicalEnv
