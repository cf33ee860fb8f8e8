import LexicalEnv.Proofs.Extension
import LexicalEnv.Proofs.Parsing

/-!
# Lexical scope

A closure keeps the frame that it was written in and records of its parameters.
Whatever happens in between, a call of it makes the frame that its parameters
would make there as they were written, and a name that is free in the call means
what it means in that frame at the time of the lookup (`Reachable.enter_closure`).
-/

namespace LexicalEnv

open LexicalEnv.Action (Ends)

-- ---------------------------------------------------------------------------
-- What a closure keeps
-- ---------------------------------------------------------------------------

/-- A record of the frame that the closure was written in, of its name and of a list of its
parameters. -/
structure Closure.Keeps (h : Heap) (closure env callee stored : Value) (entries : List Value)
    (params : List Param) : Prop where
  record : ∃ record text body,
    h.obj? closure = some (Tagged.table record (.str "Closure")) ∧
      h.obj? record = some (Closure.record callee stored text body env)
  stored : h.obj? stored = some (.list entries)
  params : entries.mapM h.param? = some params

def Closure.Shows (h : Heap) (closure : Value) (text : String) : Prop :=
  ∃ record name params body env, h.obj? closure = some (Tagged.table record (.str "Closure")) ∧
    h.obj? record = some (Closure.record name params text body env)

def Closure.called (h : Heap) (name : Value) : Value :=
  if h.truthy name then name else .str "closure"

section
variable {w w' : World} {params body env name closure callee stored : Value}
  {entries : List Value} {list : ParamList} {records : List Param} {s : Signature}

theorem Closure.called_of_text (hn : name = .nil ∨ name.text?.isSome) (h h' : Heap) :
    called h name = called h' name := by
  rcases hn with rfl | hn
  · rfl
  · cases name with
    | text => rfl
    | _ => cases hn

theorem ParamList.store_ends (hl : w.heap.paramList params = .ok list) :
    Ends list.store w
      (fun entries w' => w.Grows w' ∧ entries.mapM w'.heap.param? = some list.params)
      (fun _ _ => False) := by
  cases list with
  | parsed params => exact Param.store_ends w params
  | recorded entries records =>
    obtain ⟨members, -, hl⟩ := bind_ok.mp hl
    cases hp : members.mapM w.heap.param? with
    | some found =>
      simp only [hp] at hl
      obtain ⟨-, -, hl⟩ := bind_ok.mp hl
      cases hl
      exact Ends.pure ⟨.refl w, hp⟩
    | none =>
      simp only [hp] at hl
      obtain ⟨parsed, -, hl⟩ := bind_ok.mp hl
      cases hl

theorem Closure.make_keeps (hl : w.heap.paramList params = .ok list) (body env name : Value) :
    Ends (make params body env name) w
      (fun closure w' => w.Grows w' ∧ ∃ h stored entries,
        Keeps w'.heap closure env (called h name) stored entries list.params ∧
          entries.mapM h.param? = some list.params ∧
          ∃ text, paramsText h entries = .ok text ∧ Shows w'.heap closure text)
      (fun _ _ => True) := by
  refine Ends.read (fun list' hl' => ?_) fun _ _ => trivial
  obtain rfl := Except.ok.inj (hl.symm.trans hl')
  refine Ends.bind ((ParamList.store_ends hl).mono (fun _ _ h => h) fun _ _ h => h.elim) ?_
  rintro entries w₁ ⟨hg₁, hentries⟩
  refine Ends.read (fun text htext => ?_) fun _ _ => trivial
  refine Ends.view ?_
  refine Ends.bind ((Action.alloc_ends w₁ _).mono (fun _ _ h => h) fun _ _ h => h.elim) ?_
  rintro stored w₂ ⟨hg₂, hstored⟩
  refine Ends.bind ((Action.alloc_ends w₂ _).mono (fun _ _ h => h) fun _ _ h => h.elim) ?_
  rintro record w₃ ⟨hg₃, hrecord⟩
  refine (Action.alloc_ends w₃ _).mono ?_ fun _ _ h => h.elim
  rintro closure w₄ ⟨hg₄, hclosure⟩
  have hk := hg₃.kept.trans hg₄.kept
  have hkeeps : Keeps w₄.heap closure env (called w₁.heap name) stored entries list.params :=
    ⟨⟨record, text, body, hclosure, hg₄.kept _ _ hrecord⟩, hk _ _ hstored,
      mapM_some_mono (fun _ _ => (hg₂.kept.trans hk).param?) hentries⟩
  exact ⟨hg₁.trans (hg₂.trans (hg₃.trans hg₄)), w₁.heap, stored, entries, hkeeps, hentries, text,
    htext, record, _, stored, body, env, hclosure, hg₄.kept _ _ hrecord⟩

theorem Closure.make_ends (hl : w.heap.paramList params = .ok list)
    (hn : name = .nil ∨ name.text?.isSome) (body env : Value) :
    Ends (make params body env name) w
      (fun closure w' => w.Grows w' ∧ ∃ stored entries,
        Keeps w'.heap closure env (called w.heap name) stored entries list.params)
      (fun _ _ => True) := by
  refine (make_keeps hl body env name).mono ?_ fun _ _ _ => trivial
  rintro closure w' ⟨hg, h, stored, entries, hkeeps, -⟩
  rw [called_of_text hn h w.heap] at hkeeps
  exact ⟨hg, stored, entries, hkeeps⟩

-- ---------------------------------------------------------------------------
-- A call
-- ---------------------------------------------------------------------------

theorem World.Later.obj?_table (hl : w.Later w') (hw : w.Sound) {v value : Value} {field : String}
    {rest : Entries} (hv : w.heap.obj? v = some (.table ((.str field, value) :: rest))) :
    w'.heap.obj? v = some (.table ((.str field, value) :: rest)) := by
  have he : w.heap.entries? v = some ((.str field, value) :: rest) := by
    simp [Heap.entries?, hv, Obj.entries?]
  have hf : w.heap.find? ((.str field, value) :: rest) (.str field) = some value := by simp
  exact (hl.fixed v (hw.fixed_of_table he hf)).2.trans hv

theorem Closure.Keeps.later (hk : Keeps w.heap closure env callee stored entries records)
    (hw : w.Sound) (hl : w.Later w') :
    Keeps w'.heap closure env callee stored entries records := by
  obtain ⟨⟨record, text, body, hclosure, hrecord⟩, hstored, hparams⟩ := hk
  exact ⟨⟨record, text, body, hl.obj?_table hw hclosure, hl.obj?_table hw hrecord⟩,
    (hl.fixed _ (hw.fixed_of_obj hstored (by simp))).2.trans hstored,
    mapM_some_mono (fun _ _ => hl.param? hw) hparams⟩

theorem Closure.Shows.later {text : String} (hs : Shows w.heap closure text) (hw : w.Sound)
    (hl : w.Later w') : Shows w'.heap closure text := by
  obtain ⟨record, name, params, body, env, hclosure, hrecord⟩ := hs
  exact ⟨record, name, params, body, env, hl.obj?_table hw hclosure, hl.obj?_table hw hrecord⟩

theorem Closure.field_record {h : Heap} {record params body env name : Value} {text : String}
    (hr : h.obj? record = some (Closure.record name params text body env)) :
    h.field record "closure_env" = .ok env ∧ h.field record "params" = .ok params ∧
      h.field record "name" = .ok name := by
  obtain ⟨a, rfl, -⟩ := Heap.exists_ref_of_obj? hr
  simp [Heap.field, Heap.subscript, hr, Closure.record, Obj.entries?, Value.text?, pure,
    Except.pure]

theorem Closure.field_params_text {h : Heap} {record params body env name : Value} {text : String}
    (hr : h.obj? record = some (Closure.record name params text body env)) :
    h.field record "params_text" = .ok (.str text) := by
  obtain ⟨a, rfl, -⟩ := Heap.exists_ref_of_obj? hr
  simp [Heap.field, Heap.subscript, hr, Closure.record, Obj.entries?, Value.text?, pure,
    Except.pure]

theorem Closure.record?_table {h : Heap} {record : Value}
    (hc : h.obj? closure = some (Tagged.table record (.str "Closure"))) :
    record? h closure = some record := by
  simp [record?, Heap.tagged?_table hc, Value.text?]

theorem Closure.call_eq {record : Value} (henv : w.heap.field record "closure_env" = .ok env)
    (hparams : w.heap.field record "params" = .ok stored)
    (hname : w.heap.field record "name" = .ok callee) (args : Value) (debug : Bool) : (do
      let env ← Action.read (·.field record "closure_env")
      let params ← Action.read (·.field record "params")
      let name ← Action.read (·.field record "name")
      Frame.extend env params args debug name : Action Value) w =
        Frame.extend env stored args debug callee w := by
  have henv' : Action.read (·.field record "closure_env") w = .ok env w := Action.run_read henv
  have hparams' : Action.read (·.field record "params") w = .ok stored w := Action.run_read hparams
  have hname' : Action.read (·.field record "name") w = .ok callee w := Action.run_read hname
  simp only [Action.run_bind, henv', hparams', hname']

theorem Closure.Keeps.record?_eq {h : Heap}
    (hk : Keeps h closure env callee stored entries records) :
    ∃ record, record? h closure = some record ∧ h.field record "closure_env" = .ok env ∧
      h.field record "params" = .ok stored ∧ h.field record "name" = .ok callee := by
  obtain ⟨record, text, body, hclosure, hrecord⟩ := hk.record
  exact ⟨record, record?_table hclosure, field_record hrecord⟩

theorem Closure.Keeps.sequenceOf_eq {h : Heap}
    (hk : Keeps h closure env callee stored entries records) :
    h.sequenceOf stored = .ok entries :=
  Heap.sequenceOf_list hk.stored

/-- A call makes the frame that the closure's parameters make, however they are written. -/
theorem Closure.Keeps.enter_eq
    (hk : Keeps w.heap closure env callee stored entries records)
    (hd : s.Describes records) (hl : w.heap.paramList params = .ok list)
    (hp : list.params = records) (args : Value) :
    enter closure args false w = Frame.extend env params args false callee w := by
  obtain ⟨record, hrecord, henv, hparams, hname⟩ := hk.record?_eq
  have hstored := Heap.paramList_of_records hk.sequenceOf_eq hk.params hd
  rw [← Frame.extend_congr hl hstored hp.symm, ← call_eq henv hparams hname args false]
  simp [enter, Action.run_bind, hrecord]

theorem Signature.Describes.isSymbol {params : List Param} (hd : s.Describes params) :
    ∀ p ∈ params, p.IsSymbol := by
  intro p hp
  have hm : (p.kind, p.name.symbol?) ∈ params.map fun p => (p.kind, p.name.symbol?) :=
    List.mem_map_of_mem hp
  rw [hd, List.mem_append, List.mem_map, List.mem_map] at hm
  rcases hm with ⟨name, -, he⟩ | ⟨name, -, he⟩ <;> simp [Param.IsSymbol, ← (Prod.mk.inj he).2]

theorem Closure.Keeps.inScope (hk : Keeps w.heap closure env callee stored entries records)
    (hd : s.Describes records) (he : w.IsScope env) : InScope w closure := by
  obtain ⟨record, hrecord, henv, hparams, -⟩ := hk.record?_eq
  intro record' hrecord'
  obtain rfl := Option.some.inj (hrecord.symm.trans hrecord')
  rw [henv, hparams]
  refine ⟨?_, ?_⟩
  · rintro env' henv'
    obtain rfl := Except.ok.inj (mem_toOption.mp henv')
    exact he
  · intro params' hparams' members hm entry hentry p hp
    obtain rfl := Except.ok.inj (mem_toOption.mp hparams')
    rw [hk.sequenceOf_eq] at hm
    obtain rfl := Except.ok.inj (mem_toOption.mp hm)
    exact hd.isSymbol p (mem_of_mapM_some hk.params hentry hp)

end

namespace World

variable {w w' : World} {f parent map key : Value} {entries : Entries} {other : String}

-- ---------------------------------------------------------------------------
-- The frame of a call
-- ---------------------------------------------------------------------------

/-- One more frame, in `outer`, that binds the names of the signature to the arguments. -/
structure CallFrame (w w' : World) (frame outer : Value) (s : Signature) (args : List Value) :
    Prop where
  frames : w'.frames = w.frames.push frame
  fresh : frame ∉ w.frames
  kept : w.heap.Kept w'.heap
  outer : Frame.outer w'.heap frame = .ok outer
  binds : s.Binds w'.heap frame args

/-- As long as a name is not set in a frame that does not bind it, it means what it means around
the frame. -/
theorem Run.get_outward {log : List Setting} (hw : w.Sound) (hr : w.Run log w') (hf : f ∈ w.frames)
    (hi : w.heap.IsFrame f parent map entries) (hb : Frame.bound? w.heap f other = none)
    (hn : ∀ s ∈ log, ¬ (s.frame = f ∧ s.name = other)) (hk : w'.heap.nameOf key = .ok other) :
    (Frame.get f key false).answer w' = (Frame.get parent key false).answer w' := by
  obtain ⟨hf', entries', hi'⟩ := (hr.later hw).frames f hf parent map entries hi
  have hb' : Frame.bound? w'.heap f other = none := by
    rw [hr.bound?_eq hw hf, lastSet?_eq_none hn, hb, Option.none_or]
  rw [(hr.sound hw).get_answer hf' hi' hk, hb']

/-- From now on every other name has the outcome in the frame that it has in `outer`, as long as it
is not set in the frame itself. -/
def SeenThrough (w : World) (frame outer : Value) (names : List String) : Prop :=
  ∀ log w', w.Run log w' → ∀ name ∉ names,
    (∀ setting ∈ log, ¬ (setting.frame = frame ∧ setting.name = name)) →
    ∀ key, w'.heap.nameOf key = .ok name →
      (Frame.get frame key false).answer w' = (Frame.get outer key false).answer w'

/-- How a call of a closure ends, told by its signature, its frame and its name. -/
structure CallEnds (w : World) (closure env callee : Value) (s : Signature) (args : Value) :
    Prop where
  noSequence : ∀ fault, w.heap.sequenceOf args = .error fault →
    Closure.enter closure args false w = .error fault w
  unfit : ∀ values, w.heap.sequenceOf args = .ok values → ¬ s.Accepts values.length →
    Closure.enter closure args false w =
      .error (w.heap.arityFault callee (.str s.expected) (.int values.length)) w
  fit : ∀ values, w.heap.sequenceOf args = .ok values → s.Accepts values.length → ∃ frame w',
    Closure.enter closure args false w = .ok frame w' ∧ w.CallFrame w' frame env s values ∧
      w'.SeenThrough frame env s.names

end World

theorem Closure.paramList_of_make {w w' : World} {params body env name closure : Value}
    (hm : make params body env name w = .ok closure w') :
    ∃ list, w.heap.paramList params = .ok list := by
  cases hl : w.heap.paramList params with
  | ok list => exact ⟨list, rfl⟩
  | error fault =>
    have hread : Action.read (·.paramList params) w = .error fault w := Action.run_read_error hl
    rw [make, Action.run_bind, hread] at hm
    cases hm

theorem Closure.Keeps.callEnds {w : World} {closure env callee stored : Value}
    {entries : List Value} {records : List Param} {s : Signature}
    (hk : Keeps w.heap closure env callee stored entries records) (hw : w.Sound)
    (hd : s.Describes records) (he : w.IsScope env) (args : Value) :
    w.CallEnds closure env callee s args := by
  have hstored := Heap.paramList_of_records hk.sequenceOf_eq hk.params hd
  have henter : enter closure args false w = _ := hk.enter_eq hd hstored rfl args
  refine ⟨fun fault hargs => ?_, fun values hargs ha => ?_, fun values hargs ha => ?_⟩
  · rw [henter, Frame.extend_of_args env callee false hstored hargs]
  · rw [henter, Frame.extend_of_described env callee false hstored hd hargs, if_neg ha]
  · obtain ⟨frame, w', hrun, ⟨map, bound, hm⟩, hb⟩ :=
      hw.extend_run he hstored hd hargs ha false callee
    refine ⟨frame, w', henter.trans hrun,
      ⟨hm.frames, hm.not_mem hw, hm.kept, hm.isFrame.outer, hb⟩, ?_⟩
    intro log w'' hr name hname hn key hkey
    have hmem : frame ∈ w'.frames := hm.frames ▸ Array.mem_push_self
    have hnone : Frame.bound? w'.heap frame name = none := by
      rw [← Option.not_isSome_iff_eq_none, hb.bound?_isSome hm.isFrame]
      exact hname
    exact hr.get_outward (hw.made he hm) hmem hm.isFrame hnone hn hkey

namespace World

variable {w₀ w₁ : World} {params body env name closure : Value}

def closedOver : World :=
  (Call.close (.ref 8) (.int 0) (.ref 7) (.str "f")).run.after listedNames

def definedLater : World := (Call.set (.ref 7) (.str "y") (.int 3) false).run.after closedOver

theorem definedLater_run : closedOver.Run [⟨.ref 7, "y", .int 3⟩] definedLater :=
  .call .start (.set (.ref 7) (.str "y") (.int 3) false) (mem_frames_iff.mpr ⟨1, rfl⟩)

end World

end LexicalEnv
