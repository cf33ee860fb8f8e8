import LexicalEnv.Proofs.Notation
import LexicalEnv.Proofs.ReadBack
import LexicalEnv.Proofs.Tracing

/-!
# The text of a parameter list

A parameter list prints as its names with spaces between them, the marker before
the one for the rest. The text splits into the names again if each of them is a
word, and what parses them gives the parameters back. So two closures that print
the same were made with the same parameters (`ParamList.formatted`).
-/

namespace LexicalEnv

-- ---------------------------------------------------------------------------
-- Words
-- ---------------------------------------------------------------------------

namespace Text

def words (text : String) : List String :=
  if text = "" then [] else (text.toList.splitOn ' ').map String.ofList

def IsWord (text : String) : Prop := text ≠ "" ∧ ' ' ∉ text.toList

instance (text : String) : Decidable (IsWord text) := inferInstanceAs (Decidable (_ ∧ _))

theorem intercalate_ne_empty {texts : List String} (hne : texts ≠ []) (hw : ∀ t ∈ texts, IsWord t) :
    " ".intercalate texts ≠ "" := by
  cases texts with
  | nil => exact absurd rfl hne
  | cons t texts =>
    have ht := (hw t List.mem_cons_self).1
    cases texts with
    | nil => simpa using ht
    | cons t' texts => simp [String.intercalate_cons_cons, ht]

theorem words_intercalate {texts : List String} (hw : ∀ t ∈ texts, IsWord t) :
    words (" ".intercalate texts) = texts := by
  by_cases hne : texts = []
  · subst hne
    rfl
  · have hsplit : ([' '].intercalate (texts.map String.toList)).splitOn ' ' =
        texts.map String.toList := by
      refine List.splitOn_intercalate ' ' (fun l hl => ?_) (by simpa using hne)
      obtain ⟨t, ht, rfl⟩ := List.mem_map.mp hl
      exact (hw t ht).2
    rw [words, if_neg (intercalate_ne_empty hne hw), String.toList_intercalate]
    show List.map String.ofList (List.splitOn ' ' ([' '].intercalate _)) = texts
    rw [hsplit, List.map_map]
    simp [Function.comp_def]

end Text

-- ---------------------------------------------------------------------------
-- The text of parameters
-- ---------------------------------------------------------------------------

/-- A name that can be told from the marker and from the names around it. -/
def Param.IsPlain (name : String) : Prop := Text.IsWord name ∧ name ≠ Param.marker

instance (name : String) : Decidable (Param.IsPlain name) :=
  inferInstanceAs (Decidable (_ ∧ _))

theorem Param.isWord_written {params : List (ParamKind × String)}
    (hp : ∀ p ∈ params, IsPlain p.2) : ∀ t ∈ written params, Text.IsWord t := by
  intro t ht
  obtain ⟨p, hm, ht⟩ := List.mem_flatMap.mp ht
  have hword := (hp p hm).1
  split at ht
  · rcases List.mem_cons.mp ht with rfl | ht
    · decide
    · exact List.mem_singleton.mp ht ▸ hword
  · exact List.mem_singleton.mp ht ▸ hword

def Signature.listed (s : Signature) : List (ParamKind × String) :=
  s.positional.map (Prod.mk .positional) ++ s.rest.toList.map (Prod.mk .rest)

theorem Signature.written_listed (s : Signature) : Param.written s.listed = s.spelled := by
  simp [Signature.listed, Param.written, Signature.spelled, List.flatMap_map]

theorem Signature.names_listed (s : Signature) : s.listed.map Prod.snd = s.names := by
  simp [Signature.listed, Signature.names, Function.comp_def]

theorem Signature.isWord_spelled (s : Signature) (hp : ∀ name ∈ s.names, Param.IsPlain name) :
    ∀ t ∈ s.spelled, Text.IsWord t := by
  rw [← s.written_listed]
  refine Param.isWord_written fun p hm => hp p.2 ?_
  rw [← s.names_listed]
  exact List.mem_map_of_mem hm

theorem Signature.Describes.listed {s : Signature} {params : List Param} (hd : s.Describes params) :
    params.map (fun p => (p.kind, p.name.symbol?)) = s.listed.map fun p => (p.1, some p.2) := by
  rw [Describes] at hd
  simpa [Signature.listed, Function.comp_def] using hd

theorem Signature.spelled_inj {s s' : Signature} (hm : Param.marker ∉ s.names)
    (hm' : Param.marker ∉ s'.names) (he : s.spelled = s'.spelled) : s = s' := by
  have hparams : s.params = s'.params := by
    have hparse := Param.parse_spelled hm
    rw [he, Param.parse_spelled hm'] at hparse
    exact (Except.ok.inj hparse).symm
  exact Describes.unique (describes_params s) (hparams ▸ describes_params s')

section
variable {h : Heap} {v v' : Value} {entries : List Value} {found : List Param}
  {params : List (ParamKind × String)}

theorem Heap.paramParts_of_param? {kind : ParamKind} {key : Value} {name : String}
    (hp : h.param? v = some ⟨kind, key⟩) (hn : key.symbol? = some name) :
    h.paramParts v = .ok ((Param.written [(kind, name)]).map .str) := by
  have hkind := kindOf_of_param? hp
  obtain ⟨fields, he, hp⟩ := Option.bind_eq_some_iff.mp hp
  obtain ⟨label, -, hp⟩ := Option.bind_eq_some_iff.mp hp
  obtain ⟨kind', -, hp⟩ := Option.bind_eq_some_iff.mp hp
  obtain ⟨key', hf, hp⟩ := Option.bind_eq_some_iff.mp hp
  obtain ⟨rfl, rfl⟩ := Param.mk.inj (Option.some.inj hp)
  obtain ⟨birth, rfl⟩ := Value.symbol?_eq_some.mp hn
  have hfield := field_of_entries he hf
  cases kind' <;> simp [paramParts, hkind, hfield, nameCarried, Param.written, bind, Except.bind,
    pure, Except.pure]

theorem Heap.mapM_paramParts (hp : entries.mapM h.param? = some found)
    (hc : found.map (fun p => (p.kind, p.name.symbol?)) = params.map fun p => (p.1, some p.2)) :
    entries.mapM h.paramParts = .ok (params.map fun p => (Param.written [p]).map .str) := by
  rw [mapM_eq_some_iff] at hp
  rw [mapM_eq_ok_iff]
  induction params generalizing entries found with
  | nil =>
    obtain rfl := List.map_eq_nil_iff.mp hc
    obtain rfl := List.map_eq_nil_iff.mp hp
    rfl
  | cons p params ih =>
    obtain ⟨⟨kind, key⟩, found, rfl, hfirst, hrest⟩ := List.map_eq_cons_iff.mp hc
    obtain ⟨e, entries, rfl, he, hentries⟩ := List.map_eq_cons_iff.mp hp
    obtain ⟨rfl, hkey⟩ := Prod.mk.inj hfirst
    rw [List.map_cons, paramParts_of_param? he hkey, ih hentries hrest]
    rfl

theorem Closure.paramsText_of_carried (hp : entries.mapM h.param? = some found)
    (hc : found.map (fun p => (p.kind, p.name.symbol?)) = params.map fun p => (p.1, some p.2)) :
    paramsText h entries = .ok (" ".intercalate (Param.written params)) := by
  have hflatten : (params.map fun p => (Param.written [p]).map Value.str).flatten =
      (Param.written params).map .str := by
    simp [Param.written, List.flatMap_def, Function.comp_def]
  simp only [paramsText, Heap.mapM_paramParts hp hc, bind, Except.bind, hflatten,
    Printing.spaced_str]

theorem Closure.paramsText_of_describes {s : Signature} (hp : entries.mapM h.param? = some found)
    (hd : s.Describes found) : paramsText h entries = .ok (" ".intercalate s.spelled) := by
  rw [paramsText_of_carried hp hd.listed, s.written_listed]

-- ---------------------------------------------------------------------------
-- Records as they are given
-- ---------------------------------------------------------------------------

/-- A table with a kind and a name, in either order, and nothing else. -/
def Heap.IsRecord (h : Heap) (v : Value) (p : ParamKind × String) : Prop :=
  ∃ b₁ b₂ b₃ b₄ : Birth,
    h.obj? v = some (.table [(.text "kind" b₁, .text p.1.label b₂),
      (.text "name" b₃, .symbol p.2 b₄)]) ∨
    h.obj? v = some (.table [(.text "name" b₃, .symbol p.2 b₄),
      (.text "kind" b₁, .text p.1.label b₂)])

theorem Heap.isRecord_record {p : ParamKind × String}
    (hv : h.obj? v = some (Param.named p).record) : h.IsRecord v p :=
  ⟨none, none, none, none, .inl hv⟩

theorem Heap.IsRecord.param? {p : ParamKind × String} (hr : h.IsRecord v p) :
    ∃ birth, h.param? v = some ⟨p.1, .symbol p.2 birth⟩ := by
  obtain ⟨b₁, b₂, b₃, b₄, hv⟩ := hr
  refine ⟨b₄, ?_⟩
  rcases hv with hv | hv <;>
    simp [Heap.param?, Heap.entries?, hv, Obj.entries?, Value.text?]

theorem Heap.IsRecord.kept {h' : Heap} {p : ParamKind × String} (hr : h.IsRecord v p)
    (hk : h.Kept h') : h'.IsRecord v p := by
  obtain ⟨b₁, b₂, b₃, b₄, hv⟩ := hr
  exact ⟨b₁, b₂, b₃, b₄, hv.imp (hk v _) (hk v _)⟩

theorem Heap.sameMemberAt_tables {xs ys : Entries} (hne : v ≠ v')
    (hv : h.obj? v = some (.table xs)) (hv' : h.obj? v' = some (.table ys))
    (hl : xs.length = ys.length) (fuel : Nat) :
    h.sameMemberAt (fuel + 1) v v' = h.allFound (h.sameMemberAt fuel) ys xs := by
  simp [sameMemberAt, hne, hv, hv', Obj.entries?, hl]

/-- Records of one parameter are equal, however they are written. -/
theorem Heap.IsRecord.sameMemberAt {p : ParamKind × String} (hr : h.IsRecord v p)
    (hr' : h.IsRecord v' p) (fuel : Nat) : h.sameMemberAt (fuel + 2) v v' = .ok true := by
  by_cases hsame : v = v'
  · exact hsame ▸ h.sameMemberAt_self (fuel + 1) v
  · obtain ⟨b₁, b₂, b₃, b₄, hv⟩ := hr
    obtain ⟨b₁', b₂', b₃', b₄', hv'⟩ := hr'
    rcases hv with hv | hv <;> rcases hv' with hv' | hv' <;>
      simp [sameMemberAt_tables hsame hv hv', allFound, Value.text?, sameMemberAt_text,
        sameMemberAt_symbol, Value.symbol?, bind, Except.bind, pure, Except.pure]

theorem Heap.exists_carried (hr : List.Forall₂ h.IsRecord entries params) :
    ∃ found, entries.mapM h.param? = some found ∧
      found.map (fun p => (p.kind, p.name.symbol?)) = params.map fun p => (p.1, some p.2) := by
  simp only [mapM_eq_some_iff]
  induction hr with
  | nil => exact ⟨[], rfl, rfl⟩
  | cons he _ ih =>
    obtain ⟨birth, hparam⟩ := he.param?
    obtain ⟨found, hfound, hcarried⟩ := ih
    exact ⟨_ :: found, by rw [List.map_cons, hparam, hfound]; rfl, by rw [List.map_cons, hcarried]; rfl⟩

theorem Heap.isRecord_of_named
    (he : entries.map h.obj? = (params.map Param.named).map fun p => some p.record) :
    List.Forall₂ h.IsRecord entries params := by
  induction params generalizing entries with
  | nil =>
    obtain rfl := List.map_eq_nil_iff.mp he
    exact .nil
  | cons p params ih =>
    obtain ⟨e, entries, rfl, hfirst, hrest⟩ := List.map_eq_cons_iff.mp he
    exact .cons (isRecord_record hfirst) (ih hrest)

theorem Heap.forall₂_isRecord {entries' : List Value} (hr : List.Forall₂ h.IsRecord entries params)
    (hr' : List.Forall₂ h.IsRecord entries' params) (fuel : Nat) :
    List.Forall₂ (fun x y => h.sameMemberAt (fuel + 2) x y = .ok true) entries entries' := by
  induction hr generalizing entries' with
  | nil =>
    cases hr'
    exact .nil
  | cons he _ ih =>
    cases hr' with
    | cons he' hrest => exact .cons (he.sameMemberAt he' fuel) (ih hrest)

theorem Heap.nameOf_of_texts {members : List Value} {names : List String}
    (hm : members.map Value.text? = names.map some) :
    members.map h.nameOf = names.map .ok := by
  induction names generalizing members with
  | nil => simpa using hm
  | cons name names ih =>
    obtain ⟨v, members, rfl, hv, hrest⟩ := List.map_eq_cons_iff.mp hm
    cases v with
    | text text birth =>
      obtain rfl := Option.some.inj hv
      rw [List.map_cons, List.map_cons, nameOf_text, ih hrest]
    | _ => cases hv

end

-- ---------------------------------------------------------------------------
-- Lists
-- ---------------------------------------------------------------------------

namespace ParamList

variable {w w' : World} {records split raw list checked : Value} {entries members : List Value}
  {params : List (ParamKind × String)} {names : List String}

theorem parse_words (ho : w.heap.obj? records = some (.list entries))
    (hr : List.Forall₂ w.heap.IsRecord entries params)
    (hv : validate records w = .ok checked w') (hp : ∀ p ∈ params, Param.IsPlain p.2) :
    ∃ text, Closure.paramsText w.heap entries = .ok text ∧
      ∀ split members, w.heap.obj? split = some (.list members) →
        members.map Value.text? = (Text.words text).map some → w.Returns (parse split) records := by
  obtain ⟨found, hfound, hcarried⟩ := Heap.exists_carried hr
  have hrecords : w.heap.Records records entries found := ⟨ho, hfound⟩
  have hflags : found.map (·.kind == .rest) = params.map (·.1 == .rest) := by
    have hkinds := congrArg (List.map fun p : ParamKind × Option String => p.1 == .rest) hcarried
    simpa only [List.map_map, Function.comp_def] using hkinds
  have hrests : ¬ Misplaced true 0 (params.map (·.1 == .rest)) := by
    intro hm
    obtain ⟨fault, hrejects, -⟩ := validate_rejects hrecords (hflags ▸ hm)
    rw [hrejects] at hv
    cases hv
  refine ⟨_, Closure.paramsText_of_carried hfound hcarried, fun split members hs hm => ?_⟩
  rw [Text.words_intercalate (Param.isWord_written hp)] at hm
  have hparse : w.heap.parseParams members = .ok (params.map Param.named) := by
    rw [parseParams_of_names (Heap.nameOf_of_texts hm),
      Param.parse_written (fun p hmem => (hp p hmem).2) hrests]
    rfl
  obtain ⟨result, w'', hrun, hg, entries', hlist, hnew⟩ :=
    (parse_records (Heap.items_list hs) hparse).exists_ok (by simp)
  have hold : List.Forall₂ w''.heap.IsRecord entries params :=
    hr.imp fun _ _ he => he.kept hg.kept
  exact ⟨result, w'', hrun, hg, Heap.equal_of_lists hlist (hg.kept _ _ ho) fun fuel =>
    Heap.forall₂_isRecord (Heap.isRecord_of_named hnew) hold fuel⟩

theorem text_of_parse (hm : w.heap.items raw = .ok members)
    (hn : members.map w.heap.nameOf = names.map .ok) (hrun : parse raw w = .ok list w') :
    ∃ entries, w'.heap.obj? list = some (.list entries) ∧
      Closure.paramsText w'.heap entries = .ok (" ".intercalate names) := by
  have hparams := parseParams_of_names hn
  cases hp : Param.parse names with
  | error cause =>
    rw [hp] at hparams
    rw [parse_of_error hm hparams] at hrun
    cases hrun
  | ok found =>
    rw [hp] at hparams
    obtain ⟨-, entries, hr⟩ := (parse_ends hm hparams).ok hrun
    have hmarked : ¬ Misplaced Param.marker 1 names := by
      intro hmis
      obtain ⟨cause, hcause⟩ := Param.parse_misplaced hmis
      rw [hp] at hcause
      cases hcause
    obtain ⟨s, rfl, hs⟩ := Param.exists_spelled hmarked
    obtain rfl := Except.ok.inj ((Param.parse_spelled hs).symm.trans hp)
    exact ⟨entries, hr.list, Closure.paramsText_of_describes hr.params s.describes_params⟩

end ParamList

-- ---------------------------------------------------------------------------
-- Closures
-- ---------------------------------------------------------------------------

section
variable {w w' : World} {closure closure' : Value} {s s' : Signature}

theorem Printing.write_closure {h : Heap} {text : String} (hs : Closure.Shows h closure text)
    (readably : Bool) :
    write h readably closure = .ok (.str ("#<function (" ++ text ++ ")>")) := by
  obtain ⟨record, name, params, body, env, hclosure, hrecord⟩ := hs
  have hfield := Closure.field_params_text hrecord
  have htagged := Heap.tagged?_table hclosure
  simp only [write, writeAt, htagged, Value.str, tagged, hfield, bind, Except.bind,
    Heap.display_text]
  rfl

/-- An earlier call wrote the closure, of parameters that declared the signature. -/
def World.WroteFor (w : World) (closure : Value) (s : Signature) : Prop :=
  ∃ (w₀ w₁ : World) (params body env name : Value) (log : List Setting),
    w₀.Reachable ∧ (Call.close params body env name).Legal w₀ ∧ w₀.heap.Declares params s ∧
      Closure.make params body env name w₀ = .ok closure w₁ ∧ w₁.Run log w

theorem World.WroteFor.shows (hw : w.WroteFor closure s) :
    Closure.Shows w.heap closure (" ".intercalate s.spelled) := by
  obtain ⟨w₀, w₁, params, body, env, name, log, hreachable, -, hdeclares, hm, hr⟩ := hw
  have hsound := hreachable.sound
  obtain ⟨list, hl, hd⟩ := hdeclares.paramList
  obtain ⟨hg, h, stored, entries, -, hentries, text, htext, hshows⟩ :=
    (Closure.make_keeps hl body env name).ok hm
  have hsound₁ := hsound.effect (.grown hg)
  rw [Closure.paramsText_of_describes hentries hd] at htext
  obtain rfl := Except.ok.inj htext
  exact hshows.later hsound₁ (hr.later hsound₁)

theorem World.WroteFor.eq_of_write (hw : w.WroteFor closure s) (hw' : w'.WroteFor closure' s')
    (hs : ∀ name ∈ s.names, Param.IsPlain name) (hs' : ∀ name ∈ s'.names, Param.IsPlain name)
    {readably readably' : Bool}
    (he : Printing.write w.heap readably closure = Printing.write w'.heap readably' closure') :
    s = s' := by
  rw [Printing.write_closure hw.shows, Printing.write_closure hw'.shows] at he
  have htexts := (Value.text.inj (Except.ok.inj he)).1
  rw [String.append_left_inj, String.append_right_inj] at htexts
  have hwords := congrArg Text.words htexts
  rw [Text.words_intercalate (s.isWord_spelled hs), Text.words_intercalate (s'.isWord_spelled hs')]
    at hwords
  exact Signature.spelled_inj (fun hm => (hs _ hm).2 rfl) (fun hm => (hs' _ hm).2 rfl) hwords

end

/-- Records of parameters that are accepted and have plain names print as a text whose words are
parsed back to a list that equals them. A list that is parsed prints as the names that it was parsed
from, with spaces between them. So a closure prints the names of its parameters ever after, and
closures that print the same, then or later, were made with the same parameters, if their names are
plain. -/
theorem ParamList.survives_printing :
    (∀ (w w' : World) (records checked : Value) entries params,
      w.heap.obj? records = some (.list entries) →
      List.Forall₂ w.heap.IsRecord entries params → validate records w = .ok checked w' →
      (∀ p ∈ params, Param.IsPlain p.2) →
      ∃ text, Closure.paramsText w.heap entries = .ok text ∧
        ∀ split members, w.heap.obj? split = some (.list members) →
          members.map Value.text? = (Text.words text).map some →
          w.Returns (parse split) records) ∧
    (∀ (w w' : World) raw members names list, w.heap.items raw = .ok members →
      members.map w.heap.nameOf = names.map .ok → parse raw w = .ok list w' →
      ∃ entries, w'.heap.obj? list = some (.list entries) ∧
        Closure.paramsText w'.heap entries = .ok (" ".intercalate names)) ∧
    ∀ (w w' : World) closure closure' s s', w.WroteFor closure s → w'.WroteFor closure' s' →
      (∀ name ∈ s.names, Param.IsPlain name) → (∀ name ∈ s'.names, Param.IsPlain name) →
      ∀ readably readably',
        Printing.write w.heap readably closure =
            .ok (.str ("#<function (" ++ " ".intercalate s.spelled ++ ")>")) ∧
          (Printing.write w.heap readably closure = Printing.write w'.heap readably' closure' →
            s = s') := by
  refine ⟨fun w w' records checked entries params ho hr hv hp => parse_words ho hr hv hp,
    fun w w' raw members names list hm hn hrun => text_of_parse hm hn hrun,
    fun w w' closure closure' s s' hw hw' hs hs' readably readably' => ⟨?_, fun he => ?_⟩⟩
  · exact Printing.write_closure hw.shows readably
  · exact hw.eq_of_write hw' hs hs' he

namespace World

/-- The words of a parameter list beside the closure that was made with it. -/
def wordsListed : World := (Call.data (.list [.str "a", .str "&", .str "r"])).run.after definedLater

def closedTwice : World := (Call.close (.ref 3) (.int 0) (.ref 7) .nil).run.after wordsListed

theorem close_legal : (Call.close (.ref 3) (.int 0) (.ref 7) .nil).Legal wordsListed :=
  ⟨.inr (mem_frames_iff.mpr ⟨1, rfl⟩), by decide⟩

theorem closedTwice_wroteFor : closedTwice.WroteFor (.ref 13) ⟨["a"], some "r"⟩ := by
  have hrun : closedOver.Run _ closedTwice :=
    (definedLater_run.call (.data (.list [.str "a", .str "&", .str "r"])) trivial).call
      (.close (.ref 3) (.int 0) (.ref 7) .nil) close_legal
  exact ⟨listedNames, closedOver, .ref 8, .int 0, .ref 7, .str "f", _, listedNames_reachable,
    ⟨.inr (mem_frames_iff.mpr ⟨1, rfl⟩), by decide⟩, listedNames_declares, rfl, hrun⟩

theorem closedTwice_wroteFor_none : closedTwice.WroteFor (.ref 17) ⟨[], none⟩ := by
  have hreachable : wordsListed.Reachable :=
    definedLater_reachable.call (.data (.list [.str "a", .str "&", .str "r"])) trivial
  exact ⟨wordsListed, closedTwice, .ref 3, .int 0, .ref 7, .nil, _, hreachable, close_legal,
    .records rfl rfl (by decide), rfl, .start⟩

theorem survives_printing_closedTwice :
    Closure.paramsText closedTwice.heap [.ref 9, .ref 10] = .ok "a & r" ∧
      closedTwice.Returns (ParamList.parse (.ref 14)) (.ref 11) ∧
      (∃ list w' entries, ParamList.parse (.ref 14) closedTwice = .ok list w' ∧
        w'.heap.obj? list = some (.list entries) ∧
        Closure.paramsText w'.heap entries = .ok (" ".intercalate ["a", "&", "r"])) ∧
      Printing.write closedTwice.heap true (.ref 13) = .ok (.str "#<function (a & r)>") ∧
      Printing.write closedTwice.heap true (.ref 13) ≠
        Printing.write closedTwice.heap false (.ref 17) := by
  obtain ⟨hrecords, hraw, hclosures⟩ := ParamList.survives_printing
  have hfirst : closedTwice.heap.IsRecord (.ref 9) (.positional, "a") :=
    ⟨none, none, none, none, .inl rfl⟩
  have hsecond : closedTwice.heap.IsRecord (.ref 10) (.rest, "r") :=
    ⟨none, none, none, none, .inl rfl⟩
  obtain ⟨text, htext, hparse⟩ := hrecords closedTwice _ (.ref 11) _ [.ref 9, .ref 10]
    [(.positional, "a"), (.rest, "r")] rfl (.cons hfirst (.cons hsecond .nil)) rfl (by decide)
  obtain rfl : text = "a & r" := (Except.ok.inj htext).symm
  obtain ⟨entries, hlist, hprinted⟩ := hraw closedTwice _ (.ref 14)
    [.str "a", .str "&", .str "r"] ["a", "&", "r"] _ rfl rfl rfl
  obtain ⟨hwrite, hsame⟩ := hclosures closedTwice closedTwice _ _ _ _ closedTwice_wroteFor
    closedTwice_wroteFor_none (by decide) (by decide) true false
  refine ⟨htext, hparse (.ref 14) [.str "a", .str "&", .str "r"] rfl (by decide),
    ⟨_, _, entries, rfl, hlist, hprinted⟩, hwrite, fun he => ?_⟩
  exact absurd (hsame he) (by decide)

end World

end LexicalEnv
