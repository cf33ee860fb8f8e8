import LexicalEnv.Proofs.Reporting
import LexicalEnv.Proofs.Visible

/-!
# What a report suggests

The fault of a traced lookup carries a snapshot of what was visible, and its report
suggests the names in it that start like the missing one. Since a snapshot lists what
lookups find, each suggested name can be looked up (`Reachable.report_suggests`).
-/

namespace LexicalEnv

-- ---------------------------------------------------------------------------
-- Names that start alike
-- ---------------------------------------------------------------------------

namespace Suggestion

/-- The name starts with the first two characters of the text, or with its only one. -/
def Likens (text name : String) : Prop := text ≠ "" ∧ text.toList.take 2 <+: name.toList

instance (text name : String) : Decidable (Likens text name) :=
  inferInstanceAs (Decidable (_ ∧ _))

def alike (text : String) (names : List String) (count : Nat) : List String :=
  (sortedTexts (names.filter fun name => Likens text name)).take count

theorem alike_empty (names : List String) (count : Nat) : alike "" names count = [] := by
  simp [alike, Likens, sortedTexts]

theorem least_alike {text : String} {names : List String} {p : String → Prop} (hd : names.Nodup)
    (hp : ∀ name, name ∈ names ↔ p name) (count : Nat) :
    Text.Least (fun name => Likens text name ∧ p name) count (alike text names count) :=
  Text.least_sortedTexts (hd.filter _)
    (fun name => by rw [List.mem_filter, decide_eq_true_iff, hp, and_comm]) count

theorem fits_text {text : String} (he : text ≠ "") (name : String) (birth : Birth) :
    fits (.text (text.toList.take 2)) (.text name birth) = .ok (decide (Likens text name)) := by
  refine congrArg Except.ok ?_
  rw [Bool.eq_iff_iff, List.isPrefixOf_iff_prefix, decide_eq_true_iff, Likens, and_iff_right he]

theorem names_of_texts {h : Heap} {candidates : Value} {keys : List Value} {texts : List String}
    (hi : h.items candidates = .ok keys) (hk : keys.map Value.text? = texts.map some)
    (text : String) (count : Nat) :
    ∃ vs, names h (.str text) candidates (.int count) = .ok vs ∧
      (∀ v ∈ vs, ∃ birth, v = .text v.said birth) ∧ vs.map Value.said = alike text texts count := by
  unfold names
  by_cases he : text = ""
  · subst he
    exact ⟨[], rfl, by simp, (alike_empty texts count).symm⟩
  · have htext := Value.exists_text hk
    have hfits : keys.filterM (fits (.text (text.toList.take 2))) =
        .ok (keys.filter fun v => Likens text v.said) := by
      refine filterM_eq_ok fun v hv => ?_
      obtain ⟨birth, hsame⟩ := htext v hv
      rw [hsame]
      exact fits_text he v.said birth
    have hfitting : (keys.filter fun v => Likens text v.said).map Value.text? =
        (texts.filter fun name => Likens text name).map some := by
      rw [← Value.map_said hk, List.filter_map, List.map_map]
      refine List.map_congr_left fun v hv => ?_
      obtain ⟨birth, hsame⟩ := htext v (List.mem_of_mem_filter hv)
      rw [hsame]
      rfl
    obtain ⟨sorted, hsorted, hperm, hsaid⟩ := h.sorted_of_texts hfitting
    have ht : h.truthy (.str text) = true := by simp [Heap.truthy, Value.str, he]
    rw [if_pos ht]
    refine ⟨sorted.take count, ?_, ?_, ?_⟩
    · exact bind_ok.mpr ⟨_, rfl, bind_ok.mpr ⟨_, hi, bind_ok.mpr ⟨_, hfits, bind_ok.mpr ⟨_, hsorted,
        Sequence.takeUpTo_nat sorted count⟩⟩⟩⟩
    · intro v hv
      exact Value.exists_text hfitting v (hperm.mem_iff.mp (List.mem_of_mem_take hv))
    · rw [List.map_take, hsaid, alike]

end Suggestion

namespace Report

def suggestionLines (names : List String) : List String :=
  if names = [] then []
  else ["  Suggestions:"] ++ names.map fun name => "    - did you mean '" ++ name ++ "'?"

variable {h : Heap} {snapshot : Value} {entries : Entries} {names : List String}

theorem suggestionText_eq (hm : h.MapsTexts snapshot entries names) (symbol : String) :
    suggestionText h (.str symbol) snapshot =
      .ok (ended (suggestionLines (Suggestion.alike symbol names 3))) := by
  unfold suggestionText
  by_cases hz : entries = []
  · have hfalse : ¬ h.truthy snapshot = true := fun ht =>
      (Heap.truthy_iff_of_entries hm.mapping).mp ht hz
    have hnone : Suggestion.alike symbol names 3 = [] := by
      have hnames : names = [] := by simpa [hz] using hm.keys.symm
      simp [hnames, Suggestion.alike, sortedTexts]
    rw [if_neg hfalse, hnone]
    rfl
  · obtain ⟨vs, hrun, htexts, hsaid⟩ :=
      Suggestion.names_of_texts (Heap.items_of_entries hm.mapping) hm.texts symbol 3
    have hlines : (vs.map fun v => "    - did you mean '" ++ h.display v ++ "'?\n") =
        ((vs.map Value.said).map fun name => "    - did you mean '" ++ name ++ "'?").map (· ++ "\n") := by
      rw [List.map_map, List.map_map]
      refine List.map_congr_left fun v hv => ?_
      obtain ⟨birth, hsame⟩ := htexts v hv
      rw [hsame, h.display_text]
      simp [String.append_assoc, Value.said]
    rw [if_pos ((Heap.truthy_iff_of_entries hm.mapping).mpr hz), ← hsaid]
    refine bind_ok.mpr ⟨vs, hrun, ?_⟩
    rw [hlines]
    cases vs with
    | nil => rfl
    | cons v vs =>
      have hshown : suggestionLines ((v :: vs).map Value.said) = _ := if_neg (List.cons_ne_nil _ _)
      rw [hshown, ended_append]
      rfl

end Report

def Fault.missing (name : String) (snapshot : Value) : Fault :=
  .unbound (.str name) snapshot ("'" ++ name ++ "' not found")

def FaultRecord.missing (name : String) : Fields :=
  ⟨.str "Unbound symbol", .str ("'" ++ name ++ "' not found"), .str name, .nil, .nil⟩

theorem FaultRecord.Fields.make_mapsTexts (f : Fields) {w : World} {snapshot : Value}
    {entries : Entries} {names : List String} (hm : w.heap.MapsTexts snapshot entries names) :
    ∃ record visible w', f.make snapshot w = .ok record w' ∧ w.Grows w' ∧
      w'.heap.obj? record = some (.table (f.entries visible)) ∧
      w'.heap.MapsTexts visible entries names := by
  obtain ⟨record, visible, w', hrun, hgrows, hrecord, hvisible⟩ := f.make_run snapshot w
  refine ⟨record, visible, w', hrun, hgrows, hrecord, ?_⟩
  split at hvisible
  · rw [hvisible]
    exact hm.kept hgrows.kept
  · rename_i hfalse
    have hnone : entries = [] := Heap.eq_nil_of_entries? hm.mapping (Bool.eq_false_iff.mpr hfalse)
    refine ⟨?_, hm.keys, hm.distinct⟩
    rw [hnone, Heap.entries?, hvisible]
    rfl

namespace Report

theorem ofValue_missing {u : World} {v snapshot : Value} {entries : Entries} {names : List String}
    {name : String} (hv : u.heap.obj? v = some (.failure (.missing name snapshot)))
    (hm : u.heap.MapsTexts snapshot entries names) :
    ∃ text u', ofValue v u =
        .ok (text ++ ended (suggestionLines (Suggestion.alike name names 3))) u' ∧ u.Grows u' ∧
      Accounts u'.heap (FaultRecord.missing name) entries 10 text := by
  obtain ⟨record, visible, u', hrun, hgrows, hrecord, hvisible⟩ :=
    (FaultRecord.missing name).make_mapsTexts hm
  obtain ⟨text, htext, haccounts⟩ := ofRecord_accounts hrecord hvisible 10 none
  refine ⟨text, u', ?_, hgrows, haccounts⟩
  have hfault : FaultRecord.faultOf v u = .ok (.missing name snapshot) u := by
    have hreported : FaultRecord.reported? u.heap v = some (.missing name snapshot) := by
      rw [FaultRecord.reported?, hv]
      rfl
    rw [FaultRecord.faultOf, Action.run_bind, Action.run_view, hreported]
    rfl
  have hread : Action.read (ofRecord · record usualLimit) u' = .ok text u' := Action.run_read htext
  have hsuggested : Action.read (suggestionText · (.str name) snapshot) u' = .ok _ u' :=
    Action.run_read (suggestionText_eq (hm.kept hgrows.kept) name)
  have hrecorded : FaultRecord.ofFault (.missing name snapshot) u = .ok record u' := hrun
  simp only [ofValue, Action.run_bind, hfault, hrecorded, hread]
  simp only [Fault.missing, Action.run_bind, hsuggested]
  rfl

end Report

-- ---------------------------------------------------------------------------
-- Lookups that fail
-- ---------------------------------------------------------------------------

/-- The names are the first three of those that start like the missing one and are bound in a frame
from `env` outwards. All of them can be looked up, and the missing one is none of them. -/
structure Frame.Suggests (w : World) (env : Value) (missing : String) (names : List String) :
    Prop where
  least : Text.Least (fun name => Suggestion.Likens missing name ∧
    ∃ f, Frame.Nearest w.heap env name f) 3 names
  usable : ∀ name ∈ names, ∃ value, (Frame.get env (.str name) false).answer w = .ok value
  other : missing ∉ names
  some_iff : names ≠ [] ↔
    ∃ name, Suggestion.Likens missing name ∧ ∃ f, Frame.Nearest w.heap env name f

section
variable {h : Heap} {env : Value} {frames : List Value}

theorem Heap.Chain.mem_overlaid_iff (hc : h.Chain env frames) (name : String) :
    name ∈ Entries.names (Frame.overlaid h frames.reverse) ↔ ∃ f, Frame.Nearest h env name f := by
  rw [hc.exists_nearest_iff, ← hc.find?_overlaid h, Value.sym, find?_isSome_iff]

theorem Heap.Chain.mapsTexts {h' : Heap} {table : Value} (hc : h.Chain env frames)
    (ht : h'.obj? table = some (.table (Entries.texts (Frame.overlaid h frames.reverse)))) :
    h'.MapsTexts table (Entries.texts (Frame.overlaid h frames.reverse))
      (Entries.names (Frame.overlaid h frames.reverse)) := by
  have hnamed := hc.overlaid_named
  refine ⟨by rw [Heap.entries?, ht]; rfl, ?_, hnamed.distinct⟩
  have hkeys := congrArg (List.map Value.text?) (Entries.texts_keys hnamed.symbols)
  rw [List.map_map, List.map_map] at hkeys
  exact hkeys

end

theorem Heap.Chain.suggests {w : World} {env : Value} {frames : List Value} {x : String}
    (hc : w.heap.Chain env frames) (hl : frames.length ≤ w.heap.size)
    (hn : Frame.resolve? w.heap x frames = none) :
    Frame.Suggests w env x
      (Suggestion.alike x (Entries.names (Frame.overlaid w.heap frames.reverse)) 3) := by
  have hleast : Text.Least (fun name => Suggestion.Likens x name ∧
      ∃ f, Frame.Nearest w.heap env name f) 3 _ :=
    Suggestion.least_alike hc.overlaid_named.distinct hc.mem_overlaid_iff 3
  refine ⟨hleast, fun name hm => ?_, fun hm => ?_, hleast.exists_iff (by decide)⟩
  · obtain ⟨value, hvalue⟩ :=
      Option.isSome_iff_exists.mp (hc.exists_nearest_iff.mp (hleast.of_mem hm).2)
    have hget := hc.get_answer hl (w.heap.nameOf_text name none)
    rw [hvalue] at hget
    exact ⟨value, hget⟩
  · have hsome := hc.exists_nearest_iff.mp (hleast.of_mem hm).2
    rw [hn] at hsome
    cases hsome

namespace World

variable {w : World} {env key : Value} {x : String}

/-- The fault of a traced lookup that fails can be reported for as long as its snapshot is left
alone. The report accounts for all that was visible and suggests names that can be looked up. -/
theorem Reachable.report_suggests (hw : w.Reachable) (he : w.IsScope env)
    (hk : w.heap.nameOf key = .ok x) (hn : Frame.Unbound w.heap env x) :
    ∃ snapshot w' entries, Frame.get env key true w = .error (.missing x snapshot) w' ∧
      w'.heap.obj? snapshot = some (.table entries) ∧ Frame.Lists w env entries ∧
      ∀ u v, u.heap.obj? snapshot = w'.heap.obj? snapshot →
        u.heap.obj? v = some (.failure (.missing x snapshot)) →
        ∃ text names u', Report.ofValue v u =
            .ok (text ++ Report.ended (Report.suggestionLines names)) u' ∧ u.Grows u' ∧
          Report.Accounts u'.heap (FaultRecord.missing x) entries 10 text ∧
          Frame.Suggests w env x names := by
  have hs := hw.sound
  obtain ⟨frames, hc, hl, -⟩ := hs.chain he
  have hsize := Nat.le_trans hl hs.frames_le
  have hnone := hc.unbound_iff_resolve?.mp hn
  obtain ⟨w', hrun, hheap⟩ := hc.get_traced_unbound hsize hk hnone
  have htable : w'.heap.obj? (.ref w.heap.size) = some (.table _) := hheap ▸ Heap.obj?_add_self _ _
  refine ⟨_, w', _, hrun, htable, hc.lists hsize, fun u v hsnapshot hv => ?_⟩
  obtain ⟨text, u', hreport, hgrows, haccounts⟩ :=
    Report.ofValue_missing hv (hc.mapsTexts (hsnapshot.trans htable))
  exact ⟨text, _, u', hreport, hgrows, haccounts, hc.suggests hsize hnone⟩

def likened : World := (Call.set (.ref 5) (.str "count") (.int 1) false).run.after twoFrames

theorem report_suggests_likened : likened.Reachable ∧ likened.IsScope (.ref 7) ∧
    likened.heap.nameOf (.str "cost") = .ok "cost" ∧
    Frame.Unbound likened.heap (.ref 7) "cost" ∧
    ∃ snapshot w' v u text names u',
      Frame.get (.ref 7) (.str "cost") true likened = .error (.missing "cost" snapshot) w' ∧
      Action.alloc (.failure (.missing "cost" snapshot)) w' = .ok v u ∧
      Report.ofValue v u = .ok (text ++ Report.ended (Report.suggestionLines names)) u' ∧
      Frame.Suggests likened (.ref 7) "cost" names ∧ names ≠ [] := by
  have hreachable : likened.Reachable :=
    twoFrames_reachable.call (.set (.ref 5) (.str "count") (.int 1) false)
      (mem_frames_iff.mpr ⟨0, rfl⟩)
  have hscope : likened.IsScope (.ref 7) := .inr (mem_frames_iff.mpr ⟨1, rfl⟩)
  have hname : likened.heap.nameOf (.str "cost") = .ok "cost" := rfl
  obtain ⟨frames, hc, hl, -⟩ := hreachable.sound.chain hscope
  have hget {key : Value} {name : String} (hk : likened.heap.nameOf key = .ok name) :=
    hc.get_answer (Nat.le_trans hl hreachable.sound.frames_le) hk
  have hunbound : Frame.Unbound likened.heap (.ref 7) "cost" := by
    have hcost : (Frame.get (.ref 7) (.str "cost") false).answer likened = .error _ := rfl
    rw [hget hname] at hcost
    rw [hc.unbound_iff_resolve?]
    cases hresolve : Frame.resolve? likened.heap "cost" frames with
    | none => rfl
    | some value => simp [hresolve] at hcost
  have hcount : ∃ f, Frame.Nearest likened.heap (.ref 7) "count" f := by
    have hn : likened.heap.nameOf (.str "count") = .ok "count" := rfl
    have hone : (Frame.get (.ref 7) (.str "count") false).answer likened = .ok (.int 1) := rfl
    rw [hget hn] at hone
    rw [hc.exists_nearest_iff]
    cases hresolve : Frame.resolve? likened.heap "count" frames with
    | none => simp [hresolve] at hone
    | some value => rfl
  obtain ⟨snapshot, w', entries, hrun, htable, -, hreports⟩ :=
    Reachable.report_suggests hreachable hscope hname hunbound
  obtain ⟨text, names, u', hreport, -, -, hsuggests⟩ :=
    hreports { w' with heap := w'.heap.add (.failure (.missing "cost" snapshot)) } (.ref w'.heap.size)
      ((Heap.kept_add _ _ _ _ htable).trans htable.symm) (Heap.obj?_add_self _ _)
  exact ⟨hreachable, hscope, hname, hunbound, snapshot, w', _, _, text, names, u', hrun, rfl, hreport,
    hsuggests, hsuggests.some_iff.mpr ⟨"count", by decide, hcount⟩⟩

end World

end LexicalEnv
