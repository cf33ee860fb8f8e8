import LexicalEnv.Proofs.Filling
import LexicalEnv.Proofs.Parsing
import LexicalEnv.Report.Text

/-!
# What a report shows

A report shows the bindings of its snapshot in the order of their names, each on a
line of its own, up to a limit, and tells how many more there are. Nothing is left
out unsaid, and no value breaks a line (`Report.bindings_accounted`).
-/

namespace LexicalEnv

-- ---------------------------------------------------------------------------
-- The least of some texts
-- ---------------------------------------------------------------------------

namespace Text

/-- The first `count` of the texts with a property, in ascending order, each once. -/
def Least (p : String → Prop) (count : Nat) (texts : List String) : Prop :=
  ∃ all : List String, all.Pairwise (fun s t => compare s t = .lt) ∧ (∀ s, s ∈ all ↔ p s) ∧
    texts = all.take count

theorem compare_eq_lt {s t : String} (hle : atMost s t = true) (hne : s ≠ t) :
    compare s t = .lt := by
  cases hc : compare s t with
  | lt => rfl
  | eq => exact absurd (String.toList_injective (eq_of_compareChars hc)) hne
  | gt => simp [atMost, hc] at hle

theorem least_sortedTexts {texts : List String} {p : String → Prop} (hd : texts.Nodup)
    (hp : ∀ s, s ∈ texts ↔ p s) (count : Nat) : Least p count ((sortedTexts texts).take count) := by
  have hperm := sortedTexts_perm texts
  refine ⟨sortedTexts texts, ?_, fun s => hperm.mem_iff.trans (hp s), rfl⟩
  have hnodup : (sortedTexts texts).Nodup := hperm.nodup_iff.mpr hd
  exact (List.Pairwise.and (sortedTexts_ascending texts) hnodup).imp fun h => compare_eq_lt h.1 h.2

theorem Least.of_mem {p : String → Prop} {count : Nat} {texts : List String} {s : String}
    (hl : Least p count texts) (hs : s ∈ texts) : p s := by
  obtain ⟨all, -, hall, rfl⟩ := hl
  exact (hall s).mp (List.mem_of_mem_take hs)

theorem Least.exists_iff {p : String → Prop} {count : Nat} {texts : List String}
    (hl : Least p count texts) (hc : 0 < count) : texts ≠ [] ↔ ∃ s, p s := by
  obtain ⟨all, -, hall, rfl⟩ := hl
  rw [Ne, List.take_eq_nil_iff, not_or, and_iff_right (Nat.ne_of_gt hc)]
  constructor
  · intro hne
    obtain ⟨s, hs⟩ := List.exists_mem_of_ne_nil all hne
    exact ⟨s, (hall s).mp hs⟩
  · rintro ⟨s, hs⟩
    exact List.ne_nil_of_mem ((hall s).mpr hs)

end Text

def Value.said (v : Value) : String := v.text?.getD ""

theorem Value.exists_text {vs : List Value} {texts : List String}
    (hv : vs.map Value.text? = texts.map some) : ∀ v ∈ vs, ∃ birth, v = .text v.said birth := by
  intro v hm
  have hmem : v.text? ∈ texts.map some := hv ▸ List.mem_map_of_mem hm
  obtain ⟨text, -, htext⟩ := List.mem_map.mp hmem
  cases v with
  | text text birth => exact ⟨birth, rfl⟩
  | _ => cases htext

theorem Value.map_said {vs : List Value} {texts : List String}
    (hv : vs.map Value.text? = texts.map some) : vs.map Value.said = texts := by
  have hget := congrArg (List.map (·.getD "")) hv
  rw [List.map_map, List.map_map, Function.comp_def] at hget
  exact hget.trans (List.map_id texts)

theorem Heap.sorted_of_texts (h : Heap) {vs : List Value} {texts : List String}
    (hv : vs.map Value.text? = texts.map some) :
    ∃ ws, h.sorted vs = .ok ws ∧ ws.Perm vs ∧ ws.map Value.said = sortedTexts texts := by
  have htext := Value.exists_text hv
  have hall : vs.all (·.text?.isSome) = true := List.all_eq_true.mpr fun v hm => by
    obtain ⟨birth, hv⟩ := htext v hm
    rw [hv, Value.text?_text, Option.isSome_some]
  refine ⟨vs.mergeSort Value.textAtMost, by rw [sorted, if_pos hall]; rfl,
    List.mergeSort_perm .., ?_⟩
  rw [List.map_mergeSort, Value.map_said hv, sortedTexts]
  intro v hm v' hm'
  obtain ⟨birth, hv⟩ := htext v hm
  obtain ⟨birth', hv'⟩ := htext v' hm'
  rw [hv, hv']
  rfl

-- ---------------------------------------------------------------------------
-- Records
-- ---------------------------------------------------------------------------

namespace FaultRecord

/-- The fields of a record but for its snapshot. -/
structure Fields where
  kind : Value
  message : Value
  symbol : Value
  expected : Value
  got : Value
  deriving DecidableEq, Repr

def Fields.entries (f : Fields) (visible : Value) : Entries :=
  [(.str "kind", f.kind), (.str "message", f.message), (.str "symbol", f.symbol),
    (.str "expected", f.expected), (.str "got", f.got), (.str "env_snapshot", visible)]

def Fields.make (f : Fields) (snapshot : Value) : Action Value :=
  FaultRecord.make f.kind f.message f.symbol f.expected f.got snapshot

def Fields.arityLines (f : Fields) (h : Heap) : String :=
  if f.expected = .nil then ""
  else "  Expected: " ++ h.display f.expected ++ " arguments\n  Got: " ++ h.display f.got ++ "\n"

def Fields.head (f : Fields) (h : Heap) : String :=
  h.display f.kind ++ ": " ++ h.display f.message ++ "\n" ++ Report.symbolText h f.symbol ++
    f.arityLines h

theorem Fields.make_run (f : Fields) (snapshot : Value) (w : World) :
    ∃ record visible w', f.make snapshot w = .ok record w' ∧ w.Grows w' ∧
      w'.heap.obj? record = some (.table (f.entries visible)) ∧
      if w.heap.truthy snapshot then visible = snapshot else w'.heap.obj? visible = some (.table []) := by
  unfold make FaultRecord.make
  simp only [Action.run_bind, Action.run_view]
  cases w.heap.truthy snapshot with
  | true =>
    exact ⟨_, snapshot, _, rfl, ⟨w.heap.kept_add _, rfl, rfl⟩, Heap.obj?_add_self _ _, rfl⟩
  | false =>
    exact ⟨_, .ref w.heap.size, _, rfl, ⟨(w.heap.kept_add _).trans (Heap.kept_add _ _), rfl, rfl⟩,
      Heap.obj?_add_self _ _, Heap.kept_add _ _ _ _ (Heap.obj?_add_self _ _)⟩

end FaultRecord

structure Heap.MapsTexts (h : Heap) (v : Value) (entries : Entries) (names : List String) : Prop where
  mapping : h.entries? v = some entries
  keys : entries.map (·.1.text?) = names.map some
  distinct : names.Nodup

theorem Heap.MapsTexts.texts {h : Heap} {v : Value} {entries : Entries} {names : List String}
    (hm : h.MapsTexts v entries names) :
    (entries.map Prod.fst).map Value.text? = names.map some := by
  rw [List.map_map]
  exact hm.keys

theorem Heap.MapsTexts.kept {h h' : Heap} {v : Value} {entries : Entries} {names : List String}
    (hm : h.MapsTexts v entries names) (hk : h.Kept h') : h'.MapsTexts v entries names :=
  ⟨hk.entries?_eq hm.mapping, hm.keys, hm.distinct⟩

theorem Heap.items_of_entries {h : Heap} {v : Value} {entries : Entries}
    (he : h.entries? v = some entries) : h.items v = .ok (entries.map Prod.fst) := by
  obtain ⟨o, ho, hentries⟩ := Option.bind_eq_some_iff.mp he
  obtain ⟨a, rfl, -⟩ := exists_ref_of_obj? ho
  cases o <;> simp_all [items, Obj.entries?, pure, Except.pure]

theorem Heap.exists_find?_text_iff (h : Heap) {entries : Entries} {name : String} {birth : Birth} :
    (∃ value, h.find? entries (.text name birth) = some value) ↔
      some name ∈ entries.map (·.1.text?) := by
  induction entries with
  | nil => simp
  | cons e rest ih =>
    obtain ⟨key, value⟩ := e
    rw [find?_cons_text, List.map_cons, List.mem_cons, ← ih]
    by_cases hk : key.text? = some name
    · simp [hk]
    · simp [hk, Ne.symm hk]

theorem Heap.MapsTexts.exists_iff {h : Heap} {v : Value} {entries : Entries} {names : List String}
    (hm : h.MapsTexts v entries names) (name : String) (birth : Birth) :
    (∃ value, h.find? entries (.text name birth) = some value) ↔ name ∈ names := by
  rw [h.exists_find?_text_iff, hm.keys, List.mem_map_of_injective fun _ _ => Option.some.inj]

namespace Report

variable {h : Heap} {f : FaultRecord.Fields} {record visible : Value} {entries : Entries}

theorem ofRecord_eq {limit : Value} {environment : String}
    (ho : h.obj? record = some (.table (f.entries visible)))
    (he : (if h.truthy visible then environmentText h visible limit else pure "") = .ok environment) :
    ofRecord h record limit = .ok (f.head h ++ environment) := by
  have hentries : h.entries? record = some (f.entries visible) := by rw [Heap.entries?, ho]; rfl
  have hfield {name : String} {value : Value} (hf : h.find? (f.entries visible) (.str name) = some value) :
      h.field record name = .ok value := Heap.field_of_entries hentries hf
  have harity : arityText h record = .ok (f.arityLines h) := by
    rw [arityText, hfield rfl, FaultRecord.Fields.arityLines]
    by_cases hn : f.expected = .nil
    · rw [if_pos hn]
      exact bind_ok.mpr ⟨f.expected, rfl, if_pos hn⟩
    · rw [if_neg hn]
      exact bind_ok.mpr ⟨f.expected, rfl, (if_neg hn).trans (bind_ok.mpr ⟨f.got, hfield rfl, rfl⟩)⟩
  unfold ofRecord
  refine bind_ok.mpr ⟨f.kind, hfield rfl, bind_ok.mpr ⟨f.message, hfield rfl,
    bind_ok.mpr ⟨f.symbol, hfield rfl, bind_ok.mpr ⟨_, harity, bind_ok.mpr ⟨visible, hfield rfl, ?_⟩⟩⟩⟩⟩
  split at he
  · rename_i ht
    rw [if_pos ht]
    exact bind_ok.mpr ⟨environment, he, rfl⟩
  · rename_i hf
    rw [if_neg hf]
    exact bind_ok.mpr ⟨environment, he, rfl⟩

-- ---------------------------------------------------------------------------
-- The environment
-- ---------------------------------------------------------------------------

def ended (lines : List String) : String := String.join (lines.map (· ++ "\n"))

def bindingLines (shown : List (String × String)) : List String :=
  shown.map fun line => "    " ++ line.1 ++ " = " ++ line.2

def hiddenLines (hidden : Nat) : List String :=
  if hidden = 0 then [] else ["    ... and " ++ Nat.repr hidden ++ " more bindings"]

theorem ended_append (lines lines' : List String) :
    ended (lines ++ lines') = ended lines ++ ended lines' := by
  rw [ended, List.map_append, String.join_append]
  rfl

/-- Of the names that are bound the first so many are shown in order, each with the beginning of the
display of its value. -/
structure Shows (h : Heap) (entries : Entries) (limit : Nat) (shown : List (String × String)) :
    Prop where
  names : Text.Least (fun name => ∃ value, h.find? entries (.str name) = some value) limit
    (shown.map Prod.fst)
  count : shown.length = min entries.length limit
  texts : ∀ line ∈ shown, ∃ value, h.find? entries (.str line.1) = some value ∧
    line.2.toList = ((h.display value).toList.map fun c => if c = '\n' then ' ' else c).take 60

variable {names : List String} {limit : Nat} {birth : Birth}

theorem bindingLine_eq {name : String} {value : Value}
    (he : h.entries? visible = some entries) (hf : h.find? entries (.text name birth) = some value) :
    bindingLine h visible (.text name birth) =
      .ok ("    " ++ name ++ " = " ++ cut (h.display value) ++ "\n") :=
  bind_ok.mpr ⟨value, Heap.subscript_of_entries he hf, by rw [h.display_text]; rfl⟩

theorem hiddenLine_eq (h : Heap) (total limit : Nat) (birth : Birth) :
    hiddenLine h total (.integer limit birth) = .ok (ended (hiddenLines (total - limit))) := by
  have hless : h.less (.integer limit birth) (.int total) = .ok (decide ((limit : Int) < total)) :=
    h.less_integer limit total birth none
  refine bind_ok.mpr ⟨_, hless, ?_⟩
  by_cases hlt : limit < total
  · have hcount : integerText ((total : Int) - limit) = Nat.repr (total - limit) := by
      rw [integerText, if_neg (by omega), String.empty_append]
      congr 1
      omega
    have hline : ended (hiddenLines (total - limit)) =
        "    ... and " ++ Nat.repr (total - limit) ++ " more bindings\n" := by
      rw [hiddenLines, if_neg (by omega)]
      simp [ended, String.append_assoc]
    rw [hline, ← hcount]
    simp only [Int.ofNat_lt.mpr hlt, decide_true, if_true]
    rfl
  · have hnone : hiddenLines (total - limit) = [] := if_pos (by omega)
    simp only [hnone, Int.ofNat_lt, hlt, decide_false, Bool.false_eq_true, if_false]
    rfl

theorem mapM_bindingLine (he : h.entries? visible = some entries) {keys : List Value}
    (hk : ∀ key ∈ keys, ∃ birth value, key = .text key.said birth ∧
      h.find? entries (.text key.said birth) = some value) :
    ∃ shown : List (String × String), shown.map Prod.fst = keys.map Value.said ∧
      (∀ line ∈ shown, ∃ value, h.find? entries (.str line.1) = some value ∧
        line.2 = cut (h.display value)) ∧
      keys.mapM (bindingLine h visible) =
        .ok ((bindingLines shown).map (· ++ "\n")) := by
  simp only [mapM_eq_ok_iff]
  induction keys with
  | nil => exact ⟨[], rfl, by simp, rfl⟩
  | cons key keys ih =>
    obtain ⟨⟨birth, value, hkey, hvalue⟩, hk⟩ := List.forall_mem_cons.mp hk
    obtain ⟨shown, hnames, htexts, hlines⟩ := ih hk
    refine ⟨(key.said, cut (h.display value)) :: shown, by rw [List.map_cons, List.map_cons, hnames],
      List.forall_mem_cons.mpr ⟨⟨value, ?_, rfl⟩, htexts⟩, ?_⟩
    · rw [Value.str, h.find?_text h _ _ none birth, hvalue]
    · rw [List.map_cons, hlines, hkey, bindingLine_eq he hvalue]
      rfl

theorem environmentText_eq (hm : h.MapsTexts visible entries names) (limit : Nat) (birth : Birth) :
    ∃ shown, Shows h entries limit shown ∧
      environmentText h visible (.integer limit birth) = .ok ("  Environment at error:\n" ++
        ended (bindingLines shown ++ hiddenLines (entries.length - limit))) := by
  have hitems : h.items visible = .ok (entries.map Prod.fst) := Heap.items_of_entries hm.mapping
  obtain ⟨keys, hsorted, hperm, hsaid⟩ := h.sorted_of_texts hm.texts
  have hkeys : ∀ key ∈ keys.take limit, ∃ birth value, key = .text key.said birth ∧
      h.find? entries (.text key.said birth) = some value := by
    intro key hkey
    have hkey := List.mem_of_mem_take hkey
    obtain ⟨birth, hsame⟩ := Value.exists_text hm.texts key (hperm.mem_iff.mp hkey)
    have hname : key.said ∈ sortedTexts names := hsaid ▸ List.mem_map_of_mem hkey
    obtain ⟨value, hvalue⟩ := (hm.exists_iff _ birth).mpr ((sortedTexts_perm names).mem_iff.mp hname)
    exact ⟨birth, value, hsame, hvalue⟩
  obtain ⟨shown, hnames, hvalues, hlines⟩ := mapM_bindingLine hm.mapping hkeys
  refine ⟨shown, ⟨?_, ?_, ?_⟩, ?_⟩
  · rw [hnames, List.map_take, hsaid]
    exact Text.least_sortedTexts hm.distinct (fun name => (hm.exists_iff name none).symm) limit
  · have hcount := congrArg List.length hnames
    rw [List.length_map, List.length_map, List.length_take, hperm.length_eq, List.length_map] at hcount
    rw [hcount, Nat.min_comm]
  · intro line hline
    obtain ⟨value, hvalue, htext⟩ := hvalues line hline
    exact ⟨value, hvalue, by rw [htext, cut, String.toList_ofList]; rfl⟩
  · have htake : Sequence.takeUpTo keys (.integer limit birth) = .ok (keys.take limit) :=
      Sequence.takeUpTo_nat keys limit
    refine bind_ok.mpr ⟨_, hitems, bind_ok.mpr ⟨keys, hsorted, bind_ok.mpr ⟨_, htake,
      bind_ok.mpr ⟨_, hlines, bind_ok.mpr ⟨_, hiddenLine_eq h _ limit birth, ?_⟩⟩⟩⟩⟩
    rw [hperm.length_eq, List.length_map, ended_append, ← String.append_assoc]
    rfl

-- Lines that stay whole.

theorem Shows.short {shown : List (String × String)} (hs : Shows h entries limit shown) :
    ∀ line ∈ shown, line.2.toList.length ≤ 60 ∧ '\n' ∉ line.2.toList := by
  intro line hm
  obtain ⟨value, -, htext⟩ := hs.texts line hm
  rw [htext]
  refine ⟨List.length_take_le .., fun hline => ?_⟩
  obtain ⟨c, -, hc⟩ := List.mem_map.mp (List.mem_of_mem_take hline)
  split at hc
  · cases hc
  · contradiction

theorem Shows.unbroken {shown : List (String × String)} (hs : Shows h entries limit shown)
    (hn : ∀ name value, h.find? entries (.str name) = some value → '\n' ∉ name.toList) :
    ∀ line ∈ bindingLines shown, '\n' ∉ line.toList := by
  intro line hline
  obtain ⟨parts, hparts, rfl⟩ := List.mem_map.mp hline
  obtain ⟨value, hvalue, -⟩ := hs.texts parts hparts
  simpa [hn _ _ hvalue] using (hs.short parts hparts).2

theorem newline_not_mem_hiddenLines (hidden : Nat) :
    ∀ line ∈ hiddenLines hidden, '\n' ∉ line.toList := by
  intro line hm
  unfold hiddenLines at hm
  split at hm
  · cases hm
  · obtain rfl := List.mem_singleton.mp hm
    have hdigits : '\n' ∉ (Nat.repr hidden).toList := by
      rw [Nat.repr_eq_ofList_toDigits, String.toList_ofList]
      intro hc
      exact absurd (Nat.isDigit_of_mem_toDigits (by omega) (by omega) hc) (by decide)
    simpa using hdigits

end Report

theorem Heap.truthy_iff_of_entries {h : Heap} {v : Value} {entries : Entries}
    (he : h.entries? v = some entries) : h.truthy v = true ↔ entries ≠ [] := by
  constructor
  · rintro ht rfl
    obtain ⟨o, ho, hentries⟩ := Option.bind_eq_some_iff.mp he
    obtain ⟨a, rfl, -⟩ := exists_ref_of_obj? ho
    cases o <;> simp_all [truthy, Obj.entries?]
  · intro hne
    by_contra hf
    exact hne (eq_nil_of_entries? he (Bool.eq_false_iff.mpr hf))

namespace Report

/-- The lines of a report behind those that tell what went wrong are those of the shown bindings, and
one for all others. No value breaks a line. -/
structure Accounts (h : Heap) (f : FaultRecord.Fields) (entries : Entries) (limit : Nat)
    (text : String) : Prop where
  empty : entries = [] → text = f.head h
  environment : entries ≠ [] → ∃ shown hidden, Shows h entries limit shown ∧
    shown.length + hidden = entries.length ∧ (hidden ≠ 0 ↔ limit < entries.length) ∧
    text = f.head h ++ ("  Environment at error:\n" ++
      ended (bindingLines shown ++ hiddenLines hidden)) ∧
    (∀ line ∈ shown, line.2.toList.length ≤ 60 ∧ '\n' ∉ line.2.toList) ∧
    ((∀ name value, h.find? entries (.str name) = some value → '\n' ∉ name.toList) →
      ∀ line ∈ bindingLines shown ++ hiddenLines hidden, '\n' ∉ line.toList)

theorem ofRecord_accounts (ho : h.obj? record = some (.table (f.entries visible)))
    (hm : h.MapsTexts visible entries names) (limit : Nat) (birth : Birth) :
    ∃ text, ofRecord h record (.integer limit birth) = .ok text ∧
      Accounts h f entries limit text := by
  by_cases hz : entries = []
  · have hfalse : ¬ h.truthy visible = true := fun ht =>
      (Heap.truthy_iff_of_entries hm.mapping).mp ht hz
    refine ⟨f.head h ++ "", ofRecord_eq ho (if_neg hfalse), fun _ => String.append_empty, ?_⟩
    exact fun hne => absurd hz hne
  · obtain ⟨shown, hs, htext⟩ := environmentText_eq hm limit birth
    have htrue := (Heap.truthy_iff_of_entries hm.mapping).mpr hz
    refine ⟨_, ofRecord_eq ho ((if_pos htrue).trans htext), fun he => absurd he hz, fun _ => ?_⟩
    have hcount := hs.count
    refine ⟨shown, entries.length - limit, hs, by omega, by omega, rfl, hs.short, ?_⟩
    intro hn line hline
    rcases List.mem_append.mp hline with hline | hline
    · exact hs.unbroken hn line hline
    · exact newline_not_mem_hiddenLines _ line hline

/-- Whatever a record was made with, and however the heap has changed since, a report of it accounts
for all bindings that its snapshot has by then, up to whatever limit they are shown. -/
theorem bindings_accounted (f : FaultRecord.Fields) (snapshot : Value) (w : World) :
    ∃ record visible w', f.make snapshot w = .ok record w' ∧ w.Grows w' ∧
      (if w.heap.truthy snapshot then visible = snapshot
        else w'.heap.obj? visible = some (.table [])) ∧
      ∀ (h : Heap) entries names, h.obj? record = w'.heap.obj? record →
        h.MapsTexts visible entries names → ∀ (limit : Nat) birth,
        ∃ text, ofRecord h record (.integer limit birth) = .ok text ∧
          Accounts h f entries limit text := by
  obtain ⟨record, visible, w', hrun, hgrows, hrecord, hvisible⟩ := f.make_run snapshot w
  refine ⟨record, visible, w', hrun, hgrows, hvisible, fun h entries names ho hm limit birth => ?_⟩
  exact ofRecord_accounts (ho.trans hrecord) hm limit birth

end Report

namespace World

/-- A table of two texts, one of which has two lines. -/
def tabled : World :=
  (Call.data (.table [(.str "b", .str "x\ny"), (.str "a", .int 1)])).run.after initial

theorem bindings_accounted_tabled :
    let f : FaultRecord.Fields := ⟨.str "Unbound symbol", .str "'c' not found", .str "c", .nil, .nil⟩
    let entries : Entries := [(.str "b", .str "x\ny"), (.str "a", .int 1)]
    ∃ record w' text, f.make (.ref 4) tabled = .ok record w' ∧
      w'.heap.MapsTexts (.ref 4) entries ["b", "a"] ∧
      Report.ofRecord w'.heap record (.int 1) = .ok text ∧
      Report.Accounts w'.heap f entries 1 text := by
  intro f entries
  obtain ⟨record, visible, w', hrun, hgrows, hvisible, haccounts⟩ :=
    Report.bindings_accounted f (.ref 4) tabled
  obtain rfl : visible = .ref 4 := hvisible
  have hm : w'.heap.MapsTexts (.ref 4) entries ["b", "a"] :=
    ⟨hgrows.kept.entries?_eq rfl, rfl, by decide⟩
  obtain ⟨text, htext, haccount⟩ := haccounts w'.heap entries _ rfl hm 1 none
  exact ⟨record, w', text, hrun, hm, htext, haccount⟩

end World

end LexicalEnv
