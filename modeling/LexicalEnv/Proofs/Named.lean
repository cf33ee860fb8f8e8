import LexicalEnv.Frame.BindingMap
import LexicalEnv.Proofs.Run
import Mathlib.Data.List.Induction

/-!
# Maps keyed by names

The keys of a frame's map are symbols, no two of one name. Binding a symbol
keeps this (`Named.insert`), and so does every way to fill a map: seeding it
from a table (`seed_named`) and binding symbols one after the other
(`insertAll_named`).
-/

namespace LexicalEnv

def Entries.names (entries : Entries) : List String := entries.filterMap (·.1.symbol?)

structure Entries.Named (entries : Entries) : Prop where
  symbols : ∀ e ∈ entries, ∃ name birth, e.1 = .symbol name birth
  distinct : (Entries.names entries).Nodup

theorem Entries.named_nil : Entries.Named [] := ⟨by simp, by simp [Entries.names]⟩

theorem Value.symbol?_eq_some {v : Value} {name : String} :
    v.symbol? = some name ↔ ∃ birth, v = .symbol name birth := by
  cases v <;> simp [Value.symbol?]

namespace Heap

variable {h h' : Heap} {entries : Entries} {name : String} {birth : Birth} {value : Value}

theorem mem_names : name ∈ Entries.names entries ↔ some name ∈ entries.map (·.1.symbol?) := by
  simp [Entries.names]

theorem find?_isSome_iff :
    (h.find? entries (.symbol name birth)).isSome ↔ name ∈ Entries.names entries := by
  induction entries with
  | nil => simp [Entries.names]
  | cons e rest ih =>
    obtain ⟨k, v⟩ := e
    by_cases hk : k.symbol? = some name
    · simp [find?, Entries.names, hk]
    · have ih' : _ ↔ name ∈ List.filterMap (fun e => e.1.symbol?) rest := ih
      simp only [find?, sameKey_symbol, beq_eq_false_iff_ne.mpr hk, Bool.false_eq_true, if_false,
        ih', Entries.names, List.filterMap_cons]
      cases hs : k.symbol? with
      | none => simp
      | some other =>
        have hn : name ≠ other := fun he => hk (he ▸ hs)
        simp [hn]

theorem find?_eq_none_iff :
    h.find? entries (.symbol name birth) = none ↔ name ∉ Entries.names entries := by
  rw [← Option.not_isSome_iff_eq_none, find?_isSome_iff]

theorem find?_text_of_symbols (hs : ∀ e ∈ entries, ∃ name birth, e.1 = .symbol name birth)
    (h : Heap) (text : String) (birth : Birth) : h.find? entries (.text text birth) = none := by
  induction entries with
  | nil => rfl
  | cons e rest ih =>
    rw [List.forall_mem_cons] at hs
    obtain ⟨⟨name, birth', he⟩, hrest⟩ := hs
    simp [find?, he, Value.text?, ih hrest]

theorem names_insert (h : Heap) (entries : Entries) (name : String) (birth : Birth)
    (value : Value) :
    Entries.names (h.insert entries (.symbol name birth) value) =
      if name ∈ Entries.names entries then Entries.names entries
      else Entries.names entries ++ [name] := by
  have hkeys (es : Entries) : Entries.names es = (es.map Prod.fst).filterMap Value.symbol? := by
    rw [Entries.names, List.filterMap_map]
    rfl
  rw [hkeys (h.insert _ _ _), keys_insert_symbol, hkeys entries]
  by_cases hm : some name ∈ entries.map (·.1.symbol?)
  · simp only [if_pos hm, ← hkeys, mem_names]
  · simp only [if_neg hm, mem_names, List.filterMap_append, ← hkeys]
    simp

theorem insert_symbol (h h' : Heap) (entries : Entries) (name : String) (birth : Birth)
    (value : Value) :
    h.insert entries (.symbol name birth) value = h'.insert entries (.symbol name birth) value := by
  induction entries with
  | nil => rfl
  | cons e rest ih => simp only [insert, sameKey_symbol, ih]

/-- A name that is bound keeps its key and its place; any other goes behind all entries. -/
theorem insert_symbol_cases (h : Heap) (entries : Entries) (name : String) (birth : Birth)
    (value : Value) :
    (∃ front key old back, entries = front ++ (key, old) :: back ∧ key.symbol? = some name ∧
        h.insert entries (.symbol name birth) value = front ++ (key, value) :: back) ∨
      (name ∉ Entries.names entries ∧
        h.insert entries (.symbol name birth) value =
          entries ++ [(.symbol name birth, value)]) := by
  induction entries with
  | nil => exact .inr ⟨by simp [Entries.names], rfl⟩
  | cons e rest ih =>
    obtain ⟨k, v⟩ := e
    by_cases hk : k.symbol? = some name
    · exact .inl ⟨[], k, v, rest, rfl, hk, by simp [insert, hk]⟩
    · have hins : h.insert ((k, v) :: rest) (.symbol name birth) value =
          (k, v) :: h.insert rest (.symbol name birth) value := by simp [insert, hk]
      rcases ih with ⟨front, key, old, back, rfl, hkey, he⟩ | ⟨hn, he⟩
      · exact .inl ⟨(k, v) :: front, key, old, back, rfl, hkey, by rw [hins, he, List.cons_append]⟩
      · refine .inr ⟨?_, by rw [hins, he, List.cons_append]⟩
        rw [mem_names] at hn ⊢
        simpa [Ne.symm hk] using hn

theorem mem_insert_symbol {e : Value × Value}
    (he : e ∈ h.insert entries (.symbol name birth) value) :
    e ∈ entries ∨ ∃ birth', e = (.symbol name birth', value) := by
  rcases h.insert_symbol_cases entries name birth value with
    ⟨front, key, old, back, rfl, hkey, hins⟩ | ⟨-, hins⟩
  · rw [hins, List.mem_append, List.mem_cons] at he
    obtain ⟨birth', rfl⟩ := Value.symbol?_eq_some.mp hkey
    rcases he with he | rfl | he
    · exact .inl (by simp [he])
    · exact .inr ⟨birth', rfl⟩
    · exact .inl (by simp [he])
  · rw [hins, List.mem_append, List.mem_singleton] at he
    exact he.imp_right fun he => ⟨birth, he⟩

end Heap

theorem Entries.Named.insert {entries : Entries} (hn : Entries.Named entries) (h : Heap)
    (name : String) (birth : Birth) (value : Value) :
    Entries.Named (h.insert entries (.symbol name birth) value) := by
  refine ⟨fun e he => ?_, ?_⟩
  · rcases Heap.mem_insert_symbol he with he | ⟨birth', rfl⟩
    · exact hn.symbols e he
    · exact ⟨name, birth', rfl⟩
  · rw [Heap.names_insert]
    split
    · exact hn.distinct
    · rename_i hm
      exact List.nodup_append.mpr ⟨hn.distinct, by simp, by
        rintro a ha b hb rfl
        exact hm (List.mem_singleton.mp hb ▸ ha)⟩

theorem Entries.Named.cons_cases {e : Value × Value} {rest : Entries}
    (hn : Entries.Named (e :: rest)) : ∃ name birth, e.1 = .symbol name birth ∧
      name ∉ Entries.names rest ∧ Entries.Named rest := by
  obtain ⟨name, birth, he⟩ := hn.symbols e List.mem_cons_self
  have hnames : Entries.names (e :: rest) = name :: Entries.names rest := by
    simp [Entries.names, he]
  have hd := List.nodup_cons.mp (hnames ▸ hn.distinct)
  exact ⟨name, birth, he, hd.1, fun e' hm => hn.symbols e' (List.mem_cons_of_mem _ hm), hd.2⟩

theorem Entries.Named.pairwise {entries : Entries} (hn : Entries.Named entries) (h : Heap) :
    entries.Pairwise fun a b => h.sameKey a.1 b.1 = false := by
  induction entries with
  | nil => exact .nil
  | cons e rest ih =>
    obtain ⟨name, birth, he, hfirst, hrest⟩ := hn.cons_cases
    refine .cons (fun e' hm => ?_) (ih hrest)
    obtain ⟨other, birth', he'⟩ := hrest.symbols e' hm
    have hne : name ≠ other := by
      rintro rfl
      exact hfirst (List.mem_filterMap.mpr ⟨e', hm, by simp [he']⟩)
    simp [he, he', hne]

theorem Entries.Named.keys {entries : Entries} (hn : Entries.Named entries) :
    entries.map (·.1.symbol?) = (Entries.names entries).map some := by
  have hall : (entries.map (·.1.symbol?)).filter (·.isSome) = entries.map (·.1.symbol?) := by
    refine List.filter_eq_self.mpr fun key hkey => ?_
    obtain ⟨e, he, rfl⟩ := List.mem_map.mp hkey
    obtain ⟨name, birth, hname⟩ := hn.symbols e he
    simp [hname]
  rw [Entries.names, List.map_filterMap_some_eq_filter_map_isSome, hall]

-- ---------------------------------------------------------------------------
-- Ways to fill a map
-- ---------------------------------------------------------------------------

theorem BindingMap.addNamed_named {h : Heap} {entries entries' : Entries} {binding : Value × Value}
    (hn : Entries.Named entries) (ha : addNamed h entries binding = .ok entries') :
    Entries.Named entries' := by
  simp only [addNamed, bind_ok, pure_ok] at ha
  obtain ⟨name, -, rfl⟩ := ha
  exact hn.insert h name none binding.2

theorem BindingMap.seed_named {h : Heap} {initial : Value} {entries : Entries}
    (hs : seed h initial = .ok entries) : Entries.Named entries := by
  unfold seed at hs
  split at hs
  · split at hs
    · exact foldlM_keeps (fun _ _ _ _ hb ha => addNamed_named hb ha) Entries.named_nil hs
    · cases hs
  · cases hs
    exact Entries.named_nil

/-- Binds keys to values one after the other, all of which are fit for it. -/
def Heap.bindAll (h : Heap) (entries : Entries) (bindings : List (Value × Value)) : Entries :=
  bindings.foldl (fun entries e => h.insert entries e.1 e.2) entries

theorem Heap.insertAll_symbols {h : Heap} {entries : Entries} {bindings : List (Value × Value)}
    (hs : ∀ e ∈ bindings, ∃ name birth, e.1 = .symbol name birth) :
    h.insertAll entries bindings = .ok (h.bindAll entries bindings) := by
  induction bindings generalizing entries with
  | nil => rfl
  | cons e rest ih =>
    obtain ⟨name, birth, he⟩ := hs e List.mem_cons_self
    have hrest : h.insertAll (h.insert entries e.1 e.2) rest = _ :=
      ih fun e' hm => hs e' (List.mem_cons_of_mem _ hm)
    simp only [insertAll, List.foldlM_cons, he, inserted_symbol, bind, Except.bind] at hrest ⊢
    simpa [bindAll, he] using hrest

theorem Heap.bindAll_named {h : Heap} {entries : Entries} {bindings : List (Value × Value)}
    (hn : Entries.Named entries) (hs : ∀ e ∈ bindings, ∃ name birth, e.1 = .symbol name birth) :
    Entries.Named (h.bindAll entries bindings) := by
  induction bindings generalizing entries with
  | nil => exact hn
  | cons e rest ih =>
    obtain ⟨name, birth, he⟩ := hs e List.mem_cons_self
    have hins : Entries.Named (h.insert entries e.1 e.2) := he ▸ hn.insert h name birth e.2
    exact ih hins fun e' hm => hs e' (List.mem_cons_of_mem _ hm)

namespace Heap

variable {h : Heap} {entries bindings : Entries} {name : String} {birth : Birth} {key value : Value}

theorem bindAll_append (h : Heap) (entries bindings bindings' : Entries) :
    h.bindAll entries (bindings ++ bindings') =
      h.bindAll (h.bindAll entries bindings) bindings' := by
  simp [bindAll, List.foldl_append]

theorem names_bindAll (hs : ∀ e ∈ bindings, ∃ name birth, e.1 = .symbol name birth) :
    Entries.names (h.bindAll [] bindings) = (Entries.names bindings).eraseDups := by
  induction bindings using List.reverseRecOn with
  | nil => rfl
  | append_singleton bindings e ih =>
    rw [List.forall_mem_append] at hs
    obtain ⟨name, birth, he⟩ := hs.2 e List.mem_cons_self
    have hlast : Entries.names (bindings ++ [e]) = Entries.names bindings ++ [name] := by
      simp [Entries.names, he]
    have hbind : h.bindAll [] (bindings ++ [e]) =
        h.insert (h.bindAll [] bindings) (.symbol name birth) e.2 := by
      rw [bindAll_append, ← he]
      rfl
    rw [hbind, names_insert, hlast, ih hs.1, List.eraseDups_append]
    by_cases hm : name ∈ Entries.names bindings <;> simp [hm, List.mem_eraseDups, List.removeAll,
      List.eraseDups_cons]

theorem find?_bindAll_of_not_mem (hs : ∀ e ∈ bindings, ∃ name birth, e.1 = .symbol name birth)
    (hn : name ∉ Entries.names bindings) :
    h.find? (h.bindAll entries bindings) (.symbol name birth) =
      h.find? entries (.symbol name birth) := by
  induction bindings generalizing entries with
  | nil => rfl
  | cons e rest ih =>
    rw [List.forall_mem_cons] at hs
    obtain ⟨⟨other, birth', he⟩, hrest⟩ := hs
    have hnames : Entries.names (e :: rest) = other :: Entries.names rest := by
      simp [Entries.names, he]
    rw [hnames, List.mem_cons, not_or] at hn
    have hstep : h.bindAll entries (e :: rest) = h.bindAll (h.insert entries e.1 e.2) rest := rfl
    rw [hstep, ih hrest hn.2, he, find?_insert_symbol, if_neg hn.1]

theorem find?_bindAll_named (hn : Entries.Named bindings) :
    h.find? (h.bindAll entries bindings) (.symbol name birth) =
      (h.find? bindings (.symbol name birth)).or (h.find? entries (.symbol name birth)) := by
  induction bindings generalizing entries with
  | nil => rfl
  | cons e rest ih =>
    obtain ⟨key, value⟩ := e
    obtain ⟨other, birth', rfl, hfirst, hrest⟩ := hn.cons_cases
    have hstep : h.bindAll entries ((.symbol other birth', value) :: rest) =
      h.bindAll (h.insert entries (.symbol other birth') value) rest := rfl
    rw [hstep, ih hrest, find?_insert_symbol]
    by_cases hother : name = other
    · subst hother
      simp [find?, find?_eq_none_iff.mpr hfirst]
    · simp [find?, hother, Ne.symm hother]

theorem find?_bindAll {before after : Entries} (hk : key.symbol? = some name)
    (hs : ∀ e ∈ after, ∃ name birth, e.1 = .symbol name birth)
    (hn : name ∉ Entries.names after) :
    h.find? (h.bindAll entries (before ++ (key, value) :: after)) (.symbol name birth) =
      some value := by
  obtain ⟨birth', rfl⟩ := Value.symbol?_eq_some.mp hk
  have hsplit : h.bindAll entries (before ++ (.symbol name birth', value) :: after) =
      h.bindAll (h.insert (h.bindAll entries before) (.symbol name birth') value) after :=
    h.bindAll_append entries before _
  rw [hsplit, find?_bindAll_of_not_mem hs hn, find?_insert_symbol, if_pos rfl]

end Heap

/-- The keys are the symbols of the names, each with its value. -/
def Entries.Spells (bindings : Entries) (pairs : List (String × Value)) : Prop :=
  bindings.map (fun e => (e.1.symbol?, e.2)) = pairs.map fun e => (some e.1, e.2)

namespace Entries

variable {bindings : Entries} {pairs : List (String × Value)}

theorem Spells.symbols (hs : Spells bindings pairs) :
    ∀ e ∈ bindings, ∃ name birth, e.1 = .symbol name birth := by
  intro e he
  have hm : (e.1.symbol?, e.2) ∈ bindings.map fun e => (e.1.symbol?, e.2) := List.mem_map_of_mem he
  rw [hs] at hm
  obtain ⟨pair, -, hpair⟩ := List.mem_map.mp hm
  exact ⟨pair.1, Value.symbol?_eq_some.mp (Prod.mk.inj hpair).1.symm⟩

theorem Spells.names (hs : Spells bindings pairs) :
    Entries.names bindings = pairs.map Prod.fst := by
  have hfst := congrArg (List.filterMap Prod.fst) hs
  simpa [Entries.names, List.filterMap_map, Function.comp_def, List.filterMap_eq_map'] using hfst

theorem Spells.find?_bindAll {before after : List (String × Value)} {name : String} {value : Value}
    (hs : Spells bindings (before ++ (name, value) :: after)) (hn : name ∉ after.map Prod.fst)
    (h : Heap) (entries : Entries) :
    h.find? (h.bindAll entries bindings) (.sym name) = some value := by
  rw [Spells, List.map_append, List.map_cons] at hs
  obtain ⟨front, back, rfl, -, hback⟩ := List.map_eq_append_iff.mp hs
  obtain ⟨e, rest, rfl, he, hrest⟩ := List.map_eq_cons_iff.mp hback
  obtain ⟨hkey, rfl⟩ := Prod.mk.inj he
  have hafter : Spells rest after := hrest
  exact Heap.find?_bindAll hkey hafter.symbols (hafter.names ▸ hn)

end Entries

end LexicalEnv
