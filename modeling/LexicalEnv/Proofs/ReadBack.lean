import LexicalEnv.Proofs.Form
import LexicalEnv.Proofs.Rounds

/-!
# Printed values read back

A value of the interpreted language that holds a form prints as the text of that
form, so it can be read back and no two such values print the same
(`Printing.read_back`). Printing takes as many rounds as the form is deep, so that
no form is deeper than the number of objects allows.
-/

namespace LexicalEnv

structure Heap.Tags (h : Heap) (v : Value) (type : String) (payload : Value) : Prop where
  tagged : ∃ birth, h.tagged? v = some (.text type birth, payload)
  fields : (h.entries? v).map List.length = some 2

/-- A value that can be read back, with the form that it has. -/
inductive Heap.Holds (h : Heap) : Value → Form → Prop
  | nil {v : Value} (ht : h.Tags v "Nil" .nil) : Holds h v (.atom .nil)
  | bool {v : Value} {b : Bool} (ht : h.Tags v "Bool" (.bool b)) : Holds h v (.atom (.bool b))
  | number {v : Value} {n : Int} {birth : Birth} (ht : h.Tags v "Num" (.integer n birth)) :
    Holds h v (.atom (.number n))
  | string {v : Value} {text : String} {birth : Birth} (ht : h.Tags v "String" (.text text birth)) :
    Holds h v (.atom (.string text))
  | symbol {name : Name} {birth : Birth} : Holds h (.symbol name.text birth) (.atom (.symbol name))
  | keyword {v : Value} {name : Word} {birth : Birth}
    (ht : h.Tags v "Keyword" (.text name.text birth)) : Holds h v (.atom (.keyword name))
  | list {v payload : Value} {items : List Value} {forms : List Form} (ht : h.Tags v "List" payload)
    (ho : h.obj? payload = some (.list items)) (hm : List.Forall₂ (Holds h) items forms) :
    Holds h v (.list forms)
  | vector {v payload : Value} {items : List Value} {forms : List Form}
    (ht : h.Tags v "Vector" payload) (ho : h.obj? payload = some (.list items))
    (hm : List.Forall₂ (Holds h) items forms) : Holds h v (.vector forms)
  | map {v payload : Value} {table : Entries} {entries : List (String × Form)}
    (ht : h.Tags v "Map" payload) (he : h.entries? payload = some table)
    (hk : table.map (·.1.text?) = entries.map fun e => some e.1)
    (hm : List.Forall₂ (Holds h) (table.map Prod.snd) (entries.map Prod.snd)) :
    Holds h v (.map entries)

-- ---------------------------------------------------------------------------
-- How deep forms are
-- ---------------------------------------------------------------------------

namespace Form

mutual

def depth : Form → Nat
  | atom _ => 1
  | list items | vector items => 1 + depths items
  | map entries => 1 + entryDepths entries

def depths : List Form → Nat
  | [] => 0
  | f :: rest => max f.depth (depths rest)

def entryDepths : List (String × Form) → Nat
  | [] => 0
  | (_, f) :: rest => max f.depth (entryDepths rest)

end

theorem depth_pos (f : Form) : 0 < f.depth := by
  cases f <;> simp only [depth] <;> omega

theorem entryDepths_eq (entries : List (String × Form)) :
    entryDepths entries = depths (entries.map Prod.snd) := by
  induction entries with
  | nil => rfl
  | cons e rest ih => simp [entryDepths, depths, ih]

end Form

-- ---------------------------------------------------------------------------
-- Printing
-- ---------------------------------------------------------------------------

theorem Heap.display_integer (h : Heap) (n : Int) (birth : Birth) :
    h.display (.integer n birth) = integerText n := by
  unfold display
  cases h.size <;> rfl

namespace Printing

variable {h : Heap} {fuel : Nat} {values : List Value} {forms : List Form}

/-- The value prints as the text of the form, within so many rounds. -/
def Prints (h : Heap) (fuel : Nat) (v : Value) (f : Form) : Prop :=
  writeAt h true fuel v = .ok (.str f.text)

theorem spaced_str (texts : List String) :
    spaced (texts.map .str) = .ok (" ".intercalate texts) :=
  spaced_of_texts (by rw [List.map_map]; rfl)

theorem members_prints (hm : List.Forall₂ (Prints h fuel) values forms) :
    (do spaced (← values.mapM (writeAt h true fuel))) =
      .ok (" ".intercalate (forms.map Form.text)) :=
  membersText_eq (List.forall₂_map_right_iff.mpr (hm.imp fun _ _ hv => ⟨none, hv⟩))

theorem enclosed_eq {b : Bracket} {opening closing : String} (ho : opening.toList = [b.opening])
    (hc : closing.toList = [b.closing]) (parts : List String) :
    enclosed opening closing (" ".intercalate parts) = .str (b.enclose parts) := by
  refine congrArg Value.str (String.toList_injective ?_)
  simp only [Bracket.enclose, String.toList_append, String.toList_ofList, ho, hc]
  rfl

variable {v payload : Value} {type : String}

theorem writeAt_of_tags (ht : h.Tags v type payload) (fuel : Nat) : ∃ birth, writeAt h true (fuel + 1) v =
    tagged h true (fun items => do spaced (← items.mapM (writeAt h true fuel)))
      (.text type birth) payload := by
  obtain ⟨birth, ht⟩ := ht.tagged
  exact ⟨birth, by simp only [writeAt, ht]⟩

theorem prints_key (key : String) (birth : Birth) :
    Prints h (fuel + 1) (.text key birth) (.atom (.string key)) := rfl

theorem prints_all (hm : List.Forall₂ h.Holds values forms) (hd : Form.depths forms ≤ fuel)
    (ih : ∀ f ∈ forms, ∀ v, h.Holds v f → f.depth ≤ fuel → Prints h fuel v f) :
    List.Forall₂ (Prints h fuel) values forms := by
  induction hm with
  | nil => exact .nil
  | cons hv _ ihm =>
    obtain ⟨hf, ih⟩ := List.forall_mem_cons.mp ih
    obtain ⟨hd, hrest⟩ := Nat.max_le.mp hd
    exact .cons (hf _ hv hd) (ihm hrest ih)

theorem prints_entries {table : Entries} {entries : List (String × Form)}
    (hk : table.map (·.1.text?) = entries.map fun e => some e.1)
    (hm : List.Forall₂ (Prints h fuel) (table.map Prod.snd) (entries.map Prod.snd)) :
    List.Forall₂ (Prints h fuel) (entryMembers table) (Form.members entries) := by
  induction table generalizing entries with
  | nil =>
    cases entries with
    | nil => exact .nil
    | cons => cases hm
  | cons e table ih =>
    cases entries with
    | nil => cases hm
    | cons entry entries =>
      obtain ⟨key, value⟩ := e
      simp only [List.map_cons, List.cons.injEq] at hk
      obtain ⟨hkey, hk⟩ := hk
      cases hm with
      | cons hv hm =>
        cases key with
        | text text birth =>
          obtain rfl : text = entry.1 := Option.some.inj hkey
          cases fuel with
          | zero => cases hv
          | succ fuel => exact .cons (prints_key _ birth) (.cons hv (ih hk hm))
        | _ => cases hkey

theorem prints_enclosed {b : Bracket} {f : Form} (opening closing : String)
    (ho : opening.toList = [b.opening]) (hc : closing.toList = [b.closing])
    (hm : List.Forall₂ (Prints h fuel) values forms) (hf : f.text = b.enclose (forms.map Form.text))
    (hw : ∀ inner, (do spaced (← values.mapM (writeAt h true fuel))) = .ok inner →
      writeAt h true (fuel + 1) v = .ok (enclosed opening closing inner)) :
    Prints h (fuel + 1) v f := by
  rw [Prints, hw _ (members_prints hm), hf]
  exact congrArg Except.ok (enclosed_eq ho hc _)

theorem exists_fuel {f : Form} (hd : f.depth ≤ fuel) : ∃ rest, fuel = rest + 1 :=
  Nat.exists_eq_succ_of_ne_zero (Nat.ne_of_gt (Nat.lt_of_lt_of_le f.depth_pos hd))

theorem prints_of_holds {f : Form} (hv : h.Holds v f) (hd : f.depth ≤ fuel) :
    Prints h fuel v f := by
  induction f generalizing v fuel with
  | atom a =>
    obtain ⟨fuel, rfl⟩ := exists_fuel hd
    cases hv with
    | symbol => exact congrArg (fun t => Except.ok (Value.str t)) (h.display_symbol _ _)
    | nil ht =>
      obtain ⟨birth, hwrite⟩ := writeAt_of_tags ht fuel
      exact hwrite
    | bool ht =>
      obtain ⟨birth, hwrite⟩ := writeAt_of_tags ht fuel
      exact hwrite
    | number ht =>
      obtain ⟨birth, hwrite⟩ := writeAt_of_tags ht fuel
      rw [Prints, hwrite, tagged, h.display_integer]
      rfl
    | string ht =>
      obtain ⟨birth, hwrite⟩ := writeAt_of_tags ht fuel
      exact hwrite
    | keyword ht =>
      obtain ⟨birth, hwrite⟩ := writeAt_of_tags ht fuel
      rw [Prints, hwrite, tagged, h.display_text]
      rfl
  | list forms ih =>
    obtain ⟨fuel, rfl⟩ := exists_fuel hd
    rw [Form.depth, Nat.add_comm, Nat.add_le_add_iff_right] at hd
    cases hv with
    | list ht ho hm =>
      obtain ⟨birth, hwrite⟩ := writeAt_of_tags ht fuel
      refine prints_enclosed "(" ")" rfl rfl (prints_all hm hd fun f hf v => ih f hf)
        (by rw [Form.text, Form.texts_eq_map]) fun inner hinner => ?_
      exact hwrite.trans (bind_ok.mpr ⟨_, Heap.items_list ho, bind_ok.mpr ⟨inner, hinner, rfl⟩⟩)
  | vector forms ih =>
    obtain ⟨fuel, rfl⟩ := exists_fuel hd
    rw [Form.depth, Nat.add_comm, Nat.add_le_add_iff_right] at hd
    cases hv with
    | vector ht ho hm =>
      obtain ⟨birth, hwrite⟩ := writeAt_of_tags ht fuel
      refine prints_enclosed "[" "]" rfl rfl (prints_all hm hd fun f hf v => ih f hf)
        (by rw [Form.text, Form.texts_eq_map]) fun inner hinner => ?_
      exact hwrite.trans (bind_ok.mpr ⟨_, Heap.items_list ho, bind_ok.mpr ⟨inner, hinner, rfl⟩⟩)
  | map entries ih =>
    obtain ⟨fuel, rfl⟩ := exists_fuel hd
    rw [Form.depth, Form.entryDepths_eq, Nat.add_comm, Nat.add_le_add_iff_right] at hd
    cases hv with
    | map ht he hk hm =>
      obtain ⟨birth, hwrite⟩ := writeAt_of_tags ht fuel
      have hvalues := prints_all hm hd fun f hf v => by
        obtain ⟨e, he, rfl⟩ := List.mem_map.mp hf
        exact ih e he
      refine prints_enclosed "\x7b" "\x7d" rfl rfl (prints_entries hk hvalues)
        (by rw [Form.text, Form.entryTexts_eq]) fun inner hinner => ?_
      rw [hwrite, tagged, he]
      exact bind_ok.mpr ⟨inner, hinner, rfl⟩

-- ---------------------------------------------------------------------------
-- The depth of what a heap holds
-- ---------------------------------------------------------------------------

theorem exists_fuel_of_writeAt {text : Value} (hw : writeAt h true fuel v = .ok text) :
    ∃ rest, fuel = rest + 1 := by
  cases fuel with
  | zero => cases hw
  | succ rest => exact ⟨rest, rfl⟩

theorem depths_le (hm : List.Forall₂ h.Holds values forms)
    (hp : ∀ v ∈ values, ∃ text, writeAt h true fuel v = .ok text)
    (ih : ∀ f ∈ forms, ∀ v text, h.Holds v f → writeAt h true fuel v = .ok text → f.depth ≤ fuel) :
    Form.depths forms ≤ fuel := by
  induction hm with
  | nil => exact Nat.zero_le _
  | cons hv _ ihm =>
    obtain ⟨⟨text, htext⟩, hp⟩ := List.forall_mem_cons.mp hp
    obtain ⟨hf, ih⟩ := List.forall_mem_cons.mp ih
    exact Nat.max_le.mpr ⟨hf _ text hv htext, ihm hp ih⟩

theorem depths_le_of_members (hm : List.Forall₂ h.Holds values forms) {items : List Value}
    {inner : String} (hs : values ⊆ items)
    (hi : (do spaced (← items.mapM (writeAt h true fuel))) = .ok inner)
    (ih : ∀ f ∈ forms, ∀ v text, h.Holds v f → writeAt h true fuel v = .ok text → f.depth ≤ fuel) :
    1 + Form.depths forms ≤ fuel + 1 := by
  obtain ⟨parts, hparts, -⟩ := bind_ok.mp hi
  have hdepths := depths_le hm (fun v hv => mapM_ok_mem hparts v (hs hv)) ih
  omega

theorem depth_le_of_writeAt {f : Form} {text : Value} (hv : h.Holds v f)
    (hw : writeAt h true fuel v = .ok text) : f.depth ≤ fuel := by
  induction f generalizing v fuel text with
  | atom a =>
    obtain ⟨rest, rfl⟩ := exists_fuel_of_writeAt hw
    exact Nat.succ_le_succ (Nat.zero_le rest)
  | list forms ih =>
    obtain ⟨rest, rfl⟩ := exists_fuel_of_writeAt hw
    cases hv with
    | list ht ho hm =>
      obtain ⟨birth, hwrite⟩ := writeAt_of_tags ht rest
      rw [hwrite] at hw
      obtain ⟨items, hitems, hw⟩ := bind_ok.mp hw
      obtain rfl := Except.ok.inj ((Heap.items_list ho).symm.trans hitems)
      obtain ⟨inner, hinner, -⟩ := bind_ok.mp hw
      exact depths_le_of_members hm (List.Subset.refl _) hinner fun f hf v text => ih f hf
  | vector forms ih =>
    obtain ⟨rest, rfl⟩ := exists_fuel_of_writeAt hw
    cases hv with
    | vector ht ho hm =>
      obtain ⟨birth, hwrite⟩ := writeAt_of_tags ht rest
      rw [hwrite] at hw
      obtain ⟨items, hitems, hw⟩ := bind_ok.mp hw
      obtain rfl := Except.ok.inj ((Heap.items_list ho).symm.trans hitems)
      obtain ⟨inner, hinner, -⟩ := bind_ok.mp hw
      exact depths_le_of_members hm (List.Subset.refl _) hinner fun f hf v text => ih f hf
  | map entries ih =>
    obtain ⟨rest, rfl⟩ := exists_fuel_of_writeAt hw
    cases hv with
    | map ht he hk hm =>
      obtain ⟨birth, hwrite⟩ := writeAt_of_tags ht rest
      rw [hwrite, tagged, he] at hw
      obtain ⟨inner, hinner, -⟩ := bind_ok.mp hw
      rw [Form.depth, Form.entryDepths_eq]
      refine depths_le_of_members hm (fun v hv => ?_) hinner fun f hf v text => ?_
      · obtain ⟨e, he, rfl⟩ := List.mem_map.mp hv
        exact List.mem_flatMap.mpr ⟨e, he, by simp⟩
      · obtain ⟨e, he, rfl⟩ := List.mem_map.mp hf
        exact ih e he

end Printing

theorem Heap.Holds.depth_le {h : Heap} {v : Value} {f : Form} (hv : h.Holds v f) :
    f.depth ≤ h.size + 1 := by
  obtain ⟨rounds, -, ht⟩ := Printing.exists_takes (Printing.prints_of_holds hv (Nat.le_refl _))
  obtain ⟨text, htext⟩ := ht.prints
  exact Nat.le_trans (Printing.depth_le_of_writeAt hv htext) ht.le_size

/-- A value that holds a form prints as a text from which the form is read back. Hence values that
print the same hold the same, whatever heaps they are in. -/
theorem Printing.read_back {h : Heap} {v : Value} {f : Form} (hv : h.Holds v f) :
    (∃ text, write h true v = .ok (.str text) ∧ Form.read text = some f) ∧
      ∀ h' v' f', Heap.Holds h' v' f' → write h' true v' = write h true v → f' = f := by
  have hprint {h' : Heap} {v' : Value} {f' : Form} (hv' : h'.Holds v' f') :
      write h' true v' = .ok (.str f'.text) := prints_of_holds hv' hv'.depth_le
  refine ⟨⟨f.text, hprint hv, f.read_text⟩, fun h' v' f' hv' hsame => ?_⟩
  rw [hprint hv, hprint hv'] at hsame
  exact Form.text_injective (Value.text.inj (Except.ok.inj hsame)).1

/-- The shared objects, and a map with a list of a number, a string and a symbol in it. -/
def Heap.printable : Heap :=
  ⟨World.initial.heap.objects ++ #[Tagged.table (.int (-7)) (.str "Num"),
    Tagged.table (.str "a \"b)\n") (.str "String"), .list [.ref 4, .ref 5, .sym "x"],
    Tagged.table (.ref 6) (.str "List"), .table [(.str "k", .ref 7), (.str "n", .ref 0)],
    Tagged.table (.ref 8) (.str "Map")]⟩

def Name.x : Name := ⟨⟨"x", by decide, by decide⟩, by decide⟩

def Form.printed : Form :=
  .map [("k", .list [.atom (.number (-7)), .atom (.string "a \"b)\n"), .atom (.symbol .x)]),
    ("n", .atom .nil)]

theorem Printing.read_back_printable : Heap.printable.Holds (.ref 9) Form.printed ∧
    ∃ text, write Heap.printable true (.ref 9) = .ok (.str text) ∧
      Form.read text = some Form.printed := by
  have hlist : Heap.printable.Holds (.ref 7) _ := .list ⟨⟨none, rfl⟩, rfl⟩ rfl
    (.cons (.number ⟨⟨none, rfl⟩, rfl⟩) (.cons (.string ⟨⟨none, rfl⟩, rfl⟩)
      (.cons (@Heap.Holds.symbol _ .x none) .nil)))
  have hmap : Heap.printable.Holds (.ref 9) Form.printed := .map ⟨⟨none, rfl⟩, rfl⟩ rfl rfl
    (.cons hlist (.cons (.nil ⟨⟨none, rfl⟩, rfl⟩) .nil))
  exact ⟨hmap, (read_back hmap).1⟩

end LexicalEnv
