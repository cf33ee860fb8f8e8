import LexicalEnv.Proofs.ReadBack

/-!
# Escaped strings

The readable form of a string is made in three passes, one for each character
that needs an escape. No pass meets what an earlier one wrote, so the three do
what one would (`Text.escapedChars_eq`). A reader takes these forms and no others
and knows where they end (`Text.unquote?_eq_some_iff`).
-/

namespace LexicalEnv

namespace Text

-- ---------------------------------------------------------------------------
-- One pass
-- ---------------------------------------------------------------------------

def escape (c : Char) : List Char :=
  if c = '\\' then ['\\', '\\']
  else if c = '"' then ['\\', '"']
  else if c = '\n' then ['\\', 'n']
  else [c]

theorem escapedChars_singleton (c : Char) : escapedChars [c] = escape c := by
  by_cases hslash : c = '\\'
  · subst hslash
    simp [escapedChars, substitute, escape]
  · by_cases hquote : c = '"'
    · subst hquote
      simp [escapedChars, substitute, escape]
    · simp [escapedChars, substitute, escape, hslash, hquote]

theorem escapedChars_cons (c : Char) (s : List Char) :
    escapedChars (c :: s) = escape c ++ escapedChars s := by
  rw [← escapedChars_singleton, ← escapedChars_append, List.singleton_append]

theorem escapedChars_eq (s : List Char) : escapedChars s = s.flatMap escape := by
  induction s with
  | nil => simp [escapedChars, substitute]
  | cons c s ih => simp [escapedChars_cons, ih]

theorem newline_not_mem_escape (c : Char) : '\n' ∉ escape c := by
  unfold escape
  split
  · simp
  · split
    · simp
    · split
      · simp
      · rename_i hline
        simpa using Ne.symm hline

theorem newline_not_mem_escaped (s : String) : '\n' ∉ (escaped s).toList := by
  intro hm
  simp only [escaped, escapedChars_eq, String.toList_ofList, List.mem_cons, List.mem_append,
    List.mem_flatMap] at hm
  rcases hm with (hm | ⟨c, -, hm⟩) | hm
  · simp at hm
  · exact newline_not_mem_escape c hm
  · simp at hm

-- ---------------------------------------------------------------------------
-- The reader
-- ---------------------------------------------------------------------------

def unescape? : Char → Option Char
  | '\\' => some '\\'
  | '"' => some '"'
  | 'n' => some '\n'
  | _ => none

/-- The characters before the closing mark, escapes undone, and those behind it. -/
def unquoteChars? : List Char → Option (List Char × List Char)
  | [] => none
  | '"' :: rest => some ([], rest)
  | '\\' :: c :: rest => do
    let meant ← unescape? c
    let (text, behind) ← unquoteChars? rest
    pure (meant :: text, behind)
  | c :: rest =>
    if c = '\\' ∨ c = '\n' then none
    else do
      let (text, behind) ← unquoteChars? rest
      pure (c :: text, behind)

/-- The string that a text starts with in quotes, and what follows it. -/
def unquote? (text : String) : Option (String × String) :=
  match text.toList with
  | '"' :: rest => (unquoteChars? rest).map fun p => (String.ofList p.1, String.ofList p.2)
  | _ => none

theorem escape_of_unescape? {c meant : Char} (h : unescape? c = some meant) :
    escape meant = ['\\', c] := by
  unfold unescape? at h
  split at h <;> cases h <;> rfl

theorem unquoteChars?_escape (c : Char) (rest : List Char) :
    unquoteChars? (escape c ++ rest) =
      (unquoteChars? rest).map fun p => (c :: p.1, p.2) := by
  have hmap (x : Option (List Char × List Char)) : (do
      let (text, behind) ← x
      pure (c :: text, behind)) = x.map fun p => (c :: p.1, p.2) := by cases x <;> rfl
  by_cases hslash : c = '\\'
  · subst hslash
    exact hmap _
  · by_cases hquote : c = '"'
    · subst hquote
      exact hmap _
    · by_cases hline : c = '\n'
      · subst hline
        exact hmap _
      · simp [escape, unquoteChars?, hslash, hquote, hline, ← hmap]

theorem unquoteChars?_escaped (s rest : List Char) :
    unquoteChars? (escapedChars s ++ '"' :: rest) = some (s, rest) := by
  induction s with
  | nil => simp [escapedChars, substitute, unquoteChars?]
  | cons c s ih => simp [escapedChars_cons, unquoteChars?_escape, ih]

theorem eq_of_unquoteChars? {t s rest : List Char} (h : unquoteChars? t = some (s, rest)) :
    t = escapedChars s ++ '"' :: rest := by
  induction t using unquoteChars?.induct generalizing s with
  | case1 => simp [unquoteChars?] at h
  | case2 behind =>
    obtain ⟨rfl, rfl⟩ : s = [] ∧ behind = rest := by simpa [unquoteChars?, eq_comm] using h
    simp [escapedChars, substitute]
  | case3 c t ih =>
    simp only [unquoteChars?, Option.bind_eq_bind, Option.bind_eq_some_iff, Option.pure_def,
      Option.some.injEq, Prod.mk.injEq] at h
    obtain ⟨meant, hmeant, ⟨text, behind⟩, hrest, rfl, rfl⟩ := h
    rw [escapedChars_cons, escape_of_unescape? hmeant, ih hrest]
    rfl
  | case4 c t hquote hslash hrefused => simp_all [unquoteChars?]
  | case5 c t hquote hslash hplain ih =>
    obtain ⟨hne, hline⟩ := not_or.mp hplain
    simp only [unquoteChars?, if_neg hplain, Option.bind_eq_bind, Option.bind_eq_some_iff,
      Option.pure_def, Option.some.injEq, Prod.mk.injEq] at h
    obtain ⟨⟨text, behind⟩, hrest, rfl, rfl⟩ := h
    have hescape : escape c = [c] := by simp_all [escape]
    rw [escapedChars_cons, hescape, ih hrest]
    rfl

theorem unquote?_eq_some_iff {text s rest : String} :
    unquote? text = some (s, rest) ↔ text = escaped s ++ rest := by
  have hform : (escaped s ++ rest).toList = '"' :: (escapedChars s.toList ++ '"' :: rest.toList) := by
    simp [escaped]
  constructor
  · intro h
    unfold unquote? at h
    split at h
    · rename_i behind htext
      obtain ⟨⟨inner, after⟩, hread, hpair⟩ := Option.map_eq_some_iff.mp h
      obtain ⟨rfl, rfl⟩ := Prod.mk.inj hpair
      apply String.toList_injective
      rw [hform, htext, eq_of_unquoteChars? hread, String.toList_ofList, String.toList_ofList]
    · cases h
  · rintro rfl
    simp [unquote?, hform, unquoteChars?_escaped]

theorem escaped_append_inj {s t u w : String} (h : escaped s ++ u = escaped t ++ w) :
    s = t ∧ u = w := by
  have hread : unquote? (escaped s ++ u) = some (s, u) := unquote?_eq_some_iff.mpr rfl
  rw [unquote?_eq_some_iff.mpr h] at hread
  obtain ⟨rfl, rfl⟩ := Prod.mk.inj (Option.some.inj hread)
  exact ⟨rfl, rfl⟩

end Text

namespace Printing

/-- A string has one readable form, with or without a tag: the mark, each character or its escape,
and the mark. It is one line. Reading it gives the string back and leaves what stands behind, and
nothing but this form is read so. Hence it tells where it ends. -/
theorem string_quotes (h : Heap) (s : String) :
    ∃ form, (∀ birth, string true (.text s birth) = .ok (.str form)) ∧
      (∀ v birth, v = .text s birth ∨ h.Tags v "String" (.text s birth) →
        write h true v = .ok (.str form)) ∧
      form.toList = '"' :: s.toList.flatMap Text.escape ++ ['"'] ∧
      '\n' ∉ form.toList ∧
      (∀ text rest, Text.unquote? text = some (s, rest) ↔ text = form ++ rest) ∧
      ∀ s' birth form' u w, string true (.text s' birth) = .ok (.str form') →
        form ++ u = form' ++ w → s = s' ∧ u = w := by
  refine ⟨Text.escaped s, fun birth => rfl, fun v birth hv => ?_, ?_,
    Text.newline_not_mem_escaped s, fun text rest => Text.unquote?_eq_some_iff, ?_⟩
  · rcases hv with rfl | ht
    · rfl
    · obtain ⟨birth', hwrite⟩ := writeAt_of_tags ht h.size
      exact hwrite
  · rw [Text.escaped, String.toList_ofList, Text.escapedChars_eq]
  · intro s' birth form' u w hform happend
    obtain rfl : Text.escaped s' = form' := (Value.text.inj (Except.ok.inj hform)).1
    exact Text.escaped_append_inj happend

theorem string_quotes_backslash : ∃ form,
    string true (.str "a\n\\") = .ok (.str form) ∧
      write World.initial.heap true (.str "a\n\\") = .ok (.str form) ∧
      Text.unquote? (form ++ "\"b") = some ("a\n\\", "\"b") ∧
      ∀ u, form ++ u = "\"a\\n\\\\\"c" → u = "c" := by
  obtain ⟨form, hstring, hwrite, -, -, hread, hends⟩ :=
    string_quotes World.initial.heap "a\n\\"
  refine ⟨form, hstring none, hwrite _ none (.inl rfl), (hread _ _).mpr rfl, fun u hu => ?_⟩
  exact (hends "a\n\\" none "\"a\\n\\\\\"" u "c" rfl hu).2

end Printing

end LexicalEnv
