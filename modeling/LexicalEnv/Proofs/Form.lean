import LexicalEnv.Display
import LexicalEnv.Text.Escaped

/-!
# Forms

A form is a printable value as a tree: numbers, strings, names, and lists, vectors
and maps of them. Its text is flat, but it can be read back: reading is one pass
over the characters that keeps the brackets that are open (`Form.read_text`).
-/

namespace LexicalEnv

-- ---------------------------------------------------------------------------
-- Forms and their texts
-- ---------------------------------------------------------------------------

structure Word where
  text : String
  nonempty : text ≠ ""
  letters : text.toList.all Char.isAlpha = true
  deriving DecidableEq, Repr

/-- A word that stands for nothing else. -/
structure Name extends Word where
  free : text ∉ ["nil", "true", "false"]
  deriving DecidableEq, Repr

inductive Atom where
  | nil
  | bool (b : Bool)
  | number (n : Int)
  | string (text : String)
  | symbol (name : Name)
  | keyword (name : Word)
  deriving DecidableEq, Repr

inductive Form where
  | atom (a : Atom)
  | list (items : List Form)
  | vector (items : List Form)
  | map (entries : List (String × Form))
  deriving Repr

def Atom.text : Atom → String
  | nil => "nil"
  | bool b => if b then "true" else "false"
  | number n => integerText n
  | string text => Text.escaped text
  | symbol name => name.text
  | keyword name => ":" ++ name.text

inductive Bracket where
  | round
  | square
  | curly
  deriving DecidableEq, Repr

namespace Bracket

def opening : Bracket → Char
  | round => '('
  | square => '['
  | curly => '\x7b'

def closing : Bracket → Char
  | round => ')'
  | square => ']'
  | curly => '\x7d'

def enclose (b : Bracket) (parts : List String) : String :=
  String.ofList (b.opening :: (" ".intercalate parts).toList ++ [b.closing])

end Bracket

namespace Form

mutual

def text : Form → String
  | atom a => a.text
  | list items => Bracket.round.enclose (texts items)
  | vector items => Bracket.square.enclose (texts items)
  | map entries => Bracket.curly.enclose (entryTexts entries)

def texts : List Form → List String
  | [] => []
  | f :: rest => f.text :: texts rest

def entryTexts : List (String × Form) → List String
  | [] => []
  | (key, f) :: rest => Text.escaped key :: f.text :: entryTexts rest

end

def members (entries : List (String × Form)) : List Form :=
  entries.flatMap fun e => [atom (.string e.1), e.2]

theorem texts_eq_map (forms : List Form) : texts forms = forms.map text := by
  induction forms with
  | nil => rfl
  | cons f rest ih => simp [texts, ih]

theorem entryTexts_eq (entries : List (String × Form)) :
    entryTexts entries = (members entries).map text := by
  induction entries with
  | nil => rfl
  | cons e rest ih => simpa [entryTexts, members, text, Atom.text] using ih

@[elab_as_elim, induction_eliminator]
theorem induct {P : Form → Prop} (atom : ∀ a, P (.atom a))
    (list : ∀ items, (∀ f ∈ items, P f) → P (.list items))
    (vector : ∀ items, (∀ f ∈ items, P f) → P (.vector items))
    (map : ∀ entries, (∀ e ∈ entries, P e.2) → P (.map entries)) : ∀ f, P f
  | .atom a => atom a
  | .list items => list items fun f _ => induct atom list vector map f
  | .vector items => vector items fun f _ => induct atom list vector map f
  | .map entries => map entries fun (key, f) he =>
    have hlt : sizeOf f < sizeOf entries := by
      have := List.sizeOf_lt_of_mem he
      simp only [Prod.mk.sizeOf_spec] at this
      omega
    induct atom list vector map f
termination_by f => sizeOf f

end Form

-- ---------------------------------------------------------------------------
-- Reading
-- ---------------------------------------------------------------------------

def Word.of? (text : String) : Option Word :=
  if h : text ≠ "" ∧ text.toList.all Char.isAlpha = true then some ⟨text, h.1, h.2⟩ else none

def Name.of? (text : String) : Option Name := do
  let word ← Word.of? text
  if h : word.text ∉ ["nil", "true", "false"] then some ⟨word, h⟩ else none

def Atom.natural? (text : List Char) : Option Nat :=
  if text ≠ [] ∧ text.all Char.isDigit = true then some (Nat.ofDigitChars 10 text 0) else none

def Atom.integer? : List Char → Option Int
  | '-' :: text => (natural? text).map fun n => -Int.ofNat n
  | text => (natural? text).map Int.ofNat

def Atom.of? (text : List Char) : Option Atom :=
  match text with
  | [] => none
  | c :: rest =>
    if c = ':' then (Word.of? (String.ofList rest)).map keyword
    else if c.isAlpha then
      if String.ofList text = "nil" then some nil
      else if String.ofList text = "true" then some (bool true)
      else if String.ofList text = "false" then some (bool false)
      else (Name.of? (String.ofList text)).map symbol
    else (integer? text).map number

def Form.entries? : List Form → Option (List (String × Form))
  | [] => some []
  | atom (.string key) :: f :: rest => (entries? rest).map ((key, f) :: ·)
  | _ => none

def Form.group? (items : List Form) : Bracket → Option Form
  | .round => some (list items)
  | .square => some (vector items)
  | .curly => (entries? items).map map

/-- What the reader is in the middle of, with what it has read of it. -/
inductive Reader.Mode where
  | between
  | word (read : List Char)
  | string (read : List Char)
  | escape (read : List Char)
  deriving DecidableEq, Repr

structure Reader where
  /-- The brackets that are open, innermost first, with the forms read before each. -/
  outer : List (Bracket × List Form)
  done : List Form
  mode : Reader.Mode
  deriving Repr

namespace Reader

def start : Reader := ⟨[], [], .between⟩

def push (r : Reader) (f : Form) : Reader := ⟨r.outer, r.done ++ [f], .between⟩

def settle (r : Reader) : Option Reader :=
  match r.mode with
  | .between => some r
  | .word read => (Atom.of? read).map fun a => r.push (.atom a)
  | .string _ | .escape _ => none

def enter (r : Reader) (b : Bracket) : Reader := ⟨(b, r.done) :: r.outer, [], .between⟩

def leave (r : Reader) (b : Bracket) : Option Reader :=
  match r.outer with
  | (b', before) :: outer =>
    if b' = b then (Form.group? r.done b).map fun f => ⟨outer, before ++ [f], .between⟩ else none
  | [] => none

def isPlain (c : Char) : Bool :=
  [' ', '"', '(', ')', '[', ']', '\x7b', '\x7d'].contains c = false

def delimit (r : Reader) : Char → Option Reader
  | ' ' => some r
  | '"' => some { r with mode := .string [] }
  | '(' => some (r.enter .round)
  | '[' => some (r.enter .square)
  | '\x7b' => some (r.enter .curly)
  | ')' => r.leave .round
  | ']' => r.leave .square
  | '\x7d' => r.leave .curly
  | _ => none

def step (r : Reader) (c : Char) : Option Reader :=
  match r.mode with
  | .between => if isPlain c then some { r with mode := .word [c] } else r.delimit c
  | .word read =>
    if isPlain c then some { r with mode := .word (read ++ [c]) } else r.settle.bind (·.delimit c)
  | .string read =>
    if c = '"' then some (r.push (.atom (.string (String.ofList read))))
    else if c = '\\' then some { r with mode := .escape read }
    else some { r with mode := .string (read ++ [c]) }
  | .escape read => some { r with mode := .string (read ++ [if c = 'n' then '\n' else c]) }

def result? (r : Reader) : Option Form :=
  match r.outer, r.done with
  | [], [f] => some f
  | _, _ => none

end Reader

def Form.read (text : String) : Option Form := do
  let r ← text.toList.foldlM Reader.step Reader.start
  (← r.settle).result?

-- ---------------------------------------------------------------------------
-- Atoms
-- ---------------------------------------------------------------------------

theorem Word.of?_text (word : Word) : of? word.text = some word := by
  rw [of?, dif_pos ⟨word.nonempty, word.letters⟩]

theorem Name.of?_text (name : Name) : of? name.text = some name := by
  simp only [of?, Word.of?_text, bind, Option.bind_some]
  exact dif_pos name.free

namespace Reader

theorem isPlain_of_class {p : Char → Bool} {c : Char} (hc : p c)
    (hp : [' ', '"', '(', ')', '[', ']', '\x7b', '\x7d'].any p = false) : isPlain c := by
  have hmem : c ∉ [' ', '"', '(', ')', '[', ']', '\x7b', '\x7d'] := by
    intro hin
    exact List.any_eq_false.mp hp c hin hc
  simpa [isPlain] using hmem

theorem isPlain_of_isAlpha {c : Char} (hc : c.isAlpha) : isPlain c :=
  isPlain_of_class hc rfl

theorem isPlain_of_isDigit {c : Char} (hc : c.isDigit) : isPlain c :=
  isPlain_of_class hc rfl

end Reader

theorem toList_integerText (n : Int) : (integerText n).toList =
    if n < 0 then '-' :: Nat.toDigits 10 n.natAbs else Nat.toDigits 10 n.natAbs := by
  rw [integerText, Nat.repr_eq_ofList_toDigits]
  split <;> simp

namespace Atom

theorem isDigit_of_mem_digits {n : Nat} {c : Char} (hc : c ∈ Nat.toDigits 10 n) : c.isDigit :=
  Nat.isDigit_of_mem_toDigits (by omega) (by omega) hc

theorem natural?_digits (n : Nat) : natural? (Nat.toDigits 10 n) = some n := by
  have hdigits : (Nat.toDigits 10 n).all Char.isDigit = true :=
    List.all_eq_true.mpr fun c hc => isDigit_of_mem_digits hc
  rw [natural?, if_pos ⟨Nat.toDigits_ne_nil, hdigits⟩, Nat.ofDigitChars_ten_toDigits]

theorem not_isAlpha_of_isDigit {c : Char} (hc : c.isDigit) : c.isAlpha = false := by
  have hnine : c.val ≤ '9'.val := of_decide_eq_true (Bool.and_eq_true_iff.mp hc).2
  refine Bool.eq_false_iff.mpr fun halpha => ?_
  rcases Bool.or_eq_true_iff.mp halpha with hupper | hlower
  · have hle : 'A'.val ≤ c.val := (of_decide_eq_true hupper).1
    exact absurd (UInt32.le_trans hle hnine) (by decide)
  · have hle : 'a'.val ≤ c.val := of_decide_eq_true (Bool.and_eq_true_iff.mp hlower).1
    exact absurd (UInt32.le_trans hle hnine) (by decide)

theorem of?_number (n : Int) : of? (integerText n).toList = some (number n) := by
  rw [toList_integerText]
  split
  · rename_i hn
    have habs : -Int.ofNat n.natAbs = n := by
      rw [Int.ofNat_eq_natCast]
      omega
    have hread : integer? ('-' :: Nat.toDigits 10 n.natAbs) = some n := by
      rw [integer?, natural?_digits, Option.map_some, habs]
    simp [of?, hread]
  · rename_i hn
    have habs : Int.ofNat n.natAbs = n := Int.natAbs_of_nonneg (Int.not_lt.mp hn)
    obtain ⟨c, rest, hcons⟩ := List.exists_cons_of_ne_nil (@Nat.toDigits_ne_nil n.natAbs 10)
    have hnatural := natural?_digits n.natAbs
    rw [hcons] at hnatural ⊢
    have hc : c.isDigit := isDigit_of_mem_digits (hcons ▸ List.mem_cons_self)
    have hne {d : Char} (hd : d.isDigit = false) : c ≠ d :=
      ne_of_apply_ne Char.isDigit (by simp [hc, hd])
    have hread : integer? (c :: rest) = some n := by
      rw [integer?, hnatural, Option.map_some, habs]
      rintro text ⟨rfl, -⟩
      exact hne (by decide) rfl
    simp [of?, hread, not_isAlpha_of_isDigit hc, hne]

theorem of?_symbol (name : Name) : of? name.text.toList = some (symbol name) := by
  obtain ⟨c, rest, hcons⟩ := List.exists_cons_of_ne_nil
    fun hnil => name.nonempty (String.toList_eq_nil_iff.mp hnil)
  have hc : c.isAlpha := List.all_eq_true.mp name.letters c (hcons ▸ List.mem_cons_self)
  have hcolon : c ≠ ':' := ne_of_apply_ne Char.isAlpha (by simp [hc])
  have htext : String.ofList (c :: rest) = name.text := by rw [← hcons, String.ofList_toList]
  obtain ⟨hnil, htrue, hfalse⟩ : name.text ≠ "nil" ∧ name.text ≠ "true" ∧ name.text ≠ "false" := by
    simpa using name.free
  simp only [hcons, of?, if_neg hcolon, if_pos hc, htext, if_neg hnil, if_neg htrue, if_neg hfalse,
    name.of?_text, Option.map_some]

theorem of?_text (a : Atom) (ha : ∀ text, a ≠ string text) : of? a.text.toList = some a := by
  cases a with
  | nil => decide
  | bool b => cases b <;> decide
  | string text => exact absurd rfl (ha text)
  | number n => exact of?_number n
  | symbol name => exact of?_symbol name
  | keyword name =>
    simp [of?, text, name.of?_text]

theorem isPlain_of_mem_text (a : Atom) (ha : ∀ text, a ≠ string text) :
    ∀ c ∈ a.text.toList, Reader.isPlain c := by
  have hword (word : Word) : ∀ c ∈ word.text.toList, Reader.isPlain c := fun c hc =>
    Reader.isPlain_of_isAlpha (List.all_eq_true.mp word.letters c hc)
  cases a with
  | nil => exact hword ⟨"nil", by decide, by decide⟩
  | bool b =>
    cases b
    · exact hword ⟨"false", by decide, by decide⟩
    · exact hword ⟨"true", by decide, by decide⟩
  | string text => exact absurd rfl (ha text)
  | number n =>
    have hdigit : ∀ c ∈ Nat.toDigits 10 n.natAbs, Reader.isPlain c := fun c hc =>
      Reader.isPlain_of_isDigit (isDigit_of_mem_digits hc)
    rw [text, toList_integerText]
    split
    · exact List.forall_mem_cons.mpr ⟨by decide, hdigit⟩
    · exact hdigit
  | symbol name => exact hword name.toWord
  | keyword name =>
    rw [text, String.toList_append]
    exact List.forall_mem_cons.mpr ⟨by decide, hword name⟩

end Atom

-- ---------------------------------------------------------------------------
-- Reading what was written
-- ---------------------------------------------------------------------------

/-- Through the text the reader comes to `r'`, once the last run of characters has ended. -/
def Reader.Reads (r : Reader) (text : List Char) (r' : Reader) : Prop :=
  ∃ mid, text.foldlM step r = some mid ∧ mid.settle = some r'

namespace Reader

variable {r r' mid : Reader} {text : List Char} {c : Char}

theorem step_of_settle (h : mid.settle = some r') (hc : isPlain c = false) :
    mid.step c = r'.delimit c := by
  unfold settle at h
  split at h
  · rename_i hmode
    obtain rfl := Option.some.inj h
    simp [step, hmode, hc]
  · rename_i hmode
    simp [step, hmode, hc, settle, h]
  · cases h
  · cases h

theorem reads_plain {read : List Char} (hm : r.mode = .word read) (ht : ∀ c ∈ text, isPlain c) :
    text.foldlM step r = some { r with mode := .word (read ++ text) } := by
  induction text generalizing r read with
  | nil => simp [← hm]
  | cons c text ih =>
    obtain ⟨hc, ht⟩ := List.forall_mem_cons.mp ht
    have hstep : r.step c = some { r with mode := .word (read ++ [c]) } := by simp [step, hm, hc]
    rw [List.foldlM_cons, hstep]
    simpa using ih (r := { r with mode := .word (read ++ [c]) }) rfl ht

theorem reads_atom {a : Atom} (hm : r.mode = .between) (ha : ∀ text, a ≠ .string text) :
    r.Reads a.text.toList (r.push (.atom a)) := by
  have hread := a.of?_text ha
  have hplain := a.isPlain_of_mem_text ha
  cases htext : a.text.toList with
  | nil => simp [htext, Atom.of?] at hread
  | cons c rest =>
    rw [htext] at hread hplain
    obtain ⟨hc, hrest⟩ := List.forall_mem_cons.mp hplain
    have hstep : r.step c = some { r with mode := .word [c] } := by simp [step, hm, hc]
    refine ⟨{ r with mode := .word (c :: rest) }, ?_, by simp [settle, hread, push]⟩
    rw [List.foldlM_cons, hstep]
    exact reads_plain (r := { r with mode := .word [c] }) rfl hrest

theorem reads_escaped {read : List Char} (hm : r.mode = .string read) (text : List Char) :
    (Text.escapedChars text).foldlM step r = some { r with mode := .string (read ++ text) } := by
  induction text generalizing r read with
  | nil => simp [← hm, Text.escapedChars, Text.substitute]
  | cons c text ih =>
    have hstep : (Text.escapedChars [c]).foldlM step r =
        some { r with mode := .string (read ++ [c]) } := by
      by_cases hslash : c = '\\'
      · subst hslash
        simp [Text.escapedChars, Text.substitute, step, hm]
      · by_cases hquote : c = '"'
        · subst hquote
          simp [Text.escapedChars, Text.substitute, step, hm]
        · by_cases hline : c = '\n'
          · subst hline
            simp [Text.escapedChars, Text.substitute, step, hm]
          · simp [Text.escapedChars, Text.substitute, step, hm, hslash, hquote, hline]
    rw [← List.singleton_append, Text.escapedChars_append, List.foldlM_append, hstep]
    simpa using ih (r := { r with mode := .string (read ++ [c]) }) rfl

theorem reads_string (hm : r.mode = .between) (text : String) :
    r.Reads (Text.escaped text).toList (r.push (.atom (.string text))) := by
  have hopen : r.step '"' = some { r with mode := .string [] } := by
    simp [step, hm, isPlain, delimit]
  have hinner := reads_escaped (r := { r with mode := .string [] }) rfl text.toList
  refine ⟨r.push (.atom (.string text)), ?_, rfl⟩
  rw [Text.escaped, String.toList_ofList, List.cons_append, List.foldlM_cons, hopen,
    Option.bind_eq_bind, Option.bind_some, List.foldlM_append, hinner]
  simp [step, push]

theorem reads_spaced {forms : List Form} (hm : r.mode = .between)
    (hf : ∀ f ∈ forms, ∀ r : Reader, r.mode = .between → r.Reads f.text.toList (r.push f)) :
    r.Reads (" ".intercalate (forms.map Form.text)).toList
      ⟨r.outer, r.done ++ forms, .between⟩ := by
  induction forms generalizing r with
  | nil =>
    obtain ⟨outer, done, mode⟩ := r
    obtain rfl : mode = .between := hm
    exact ⟨⟨outer, done, .between⟩, rfl, by simp [settle]⟩
  | cons f rest ih =>
    obtain ⟨hfirst, hrest⟩ := List.forall_mem_cons.mp hf
    obtain ⟨mid, hrun, hsettle⟩ := hfirst r hm
    cases rest with
    | nil => exact ⟨mid, by simpa using hrun, hsettle⟩
    | cons g rest =>
      obtain ⟨last, hrun', hsettle'⟩ := ih (r := r.push f) rfl hrest
      refine ⟨last, ?_, by simpa [push] using hsettle'⟩
      have hspace : mid.step ' ' = some (r.push f) := step_of_settle hsettle (by decide)
      simp only [List.map_cons] at hrun' ⊢
      rw [String.intercalate_cons_cons, String.toList_append, String.toList_append,
        List.foldlM_append, List.foldlM_append, hrun]
      simpa [hspace] using hrun'

theorem reads_enclosed {forms : List Form} {b : Bracket} {g : Form} (hm : r.mode = .between)
    (hf : ∀ f ∈ forms, ∀ r : Reader, r.mode = .between → r.Reads f.text.toList (r.push f))
    (hg : Form.group? forms b = some g) :
    r.Reads (b.enclose (forms.map Form.text)).toList (r.push g) := by
  have hopen : r.step b.opening = some (r.enter b) := by
    cases b <;> simp [step, hm, Bracket.opening, isPlain, delimit]
  obtain ⟨mid, hrun, hsettle⟩ := reads_spaced (r := r.enter b) rfl hf
  have hplain : isPlain b.closing = false := by cases b <;> decide
  have hclose : mid.step b.closing = some (r.push g) := by
    rw [step_of_settle hsettle hplain]
    cases b <;> simp [delimit, Bracket.closing, leave, enter, hg, push]
  refine ⟨r.push g, ?_, rfl⟩
  rw [Bracket.enclose, String.toList_ofList, List.cons_append, List.foldlM_cons, hopen,
    Option.bind_eq_bind, Option.bind_some, List.foldlM_append, hrun]
  simp [hclose]

end Reader

namespace Form

theorem entries?_members (entries : List (String × Form)) :
    entries? (members entries) = some entries := by
  induction entries with
  | nil => rfl
  | cons e rest ih =>
    rw [members, List.flatMap_cons, ← members]
    simp [entries?, ih]

theorem reads (f : Form) :
    ∀ r : Reader, r.mode = .between → r.Reads f.text.toList (r.push f) := by
  induction f with
  | atom a =>
    intro r hm
    by_cases ha : ∃ text, a = .string text
    · obtain ⟨text, rfl⟩ := ha
      exact Reader.reads_string hm text
    · exact Reader.reads_atom hm (not_exists.mp ha)
  | list items ih =>
    intro r hm
    rw [text, texts_eq_map]
    exact Reader.reads_enclosed hm ih rfl
  | vector items ih =>
    intro r hm
    rw [text, texts_eq_map]
    exact Reader.reads_enclosed hm ih rfl
  | map entries ih =>
    intro r hm
    rw [text, entryTexts_eq]
    refine Reader.reads_enclosed hm (fun f hf => ?_) (by simp [group?, entries?_members])
    obtain ⟨e, he, hf⟩ := List.mem_flatMap.mp hf
    have hf : f = .atom (.string e.1) ∨ f = e.2 := by simpa using hf
    rcases hf with rfl | rfl
    · exact fun r hm => Reader.reads_string hm e.1
    · exact ih e he

theorem read_text (f : Form) : read f.text = some f := by
  obtain ⟨mid, hrun, hsettle⟩ := f.reads .start rfl
  simp only [read, hrun, hsettle, bind, Option.bind_some]
  rfl

theorem text_injective : Function.Injective text := fun f g h => by
  have hread := f.read_text
  rw [h, read_text] at hread
  exact (Option.some.inj hread).symm

end Form

end LexicalEnv
