import LexicalEnv.Proofs.ReadBack
import LexicalEnv.Proofs.Rounds

/-!
# Values with and without tags

Values without a tag stand for the tagged ones that they resemble. The content of
a value is what it holds whichever of its nodes are tagged, and it alone decides
how the value prints, readably or not (`Printing.tags_unseen`).
-/

namespace LexicalEnv

-- ---------------------------------------------------------------------------
-- Contents and their texts
-- ---------------------------------------------------------------------------

inductive Scalar where
  | nil
  | bool (b : Bool)
  | integer (n : Int)
  | float (x : Binary64)
  | undefined
  | string (text : String)
  | symbol (name : String)
  | other (text : String)
  deriving DecidableEq, Repr

/-- A nested value as a tree. The members of a map are its keys and values in turn. -/
inductive Content where
  | scalar (s : Scalar)
  | group (b : Bracket) (members : List Content)
  deriving Repr

def Scalar.text (readably : Bool) : Scalar → String
  | nil => "nil"
  | bool b => if b then "true" else "false"
  | integer n => integerText n
  | float x => displayedNumber.binary x
  | undefined => displayedNumber.undefined
  | string text => if readably then Text.escaped text else text
  | symbol name => name
  | other text => text

namespace Content

mutual

def text (readably : Bool) : Content → String
  | scalar s => s.text readably
  | group b members => b.enclose (texts readably members)

def texts (readably : Bool) : List Content → List String
  | [] => []
  | c :: rest => c.text readably :: texts readably rest

end

theorem texts_eq_map (readably : Bool) (contents : List Content) :
    texts readably contents = contents.map (text readably) := by
  induction contents with
  | nil => rfl
  | cons c rest ih => rw [texts, ih, List.map_cons]

@[elab_as_elim, induction_eliminator]
theorem induct {P : Content → Prop} (scalar : ∀ s, P (.scalar s))
    (group : ∀ b members, (∀ c ∈ members, P c) → P (.group b members)) : ∀ c, P c
  | .scalar s => scalar s
  | .group b members => group b members fun c _ => induct scalar group c

end Content

-- ---------------------------------------------------------------------------
-- Values of a content
-- ---------------------------------------------------------------------------

namespace Heap

variable {h : Heap} {v raw : Value} {s : Scalar} {print : Value → Except Fault Value}

def scalar? (h : Heap) : Value → Option Scalar
  | .nil => some .nil
  | .bool b => some (.bool b)
  | .integer n _ => some (.integer n)
  | .binary x _ => some (.float x)
  | .text text _ => some (.string text)
  | .symbol name _ => some (.symbol name)
  | .ref a => if h.isUndefined (.ref a) then some .undefined else none

/-- The type of the tagged value that stands for a value without a tag. -/
def typeOf? (h : Heap) : Value → Option String
  | .nil => some "Nil"
  | .bool _ => some "Bool"
  | .integer .. | .binary .. => some "Num"
  | .text .. => some "String"
  | .symbol .. => some "Symbol"
  | .ref a =>
    match h.obj? (.ref a) with
    | some .undefined => some "Num"
    | some (.list _) | some (.tuple _) => some "List"
    | _ => none

/-- A tagged value stands for the value without a tag that is its payload. -/
def Wraps (h : Heap) (raw v : Value) : Prop :=
  ∃ type birth, h.typeOf? raw = some type ∧ h.tagged? v = some (.text type birth, raw)

/-- A value whose content is the given one, with a tag or without at each of its nodes. A symbol may
also be tagged text. -/
inductive Version (h : Heap) : Value → Content → Prop
  | scalar {v raw : Value} {s : Scalar} (hv : v = raw ∨ h.Wraps raw v) (hs : h.scalar? raw = some s) :
    Version h v (.scalar s)
  | named {v : Value} {name : String} {birth birth' : Birth}
    (ht : h.tagged? v = some (.text "Symbol" birth, .text name birth')) :
    Version h v (.scalar (.symbol name))
  | other {v : Value} {text : String}
    (hv : ∀ readably print, Printing.round h readably print v = .ok (.str text)) :
    Version h v (.scalar (.other text))
  | list {v raw : Value} {items : List Value} {contents : List Content} (hv : v = raw ∨ h.Wraps raw v)
    (ho : h.obj? raw = some (.list items) ∨ h.obj? raw = some (.tuple items))
    (hm : List.Forall₂ (Version h) items contents) : Version h v (.group .round contents)
  | vector {v payload : Value} {birth : Birth} {items : List Value} {contents : List Content}
    (ht : h.tagged? v = some (.text "Vector" birth, payload)) (hi : h.items payload = .ok items)
    (hm : List.Forall₂ (Version h) items contents) : Version h v (.group .square contents)
  | map {v payload : Value} {birth : Birth} {entries : Entries} {contents : List Content}
    (ht : h.tagged? v = some (.text "Map" birth, payload)) (he : h.entries? payload = some entries)
    (hm : List.Forall₂ (Version h) (Printing.entryMembers entries) contents) :
    Version h v (.group .curly contents)

end Heap

-- ---------------------------------------------------------------------------
-- Printing
-- ---------------------------------------------------------------------------

theorem Heap.display_binary (h : Heap) (x : Binary64) (birth : Birth) :
    h.display (.binary x birth) = displayedNumber.binary x := by
  unfold display
  cases h.size <;> rfl

namespace Heap

variable {h : Heap} {v raw payload : Value} {s : Scalar} {items : List Value}

theorem obj?_of_isUndefined (hv : h.isUndefined v = true) : h.obj? v = some .undefined :=
  beq_iff_eq.mp hv

theorem display_undefined (ho : h.obj? v = some .undefined) :
    h.display v = displayedNumber.undefined := by
  obtain ⟨a, rfl, -⟩ := exists_ref_of_obj? ho
  have hquoted : h.quoted (.ref a) = displayedNumber.undefined := by simp only [quoted, quotedAt, ho]
  unfold display
  cases h.size with
  | zero => exact hquoted
  | succ => simp only [displayAt, ho]; exact hquoted

theorem tagged?_of_typeOf? {type : String} (ht : h.typeOf? raw = some type) :
    h.tagged? raw = none := by
  have hentries : h.entries? raw = none := by
    cases raw with
    | ref a =>
      cases ho : h.obj? (.ref a) with
      | none => simp [entries?, ho]
      | some o => cases o <;> simp_all [entries?, Obj.entries?, typeOf?]
    | _ => rfl
  simp [tagged?, hentries]

end Heap

namespace Printing

variable {h : Heap} {v raw payload : Value} {s : Scalar} {items : List Value}

theorem round_wraps (hw : h.Wraps raw v) (readably : Bool) (print : Value → Except Fault Value) :
    round h readably print v = round h readably print raw := by
  obtain ⟨type, birth, htype, htagged⟩ := hw
  simp only [round, htagged, Heap.tagged?_of_typeOf? htype]
  cases raw with
  | ref a =>
    cases ho : h.obj? (.ref a) with
    | none => simp [Heap.typeOf?, ho] at htype
    | some o =>
      cases o with
      | list items =>
        obtain rfl : "List" = type := by simpa [Heap.typeOf?, ho] using htype
        simp only [tagged, plain, ho, Heap.items, bind, Except.bind, pure, Except.pure]
      | tuple items =>
        obtain rfl : "List" = type := by simpa [Heap.typeOf?, ho] using htype
        simp only [tagged, plain, ho, Heap.items, bind, Except.bind, pure, Except.pure]
      | undefined =>
        obtain rfl : "Num" = type := by simpa [Heap.typeOf?, ho] using htype
        simp only [tagged, plain, ho]
      | _ => simp [Heap.typeOf?, ho] at htype
  | _ =>
    obtain rfl := Option.some.inj htype
    rfl

theorem round_scalar (hs : h.scalar? raw = some s) (readably : Bool)
    (print : Value → Except Fault Value) :
    ∃ birth, round h readably print raw = .ok (.text (s.text readably) birth) := by
  cases raw with
  | integer n birth =>
    obtain rfl := Option.some.inj hs
    exact ⟨none, congrArg (fun text => Except.ok (Value.str text)) (h.display_integer n birth)⟩
  | binary x birth =>
    obtain rfl := Option.some.inj hs
    exact ⟨none, congrArg (fun text => Except.ok (Value.str text)) (h.display_binary x birth)⟩
  | text text birth =>
    obtain rfl := Option.some.inj hs
    cases readably
    · exact ⟨birth, rfl⟩
    · exact ⟨none, rfl⟩
  | symbol name birth =>
    obtain rfl := Option.some.inj hs
    exact ⟨none, congrArg (fun text => Except.ok (Value.str text)) (h.display_symbol name birth)⟩
  | ref a =>
    obtain ⟨hundefined, rfl⟩ : h.isUndefined (.ref a) = true ∧ Scalar.undefined = s := by
      simpa [Heap.scalar?] using hs
    have ho := Heap.obj?_of_isUndefined hundefined
    have htype : h.typeOf? (.ref a) = some "Num" := by simp [Heap.typeOf?, ho]
    refine ⟨none, ?_⟩
    simp only [round, Heap.tagged?_of_typeOf? htype, plain, ho, Heap.display_undefined ho]
    rfl
  | _ =>
    obtain rfl := Option.some.inj hs
    exact ⟨none, rfl⟩

theorem round_sequence (ho : h.obj? raw = some (.list items) ∨ h.obj? raw = some (.tuple items))
    (readably : Bool) (print : Value → Except Fault Value) :
    round h readably print raw =
      (do pure (enclosed "(" ")" (← membersText print items))) := by
  have htype : h.typeOf? raw = some "List" := by
    rcases ho with ho | ho <;> obtain ⟨a, rfl, -⟩ := Heap.exists_ref_of_obj? ho <;>
      simp only [Heap.typeOf?, ho]
  rcases ho with ho | ho <;> obtain ⟨a, rfl, -⟩ := Heap.exists_ref_of_obj? ho <;>
    simp only [round, Heap.tagged?_of_typeOf? htype, plain, ho]

theorem round_version (hv : v = raw ∨ h.Wraps raw v) (readably : Bool)
    (print : Value → Except Fault Value) :
    round h readably print v = round h readably print raw := by
  rcases hv with rfl | hw
  · rfl
  · exact round_wraps hw readably print

theorem write_enclosed {b : Bracket} {contents : List Content} {readably : Bool}
    (opening closing : String) (ho : opening.toList = [b.opening])
    (hc : closing.toList = [b.closing])
    (hm : List.Forall₂ (fun v (c : Content) => ∃ birth,
      write h readably v = .ok (.text (c.text readably) birth)) items contents)
    (hr : round h readably (write h readably) v =
      (do pure (enclosed opening closing (← membersText (write h readably) items)))) :
    write h readably v = .ok (.str ((Content.group b contents).text readably)) := by
  have htexts : membersText (write h readably) items =
      .ok (" ".intercalate (contents.map (Content.text readably))) :=
    membersText_eq (List.forall₂_map_right_iff.mpr hm)
  rw [write_eq_ok_iff, hr, htexts, Content.text, Content.texts_eq_map]
  exact congrArg Except.ok (enclosed_eq ho hc _)

theorem prints_of_version {c : Content} (hv : h.Version v c) (readably : Bool) :
    ∃ birth, write h readably v = .ok (.text (c.text readably) birth) := by
  induction c generalizing v with
  | scalar s =>
    cases hv with
    | scalar hv hs =>
      obtain ⟨birth, hround⟩ := round_scalar hs readably (write h readably)
      exact ⟨birth, write_eq_ok_iff.mpr ((round_version hv _ _).trans hround)⟩
    | @named _ name birth birth' ht =>
      refine ⟨none, write_eq_ok_iff.mpr ?_⟩
      simp only [round, ht, tagged, h.display_text]
      rfl
    | other hv => exact ⟨none, write_eq_ok_iff.mpr (hv _ _)⟩
  | group b contents ih =>
    have hmembers {items : List Value} (hm : List.Forall₂ h.Version items contents) :
        List.Forall₂ (fun v (c : Content) => ∃ birth,
          write h readably v = .ok (.text (c.text readably) birth)) items contents := by
      obtain ⟨hlen, hzip⟩ := List.forall₂_iff_zip.mp hm
      exact List.forall₂_iff_zip.mpr ⟨hlen, fun hz => ih _ (List.of_mem_zip hz).2 (hzip hz)⟩
    refine ⟨none, ?_⟩
    cases hv with
    | list hv ho hm =>
      exact write_enclosed "(" ")" rfl rfl (hmembers hm)
        ((round_version hv _ _).trans (round_sequence ho _ _))
    | vector ht hi hm =>
      refine write_enclosed "[" "]" rfl rfl (hmembers hm) ?_
      simp only [round, ht, tagged, hi]
      rfl
    | map ht he hm =>
      refine write_enclosed "\x7b" "\x7d" rfl rfl (hmembers hm) ?_
      simp only [round, ht, tagged, he]

end Printing

theorem Heap.wraps_made {w : World} {raw : Value} {type : String}
    (ht : w.heap.typeOf? raw = some type) :
    ∃ v w', Tagged.make raw (.str type) w = .ok v w' ∧ w'.heap.Wraps raw v := by
  refine ⟨_, _, rfl, type, none, ?_, Heap.tagged?_table (Heap.obj?_add_self w.heap _)⟩
  cases raw with
  | ref a =>
    have hne : (Value.ref a) ≠ .ref w.heap.size := by
      intro he
      simp [typeOf?, he, Heap.obj?_size] at ht
    simpa only [typeOf?, Heap.obj?_add, if_neg hne] using ht
  | _ => exact ht

/-- A value without a tag and the tagged one made of it print the same or fail the same. So values of
one content print as the text of the content, readably or not, whatever heaps they are in and
whichever of their nodes are tagged. -/
theorem Printing.tags_unseen :
    (∀ (w : World) raw type, w.heap.typeOf? raw = some type →
      ∃ v w', Tagged.make raw (.str type) w = .ok v w' ∧
        ∀ readably, write w'.heap readably v = write w'.heap readably raw) ∧
    ∀ (h h' : Heap) v v' c, h.Version v c → h'.Version v' c → ∀ readably, ∃ birth birth',
      write h readably v = .ok (.text (c.text readably) birth) ∧
        write h' readably v' = .ok (.text (c.text readably) birth') := by
  refine ⟨fun w raw type ht => ?_, fun h h' v v' c hv hv' readably => ?_⟩
  · obtain ⟨v, w', hrun, hwraps⟩ := Heap.wraps_made ht
    exact ⟨v, w', hrun, fun readably => round_wraps hwraps readably _⟩
  · obtain ⟨birth, hwrite⟩ := prints_of_version hv readably
    obtain ⟨birth', hwrite'⟩ := prints_of_version hv' readably
    exact ⟨birth, birth', hwrite, hwrite'⟩

/-- The shared objects, and a map to a vector of a symbol and a list: first with no tags but those of
the map, the vector and a keyword, then with tags wherever there can be one. -/
def Heap.taggedTwice : Heap :=
  ⟨World.initial.heap.objects ++ #[.undefined, Tagged.table (.str "kw") (.str "Keyword"),
    .tuple [.int 1, .str "a\n", .nil, .ref 4, .ref 5], .list [.sym "x", .ref 6],
    Tagged.table (.ref 7) (.str "Vector"), .table [(.str "k", .ref 8)],
    Tagged.table (.ref 9) (.str "Map"),
    Tagged.table (.int 1) (.str "Num"), Tagged.table (.str "a\n") (.str "String"),
    Tagged.table (.ref 4) (.str "Num"), .list [.ref 11, .ref 12, .ref 0, .ref 13, .ref 5],
    Tagged.table (.ref 14) (.str "List"), Tagged.table (.sym "x") (.str "Symbol"),
    .list [.ref 16, .ref 15], Tagged.table (.ref 17) (.str "Vector"), .table [(.str "k", .ref 18)],
    Tagged.table (.ref 19) (.str "Map")]⟩

def Content.nested : Content :=
  .group .curly [.scalar (.string "k"), .group .square [.scalar (.symbol "x"), .group .round
    [.scalar (.integer 1), .scalar (.string "a\n"), .scalar .nil, .scalar .undefined,
      .scalar (.other ":kw")]]]

theorem Heap.taggedTwice_plain : taggedTwice.Version (.ref 10) Content.nested := by
  have hlist : taggedTwice.Version (.ref 6) _ := .list (.inl rfl) (.inr rfl)
    (.cons (.scalar (.inl rfl) rfl) (.cons (.scalar (.inl rfl) rfl) (.cons (.scalar (.inl rfl) rfl)
      (.cons (.scalar (.inl rfl) rfl) (.cons (.other fun _ _ => rfl) .nil)))))
  have hvector : taggedTwice.Version (.ref 8) _ := .vector rfl rfl
    (.cons (.scalar (.inl rfl) rfl) (.cons hlist .nil))
  exact .map rfl rfl (.cons (.scalar (.inl rfl) rfl) (.cons hvector .nil))

theorem Heap.taggedTwice_tagged : taggedTwice.Version (.ref 20) Content.nested := by
  have hwraps {v raw : Value} (type : String) (ht : taggedTwice.typeOf? raw = some type)
      (hv : taggedTwice.tagged? v = some (.str type, raw)) : v = raw ∨ taggedTwice.Wraps raw v :=
    .inr ⟨type, none, ht, hv⟩
  have hlist : taggedTwice.Version (.ref 15) _ := .list (hwraps "List" rfl rfl) (.inl rfl)
    (.cons (.scalar (hwraps "Num" rfl rfl) rfl) (.cons (.scalar (hwraps "String" rfl rfl) rfl)
      (.cons (.scalar (hwraps "Nil" rfl rfl) rfl) (.cons (.scalar (hwraps "Num" rfl rfl) rfl)
        (.cons (.other fun _ _ => rfl) .nil)))))
  have hvector : taggedTwice.Version (.ref 18) _ := .vector rfl rfl
    (.cons (.scalar (hwraps "Symbol" rfl rfl) rfl) (.cons hlist .nil))
  exact .map rfl rfl (.cons (.scalar (.inl rfl) rfl) (.cons hvector .nil))

theorem Printing.tags_unseen_taggedTwice :
    World.initial.heap.typeOf? Constant.emptyTuple.value = some "List" ∧
      (∃ v w', Tagged.make Constant.emptyTuple.value (.str "List") World.initial = .ok v w' ∧
        write w'.heap true v = write w'.heap true Constant.emptyTuple.value) ∧
      Heap.taggedTwice.Version (.ref 10) Content.nested ∧
      Heap.taggedTwice.Version (.ref 20) Content.nested ∧
      ∃ birth birth', write Heap.taggedTwice false (.ref 10) =
          .ok (.text "\x7bk [x (1 a\n nil nan :kw)]\x7d" birth) ∧
        write Heap.taggedTwice false (.ref 20) =
          .ok (.text "\x7bk [x (1 a\n nil nan :kw)]\x7d" birth') := by
  have htype : World.initial.heap.typeOf? Constant.emptyTuple.value = some "List" := rfl
  obtain ⟨hmade, hversions⟩ := tags_unseen
  obtain ⟨v, w', hrun, hsame⟩ := hmade World.initial _ _ htype
  exact ⟨htype, ⟨v, w', hrun, hsame true⟩, Heap.taggedTwice_plain, Heap.taggedTwice_tagged,
    hversions _ _ _ _ _ Heap.taggedTwice_plain Heap.taggedTwice_tagged false⟩

end LexicalEnv
