import LexicalEnv.Compare

/-!
# Reading containers

What text, sequences, tables and frames have in common: they can be gone
through, counted, searched and subscripted. Going through a table means going
through its keys. Some things can only be gone through.
-/

namespace LexicalEnv

namespace Text

def characters (text : String) : List Value := text.toList.map fun c => .str (String.singleton c)

def occursIn (part : List Char) : List Char → Bool
  | [] => part.isEmpty
  | c :: rest => part.isPrefixOf (c :: rest) || occursIn part rest

end Text

namespace Sequence

/-- The place that an index means; a negative one counts from the end. -/
def place? (length : Nat) (index : Int) : Option Nat :=
  let i := if index < 0 then index + length else index
  if 0 ≤ i ∧ i < length then some i.toNat else none

def member (items : List Value) (index : Value) : Except Fault Value :=
  match index.integer? with
  | none => throw .wrongType
  | some i =>
    match (place? items.length i).bind (items[·]?) with
    | some v => pure v
    | none => throw .outOfRange

theorem member_nat {items : List Value} {n : Nat} {v : Value} (placed : items[n]? = some v) :
    member items (.int n) = .ok v := by
  have lt : (n : Int) < items.length := by
    exact_mod_cast (List.getElem?_eq_some_iff.mp placed).1
  simp [member, Value.integer?, place?, placed, show ¬ (n : Int) < 0 by omega, lt, pure,
    Except.pure]

/-- The first members up to a limit; a negative limit counts from the end, no limit takes all. -/
def takeUpTo {α : Type} (items : List α) (limit : Value) : Except Fault (List α) :=
  match limit with
  | .nil => pure items
  | _ =>
    match limit.integer? with
    | none => throw .wrongType
    | some n => pure (items.take (if n < 0 then (n + items.length).toNat else n.toNat))

theorem takeUpTo_nat {α : Type} (items : List α) (n : Nat) :
    takeUpTo items (.int n) = .ok (items.take n) := by
  simp [takeUpTo, Value.integer?, show ¬ (n : Int) < 0 by omega, pure, Except.pure]

end Sequence

namespace Heap

def items (h : Heap) (v : Value) : Except Fault (List Value) :=
  match v with
  | .text text _ => pure (Text.characters text)
  | _ =>
    match h.obj? v with
    | some (.list items) | some (.tuple items) | some (.iterable items _) => pure items
    | some o =>
      match o.entries? with
      | some entries => pure (entries.map Prod.fst)
      | none => throw .wrongType
    | none => throw .wrongType

/-- How many members a value has. Not all that can be gone through can tell. -/
def count (h : Heap) (v : Value) : Except Fault Nat :=
  match h.obj? v with
  | some (.iterable ..) => throw .wrongType
  | _ => do pure (← h.items v).length

def anyEqual (h : Heap) (v : Value) : List Value → Except Fault Bool
  | [] => pure false
  | x :: rest => do if ← h.sameMember x v then pure true else h.anyEqual v rest

def contains (h : Heap) (container v : Value) : Except Fault Bool :=
  match container with
  | .text text _ =>
    match v with
    | .text part _ => pure (Text.occursIn part.toList text.toList)
    | _ => throw .wrongType
  | _ =>
    match h.obj? container with
    | some (.list items) | some (.tuple items) | some (.iterable items _) => h.anyEqual v items
    | some o =>
      match o.entries? with
      | some entries => if h.isKey v then pure (h.find? entries v).isSome else throw .wrongType
      | none => throw .wrongType
    | none => throw .wrongType

def subscript (h : Heap) (container key : Value) : Except Fault Value :=
  match container with
  | .text text _ => Sequence.member (Text.characters text) key
  | _ =>
    match h.obj? container with
    | some (.list items) | some (.tuple items) => Sequence.member items key
    | some o =>
      match o.entries? with
      | some entries =>
        if h.isKey key then
          match h.find? entries key with
          | some v => pure v
          | none => throw .missingKey
        else throw .wrongType
      | none => throw .wrongType
    | none => throw .wrongType

def field (h : Heap) (record : Value) (name : String) : Except Fault Value :=
  h.subscript record (.str name)

theorem field_parent {h : Heap} {v parent bindings : Value}
    (frame : h.obj? v = some (.frame parent bindings)) : h.field v "parent" = .ok parent := by
  cases v with
  | ref a => simp [field, subscript, frame, Obj.entries?, Value.text?, pure, Except.pure]
  | _ => simp [obj?] at frame

theorem field_bindings {h : Heap} {v parent bindings : Value}
    (frame : h.obj? v = some (.frame parent bindings)) : h.field v "bindings" = .ok bindings := by
  cases v with
  | ref a => simp [field, subscript, frame, Obj.entries?, Value.text?, pure, Except.pure]
  | _ => simp [obj?] at frame

end Heap

end LexicalEnv
