import LexicalEnv.Tagged

/-!
# Spellings

A name may be written as a symbol, as text, or as either of them wrapped in a
tuple or a tagged value; a sequence may be written as any sequence or as a tagged
list or vector. All that follows works on what is meant, not on how it is written.
-/

namespace LexicalEnv

namespace Heap

def tagIs (h : Heap) (wanted tag : Value) : Except Fault Bool :=
  if wanted = .nil then pure true else h.equal tag wanted

/-- What a wrapper holds if its tag is the wanted one, else the default. Text is its own content. -/
def unwrap (h : Heap) (data wanted default : Value) : Except Fault Value :=
  match data with
  | .text .. => pure data
  | _ =>
    match h.obj? data with
    | some (.tuple (tag :: inner :: _)) => do
      if ← h.tagIs wanted tag then pure inner else pure default
    | _ =>
      match h.tagged? data with
      | some (type, payload) => do if ← h.tagIs wanted type then pure payload else pure default
      | none => pure default

def nameOf (h : Heap) (key : Value) : Except Fault String :=
  match key with
  | .symbol name _ => pure name
  | _ => do
    match ← h.unwrap key (.str "Symbol") .nil with
    | .symbol name _ | .text name _ => pure name
    | _ => throw (.keyRefused (h.quoted key))

@[simp] theorem nameOf_symbol (h : Heap) (name : String) (birth : Birth) :
    h.nameOf (.symbol name birth) = .ok name := rfl

@[simp] theorem nameOf_text (h : Heap) (name : String) (birth : Birth) :
    h.nameOf (.text name birth) = .ok name := rfl

theorem nameOf_tagged {h : Heap} {v payload type : Value} {name : String}
    (made : h.obj? v = some (Tagged.table payload type)) (symbol : type.text? = some "Symbol")
    (payload_eq : payload.symbol? = some name ∨ payload.text? = some name) :
    h.nameOf v = .ok name := by
  have tagged := h.tagged?_table made
  cases v with
  | ref a =>
    cases payload <;>
      simp_all [nameOf, unwrap, Tagged.table, tagIs, Value.symbol?, Value.text?, bind, Except.bind,
        pure, Except.pure]
  | _ => simp [obj?] at made

theorem nameOf_tuple {h : Heap} {v tag inner : Value} {rest : List Value} {name : String}
    (made : h.obj? v = some (.tuple (tag :: inner :: rest))) (symbol : tag.text? = some "Symbol")
    (inner_eq : inner.symbol? = some name ∨ inner.text? = some name) : h.nameOf v = .ok name := by
  cases v with
  | ref a =>
    cases inner <;>
      simp_all [nameOf, unwrap, tagIs, Value.symbol?, Value.text?, bind, Except.bind, pure,
        Except.pure]
  | _ => simp [obj?] at made

/-- The symbol that a key means, as it was made if the key is or holds one. -/
def symbolOf (h : Heap) (key : Value) : Except Fault Value := do
  match key with
  | .symbol .. => pure key
  | _ =>
    match ← h.unwrap key (.str "Symbol") .nil with
    | .symbol name birth => pure (.symbol name birth)
    | _ => pure (.sym (← h.nameOf key))

/-- The members of what is meant as a sequence. Tables and text are none, though they have
members. -/
def sequenceOf (h : Heap) (data : Value) : Except Fault (List Value) :=
  match h.tagged? data with
  | some (type, payload) =>
    if type.text? = some "List" ∨ type.text? = some "Vector" then h.items payload
    else throw (.tagRefused (h.display type))
  | none =>
    if (h.entries? data).isSome then throw .tableAsSequence
    else
      match data with
      | .text .. => throw .textAsSequence
      | _ => h.items data

def nameCarried (h : Heap) (v : Value) : Except Fault Value :=
  match v with
  | .symbol name _ => pure (.str name)
  | _ =>
    match h.obj? v with
    | some (.failure (.arity name _ _ _)) => pure name
    | _ => throw .missingAttribute

end Heap

end LexicalEnv
