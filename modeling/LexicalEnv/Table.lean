import LexicalEnv.Heap

/-!
# Tables

Entries keyed by values. Keys are compared by what they denote, tuples member by
member; an object that can change is no key. A key that is bound again keeps its
place. Symbols are compared by name and texts as written, whatever the heap.
-/

namespace LexicalEnv

namespace Heap

-- ---------------------------------------------------------------------------
-- Keys
-- ---------------------------------------------------------------------------

def isKeyAt (h : Heap) : Nat → Value → Bool
  | 0, _ => false
  | fuel + 1, v =>
    match h.obj? v with
    | none | some (.failure _) | some .undefined | some (.iterable ..) => true
    | some (.tuple items) => items.all (h.isKeyAt fuel)
    | some _ => false

/-- A tuple holds older objects only, so the heap's size bounds its nesting. -/
def isKey (h : Heap) (v : Value) : Bool := h.isKeyAt (h.size + 1) v

def sameKeyAt (h : Heap) : Nat → Value → Value → Bool
  | 0, _, _ => false
  | fuel + 1, a, b =>
    a == b ||
    match h.obj? a, h.obj? b with
    | some (.tuple xs), some (.tuple ys) => xs.isEqv ys (h.sameKeyAt fuel)
    | none, none => a.sameScalar b
    | _, _ => false

def sameKey (h : Heap) (a b : Value) : Bool := h.sameKeyAt (h.size + 1) a b

@[simp] theorem isKey_symbol (h : Heap) (name : String) (birth : Birth) :
    h.isKey (.symbol name birth) = true := rfl

@[simp] theorem isKey_text (h : Heap) (text : String) (birth : Birth) :
    h.isKey (.text text birth) = true := rfl

@[simp] theorem sameKey_symbol (h : Heap) (a : Value) (name : String) (birth : Birth) :
    h.sameKey a (.symbol name birth) = (a.symbol? == some name) := by
  cases a <;> simp [sameKey, sameKeyAt, obj?, Value.symbol?]
  · intro same _; exact same
  · split <;> simp_all

@[simp] theorem sameKey_text (h : Heap) (a : Value) (text : String) (birth : Birth) :
    h.sameKey a (.text text birth) = (a.text? == some text) := by
  cases a <;> simp [sameKey, sameKeyAt, obj?, Value.text?]
  · intro same _; exact same
  · split <;> simp_all

-- ---------------------------------------------------------------------------
-- Entries
-- ---------------------------------------------------------------------------

def find? (h : Heap) : Entries → Value → Option Value
  | [], _ => none
  | (k, v) :: rest, key => if h.sameKey k key then some v else h.find? rest key

/-- Binds a key: in its place if it is there already, behind all others if not. -/
def insert (h : Heap) : Entries → Value → Value → Entries
  | [], key, value => [(key, value)]
  | (k, v) :: rest, key, value =>
    if h.sameKey k key then (k, value) :: rest else (k, v) :: h.insert rest key value

def inserted (h : Heap) (entries : Entries) (key value : Value) : Except Fault Entries :=
  if h.isKey key then pure (h.insert entries key value) else throw .wrongType

def insertAll (h : Heap) (entries : Entries) (bindings : List (Value × Value)) :
    Except Fault Entries :=
  bindings.foldlM (fun entries e => h.inserted entries e.1 e.2) entries

@[simp] theorem inserted_symbol (h : Heap) (entries : Entries) (name : String) (birth : Birth)
    (value : Value) :
    h.inserted entries (.symbol name birth) value =
      .ok (h.insert entries (.symbol name birth) value) := by
  simp [inserted, pure, Except.pure]

@[simp] theorem find?_nil (h : Heap) (key : Value) : h.find? [] key = none := rfl

@[simp] theorem find?_cons_text (h : Heap) (k v : Value) (rest : Entries) (text : String)
    (birth : Birth) :
    h.find? ((k, v) :: rest) (.text text birth) =
      if k.text? = some text then some v else h.find? rest (.text text birth) := by
  simp [find?]

theorem find?_symbol (h h' : Heap) (entries : Entries) (name : String) (birth birth' : Birth) :
    h.find? entries (.symbol name birth) = h'.find? entries (.symbol name birth') := by
  induction entries with
  | nil => rfl
  | cons e rest ih => simp only [find?, sameKey_symbol, ih]

theorem find?_text (h h' : Heap) (entries : Entries) (text : String) (birth birth' : Birth) :
    h.find? entries (.text text birth) = h'.find? entries (.text text birth') := by
  induction entries with
  | nil => rfl
  | cons e rest ih => simp only [find?, sameKey_text, ih]

theorem find?_insert_symbol (h h' : Heap) (entries : Entries) (name other : String)
    (birth birth' : Birth) (value : Value) :
    h'.find? (h.insert entries (.symbol name birth) value) (.symbol other birth') =
      if other = name then some value else h'.find? entries (.symbol other birth') := by
  induction entries with
  | nil => by_cases same : other = name <;> simp [insert, find?, Value.symbol?, same, Ne.symm]
  | cons e rest ih =>
    obtain ⟨k, v⟩ := e
    by_cases here : k.symbol? = some name
    · by_cases same : other = name
      · simp [insert, find?, here, same]
      · simp [insert, find?, here, same, Ne.symm same]
    · by_cases found : k.symbol? = some other
      · have differ : other ≠ name := fun same => here (same ▸ found)
        simp [insert, find?, found, differ]
      · simp [insert, find?, here, found, ih]

theorem keys_insert_symbol (h : Heap) (entries : Entries) (name : String) (birth : Birth)
    (value : Value) :
    (h.insert entries (.symbol name birth) value).map Prod.fst =
      if some name ∈ entries.map (·.1.symbol?) then entries.map Prod.fst
      else entries.map Prod.fst ++ [.symbol name birth] := by
  induction entries with
  | nil => simp [insert]
  | cons e rest ih =>
    obtain ⟨k, v⟩ := e
    by_cases here : k.symbol? = some name
    · simp [insert, here]
    · simp only [insert, sameKey_symbol, beq_eq_false_iff_ne.mpr here, Bool.false_eq_true, if_false,
        List.map_cons, ih, List.mem_cons, Ne.symm here, false_or]
      split <;> rfl

end Heap

end LexicalEnv
