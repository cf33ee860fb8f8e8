import LexicalEnv.Table
import LexicalEnv.Text.Order

/-!
# Comparison

Truth, equality and order of values as the heap stands. Numbers compare across
their notations, text by code points, sequences member by member and tables entry
by entry. Values without a common order have none, which is a fault, and so is a
comparison that a cycle keeps from ending.
-/

namespace LexicalEnv

abbrev Test := Value → Value → Except Fault Bool

def Test.onAll (test : Test) : List Value → List Value → Except Fault Bool
  | [], [] => pure true
  | x :: xs, y :: ys => do if ← test x y then test.onAll xs ys else pure false
  | _, _ => pure false

def Test.firstDifference (test : Test) :
    List Value → List Value → Except Fault (Ordering ⊕ Value × Value)
  | [], [] => pure (.inl .eq)
  | [], _ :: _ => pure (.inl .lt)
  | _ :: _, [] => pure (.inl .gt)
  | x :: xs, y :: ys => do
    if ← test x y then test.firstDifference xs ys else pure (.inr (x, y))

namespace Heap

/-- What counts as true: all but nothing, false, zero and what is empty. -/
def truthy (h : Heap) (v : Value) : Bool :=
  match v with
  | .nil => false
  | .bool b => b
  | .integer n _ => n != 0
  | .binary x _ => !x.isZero
  | .text text _ => text != ""
  | .symbol .. => true
  | .ref _ =>
    match h.obj? v with
    | some (.list []) | some (.tuple []) | some (.table []) => false
    | _ => true

-- ---------------------------------------------------------------------------
-- Equality
-- ---------------------------------------------------------------------------

def allFound (h : Heap) (test : Test) (other : Entries) : Entries → Except Fault Bool
  | [] => pure true
  | (k, v) :: rest =>
    match h.find? other k with
    | none => pure false
    | some w => do if ← test v w then h.allFound test other rest else pure false

/-- Equality of members of sequences and tables: a value always equals itself. -/
def sameMemberAt (h : Heap) : Nat → Test
  | 0, _, _ => throw .tooDeep
  | fuel + 1, a, b =>
    if a == b then pure true
    else
      match h.obj? a, h.obj? b with
      | none, none => pure (a.sameScalar b)
      | some (.list xs), some (.list ys) =>
        if xs.length = ys.length then Test.onAll (h.sameMemberAt fuel) xs ys else pure false
      | some (.tuple xs), some (.tuple ys) => Test.onAll (h.sameMemberAt fuel) xs ys
      | some x, some y =>
        match x.entries?, y.entries? with
        | some xs, some ys =>
          if xs.length = ys.length then h.allFound (h.sameMemberAt fuel) ys xs else pure false
        | _, _ => pure false
      | _, _ => pure false

/-- Only along cycles does a comparison go deeper than the heap is large. It may still find a
difference in some further rounds. -/
def sameMember (h : Heap) : Test := h.sameMemberAt (h.size + 1000)

/-- Equality of two values: as for members, but an undefined number differs from itself. -/
def equal (h : Heap) : Test := fun a b =>
  if h.isUndefined a then pure false else h.sameMember a b

theorem sameMemberAt_symbol (h : Heap) (fuel : Nat) (a : Value) (name : String) (birth : Birth) :
    h.sameMemberAt (fuel + 1) a (.symbol name birth) = .ok (a.symbol? == some name) := by
  by_cases same : a = .symbol name birth
  · simp [sameMemberAt, same, pure, Except.pure]
  · cases a <;> simp_all [sameMemberAt, obj?, Value.symbol?, pure, Except.pure]
    split <;> simp_all

theorem sameMemberAt_text (h : Heap) (fuel : Nat) (a : Value) (text : String) (birth : Birth) :
    h.sameMemberAt (fuel + 1) a (.text text birth) = .ok (a.text? == some text) := by
  by_cases same : a = .text text birth
  · simp [sameMemberAt, same, pure, Except.pure]
  · cases a <;> simp_all [sameMemberAt, obj?, Value.text?, pure, Except.pure]
    split <;> simp_all

@[simp] theorem sameMember_text (h : Heap) (a : Value) (text : String) (birth : Birth) :
    h.sameMember a (.text text birth) = .ok (a.text? == some text) :=
  h.sameMemberAt_text (h.size + 999) a text birth

@[simp] theorem equal_text (h : Heap) (a : Value) (text : String) (birth : Birth) :
    h.equal a (.text text birth) = .ok (a.text? == some text) := by
  unfold equal
  split
  · rename_i undefined
    cases a <;> simp_all [isUndefined, obj?, Value.text?, pure, Except.pure]
  · simp

-- ---------------------------------------------------------------------------
-- Order
-- ---------------------------------------------------------------------------

inductive OrderTest where
  | less
  | lessOrEqual
  deriving DecidableEq, Repr

def OrderTest.holds : OrderTest → Ordering → Bool
  | .less, o => o == .lt
  | .lessOrEqual, o => o != .gt

def isNumber (h : Heap) (v : Value) : Bool := v.number?.isSome || h.isUndefined v

def inOrderAt (h : Heap) (order : OrderTest) : Nat → Test
  | 0, _, _ => throw .tooDeep
  | fuel + 1, a, b =>
    match a, b with
    | .text s _, .text t _ => pure (order.holds (Text.compare s t))
    | _, _ =>
      match a.number?, b.number? with
      | some x, some y => pure (order.holds (x.compare y))
      | _, _ =>
        match h.obj? a, h.obj? b with
        | some (.list xs), some (.list ys) | some (.tuple xs), some (.tuple ys) => do
          match ← Test.firstDifference h.sameMember xs ys with
          | .inl lengths => pure (order.holds lengths)
          | .inr (x, y) => h.inOrderAt order fuel x y
        | _, _ => if h.isNumber a && h.isNumber b then pure false else throw .wrongType

def less (h : Heap) : Test := h.inOrderAt .less (h.size + 1000)

def lessOrEqual (h : Heap) : Test := h.inOrderAt .lessOrEqual (h.size + 1000)

theorem inOrderAt_integer (h : Heap) (order : OrderTest) (fuel : Nat) (m n : Int)
    (birth birth' : Birth) :
    h.inOrderAt order (fuel + 1) (.integer m birth) (.integer n birth') =
      .ok (order.holds (Number.order m n)) := by
  simp [inOrderAt, Value.number?, Number.compare_ofInt, pure, Except.pure]

theorem less_integer (h : Heap) (m n : Int) (birth birth' : Birth) :
    h.less (.integer m birth) (.integer n birth') = .ok (decide (m < n)) := by
  refine (h.inOrderAt_integer .less (h.size + 999) m n birth birth').trans ?_
  by_cases lt : m < n
  · simp [OrderTest.holds, Number.order, lt]
  · by_cases gt : n < m <;> simp [OrderTest.holds, Number.order, lt, gt]

end Heap

end LexicalEnv
