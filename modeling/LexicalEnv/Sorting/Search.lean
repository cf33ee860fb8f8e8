/-!
# Searching a stretch in order

Where a stretch of members divides into those before a cut and those beyond it.
A search asks as few members as it can, halving what is left; one that expects
the cut near an end starts there with growing steps. The tests may be refused,
and on members without a common order they may contradict each other: then the
searches still end, each at a place of its own.
-/

namespace LexicalEnv

namespace Sorting

variable {α ε : Type}

def beyondAt (beyond : α → Except ε Bool) (items : Array α) (place : Nat) : Except ε Bool :=
  match items[place]? with
  | some x => beyond x
  | none => pure true

def bisect (beyond : α → Except ε Bool) (items : Array α) (low high : Nat) : Except ε Nat :=
  if low < high then do
    let middle := low + (high - low) / 2
    if ← beyondAt beyond items middle then bisect beyond items low middle
    else bisect beyond items (middle + 1) high
  else pure low
termination_by high - low
decreasing_by all_goals omega

/-- Grows a step while a test holds of it. Answers the last step of which it held and the first of
which it did not, or the end. -/
def stride (holds : Nat → Except ε Bool) (limit last step : Nat) : Except ε (Nat × Nat) :=
  if step < limit then do
    if ← holds step then stride holds limit step (2 * step + 1) else pure (last, step)
  else pure (last, limit)
termination_by limit - step
decreasing_by omega

def cutFromFront (beyond : α → Except ε Bool) (items : Array α) : Except ε Nat := do
  if ← beyondAt beyond items 0 then pure 0
  else
    let before := fun place => do pure (!(← beyondAt beyond items place))
    let (last, step) ← stride before items.size 0 1
    bisect beyond items (last + 1) step

def cutFromBack (beyond : α → Except ε Bool) (items : Array α) : Except ε Nat := do
  let behind := fun back => beyondAt beyond items (items.size - 1 - back)
  if items.isEmpty then pure 0
  else if ← behind 0 then
    let (last, step) ← stride behind items.size 0 1
    bisect beyond items (items.size - step) (items.size - 1 - last)
  else pure items.size

end Sorting

end LexicalEnv
