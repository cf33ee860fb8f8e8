import LexicalEnv.Sorting.Merge

/-!
# Sorting by runs

A list is cut into the runs that it has by nature; short ones are lengthened by
inserting the members that follow. Runs are merged with their neighbours, those
first whose midpoints part last in a halving of the whole. The sort is stable. It
is definite also where comparisons contradict each other, as those with a number
that is in no order do: the result is then what these steps make of it.
-/

namespace LexicalEnv

namespace Sorting

variable {α ε : Type}

-- ---------------------------------------------------------------------------
-- Finding runs
-- ---------------------------------------------------------------------------

def goingOn (test : α → α → Except ε Bool) (last : α) : List α → Except ε (List α × List α)
  | [] => pure ([], [])
  | x :: rest => do
    if ← test last x then
      let (run, others) ← goingOn test x rest
      pure (x :: run, others)
    else pure ([], x :: rest)

section

variable (less : α → α → Except ε Bool)

/-- The first run of a list and what is behind it. A run descends if its second member is less than
the first, and is then turned around. -/
def firstRun : List α → Except ε (List α × List α)
  | x :: y :: rest => do
    if ← less y x then
      let (run, others) ← goingOn (fun last next => less next last) y rest
      pure ((x :: y :: run).reverse, others)
    else
      let (run, others) ← goingOn (fun last next => do pure (!(← less next last))) y rest
      pure (x :: y :: run, others)
  | items => pure (items, [])

def insertInRun (run : List α) (x : α) : Except ε (List α) := do
  let place ← bisect (fun other => less x other) run.toArray 0 run.length
  pure (run.take place ++ x :: run.drop place)

def firstLongRun (least : Nat) (items : List α) : Except ε (List α × List α) := do
  let (run, rest) ← firstRun less items
  let missing := least - run.length
  pure (← (rest.take missing).foldlM (insertInRun less) run, rest.drop missing)

end

/-- The least length of runs: less than 64 of them, or 64, so that a power of two of such runs, or
slightly less, make up the whole. -/
def leastRun (length : Nat) (odd : Bool) : Nat :=
  if length < 64 then length + odd.toNat else leastRun (length / 2) (odd || length % 2 == 1)
termination_by length
decreasing_by omega

-- ---------------------------------------------------------------------------
-- Merging runs
-- ---------------------------------------------------------------------------

def parting (whole : Nat) : Nat → Nat → Nat → Nat
  | 0, _, _ => 0
  | fuel + 1, a, b =>
    if whole ≤ a then parting whole fuel (2 * (a - whole)) (2 * (b - whole)) + 1
    else if whole ≤ b then 1
    else parting whole fuel (2 * a) (2 * b) + 1

/-- A run that waits to be merged: where it starts, and how far the parting from the run behind it
is down in a balanced tree over the whole. -/
structure Pending (α : Type) where
  start : Nat
  members : List α
  depth : Nat

def Pending.partingDepth (run : Pending α) (next whole : Nat) : Nat :=
  let middle := 2 * run.start + run.members.length
  parting whole whole middle (middle + run.members.length + next)

section

variable (less : α → α → Except ε Bool)

def Pending.join (earlier later : Pending α) (patience : Nat) : Except ε (Pending α × Nat) := do
  let (members, patience) ← merge less earlier.members later.members patience
  pure (⟨earlier.start, members, earlier.depth⟩, patience)

/-- Merges the last runs as long as the parting before them is deeper than a given one. The last run
is first in the list. -/
def mergeDeeper (depth : Nat) : Pending α → List (Pending α) → Nat →
    Except ε (List (Pending α) × Nat)
  | last, [], patience => pure ([{ last with depth := depth }], patience)
  | last, before :: others, patience => do
    if depth < before.depth then
      let (joined, patience) ← before.join less last patience
      mergeDeeper depth joined others patience
    else pure ({ last with depth := depth } :: before :: others, patience)

/-- Merges all runs: the last two, or the two before the last if the last one is longer than the
first of the three. -/
def mergeAll : Nat → List (Pending α) → Nat → Except ε (List α)
  | fuel + 1, last :: middle :: first :: others, patience => do
    if first.members.length < last.members.length then
      let (joined, patience) ← first.join less middle patience
      mergeAll fuel (last :: joined :: others) patience
    else
      let (joined, patience) ← middle.join less last patience
      mergeAll fuel (joined :: first :: others) patience
  | _, [last, first], patience => do pure (← first.join less last patience).1.members
  | _, pending, _ => pure (pending.reverse.flatMap (·.members))

def push (whole start : Nat) (run : List α) (pending : List (Pending α)) (patience : Nat) :
    Except ε (List (Pending α) × Nat) :=
  match pending with
  | [] => pure ([⟨start, run, 0⟩], patience)
  | last :: others => do
    let depth := last.partingDepth run.length whole
    let (pending, patience) ← mergeDeeper less depth last others patience
    pure (⟨start, run, 0⟩ :: pending, patience)

def sortRest (whole : Nat) : Nat → List α → List (Pending α) → Nat → Except ε (List α)
  | fuel + 1, x :: rest, pending, patience => do
    let items := x :: rest
    let (run, others) ← firstLongRun less (leastRun whole false) items
    let (pending, patience) ← push less whole (whole - items.length) run pending patience
    sortRest whole fuel others pending patience
  | _, items, pending, patience => do
    pure ((← mergeAll less pending.length pending patience) ++ items)

def sort (items : List α) : Except ε (List α) :=
  sortRest less items.length items.length items [] usualPatience

end

end Sorting

end LexicalEnv
