import LexicalEnv.Sorting.Search

/-!
# Merging two runs

Two neighbouring runs in order become one. Of members that are not less than each
other those of the earlier run stay in front. What is in place at both outer ends
stays there; the rest is merged from the end at which the shorter run is, member
by member, and in stretches while one of the runs keeps winning.
-/

namespace LexicalEnv

namespace Sorting

variable {α ε : Type}

inductive End where
  | front
  | back
  deriving DecidableEq

/-- A merge on its way: what is left of the two runs and what was moved, the latest first. Seen
from the end at which the merge proceeds, the next member of each run is its first. -/
structure Merging (α : Type) where
  earlier : List α
  later : List α
  moved : List α

namespace Merging

def settled (m : Merging α) : End → Bool
  | .front => m.earlier.length ≤ 1 || m.later.isEmpty
  | .back => m.later.length ≤ 1 || m.earlier.isEmpty

def result (m : Merging α) : End → List α
  | .front => m.moved.reverse ++ m.later ++ m.earlier
  | .back => m.later.reverse ++ m.earlier.reverse ++ m.moved

def moveEarlier (m : Merging α) (count : Nat) : Merging α :=
  { m with
    earlier := m.earlier.drop count
    moved := (m.earlier.take count).reverse ++ m.moved }

def moveLater (m : Merging α) (count : Nat) : Merging α :=
  { m with
    later := m.later.drop count
    moved := (m.later.take count).reverse ++ m.moved }

end Merging

/-- How often in a row a run has to win before the merge goes on in stretches, to begin with; also
how long a stretch has to be for that to go on. -/
def usualPatience : Nat := 7

section

variable (less : α → α → Except ε Bool)

/-- Moves the lesser of the two next members, or from the back the greater, until a run has won as
often in a row as patience allows. -/
def memberwise (side : End) (patience : Nat) : Nat → Nat → Nat → Merging α → Except ε (Merging α)
  | 0, _, _, m => pure m
  | fuel + 1, earlierWins, laterWins, m =>
    if m.settled side || patience ≤ earlierWins || patience ≤ laterWins then pure m
    else
      match m.earlier, m.later with
      | x :: _, y :: _ => do
        if (← less y x) == (side == .front) then
          memberwise side patience fuel 0 (laterWins + 1) (m.moveLater 1)
        else memberwise side patience fuel (earlierWins + 1) 0 (m.moveEarlier 1)
      | _, _ => pure m

def leading (beyond : α → Except ε Bool) (side : End) (run : List α) : Except ε Nat :=
  match side with
  | .front => cutFromFront beyond run.toArray
  | .back => do pure (run.length - (← cutFromBack beyond run.reverse.toArray))

def earlierStretch (side : End) (m : Merging α) : Except ε Nat :=
  match m.later with
  | y :: _ => leading (fun x => less y x) side m.earlier
  | [] => pure 0

def laterStretch (side : End) (m : Merging α) : Except ε Nat :=
  match m.earlier with
  | x :: _ => leading (fun y => do pure (!(← less y x))) side m.later
  | [] => pure 0

/-- Moves a stretch of each run in turn, each followed by the member that ended it, as long as one
of the stretches is long. Patience shrinks with every turn and grows at the end. -/
def stretchwise (side : End) : Nat → Nat → Merging α → Except ε (Merging α × Nat)
  | 0, patience, m => pure (m, patience)
  | fuel + 1, patience, m => do
    let first ← earlierStretch less side m
    let m := m.moveEarlier first
    if m.settled side then return (m, patience)
    let m := m.moveLater 1
    if m.settled side then return (m, patience)
    let second ← laterStretch less side m
    let m := m.moveLater second
    if m.settled side then return (m, patience)
    let m := m.moveEarlier 1
    if m.settled side then return (m, patience)
    if usualPatience ≤ first || usualPatience ≤ second then
      stretchwise side fuel (max 1 (patience - 1)) m
    else pure (m, patience + 1)

def rounds (side : End) : Nat → Nat → Merging α → Except ε (Merging α × Nat)
  | 0, patience, m => pure (m, patience)
  | fuel + 1, patience, m => do
    let m ← memberwise less side patience (m.earlier.length + m.later.length) 0 0 m
    if m.settled side then return (m, patience)
    let (m, patience) ← stretchwise less side (m.earlier.length + m.later.length) patience m
    if m.settled side then return (m, patience)
    rounds side fuel patience m

/-- Merges two runs whose first and last member in order are known: the first of the later run and
the last of the earlier one. -/
def mergeInner (earlier later : List α) (patience : Nat) : Except ε (List α × Nat) := do
  let side := if earlier.length ≤ later.length then End.front else End.back
  let start : Merging α :=
    match side with
    | .front => Merging.moveLater ⟨earlier, later, []⟩ 1
    | .back => Merging.moveEarlier ⟨earlier.reverse, later.reverse, []⟩ 1
  let (m, patience) ← rounds less side (earlier.length + later.length) patience start
  pure (m.result side, patience)

/-- Merges two neighbouring runs, given the patience that earlier merges left, and answers the
patience for later ones. -/
def merge (earlier later : List α) (patience : Nat) : Except ε (List α × Nat) := do
  match later with
  | [] => pure (earlier, patience)
  | first :: _ =>
    let start ← cutFromFront (fun x => less first x) earlier.toArray
    let inner := earlier.drop start
    match inner.getLast? with
    | none => pure (earlier ++ later, patience)
    | some last =>
      let stop ← cutFromBack (fun y => do pure (!(← less y last))) later.toArray
      if stop = 0 then pure (earlier ++ later, patience)
      else
        let (merged, patience) ← mergeInner less inner (later.take stop) patience
        pure (earlier.take start ++ merged ++ later.drop stop, patience)

end

end Sorting

end LexicalEnv
