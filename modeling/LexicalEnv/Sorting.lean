import LexicalEnv.Sequence
import LexicalEnv.Sorting.Runs

/-!
# Sorting values

Members in ascending order, equal ones in the order they had. Text is sorted by
code points; anything else by the order of values, which may be a fault.
-/

namespace LexicalEnv

def sortedTexts (texts : List String) : List String := texts.mergeSort Text.atMost

theorem sortedTexts_perm (texts : List String) : (sortedTexts texts).Perm texts :=
  List.mergeSort_perm ..

theorem sortedTexts_ascending (texts : List String) :
    (sortedTexts texts).Pairwise fun s t => Text.atMost s t := by
  unfold sortedTexts
  apply List.pairwise_mergeSort
  · intro s t u first second
    exact Text.atMost_trans first second
  · exact Text.atMost_total

def Value.textAtMost (a b : Value) : Bool :=
  match a, b with
  | .text s _, .text t _ => Text.atMost s t
  | _, _ => false

namespace Heap

def sorted (h : Heap) (vs : List Value) : Except Fault (List Value) :=
  if vs.all (·.text?.isSome) then pure (vs.mergeSort Value.textAtMost)
  else Sorting.sort h.less vs

end Heap

end LexicalEnv
