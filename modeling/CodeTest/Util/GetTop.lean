import CodeTest.Foundations.BinaryHeap
import CodeTest.Foundations.StrictWeak
import Mathlib.Order.WithBot

/-!
# The first elements of an array

`getTop` of `util.lua`: the first `k` elements of an array in the order of `compareFunc`. They are
kept as a heap in the first `k` positions, with the last of them on top: `heapify` sifts down, and
its variable `smallest` goes to the child that comes last. The rest of the array is streamed past
the top, and a heap sort of the first `k` positions brings the result in order.

An array is the list of its elements, and positions count from 1. `compareFunc` is not given nil: a
comparison with a position outside the array has no result, and neither has what calls it.
-/

namespace CodeTest.GetTop

open BinaryHeap

variable {α : Type} (compareFunc : α → α → Bool)

/-- `arr[i]`. -/
def at? (arr : List α) (i : ℕ) : Option α := if i = 0 then none else arr[i - 1]?

/-- `compareFunc(arr[i], arr[j])`. -/
def before (arr : List α) (i j : ℕ) : Option Bool :=
  match at? arr i, at? arr j with
  | some a, some b => some (compareFunc a b)
  | _, _ => none

/-- `arr[i], arr[j] = arr[j], arr[i]`. -/
def swap (arr : List α) (i j : ℕ) : List α := exchange arr (i - 1) (j - 1)

/-- The test of `heapify` for one child: the new value of `smallest`. -/
def pickChild (arr : List α) (size smallest child : ℕ) : Option ℕ :=
  if child ≤ size then
    (before compareFunc arr smallest child).map fun b => if b then child else smallest
  else
    some smallest

/-- The value of `smallest` behind the two tests. -/
def pickSmallest (arr : List α) (idx size : ℕ) : Option ℕ :=
  (pickChild compareFunc arr size idx (2 * idx)).bind fun smallest =>
    pickChild compareFunc arr size smallest (2 * idx + 1)

theorem pickChild_eq_or {arr : List α} {size smallest child s : ℕ}
    (h : pickChild compareFunc arr size smallest child = some s) :
    s = smallest ∨ s = child ∧ child ≤ size := by
  unfold pickChild at h
  split_ifs at h with hsize
  · obtain ⟨b, -, rfl⟩ := Option.map_eq_some_iff.mp h
    cases b
    · exact .inl rfl
    · exact .inr ⟨rfl, hsize⟩
  · exact .inl (Option.some.inj h).symm

theorem pickSmallest_le {arr : List α} {idx size s : ℕ}
    (h : pickSmallest compareFunc arr idx size = some s) : s = idx ∨ idx < s ∧ s ≤ size := by
  obtain ⟨s₁, h₁, h₂⟩ := Option.bind_eq_some_iff.mp h
  have := pickChild_eq_or compareFunc h₁
  have := pickChild_eq_or compareFunc h₂
  omega

def heapify (arr : List α) (idx size : ℕ) : Option (List α) :=
  match h : pickSmallest compareFunc arr idx size with
  | none => none
  | some smallest =>
    if hne : smallest ≠ idx then heapify (swap arr idx smallest) smallest size else some arr
termination_by size - idx
decreasing_by
  have := pickSmallest_le compareFunc h
  omega

/-- The loop `for i = …, 1, -1 do heapify(i, k)`. -/
def buildLoop (k : ℕ) : ℕ → List α → Option (List α)
  | 0, arr => some arr
  | i + 1, arr => (heapify compareFunc arr (i + 1) k).bind (buildLoop k i)

/-- The loop over the positions behind `k`, with the number of rounds that are left. -/
def streamLoop (k : ℕ) : ℕ → ℕ → List α → Option (List α)
  | 0, _, arr => some arr
  | left + 1, i, arr =>
    match before compareFunc arr i 1 with
    | none => none
    | some true => (heapify compareFunc (swap arr i 1) 1 k).bind (streamLoop k left (i + 1))
    | some false => streamLoop k left (i + 1) arr

/-- The loop `for i = k, 1, -1`, which fills `heap` from its end. -/
def sortLoop : ℕ → List α → List α → Option (List α × List α)
  | 0, arr, heap => some (heap, arr)
  | i + 1, arr, heap =>
    match at? arr 1 with
    | none => none
    | some top =>
      (heapify compareFunc (swap arr (i + 1) 1) 1 i).bind fun arr => sortLoop i arr (top :: heap)

/-- `getTop(arr, k, compareFunc, bSorted)`: the list that is returned, and what `arr` is then. -/
def getTop (arr : List α) (k : ℕ) (bSorted : Bool) : Option (List α × List α) :=
  let nLength := arr.length
  let k := if nLength > k then k else nLength
  (buildLoop compareFunc k (k / 2) arr).bind fun arr =>
    (streamLoop compareFunc k (nLength - k) (k + 1) arr).bind fun arr =>
      if bSorted then sortLoop compareFunc k arr [] else some (arr.take k, arr)

end CodeTest.GetTop
