import Mathlib.Data.List.Basic
import Mathlib.Data.List.Count
import Mathlib.Data.List.InsertIdx
import Mathlib.Tactic

/-!
# Tests that an initial part of a list passes

What a bisection rests on: a test such that what passes it stands before what does not. The part
that passes is then as long as there are elements that pass (`Initially.iff_lt_countP`), and a list
in order stays in order when an element is put behind that part that belongs there
(`Initially.pairwise_insertIdx`).
-/

namespace CodeTest

variable {α : Type*} {p : α → Bool} {l : List α} {a x : α} {i : ℕ}

/-- What passes the test stands before what does not. -/
def Initially (p : α → Bool) (l : List α) : Prop := l.Pairwise fun a b => p b → p a

theorem countP_eq_zero_of_initially (h : Initially p (x :: l)) (hx : ¬ p x) :
    (x :: l).countP p = 0 := by
  rw [List.countP_eq_zero]
  intro y hy hpy
  rcases List.mem_cons.mp hy with rfl | hy
  · exact hx hpy
  · exact hx (List.rel_of_pairwise_cons h hy hpy)

/-- The elements that pass the test are those before their number. -/
theorem Initially.iff_lt_countP (h : Initially p l) (ha : l[i]? = some a) :
    p a ↔ i < l.countP p := by
  induction l generalizing i with
  | nil => simp at ha
  | cons x l ih =>
    by_cases hx : p x
    · rw [List.countP_cons_of_pos hx]
      cases i with
      | zero =>
        obtain rfl : x = a := by simpa using ha
        exact iff_of_true hx (Nat.succ_pos _)
      | succ i =>
        rw [ih h.of_cons (by simpa using ha)]
        exact Nat.succ_lt_succ_iff.symm
    · rw [countP_eq_zero_of_initially h hx]
      have hmem : a ∈ x :: l := List.mem_of_getElem? ha
      exact iff_of_false (List.countP_eq_zero.mp (countP_eq_zero_of_initially h hx) a hmem)
        (Nat.not_lt_zero i)

/-- An element that belongs between what passes the test and what does not is put there. -/
theorem Initially.pairwise_insertIdx {r : α → α → Prop} (h : Initially p l) (hl : l.Pairwise r)
    (hbefore : ∀ a ∈ l, p a → r a x) (hbehind : ∀ a ∈ l, ¬ p a → r x a) :
    (l.insertIdx (l.countP p) x).Pairwise r := by
  induction l with
  | nil => simp
  | cons y l ih =>
    by_cases hy : p y
    · rw [List.countP_cons_of_pos hy, List.insertIdx_succ_cons, List.pairwise_cons]
      refine ⟨fun z hz => ?_, ih h.of_cons hl.of_cons (fun a ha => hbefore a (.tail _ ha))
        fun a ha => hbehind a (.tail _ ha)⟩
      rcases List.eq_or_mem_of_mem_insertIdx hz with rfl | hz
      · exact hbefore y (.head _) hy
      · exact List.rel_of_pairwise_cons hl hz
    · have hnone := countP_eq_zero_of_initially h hy
      rw [hnone, List.insertIdx_zero, List.pairwise_cons]
      exact ⟨fun z hz => hbehind z hz (List.countP_eq_zero.mp hnone z hz), hl⟩

end CodeTest
