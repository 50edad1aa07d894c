import Mathlib.Data.List.Basic
import Mathlib.Tactic

/-!
# First occurrences

The elements of a list without an equal one before them. The equality is any test of two elements:
the elements left are in the order of the list (`firsts_sublist`) and none is equal to an earlier
one (`firsts_pairwise`). If the test is transitive, every element of the list is left or has an
equal one that is (`mem_firsts_or`). It need not be reflexive: an element that is not equal to
itself is left wherever it occurs.
-/

namespace CodeTest

variable {α : Type*} (eq : α → α → Bool)

/-- The elements of a list without an equal one before them, in the list or among those seen. -/
def firsts : List α → List α → List α
  | _, [] => []
  | seen, x :: l =>
    if seen.any (eq · x) then firsts (seen ++ [x]) l else x :: firsts (seen ++ [x]) l

variable {eq} {seen l : List α} {x y : α}

theorem firsts_append (seen l : List α) (x : α) :
    firsts eq seen (l ++ [x]) =
      firsts eq seen l ++ if (seen ++ l).any (eq · x) then [] else [x] := by
  induction l generalizing seen with
  | nil =>
    rw [List.nil_append, List.append_nil]
    simp only [firsts, List.nil_append]
  | cons y l ih =>
    rw [List.cons_append, firsts, firsts, ih, List.append_assoc, List.singleton_append]
    split_ifs <;> rfl

theorem firsts_sublist (seen l : List α) : (firsts eq seen l).Sublist l := by
  induction l generalizing seen with
  | nil => exact .slnil
  | cons x l ih =>
    rw [firsts]
    split_ifs
    · exact (ih _).cons x
    · exact (ih _).cons_cons x

/-- What is left has no equal one among those seen. -/
theorem not_eq_of_mem_firsts (hx : x ∈ seen) (hy : y ∈ firsts eq seen l) : ¬ eq x y := by
  induction l generalizing seen with
  | nil => cases hy
  | cons z l ih =>
    have hrest := @ih (seen ++ [z]) (List.mem_append_left _ hx)
    rw [firsts] at hy
    split_ifs at hy with hz
    · exact hrest hy
    · rcases List.mem_cons.mp hy with rfl | hy
      · exact fun hxy => hz (List.any_eq_true.mpr ⟨x, hx, hxy⟩)
      · exact hrest hy

theorem firsts_pairwise (seen l : List α) : (firsts eq seen l).Pairwise fun a b => ¬ eq a b := by
  induction l generalizing seen with
  | nil => exact .nil
  | cons x l ih =>
    rw [firsts]
    split_ifs
    · exact ih _
    · exact .cons (fun y hy => not_eq_of_mem_firsts (List.mem_append_right _ (.head _)) hy) (ih _)

/-- Every element is left, or has an equal one that is left or has been seen. -/
theorem mem_firsts_or (htrans : ∀ a b c, eq a b → eq b c → eq a c) (hx : x ∈ l) :
    x ∈ firsts eq seen l ∨ ∃ y ∈ seen ++ firsts eq seen l, eq y x := by
  induction l generalizing seen with
  | nil => cases hx
  | cons z l ih =>
    rw [firsts]
    split_ifs with hz
    · obtain ⟨w, hw, hwz⟩ := List.any_eq_true.mp hz
      rcases List.mem_cons.mp hx with rfl | hx
      · exact .inr ⟨w, List.mem_append_left _ hw, hwz⟩
      · -- an equal one that is `z` is replaced by the one before `z`
        refine (@ih (seen ++ [z]) hx).imp_right fun ⟨y, hy, hyx⟩ => ?_
        rw [List.append_assoc, List.mem_append, List.singleton_append, List.mem_cons] at hy
        rcases hy with hy | rfl | hy
        · exact ⟨y, List.mem_append_left _ hy, hyx⟩
        · exact ⟨w, List.mem_append_left _ hw, htrans w y x hwz hyx⟩
        · exact ⟨y, List.mem_append_right _ hy, hyx⟩
    · rcases List.mem_cons.mp hx with rfl | hx
      · exact .inl (.head _)
      · refine (@ih (seen ++ [z]) hx).imp (List.mem_cons_of_mem z) fun ⟨y, hy, hyx⟩ => ?_
        exact ⟨y, by rwa [List.append_assoc] at hy, hyx⟩

end CodeTest
