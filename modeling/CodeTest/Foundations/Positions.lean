import Mathlib.Data.List.Basic
import Mathlib.Data.List.Perm.Basic
import Mathlib.Tactic

/-!
# Three entries at different positions

`AtDistinct l a b c` says that `a`, `b` and `c` stand in the list `l` at three different positions.
This does not depend on the order of the list (`AtDistinct.perm`), and for three values in order in
a list in order the positions can be taken in order (`AtDistinct.exists_lt`).
-/

namespace CodeTest

variable {α : Type*} {l l' : List α} {a b c : α}

/-- A rearranged list has the entries of the first at other positions. -/
theorem exists_positions_of_perm (h : l.Perm l') :
    ∃ f : ℕ → ℕ, f.Injective ∧ ∀ i, l'[f i]? = l[i]? := by
  induction h with
  | nil => exact ⟨id, Function.injective_id, fun _ => rfl⟩
  | cons x _ ih =>
    obtain ⟨f, hf, hget⟩ := ih
    refine ⟨fun i => i.casesOn 0 fun i => f i + 1, ?_, ?_⟩
    · rintro (_ | i) (_ | j) hij
      · rfl
      · cases hij
      · cases hij
      · exact congrArg (· + 1) (hf (Nat.succ_injective hij))
    · rintro (_ | i)
      · rfl
      · exact hget i
  | swap x y l =>
    refine ⟨Equiv.swap 0 1, (Equiv.swap 0 1).injective, ?_⟩
    rintro (_ | _ | i)
    · simp
    · simp
    · rw [Equiv.swap_apply_of_ne_of_ne (by omega) (by omega)]
      rfl
  | trans _ _ ih₁ ih₂ =>
    obtain ⟨f, hf, hgetf⟩ := ih₁
    obtain ⟨g, hg, hgetg⟩ := ih₂
    exact ⟨g ∘ f, hg.comp hf, fun i => (hgetg (f i)).trans (hgetf i)⟩

/-- The three values stand at different positions. -/
def AtDistinct (l : List α) (a b c : α) : Prop :=
  ∃ i j k : ℕ, i ≠ j ∧ i ≠ k ∧ j ≠ k ∧ l[i]? = some a ∧ l[j]? = some b ∧ l[k]? = some c

theorem AtDistinct.of_perm (hperm : l.Perm l') (h : AtDistinct l a b c) : AtDistinct l' a b c := by
  obtain ⟨i, j, k, hij, hik, hjk, ha, hb, hc⟩ := h
  obtain ⟨f, hf, hget⟩ := exists_positions_of_perm hperm
  exact ⟨f i, f j, f k, hf.ne hij, hf.ne hik, hf.ne hjk, (hget i).trans ha, (hget j).trans hb,
    (hget k).trans hc⟩

theorem atDistinct_perm_iff (hperm : l.Perm l') : AtDistinct l a b c ↔ AtDistinct l' a b c :=
  ⟨.of_perm hperm, .of_perm hperm.symm⟩

/-- In a list in order, three values in order stand at positions in order. -/
theorem AtDistinct.exists_lt [LinearOrder α] (hl : l.Pairwise (· ≤ ·)) (hab : a ≤ b) (hbc : b ≤ c)
    (h : AtDistinct l a b c) :
    ∃ i j k : ℕ, i < j ∧ j < k ∧ l[i]? = some a ∧ l[j]? = some b ∧ l[k]? = some c := by
  obtain ⟨i, j, k, hij, hik, hjk, ha, hb, hc⟩ := h
  -- where the positions are not in order the values are the same
  have heq : ∀ {p q : ℕ} {x y : α}, l[p]? = some x → l[q]? = some y → x ≤ y → q < p → x = y := by
    intro p q x y hx hy hxy hqp
    obtain ⟨hp, rfl⟩ := List.getElem?_eq_some_iff.mp hx
    obtain ⟨hq, rfl⟩ := List.getElem?_eq_some_iff.mp hy
    exact hxy.antisymm (List.pairwise_iff_getElem.mp hl q p hq hp hqp)
  rcases hij.lt_or_gt with hij | hji
  · rcases hjk.lt_or_gt with hjk | hkj
    · exact ⟨i, j, k, hij, hjk, ha, hb, hc⟩
    · obtain rfl := heq hb hc hbc hkj
      rcases hik.lt_or_gt with hik | hki
      · exact ⟨i, k, j, hik, hkj, ha, hc, hb⟩
      · obtain rfl := heq ha hc hab hki
        exact ⟨k, i, j, hki, hij, hc, ha, hb⟩
  · obtain rfl := heq ha hb hab hji
    rcases hik.lt_or_gt with hik | hki
    · exact ⟨j, i, k, hji, hik, hb, ha, hc⟩
    · obtain rfl := heq ha hc hbc hki
      rcases hjk.lt_or_gt with hjk | hkj
      · exact ⟨j, k, i, hjk, hki, hb, hc, ha⟩
      · exact ⟨k, j, i, hkj, hji, hc, hb, ha⟩

end CodeTest
