import Mathlib.Data.List.Nodup
import Mathlib.Tactic

/-!
# Doubly linked lists

`Linked next prev b p l` says that the pointer `p` leads through the elements of `l`, in order, by
the pointers `next`, and that the pointers `prev` lead back, from the first element to `b`. A list
with no element before it has `b = none`. An element can be pushed at the front (`Linked.push`) and
any element can be unlinked (`Linked.unlink`).
-/

namespace CodeTest

variable {A : Type*} {next prev next' prev' : A → Option A} {a : A} {b p : Option A}
  {l X Y : List A}

def Linked (next prev : A → Option A) : Option A → Option A → List A → Prop
  | _, p, [] => p = none
  | b, p, a :: l => p = some a ∧ prev a = b ∧ Linked next prev (some a) (next a) l

namespace Linked

/-- The pointer to a list is to its first element. -/
theorem eq_head? (h : Linked next prev b p l) : p = l.head? := by
  cases l with
  | nil => exact h
  | cons a l => exact h.1

theorem congr (h : Linked next prev b p l) (hnext : ∀ x ∈ l, next' x = next x)
    (hprev : ∀ x ∈ l, prev' x = prev x) : Linked next' prev' b p l := by
  induction l generalizing b p with
  | nil => exact h
  | cons a l ih =>
    obtain ⟨hp, hb, h⟩ := h
    refine ⟨hp, (hprev a List.mem_cons_self).trans hb, ?_⟩
    rw [hnext a List.mem_cons_self]
    exact ih h (fun x hx => hnext x (List.mem_cons_of_mem _ hx))
      fun x hx => hprev x (List.mem_cons_of_mem _ hx)

/-- From an element a pointer leads to an element of the list, or to its end. -/
theorem next_mem (h : Linked next prev b p l) {x y : A} (hx : x ∈ l) (hxy : next x = some y) :
    y ∈ l.tail := by
  induction l generalizing b p with
  | nil => cases hx
  | cons a l ih =>
    obtain ⟨-, -, h⟩ := h
    rcases List.mem_cons.mp hx with rfl | hx
    · exact List.mem_of_head? (h.eq_head?.symm.trans hxy)
    · exact List.mem_of_mem_tail (ih h hx)

/-- Back from an element a pointer leads to an element of the list, or to what is before it. -/
theorem prev_mem (h : Linked next prev b p l) {y : A} (hy : y ∈ l) :
    (l.head? = some y ∧ prev y = b) ∨ ∃ x ∈ l, prev y = some x := by
  induction l generalizing b p with
  | nil => cases hy
  | cons a l ih =>
    obtain ⟨-, hb, h⟩ := h
    rcases List.mem_cons.mp hy with rfl | hy
    · exact .inl ⟨rfl, hb⟩
    · rcases ih h hy with ⟨-, hprev⟩ | ⟨x, hx, hprev⟩
      · exact .inr ⟨a, List.mem_cons_self, hprev⟩
      · exact .inr ⟨x, List.mem_cons_of_mem _ hx, hprev⟩

/-- **The two kinds of pointers are inverse to each other.** -/
theorem next_iff_prev (h : Linked next prev b p l) (hnd : l.Nodup) (hb : ∀ x ∈ l, b ≠ some x)
    {x y : A} (hx : x ∈ l) (hy : y ∈ l) : next x = some y ↔ prev y = some x := by
  induction l generalizing b p with
  | nil => cases hx
  | cons a l ih =>
    obtain ⟨-, rfl, h⟩ := h
    obtain ⟨hal, hnd⟩ := List.nodup_cons.mp hnd
    have hne : ∀ x ∈ l, some a ≠ some x := by
      rintro x hx ⟨⟩
      exact hal hx
    rcases List.mem_cons.mp hy with rfl | hyl
    · -- nothing in the list leads to its first element
      constructor
      · intro hxy
        rcases List.mem_cons.mp hx with rfl | hxl
        · exact absurd (List.mem_of_head? (h.eq_head?.symm.trans hxy)) hal
        · exact absurd (List.mem_of_mem_tail (h.next_mem hxl hxy)) hal
      · intro hxy
        exact absurd hxy (hb x hx)
    · rcases List.mem_cons.mp hx with rfl | hxl
      · constructor
        · intro hxy
          cases l with
          | nil => cases hyl
          | cons c l =>
            obtain ⟨hnext, hprev, -⟩ := h
            cases hnext.symm.trans hxy
            exact hprev
        · intro hxy
          rcases h.prev_mem hyl with ⟨hhead, -⟩ | ⟨z, hz, hprev⟩
          · exact h.eq_head?.trans hhead
          · cases hprev.symm.trans hxy
            exact absurd hz hal
      · exact ih h hnd hne hxl hyl

theorem next_ne_self (h : Linked next prev b p l) (hnd : l.Nodup) {x : A} (hx : x ∈ l) :
    next x ≠ some x := by
  induction l generalizing b p with
  | nil => cases hx
  | cons a l ih =>
    obtain ⟨-, -, h⟩ := h
    obtain ⟨hal, hnd⟩ := List.nodup_cons.mp hnd
    rcases List.mem_cons.mp hx with rfl | hxl
    · intro hself
      exact hal (List.mem_of_head? (h.eq_head?.symm.trans hself))
    · exact ih h hnd hxl

variable [DecidableEq A]

/-- An element is pushed at the front. -/
theorem push (h : Linked next prev none p l) (hnd : l.Nodup)
    (hnexta : next' a = p) (hpreva : prev' a = none) (hnext : ∀ x ∈ l, next' x = next x)
    (hprev : ∀ x ∈ l, prev' x = if p = some x then some a else prev x) :
    Linked next' prev' none (some a) (a :: l) := by
  refine ⟨rfl, hpreva, ?_⟩
  rw [hnexta]
  cases l with
  | nil => exact h
  | cons c l =>
    obtain ⟨rfl, -, h⟩ := h
    refine ⟨rfl, ?_, ?_⟩
    · rw [hprev c List.mem_cons_self, if_pos rfl]
    · rw [hnext c List.mem_cons_self]
      refine h.congr (fun x hx => hnext x (List.mem_cons_of_mem _ hx)) fun x hx => ?_
      rw [hprev x (List.mem_cons_of_mem _ hx), if_neg]
      rintro ⟨⟩
      exact (List.nodup_cons.mp hnd).1 hx

/-- An element is unlinked: the element before it, or the pointer to the list, gets its pointer
`next`, and the element after it gets its pointer `prev`. -/
theorem unlink (h : Linked next prev b p (X ++ a :: Y)) (hnd : (X ++ a :: Y).Nodup)
    (hb : ∀ x ∈ X ++ a :: Y, b ≠ some x)
    (hnext : ∀ x ∈ X ++ Y, next' x = if prev a = some x then next a else next x)
    (hprev : ∀ x ∈ X ++ Y, prev' x = if next a = some x then prev a else prev x) :
    Linked next' prev' b (if p = some a then next a else p) (X ++ Y) := by
  induction X generalizing b p with
  | nil =>
    obtain ⟨rfl, rfl, h⟩ := h
    rw [if_pos rfl]
    cases Y with
    | nil => exact h
    | cons c Y =>
      obtain ⟨hnexta, -, h⟩ := h
      have hcY : c ∉ Y := (List.nodup_cons.mp (List.nodup_cons.mp hnd).2).1
      refine ⟨hnexta, ?_, ?_⟩
      · rw [hprev c (by simp), if_pos hnexta]
      · rw [hnext c (by simp), if_neg (hb c (by simp))]
        refine h.congr (fun x hx => ?_) fun x hx => ?_
        · rw [hnext x (by simp [hx]), if_neg (hb x (by simp [hx]))]
        · rw [hprev x (by simp [hx]), if_neg]
          rw [hnexta]
          rintro ⟨⟩
          exact hcY hx
  | cons c X ih =>
    have hiff := h.next_iff_prev hnd hb (x := c) (y := a) (by simp) (by simp)
    have hback := h.next_iff_prev hnd hb (x := a) (y := c) (by simp) (by simp)
    obtain ⟨rfl, rfl, h⟩ := h
    obtain ⟨hc, hnd⟩ := List.nodup_cons.mp hnd
    have hca : some c ≠ some a := by
      rintro ⟨⟩
      exact hc (by simp)
    rw [if_neg hca]
    refine ⟨rfl, ?_, ?_⟩
    · rw [hprev c (by simp), if_neg]
      intro hnexta
      exact hb a (by simp) (hback.mp hnexta)
    · have hih := ih h hnd ?_ (fun x hx => hnext x (by simp [hx]))
        fun x hx => hprev x (by simp [hx])
      · rw [hnext c (by simp)]
        by_cases hnc : next c = some a
        · rw [if_pos hnc] at hih
          rw [if_pos (hiff.mp hnc)]
          exact hih
        · rw [if_neg hnc] at hih
          rw [if_neg fun hpa => hnc (hiff.mpr hpa)]
          exact hih
      · rintro x hx ⟨⟩
        exact hc hx

end Linked

end CodeTest
