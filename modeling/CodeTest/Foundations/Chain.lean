import Mathlib.Data.List.Basic
import Mathlib.Tactic

/-!
# Chains of pointers

`Chain next c l` says that the pointers `next` lead from `c` through the elements of `l`, in order,
and end there. A chain is changed by inserting an element after the last of a part `X` of it, or by
unlinking the element that comes after it; `X.getLastD c` is that last element, or the start.
-/

namespace CodeTest

variable {A : Type*} {next next' : A → Option A} {a c : A} {l X Y : List A}

def Chain (next : A → Option A) : A → List A → Prop
  | c, [] => next c = none
  | c, b :: l => next c = some b ∧ Chain next b l

namespace Chain

/-- A part of a chain can be left behind. -/
theorem drop (h : Chain next c (X ++ Y)) : Chain next (X.getLastD c) Y := by
  induction X generalizing c with
  | nil => exact h
  | cons b X ih =>
    rw [List.getLastD_cons]
    exact ih h.2

theorem congr (h : Chain next c l) (heq : ∀ x ∈ c :: l, next' x = next x) : Chain next' c l := by
  induction l generalizing c with
  | nil =>
    rw [Chain, heq c (by simp)]
    exact h
  | cons b l ih =>
    rw [Chain, heq c (by simp)]
    exact ⟨h.1, ih h.2 fun x hx => heq x (List.mem_cons_of_mem _ hx)⟩

/-- The pointer of the start. -/
theorem next_eq (h : Chain next c l) : next c = l.head? := by
  cases l with
  | nil => exact h
  | cons b l => exact h.1

theorem getLastD_mem (X : List A) (b : A) : X.getLastD b ∈ b :: X := by
  rw [List.getLastD_eq_getLast?]
  cases hX : X.getLast? with
  | none => simp
  | some e => simp [List.mem_of_getLast? hX]

variable [DecidableEq A]

/-- A new element is put after the part `X`. -/
theorem insert (h : Chain next c (X ++ Y)) (hnd : (c :: (X ++ Y)).Nodup) (ha : a ∉ c :: (X ++ Y))
    (hnext : ∀ x, next' x = if x = a then next (X.getLastD c)
      else if x = X.getLastD c then some a else next x) : Chain next' c (X ++ a :: Y) := by
  induction X generalizing c with
  | nil =>
    have hca : c ≠ a := fun hca => ha (by simp [hca])
    refine ⟨by simp [hnext, hca], ?_⟩
    -- the rest of the chain is as before, and `a` now leads to it
    cases Y with
    | nil =>
      rw [Chain, hnext, if_pos rfl]
      exact h
    | cons b Y =>
      refine ⟨by rw [hnext, if_pos rfl]; exact h.1, h.2.congr fun x hx => ?_⟩
      have hxa : x ≠ a := fun hxa => ha (by simp [← hxa, List.mem_cons.mp hx])
      have hxc : x ≠ c := fun hxc => (List.nodup_cons.mp hnd).1 (hxc ▸ hx)
      rw [hnext, if_neg hxa, List.getLastD_nil, if_neg hxc]
  | cons b X ih =>
    have hlast : (b :: X).getLastD c ∈ b :: (X ++ Y) := by
      rw [List.getLastD_cons, ← List.cons_append]
      exact List.mem_append_left _ (getLastD_mem X b)
    have hc : next' c = next c := by
      rw [hnext, if_neg, if_neg]
      · exact fun hcl => (List.nodup_cons.mp hnd).1 (hcl ▸ hlast)
      · exact fun hca => ha (by simp [hca])
    refine ⟨hc.trans h.1, ih h.2 (List.nodup_cons.mp hnd).2 (fun hmem => ?_) ?_⟩
    · exact ha (List.mem_cons_of_mem _ hmem)
    · simpa only [List.getLastD_cons] using hnext

/-- The element after the part `X` is unlinked. -/
theorem remove (h : Chain next c (X ++ a :: Y)) (hnd : (c :: (X ++ a :: Y)).Nodup)
    (hnext : ∀ x, next' x = if x = X.getLastD c then next a else next x) :
    Chain next' c (X ++ Y) := by
  induction X generalizing c with
  | nil =>
    obtain ⟨-, h⟩ := h
    have hc : next' c = next a := by rw [hnext, List.getLastD_nil, if_pos rfl]
    have hrest : ∀ x ∈ a :: Y, next' x = next x := by
      intro x hx
      rw [hnext, List.getLastD_nil, if_neg]
      rintro rfl
      exact (List.nodup_cons.mp hnd).1 hx
    cases Y with
    | nil =>
      show next' c = none
      rw [hc]
      exact h
    | cons b Y =>
      exact ⟨hc.trans h.1, h.2.congr fun x hx => hrest x (List.mem_cons_of_mem _ hx)⟩
  | cons b X ih =>
    have hlast : (b :: X).getLastD c ∈ b :: (X ++ a :: Y) := by
      rw [List.getLastD_cons, ← List.cons_append]
      exact List.mem_append_left _ (getLastD_mem X b)
    have hc : next' c = next c := by
      rw [hnext, if_neg]
      exact fun hcl => (List.nodup_cons.mp hnd).1 (hcl ▸ hlast)
    refine ⟨hc.trans h.1, ih h.2 (List.nodup_cons.mp hnd).2 ?_⟩
    simpa only [List.getLastD_cons] using hnext

end Chain

end CodeTest
