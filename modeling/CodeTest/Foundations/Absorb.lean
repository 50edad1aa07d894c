import Mathlib.Data.List.Basic
import Mathlib.Tactic

/-!
# Absorbing a stream block by block

A function on blocks of length `n` goes through a stream with what is left of the last block beside
its state (`absorb`). Where the stream is cut makes no difference (`absorb_append`), and after whole
blocks the state is that of the blocks one after the other (`absorb_blocks`).
-/

namespace CodeTest.Absorb

variable {σ α : Type*} (n : ℕ) (f : σ → List α → σ)

/-- One value more. -/
def absorbOne (c : σ × List α) (a : α) : σ × List α :=
  if c.2.length + 1 < n then (c.1, c.2 ++ [a]) else (f c.1 (c.2 ++ [a]), [])

/-- The state and the rest after a piece of the stream. -/
def absorb (c : σ × List α) (l : List α) : σ × List α := l.foldl (absorbOne n f) c

theorem absorb_append (c : σ × List α) (l l' : List α) :
    absorb n f c (l ++ l') = absorb n f (absorb n f c l) l' := List.foldl_append

variable {n f} {c : σ × List α} {l : List α}

theorem absorb_of_lt (h : c.2.length + l.length < n) : absorb n f c l = (c.1, c.2 ++ l) := by
  induction l generalizing c with
  | nil => rw [List.append_nil]; rfl
  | cons a l ih =>
    rw [List.length_cons] at h
    have hone : absorbOne n f c a = (c.1, c.2 ++ [a]) := if_pos (by omega)
    rw [absorb, List.foldl_cons, hone, ← absorb, ih (by simpa using by omega), List.append_assoc]
    rfl

/-- The rest becomes a whole block. -/
theorem absorb_of_eq (hc : c.2.length < n) (h : c.2.length + l.length = n) :
    absorb n f c l = (f c.1 (c.2 ++ l), []) := by
  induction l generalizing c with
  | nil =>
    rw [List.length_nil] at h
    omega
  | cons a l ih =>
    rw [List.length_cons] at h
    rw [absorb, List.foldl_cons, ← absorb]
    by_cases hlt : c.2.length + 1 < n
    · have hone : absorbOne n f c a = (c.1, c.2 ++ [a]) := if_pos hlt
      rw [hone, ih (by simpa using hlt) (by simpa using by omega), List.append_assoc]
      rfl
    · have hnil : l = [] := List.length_eq_zero_iff.mp (by omega)
      rw [hnil]
      exact if_neg hlt

theorem length_absorb (hc : c.2.length < n) (l : List α) :
    (absorb n f c l).2.length = (c.2.length + l.length) % n := by
  induction l generalizing c with
  | nil => exact (Nat.mod_eq_of_lt hc).symm
  | cons a l ih =>
    rw [absorb, List.foldl_cons, ← absorb, List.length_cons]
    by_cases hlt : c.2.length + 1 < n
    · have hone : absorbOne n f c a = (c.1, c.2 ++ [a]) := if_pos hlt
      rw [hone, ih (by simpa using hlt), List.length_append, List.length_singleton, Nat.add_assoc,
        Nat.add_comm 1]
    · have hone : absorbOne n f c a = (f c.1 (c.2 ++ [a]), []) := if_neg hlt
      have hn : c.2.length + (l.length + 1) = n + l.length := by omega
      rw [hone, ih (show ([] : List α).length < n from Nat.zero_lt_of_lt hc), hn, Nat.add_mod_left,
        List.length_nil, Nat.zero_add]

/-- The first `k` blocks of a stream. -/
def blocksUpTo (n : ℕ) : ℕ → List α → List (List α)
  | 0, _ => []
  | k + 1, l => l.take n :: blocksUpTo n k (l.drop n)

/-- The blocks of a stream. -/
def blocks (n : ℕ) (l : List α) : List (List α) := blocksUpTo n (l.length / n) l

theorem absorb_blocksUpTo {k : ℕ} (hn : 0 < n) (h : l.length = n * k) (s : σ) :
    absorb n f (s, []) l = ((blocksUpTo n k l).foldl f s, []) := by
  induction k generalizing l s with
  | zero => rw [List.length_eq_zero_iff.mp h]; rfl
  | succ k ih =>
    rw [Nat.mul_succ] at h
    have hblock : absorb n f (s, []) (l.take n) = (f s (l.take n), []) := by
      refine absorb_of_eq hn ?_
      rw [List.length_nil, Nat.zero_add, List.length_take_of_le (by omega)]
    have hrest : (l.drop n).length = n * k := by
      rw [List.length_drop, h, Nat.add_sub_cancel]
    conv_lhs => rw [← List.take_append_drop n l, absorb_append, hblock]
    rw [ih hrest, blocksUpTo, List.foldl_cons]

/-- Whole blocks are absorbed one after the other. -/
theorem absorb_blocks (hn : 0 < n) (h : n ∣ l.length) (s : σ) :
    absorb n f (s, []) l = ((blocks n l).foldl f s, []) :=
  absorb_blocksUpTo hn (Nat.mul_div_cancel' h).symm s

end CodeTest.Absorb
