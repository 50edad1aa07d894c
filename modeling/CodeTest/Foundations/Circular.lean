import Mathlib.Data.List.GetD
import Mathlib.Data.List.Range
import Mathlib.Tactic

/-!
# Bytes of a block read and written in a ring

The memory of a ring buffer is a function of the address, relative to the start of the buffer's
block. Straight copies out of it and into it are `slice` and `blit`; the bytes of the ring, in the
order of the ring, are a `window`: it starts at an address of the block and goes on from the start
of the block when it reaches the block's end.

* `window_eq_slice` and `window_eq_slice_append` say how the two straight copies of an operation
  make up a window, without and with a turn at the end of the block.
* `window_blit_append` says that copying behind a window extends it, `window_add` how a window is
  cut in two.
* A pointer of the block may also stand at its end; `place` is where it stands in the ring.
  `window_place` and `window_blit_blit` are about windows at such pointers.
-/

namespace CodeTest.Circular

variable {α : Type*}

/-- The `n` values at the addresses `p, p + 1, …`. -/
def slice (mem : ℤ → α) (p : ℤ) (n : ℕ) : List α := (List.range n).map fun i : ℕ => mem (p + i)

/-- The memory after the values `xs` have been copied to the addresses `p, p + 1, …`. -/
def blit (mem : ℤ → α) (p : ℤ) (xs : List α) : ℤ → α := fun a =>
  if p ≤ a then xs.getD (a - p).toNat (mem a) else mem a

/-- The address `i` places after `r` in a ring of `N` places, for `r` in the ring and `i ≤ N`. -/
def turn (N r i : ℤ) : ℤ := if r + i < N then r + i else r + i - N

/-- The `n` values of the ring of `N` places that start at `r`. -/
def window (N : ℤ) (mem : ℤ → α) (r : ℤ) (n : ℕ) : List α :=
  (List.range n).map fun i : ℕ => mem (turn N r i)

@[simp] theorem length_slice (mem : ℤ → α) (p : ℤ) (n : ℕ) : (slice mem p n).length = n := by
  simp [slice]

@[simp] theorem length_window (N : ℤ) (mem : ℤ → α) (r : ℤ) (n : ℕ) :
    (window N mem r n).length = n := by
  simp [window]

@[simp] theorem window_zero (N : ℤ) (mem : ℤ → α) (r : ℤ) : window N mem r 0 = [] := rfl

@[simp] theorem slice_zero (mem : ℤ → α) (p : ℤ) : slice mem p 0 = [] := rfl

theorem slice_succ (mem : ℤ → α) (p : ℤ) (n : ℕ) :
    slice mem p (n + 1) = mem p :: slice mem (p + 1) n := by
  simp only [slice, List.range_succ_eq_map, List.map_cons, List.map_map, Nat.cast_zero, add_zero]
  refine congrArg (mem p :: ·) (List.map_congr_left fun i _ => ?_)
  simp only [Function.comp_apply, Nat.cast_succ]
  congr 1
  ring

theorem blit_of_lt (mem : ℤ → α) {p a : ℤ} (xs : List α) (h : a < p) : blit mem p xs a = mem a := by
  rw [blit, if_neg (by omega)]

theorem blit_of_ge (mem : ℤ → α) {p a : ℤ} (xs : List α) (h : p + xs.length ≤ a) :
    blit mem p xs a = mem a := by
  rw [blit, if_pos (by omega), List.getD_eq_default _ _ (by omega)]

@[simp] theorem blit_nil (mem : ℤ → α) (p : ℤ) : blit mem p [] = mem := by
  funext a
  simp [blit]

theorem blit_add (mem : ℤ → α) (p : ℤ) (xs : List α) {i : ℕ} (h : i < xs.length) :
    blit mem p xs (p + i) = xs[i] := by
  rw [blit, if_pos (by omega), show (p + (i : ℤ) - p).toNat = i by omega,
    List.getD_eq_getElem _ _ h]

/-! ## Turning -/

theorem turn_nonneg {N r i : ℤ} (hr : 0 ≤ r) (hi : 0 ≤ i) : 0 ≤ turn N r i := by
  unfold turn; split_ifs <;> omega

theorem turn_lt {N r i : ℤ} (hr : r < N) (hi : i ≤ N) : turn N r i < N := by
  unfold turn; split_ifs <;> omega

theorem turn_zero {N r : ℤ} (hr : r < N) : turn N r 0 = r := by
  rw [turn, if_pos (by simpa using hr), add_zero]

theorem turn_turn {N r i j : ℤ} (hr : r < N) (hj : 0 ≤ j) (hij : i + j ≤ N) :
    turn N (turn N r i) j = turn N r (i + j) := by
  unfold turn; split_ifs <;> omega

/-- Coming back to the start takes no step or a whole turn. -/
theorem turn_eq_self {N r i : ℤ} (hr : 0 ≤ r) (hrN : r < N) (hi : i ≤ N) :
    turn N r i = r ↔ i = 0 ∨ i = N := by
  unfold turn; split_ifs <;> omega

/-! ## Windows -/

theorem window_add (N : ℤ) (mem : ℤ → α) {r : ℤ} (hr : r < N) {m n : ℕ} (h : (m + n : ℤ) ≤ N) :
    window N mem r (m + n) = window N mem r m ++ window N mem (turn N r m) n := by
  simp only [window, List.range_add, List.map_append, List.map_map]
  refine congrArg (_ ++ ·) (List.map_congr_left fun i hi => ?_)
  have hi := List.mem_range.mp hi
  simp only [Function.comp_apply]
  rw [turn_turn hr (by omega) (by omega), Nat.cast_add]

theorem take_window (N : ℤ) (mem : ℤ → α) {r : ℤ} (hr : r < N) {m n : ℕ} (hmn : m ≤ n)
    (h : (n : ℤ) ≤ N) : (window N mem r n).take m = window N mem r m := by
  obtain ⟨k, rfl⟩ := Nat.exists_eq_add_of_le hmn
  rw [window_add N mem hr (by omega), List.take_left' (length_window _ _ _ _)]

theorem drop_window (N : ℤ) (mem : ℤ → α) {r : ℤ} (hr : r < N) {m n : ℕ} (hmn : m ≤ n)
    (h : (n : ℤ) ≤ N) : (window N mem r n).drop m = window N mem (turn N r m) (n - m) := by
  obtain ⟨k, rfl⟩ := Nat.exists_eq_add_of_le hmn
  rw [window_add N mem hr (by omega), List.drop_left' (length_window _ _ _ _),
    Nat.add_sub_cancel_left]

/-- A window that does not pass the end of the block is one straight copy. -/
theorem window_eq_slice (N : ℤ) (mem : ℤ → α) {r : ℤ} {n : ℕ} (h : r + n ≤ N) :
    window N mem r n = slice mem r n := by
  refine List.map_congr_left fun i hi => ?_
  have hi := List.mem_range.mp hi
  rw [turn, if_pos (by omega)]

/-- A window that passes the end of the block is two straight copies, the second one from the
start of the block. -/
theorem window_eq_slice_append {N : ℤ} (mem : ℤ → α) {r : ℤ} (hr : r < N) {n : ℕ}
    (h : N ≤ r + n) (hn : (n : ℤ) ≤ N) :
    window N mem r n = slice mem r (N - r).toNat ++ slice mem 0 (r + n - N).toNat := by
  obtain ⟨k, rfl⟩ : ∃ k, n = (N - r).toNat + k := ⟨n - (N - r).toNat, by omega⟩
  rw [window_add N mem hr (by omega), window_eq_slice N mem (by omega)]
  rw [show turn N r ((N - r).toNat : ℕ) = 0 by unfold turn; split_ifs <;> omega,
    window_eq_slice N mem (by omega)]
  congr 2
  omega

/-- Two memories that agree on the addresses of a window have the same window. -/
theorem window_congr {N : ℤ} {mem mem' : ℤ → α} {r : ℤ} {n : ℕ}
    (h : ∀ i : ℕ, i < n → mem (turn N r i) = mem' (turn N r i)) :
    window N mem r n = window N mem' r n :=
  List.map_congr_left fun i hi => h i (List.mem_range.mp hi)

/-- A straight copy behind a window, within the block, extends the window. -/
theorem window_blit_append {N : ℤ} (mem : ℤ → α) {r : ℤ} (hr : r < N) {m : ℕ} (xs : List α)
    (hmx : (m + xs.length : ℤ) ≤ N) (hend : turn N r m + xs.length ≤ N) :
    window N (blit mem (turn N r m) xs) r (m + xs.length) = window N mem r m ++ xs := by
  rw [window_add N _ hr hmx]
  congr 1
  · refine window_congr fun i hi => ?_
    have hne : turn N r i < turn N r m ∨ turn N r m + xs.length ≤ turn N r i := by
      unfold turn at *; split_ifs at * <;> omega
    rcases hne with hlt | hge
    · exact blit_of_lt _ _ hlt
    · exact blit_of_ge _ _ hge
  · rw [window_eq_slice N _ hend]
    refine List.ext_getElem (length_slice _ _ _) fun i h₁ h₂ => ?_
    simp only [slice, List.getElem_map, List.getElem_range]
    exact blit_add _ _ _ h₂

/-! ## Pointers that may stand at the end of the block -/

/-- The place of the ring of `N` places at which a pointer stands: the end of the block is its
start. -/
def place (N p : ℤ) : ℤ := if p = N then 0 else p

theorem place_nonneg {N p : ℤ} (hp : 0 ≤ p) : 0 ≤ place N p := by
  unfold place; split_ifs <;> omega

theorem place_lt {N p : ℤ} (hN : 0 < N) (hp : p ≤ N) : place N p < N := by
  unfold place; split_ifs <;> omega

/-- A window in straight copies, the second one empty as long as the end is not passed. -/
theorem window_place (mem : ℤ → α) {N p : ℤ} {n : ℕ} (hN : 0 < N) (hp : p ≤ N) (hn : n ≤ N) :
    window N mem (place N p) n =
      slice mem p (min n (N - p).toNat) ++ slice mem 0 (n - (N - p).toNat) := by
  rcases eq_or_ne p N with rfl | hne
  · rw [place, if_pos rfl, window_eq_slice _ _ (by omega)]
    simp
  · rw [place, if_neg hne]
    rcases le_total (p + n) N with hle | hge
    · rw [window_eq_slice _ _ hle, show n - (N - p).toNat = 0 by omega, slice_zero,
        List.append_nil, min_eq_left (by omega)]
    · rw [window_eq_slice_append mem (by omega) hge hn, min_eq_right (by omega),
        show (p + n - N).toNat = n - (N - p).toNat by omega]

/-- Copying behind a window, up to the end of the block and on from its start, extends the
window. -/
theorem window_blit_blit (mem : ℤ → α) {N h w : ℤ} {n : ℕ} (hh : 0 ≤ h) (hN : h < N) (hw : w ≤ N)
    (hplace : place N w = turn N h n) (xs : List α) (hfit : (n + xs.length : ℤ) ≤ N) :
    window N (blit (blit mem w (xs.take (N - w).toNat)) 0 (xs.drop (N - w).toNat)) h
        (n + xs.length) = window N mem h n ++ xs := by
  set k := (N - w).toNat with hk
  rcases eq_or_ne w N with rfl | hne
  · -- nothing fits before the end
    rw [place, if_pos rfl] at hplace
    have hzero : k = 0 := by omega
    have hcopy := window_blit_append mem hN xs hfit (by rw [← hplace]; omega)
    rw [hzero, List.take_zero, List.drop_zero, blit_nil, hplace]
    exact hcopy
  · rw [place, if_neg hne] at hplace
    rcases le_total xs.length k with hle | hge
    · rw [List.take_of_length_le hle, List.drop_eq_nil_of_le hle, blit_nil, hplace]
      exact window_blit_append mem hN xs hfit (by rw [← hplace]; omega)
    · have hlen : (xs.take k).length = k := by rw [List.length_take]; omega
      have hlast : turn N h (n + k : ℕ) = 0 := by
        unfold turn at hplace ⊢
        split_ifs at hplace ⊢ <;> omega
      have hfirst := window_blit_append mem hN (m := n) (xs.take k) (by rw [hlen]; omega)
        (by rw [hlen, ← hplace]; omega)
      have hsecond := window_blit_append (blit mem w (xs.take k)) hN (m := n + k) (xs.drop k)
        (by rw [List.length_drop]; push_cast; omega) (by rw [hlast, List.length_drop]; omega)
      rw [hlen, ← hplace] at hfirst
      rw [hlast, hfirst, List.append_assoc, List.take_append_drop] at hsecond
      rw [show n + xs.length = n + k + (xs.drop k).length by rw [List.length_drop]; omega]
      exact hsecond

end CodeTest.Circular
