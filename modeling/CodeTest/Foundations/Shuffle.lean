import CodeTest.Foundations.BinaryHeap
import Mathlib.Algebra.BigOperators.Field
import Mathlib.Data.Fintype.BigOperators
import Mathlib.Data.Nat.Factorial.BigOperators

/-!
# Shuffling by exchanges

A shuffle exchanges the element at every position, from the last one down, with one drawn from the
positions up to it. The last exchange that touches a position puts there what is drawn for it, so
the draws can be read off from the result, from the last position down (`exchanges_inj`), and can be
chosen for any result (`exists_exchanges`). The sequences of draws are therefore as many as the
arrangements of a list without repeated elements, one for each (`shuffleEquiv`), and independent
uniform draws make all arrangements equally likely (`sum_probability`).
-/

namespace CodeTest.BinaryHeap

variable {α : Type*} {l l' : List α} {n : ℕ} {draw draw' : ℕ → ℕ}

/-- Two arrangements with the same rest. -/
theorem shuffled_of_perm (hperm : l'.Perm l) (hrest : l'.drop n = l.drop n) : Shuffled n l l' := by
  refine ⟨(List.perm_append_right_iff (l.drop n)).mp ?_, hrest⟩
  rw [List.take_append_drop, ← hrest, List.take_append_drop]
  exact hperm

/-- The exchanges of the first `n` positions, from the last of them down. -/
def exchanges (draw : ℕ → ℕ) : ℕ → List α → List α
  | 0, l => l
  | i + 1, l => exchanges draw i (exchange l (draw i) i)

theorem shuffled_exchanges (hn : n ≤ l.length) (hdraw : ∀ i < n, draw i ≤ i) :
    Shuffled n l (exchanges draw n l) := by
  induction n generalizing l with
  | zero => exact .refl 0 l
  | succ n ih =>
    have hfirst : Shuffled (n + 1) l (exchange l (draw n) n) :=
      shuffled_exchange hn (Nat.lt_succ_of_le (hdraw n (Nat.lt_succ_self n))) (Nat.lt_succ_self n)
    have hrest : Shuffled n (exchange l (draw n) n) (exchanges draw (n + 1) l) :=
      ih (by rw [length_exchange]; omega) fun i hi => hdraw i (by omega)
    exact hfirst.trans (hrest.mono (Nat.le_succ n))

/-- The last position gets the element that is drawn for it. -/
theorem getElem?_exchanges_last (hn : n < l.length) (hdraw : ∀ i < n + 1, draw i ≤ i) :
    (exchanges draw (n + 1) l)[n]? = l[draw n]? := by
  have hlast := hdraw n (Nat.lt_succ_self n)
  have hrest : Shuffled n (exchange l (draw n) n) (exchanges draw (n + 1) l) :=
    shuffled_exchanges (by rw [length_exchange]; omega) fun i hi => hdraw i (by omega)
  rw [hrest.getElem?_eq (Nat.le_refl n), getElem?_exchange (by omega) hn, Equiv.swap_apply_right]

/-- The result tells the draws. -/
theorem exchanges_inj (hl : l.Nodup) (hn : n ≤ l.length) (hdraw : ∀ i < n, draw i ≤ i)
    (hdraw' : ∀ i < n, draw' i ≤ i) (h : exchanges draw n l = exchanges draw' n l) :
    ∀ i < n, draw i = draw' i := by
  induction n generalizing l with
  | zero => exact fun i hi => absurd hi (Nat.not_lt_zero i)
  | succ n ih =>
    have hlast := hdraw n (Nat.lt_succ_self n)
    have heq : draw n = draw' n := by
      have hget := congrArg (·[n]?) h
      simp only [getElem?_exchanges_last hn hdraw, getElem?_exchanges_last hn hdraw'] at hget
      exact (List.getElem?_inj (by omega) hl).mp hget
    intro i hi
    rcases Nat.lt_succ_iff_lt_or_eq.mp hi with hi | rfl
    · rw [exchanges, exchanges, ← heq] at h
      refine ih ?_ (by rw [length_exchange]; omega) (fun i hi => hdraw i (by omega))
        (fun i hi => hdraw' i (by omega)) h i hi
      exact (exchange_perm (by omega) hn).nodup_iff.mpr hl
    · exact heq

theorem exchanges_congr (h : ∀ i < n, draw i = draw' i) :
    exchanges draw n l = exchanges draw' n l := by
  induction n generalizing l with
  | zero => rfl
  | succ n ih =>
    rw [exchanges, exchanges, h n (Nat.lt_succ_self n)]
    exact ih fun i hi => h i (by omega)

/-- Every arrangement of the first `n` elements has its draws. -/
theorem exists_exchanges (hn : n ≤ l.length) (h : Shuffled n l l') :
    ∃ draw : ℕ → ℕ, (∀ i < n, draw i ≤ i) ∧ exchanges draw n l = l' := by
  induction n generalizing l with
  | zero =>
    refine ⟨id, fun i hi => absurd hi (Nat.not_lt_zero i), ?_⟩
    exact h.rest.symm
  | succ n ih =>
    have hlen := h.length_eq
    obtain ⟨j, hj, hget⟩ : ∃ j ≤ n, l[j]? = l'[n]? := by
      have hmem : l'[n] ∈ l'.take (n + 1) :=
        List.mem_take_iff_getElem.mpr ⟨n, by omega, rfl⟩
      obtain ⟨j, hj, hget⟩ := List.mem_take_iff_getElem.mp (h.perm.mem_iff.mp hmem)
      refine ⟨j, by omega, ?_⟩
      rw [List.getElem?_eq_getElem (by omega), List.getElem?_eq_getElem (by omega), hget]
    have hfirst : Shuffled (n + 1) l (exchange l j n) :=
      shuffled_exchange hn (by omega) (Nat.lt_succ_self n)
    have hperm : l'.Perm (exchange l j n) := h.perm_all.trans hfirst.perm_all.symm
    have hrest : l'.drop n = (exchange l j n).drop n := by
      refine List.ext_getElem? fun m => ?_
      rw [List.getElem?_drop, List.getElem?_drop]
      cases m with
      | zero => rw [Nat.add_zero, getElem?_exchange (by omega) hn, Equiv.swap_apply_right, hget]
      | succ m =>
        rw [hfirst.getElem?_eq (by omega), h.getElem?_eq (by omega)]
    obtain ⟨draw, hdraw, heq⟩ := ih (by rw [length_exchange]; omega) (shuffled_of_perm hperm hrest)
    refine ⟨Function.update draw n j, fun i hi => ?_, ?_⟩
    · rcases Nat.lt_succ_iff_lt_or_eq.mp hi with hi | rfl
      · rw [Function.update_of_ne (by omega)]
        exact hdraw i hi
      · rwa [Function.update_self]
    · rw [exchanges, Function.update_self, ← heq]
      exact exchanges_congr fun i hi => Function.update_of_ne (by omega) _ _

/-! ## The sequences of draws -/

/-- For each of `n` positions a draw from the positions up to it. -/
abbrev Draws (n : ℕ) := (i : Fin n) → Fin (i + 1)

/-- The draw for a position. -/
def Draws.at (d : Draws n) (i : ℕ) : ℕ := if h : i < n then d ⟨i, h⟩ else 0

theorem Draws.at_le (d : Draws n) (i : ℕ) : d.at i ≤ i := by
  unfold Draws.at
  split_ifs with h
  · exact Nat.le_of_lt_succ (d ⟨i, h⟩).isLt
  · exact Nat.zero_le i

theorem Draws.ext_at {d d' : Draws n} (h : ∀ i < n, d.at i = d'.at i) : d = d' := by
  funext i
  refine Fin.ext ?_
  have hi := h i i.isLt
  rwa [Draws.at, Draws.at, dif_pos i.isLt, dif_pos i.isLt] at hi

theorem Draws.exists_at (hdraw : ∀ i < n, draw i ≤ i) : ∃ d : Draws n, ∀ i < n, d.at i = draw i :=
  ⟨fun i => ⟨draw i, Nat.lt_succ_of_le (hdraw i i.isLt)⟩, fun _ hi => dif_pos hi⟩

open scoped Nat in
theorem card_draws (n : ℕ) : Fintype.card (Draws n) = n ! := by
  rw [Fintype.card_pi]
  simp only [Fintype.card_fin]
  rw [Fin.prod_univ_eq_prod_range (fun i => i + 1) n, Finset.prod_range_add_one_eq_factorial]

/-- The probability of a sequence of draws that are uniform and independent. -/
def Draws.probability (_ : Draws n) : ℚ := ∏ i : Fin n, (1 / (i + 1) : ℚ)

open scoped Nat in
theorem Draws.probability_eq (d : Draws n) : d.probability = 1 / n ! := by
  rw [Draws.probability, Fin.prod_univ_eq_prod_range (fun i => (1 / (i + 1) : ℚ)) n,
    ← Finset.prod_range_add_one_eq_factorial]
  push_cast
  rw [Finset.prod_div_distrib, Finset.prod_const_one]

/-- The sequences of draws are the arrangements of a list without repeated elements. -/
noncomputable def shuffleEquiv (hl : l.Nodup) : Draws l.length ≃ {l' : List α // l'.Perm l} :=
  Equiv.ofBijective
    (fun d => ⟨exchanges d.at l.length l,
      (shuffled_exchanges (Nat.le_refl _) fun i _ => d.at_le i).perm_all⟩) <| by
    constructor
    · intro d d' h
      exact Draws.ext_at (exchanges_inj hl (Nat.le_refl _) (fun i _ => d.at_le i)
        (fun i _ => d'.at_le i) (congrArg Subtype.val h))
    · rintro ⟨l', hperm⟩
      have hrest : l'.drop l.length = l.drop l.length := by
        rw [List.drop_eq_nil_of_le (Nat.le_of_eq hperm.length_eq), List.drop_length]
      obtain ⟨draw, hdraw, heq⟩ := exists_exchanges (Nat.le_refl _) (shuffled_of_perm hperm hrest)
      obtain ⟨d, hd⟩ := Draws.exists_at hdraw
      exact ⟨d, Subtype.ext ((exchanges_congr hd).trans heq)⟩

theorem coe_shuffleEquiv (hl : l.Nodup) (d : Draws l.length) :
    (shuffleEquiv hl d : List α) = exchanges d.at l.length l := rfl

open scoped Nat in
/-- An arrangement has the probability of the one sequence of draws that leads to it. -/
theorem sum_probability [DecidableEq α] (hl : l.Nodup) (hperm : l'.Perm l) :
    ∑ d : Draws l.length with exchanges d.at l.length l = l', d.probability = 1 / l.length ! := by
  have hone : Finset.univ.filter (fun d : Draws l.length => exchanges d.at l.length l = l') =
      {(shuffleEquiv hl).symm ⟨l', hperm⟩} := by
    ext d
    rw [Finset.mem_filter_univ, Finset.mem_singleton, Equiv.eq_symm_apply, Subtype.ext_iff,
      coe_shuffleEquiv]
  rw [hone, Finset.sum_singleton, Draws.probability_eq]

end CodeTest.BinaryHeap
