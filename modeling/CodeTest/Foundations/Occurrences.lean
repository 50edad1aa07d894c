import Mathlib.Data.List.Basic
import Mathlib.Data.List.Infix
import Mathlib.Tactic

/-!
# Occurrences of a list in another one

Cutting a list at the occurrences of a separator, which may overlap one another: the leftmost one
counts, then the leftmost one behind it, and so on (`greedyCount`). `parts` makes at most a given
number of such cuts. The parts are joined again by the separator (`intercalate_parts`), no piece
but the last has an occurrence (`not_infix_of_mem_dropLast`), and none has if all occurrences are
cut (`not_infix_of_mem_parts`).
-/

namespace CodeTest

variable {α : Type*} [DecidableEq α] {d s u r p : List α} {n : ℕ}

/-- What is before and behind the leftmost occurrence of `d`. -/
def firstCut (d : List α) : List α → Option (List α × List α)
  | [] => if d <+: [] then some ([], []) else none
  | b :: s =>
    if d <+: b :: s then some ([], (b :: s).drop d.length)
    else (firstCut d s).map fun c => (b :: c.1, c.2)

/-- The number of leftmost occurrences that do not overlap, for `d` not empty. -/
def greedyCount (d : List α) : List α → ℕ
  | [] => 0
  | b :: s => if d <+: b :: s then greedyCount d (s.drop (d.length - 1)) + 1 else greedyCount d s
termination_by s => s.length
decreasing_by
  · rw [List.length_drop, List.length_cons]
    omega
  · rw [List.length_cons]
    omega

/-- The parts of a list that is cut at the leftmost occurrence of `d`, at most `n` times. -/
def parts (d : List α) : ℕ → List α → List (List α)
  | 0, s => [s]
  | n + 1, s =>
    match firstCut d s with
    | none => [s]
    | some c => c.1 :: parts d n c.2

theorem firstCut_eq_none_iff : firstCut d s = none ↔ ¬ d <:+: s := by
  induction s with
  | nil =>
    rw [firstCut, List.infix_nil, ← List.prefix_nil]
    split_ifs with h <;> simp [h]
  | cons b s ih =>
    rw [firstCut, List.infix_cons_iff]
    split_ifs with h
    · simp [h]
    · simp [h, ih]

/-- The list is put together again. -/
theorem eq_of_firstCut (h : firstCut d s = some (u, r)) : s = u ++ d ++ r := by
  induction s generalizing u with
  | nil =>
    rw [firstCut] at h
    split_ifs at h with hd
    obtain ⟨rfl, rfl⟩ := Prod.mk.inj (Option.some.inj h)
    simp [List.prefix_nil.mp hd]
  | cons b s ih =>
    rw [firstCut] at h
    split_ifs at h with hd
    · obtain ⟨rfl, rfl⟩ := Prod.mk.inj (Option.some.inj h)
      exact List.prefix_append_drop hd
    · obtain ⟨⟨u', r'⟩, hcut, hur⟩ := Option.map_eq_some_iff.mp h
      obtain ⟨rfl, rfl⟩ := Prod.mk.inj hur
      rw [ih hcut]
      rfl

/-- There is no occurrence before the leftmost one. -/
theorem not_infix_of_firstCut (hd : d ≠ []) (h : firstCut d s = some (u, r)) : ¬ d <:+: u := by
  induction s generalizing u with
  | nil =>
    rw [firstCut, if_neg (by rwa [List.prefix_nil])] at h
    cases h
  | cons b s ih =>
    rw [firstCut] at h
    split_ifs at h with hpre
    · obtain ⟨rfl, rfl⟩ := Prod.mk.inj (Option.some.inj h)
      rwa [List.infix_nil]
    · obtain ⟨⟨u', r'⟩, hcut, hur⟩ := Option.map_eq_some_iff.mp h
      obtain ⟨rfl, rfl⟩ := Prod.mk.inj hur
      have hs := eq_of_firstCut hcut
      rw [List.infix_cons_iff, not_or]
      refine ⟨fun hu => hpre (hu.trans ?_), ih hcut⟩
      rw [hs, List.append_assoc]
      exact List.prefix_append (b :: u') _

theorem greedyCount_of_firstCut (hd : d ≠ []) :
    greedyCount d s = match firstCut d s with
      | none => 0
      | some c => greedyCount d c.2 + 1 := by
  have hpos := List.length_pos_iff.mpr hd
  induction s with
  | nil => rw [firstCut, if_neg (by rwa [List.prefix_nil]), greedyCount]
  | cons b s ih =>
    rw [greedyCount, firstCut]
    split_ifs with hpre
    · obtain ⟨k, hk⟩ := Nat.exists_eq_add_of_lt hpos
      simp [hk]
    · rw [ih]
      cases firstCut d s <;> rfl

/-! ## The parts -/

theorem parts_ne_nil (d s : List α) (n : ℕ) : parts d n s ≠ [] := by
  cases n with
  | zero => exact List.cons_ne_nil _ _
  | succ n =>
    rw [parts]
    split <;> exact List.cons_ne_nil _ _

theorem length_parts (hd : d ≠ []) (s : List α) (n : ℕ) :
    (parts d n s).length = min n (greedyCount d s) + 1 := by
  induction n generalizing s with
  | zero => simp [parts]
  | succ n ih =>
    rw [parts, greedyCount_of_firstCut hd]
    cases firstCut d s with
    | none => simp
    | some c => simp [ih, Nat.add_min_add_right]

theorem intercalate_parts (d s : List α) (n : ℕ) : d.intercalate (parts d n s) = s := by
  induction n generalizing s with
  | zero => simp [parts]
  | succ n ih =>
    rw [parts]
    cases h : firstCut d s with
    | none => simp
    | some c =>
      simp only
      rw [List.intercalate_cons_of_ne_nil (parts_ne_nil d c.2 n), ih, ← eq_of_firstCut h]

/-- Where a piece is not the last one, it ends at the leftmost occurrence. -/
theorem not_infix_of_mem_dropLast (hd : d ≠ []) (hp : p ∈ (parts d n s).dropLast) :
    ¬ d <:+: p := by
  induction n generalizing s with
  | zero => simp [parts] at hp
  | succ n ih =>
    rw [parts] at hp
    cases h : firstCut d s with
    | none => simp [h] at hp
    | some c =>
      rw [h] at hp
      simp only [List.dropLast_cons_of_ne_nil (parts_ne_nil d c.2 n), List.mem_cons] at hp
      rcases hp with rfl | hp
      · exact not_infix_of_firstCut hd h
      · exact ih hp

theorem not_infix_of_mem_parts (hd : d ≠ []) (hn : greedyCount d s ≤ n) (hp : p ∈ parts d n s) :
    ¬ d <:+: p := by
  induction n generalizing s with
  | zero =>
    rw [greedyCount_of_firstCut hd] at hn
    rw [parts, List.mem_singleton] at hp
    cases h : firstCut d s with
    | none =>
      rw [hp]
      exact firstCut_eq_none_iff.mp h
    | some c =>
      rw [h] at hn
      exact absurd hn (Nat.not_succ_le_zero _)
  | succ n ih =>
    rw [greedyCount_of_firstCut hd] at hn
    rw [parts] at hp
    cases h : firstCut d s with
    | none =>
      rw [h, List.mem_singleton] at hp
      rw [hp]
      exact firstCut_eq_none_iff.mp h
    | some c =>
      rw [h] at hp hn
      rcases List.mem_cons.mp hp with rfl | hp
      · exact not_infix_of_firstCut hd h
      · exact ih (Nat.le_of_succ_le_succ hn) hp

/-- There are no more occurrences than elements. -/
theorem greedyCount_le_length (d s : List α) : greedyCount d s ≤ s.length := by
  fun_induction greedyCount d s with
  | case1 => exact Nat.zero_le _
  | case2 b s hpre ih =>
    rw [List.length_drop] at ih
    rw [List.length_cons]
    omega
  | case3 b s hpre ih => exact Nat.le_succ_of_le ih

/-- Cut at all occurrences of a letter. -/
theorem parts_singleton {a : α} (h : s.count a ≤ n) : parts [a] n s = s.splitOn a := by
  induction n generalizing s with
  | zero =>
    rw [parts, List.splitOn_eq_singleton (List.count_eq_zero.mp (Nat.le_zero.mp h))]
  | succ n ih =>
    rw [parts]
    cases hcut : firstCut [a] s with
    | none =>
      rw [firstCut_eq_none_iff, List.singleton_infix_iff] at hcut
      rw [List.splitOn_eq_singleton hcut]
    | some c =>
      obtain ⟨u, r⟩ := c
      have hu := not_infix_of_firstCut (List.cons_ne_nil a []) hcut
      rw [List.singleton_infix_iff] at hu
      have hs := eq_of_firstCut hcut
      rw [List.append_assoc, List.singleton_append] at hs
      rw [hs, List.count_append, List.count_cons_self] at h
      rw [hs, List.splitOn_append_cons_self_of_not_mem hu]
      exact congrArg (u :: ·) (ih (s := r) (by omega))

end CodeTest
