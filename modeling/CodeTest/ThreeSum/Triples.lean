import CodeTest.ThreeSum.Sweep

/-!
# The triples that `threeSum` returns

The sweeps of all first numbers together append, once each, the triples of numbers at increasing
positions of the sorted list with the sum zero (`firstLoop_spec`, `exists_foundAt_iff_lt`).
`threeSum_spec` says this of the list as it was given.
-/

namespace CodeTest.ThreeSum

variable {nums : List ℤ} {v : ℕ → ℤ} {first start i : ℕ}

/-- The triples of a first number differ from those of later ones. -/
theorem Numbers.ne_of_later (h : Numbers nums v) {j j' : ℕ} {t t' : List ℤ}
    (ht : FoundAt v nums.length first j t) (hlt : first < i) (hij : i < j')
    (hfresh : Fresh v 0 i) (ht' : FoundAt v nums.length i j' t') : t ≠ t' := by
  obtain ⟨k, -, -, -, -, rfl⟩ := ht
  obtain ⟨k', hjk, hkn, -, -, rfl⟩ := ht'
  intro heq
  have hvi : v first = v i := (List.cons.inj heq).1
  have h₁ := h.mono first (i - 1) (by omega) (by omega)
  have h₂ := h.mono (i - 1) i (by omega) (by omega)
  exact hfresh (by omega) (by omega)

/-- **The sweeps** from the first number on append, once each, the triples that they find. -/
theorem Numbers.firstLoop_spec (h : Numbers nums v) (first : ℕ) (ans : List (List ℤ)) :
    ∃ out, firstLoop nums (List.range' first (nums.length - first)) ans = some (ans ++ out) ∧
      out.Nodup ∧ ∀ t, t ∈ out ↔
        ∃ i j, first ≤ i ∧ i < j ∧ Fresh v 0 i ∧ FoundAt v nums.length i j t := by
  induction hm : nums.length - first generalizing first ans with
  | zero =>
    refine ⟨[], by simp [firstLoop], List.nodup_nil, fun t => iff_of_false (by simp) ?_⟩
    rintro ⟨i, j, hi, hij, -, k, hjk, hkn, -⟩
    omega
  | succ m ih =>
    have hfirst : first < nums.length := by omega
    have hrest : nums.length - (first + 1) = m := by omega
    obtain ⟨b, hb, hrep⟩ := h.repeated_eq 0 hfirst
    rw [List.range'_succ, firstLoop, hb]
    cases b with
    | true =>
      obtain ⟨out, hout, hnodup, hmem⟩ := ih (first + 1) ans hrest
      refine ⟨out, hout, hnodup, fun t => (hmem t).trans ⟨?_, ?_⟩⟩
      · rintro ⟨i, j, hi, hfound⟩
        exact ⟨i, j, by omega, hfound⟩
      · rintro ⟨i, j, hi, hij, hfresh, hfound⟩
        have hne : i ≠ first := by
          rintro rfl
          exact hrep.mp rfl hfresh
        exact ⟨i, j, by omega, hij, hfresh, hfound⟩
    | false =>
      have hfresh : Fresh v 0 first := by simpa using hrep
      obtain ⟨swept, hswept, hnodup₁, hmem₁⟩ := h.secondLoop_spec (Nat.lt_succ_self first)
        (Nat.sub_one_lt_of_lt hfirst) (excluded_start v nums.length first (first + 1)) ans
      obtain ⟨out, hout, hnodup, hmem⟩ := ih (first + 1) (ans ++ swept) hrest
      simp only [Option.bind_eq_bind, Option.bind_some, Bool.false_eq_true, if_false, hswept]
      refine ⟨swept ++ out, by rw [hout, List.append_assoc], ?_, fun t => ?_⟩
      · refine List.nodup_append.mpr ⟨hnodup₁, hnodup, fun t ht t' ht' => ?_⟩
        obtain ⟨j, -, hfound⟩ := (hmem₁ t).mp ht
        obtain ⟨i, j', hi, hij, hfresh', hfound'⟩ := (hmem t').mp ht'
        exact h.ne_of_later hfound hi hij hfresh' hfound'
      · rw [List.mem_append, hmem₁, hmem]
        constructor
        · rintro (⟨j, hj, hfound⟩ | ⟨i, j, hi, hfound⟩)
          · exact ⟨first, j, le_rfl, hj, hfresh, hfound⟩
          · exact ⟨i, j, by omega, hfound⟩
        · rintro ⟨i, j, hi, hij, hfresh', hfound⟩
          rcases hi.eq_or_lt with rfl | hi
          · exact .inl ⟨j, hij, hfound⟩
          · exact .inr ⟨i, j, hi, hij, hfresh', hfound⟩

/-- Each value from `start` on has a first position. -/
theorem exists_fresh (v : ℕ → ℤ) (hi : start ≤ i) :
    ∃ i', start ≤ i' ∧ i' ≤ i ∧ v i' = v i ∧ Fresh v start i' := by
  induction i, hi using Nat.le_induction with
  | base => exact ⟨start, le_rfl, le_rfl, rfl, fun hlt => absurd hlt (lt_irrefl _)⟩
  | succ i hi ih =>
    by_cases heq : v (i + 1) = v i
    · obtain ⟨i', hstart, hle, hvi, hfresh⟩ := ih
      exact ⟨i', hstart, by omega, hvi.trans heq.symm, hfresh⟩
    · exact ⟨i + 1, by omega, le_rfl, rfl, fun _ => heq⟩

/-- No triple is lost where only the first position of a value is looked at. -/
theorem exists_foundAt_iff_lt (v : ℕ → ℤ) (n : ℕ) (t : List ℤ) :
    (∃ i j, 0 ≤ i ∧ i < j ∧ Fresh v 0 i ∧ FoundAt v n i j t) ↔
      ∃ i j k, i < j ∧ j < k ∧ k < n ∧ v i + v j + v k = 0 ∧ t = [v i, v j, v k] := by
  constructor
  · rintro ⟨i, j, -, hij, -, k, hjk, hkn, -, hsum, ht⟩
    exact ⟨i, j, k, hij, hjk, hkn, hsum, ht⟩
  · rintro ⟨i, j, k, hij, hjk, hkn, hsum, rfl⟩
    obtain ⟨i', -, hi, hvi, hfresh⟩ := exists_fresh v (Nat.zero_le i)
    obtain ⟨j', hstart, hj, hvj, hfresh'⟩ := exists_fresh v (show i' + 1 ≤ j by omega)
    refine ⟨i', j', Nat.zero_le _, hstart, hfresh, k, by omega, hkn, hfresh', ?_, ?_⟩
    · rw [hvi, hvj, hsum]
    · rw [hvi, hvj]

/-- A triple in order with the sum zero, from three positions of the list. -/
def ZeroTriple (nums t : List ℤ) : Prop :=
  ∃ a b c, t = [a, b, c] ∧ a ≤ b ∧ b ≤ c ∧ a + b + c = 0 ∧ AtDistinct nums a b c

theorem zeroTriple_perm_iff {nums nums' : List ℤ} (hperm : nums.Perm nums') (t : List ℤ) :
    ZeroTriple nums t ↔ ZeroTriple nums' t := by
  simp only [ZeroTriple, atDistinct_perm_iff hperm]

/-- In a list in order the triples stand at increasing positions. -/
theorem Numbers.zeroTriple_iff (h : Numbers nums v) (hnums : nums.Pairwise (· ≤ ·)) (t : List ℤ) :
    ZeroTriple nums t ↔ ∃ i j k, i < j ∧ j < k ∧ k < nums.length ∧ v i + v j + v k = 0 ∧
      t = [v i, v j, v k] := by
  constructor
  · rintro ⟨a, b, c, rfl, hab, hbc, hsum, hat⟩
    obtain ⟨i, j, k, hij, hjk, ha, hb, hc⟩ := hat.exists_lt hnums hab hbc
    have hk := (List.getElem?_eq_some_iff.mp hc).1
    obtain rfl : v i = a := by simpa [h.get i (by omega)] using ha
    obtain rfl : v j = b := by simpa [h.get j (by omega)] using hb
    obtain rfl : v k = c := by simpa [h.get k hk] using hc
    exact ⟨i, j, k, hij, hjk, hk, hsum, rfl⟩
  · rintro ⟨i, j, k, hij, hjk, hk, hsum, rfl⟩
    exact ⟨v i, v j, v k, rfl, h.mono i j hij.le (hjk.trans hk), h.mono j k hjk.le hk, hsum,
      i, j, k, hij.ne, (hij.trans hjk).ne, hjk.ne, h.get i (by omega), h.get j (by omega),
      h.get k hk⟩

/-- **`threeSum`** always returns a list; each entry is a triple in order with the sum zero, taken
from three different positions of the given list, and each such triple is in it exactly once. -/
theorem threeSum_spec (nums : List ℤ) :
    ∃ ans, threeSum nums = some ans ∧ (∀ t ∈ ans, ZeroTriple nums t) ∧
      ∀ t, ZeroTriple nums t → ans.count t = 1 := by
  have hsorted : (nums.insertionSort (· ≤ ·)).Pairwise (· ≤ ·) :=
    List.pairwise_insertionSort _ nums
  have h := numbers_of_pairwise hsorted
  obtain ⟨ans, hans, hnodup, hmem⟩ := h.firstLoop_spec 0 []
  have hiff : ∀ t, t ∈ ans ↔ ZeroTriple nums t := by
    intro t
    rw [hmem, exists_foundAt_iff_lt, ← h.zeroTriple_iff hsorted]
    exact zeroTriple_perm_iff (List.perm_insertionSort _ nums) t
  refine ⟨ans, ?_, fun t ht => (hiff t).mp ht, fun t ht => ?_⟩
  · rw [threeSum, List.range_eq_range']
    exact hans
  · exact List.count_eq_one_of_mem hnodup ((hiff t).mpr ht)

example : threeSum [-1, 0, 1, 2, -1, -4] = some [[-1, -1, 2], [-1, 0, 1]] := by decide +kernel

end CodeTest.ThreeSum
