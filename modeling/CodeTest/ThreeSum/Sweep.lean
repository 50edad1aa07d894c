import CodeTest.Foundations.Positions

/-!
# The sweep of `threeSum`

`threeSum` of `mytest2.py`. For every first number of the sorted list a sweep goes through the
second numbers with the loop over `second`, and moves the pointer `third` down, never up. An index
out of range would be an error: the functions have a result only if there is none.

`secondLoop_spec` says what a sweep appends. It rests on `Excluded`: a pair is left behind only when
its sum with the first number is positive. The pointers may cross, when a second number is skipped
next to the third one; then all further sums are positive, and nothing is appended.
-/

namespace CodeTest.ThreeSum

/-- Whether the number at `i` has to differ from the one before, as in both loops, and does not. -/
def repeated (nums : List ℤ) (start i : ℕ) : Option Bool :=
  if start < i then do return (← nums[i]?) == (← nums[i - 1]?)
  else some false

/-- The loop that moves `third` down to `second`. -/
def moveThird (nums : List ℤ) (first second : ℕ) : ℕ → Option ℕ
  | 0 => some 0
  | third + 1 =>
    if second < third + 1 then do
      if (← nums[second]?) + (← nums[third + 1]?) + (← nums[first]?) > 0 then
        moveThird nums first second third
      else return third + 1
    else some (third + 1)

/-- The loop over `second`. -/
def secondLoop (nums : List ℤ) (first : ℕ) :
    List ℕ → ℕ → List (List ℤ) → Option (List (List ℤ))
  | [], _, ans => some ans
  | second :: rest, third, ans => do
    if ← repeated nums (first + 1) second then secondLoop nums first rest third ans
    else
      let third ← moveThird nums first second third
      if second = third then return ans
      let a ← nums[first]?
      let b ← nums[second]?
      let c ← nums[third]?
      if b + c + a = 0 then secondLoop nums first rest third (ans ++ [[a, b, c]])
      else secondLoop nums first rest third ans

/-- The loop over `first`. -/
def firstLoop (nums : List ℤ) : List ℕ → List (List ℤ) → Option (List (List ℤ))
  | [], ans => some ans
  | first :: rest, ans => do
    if ← repeated nums 0 first then firstLoop nums rest ans
    else
      let n := nums.length
      let ans ← secondLoop nums first (List.range' (first + 1) (n - (first + 1))) (n - 1) ans
      firstLoop nums rest ans

end ThreeSum

/-- `threeSum`. The list is sorted in place. -/
def threeSum (nums : List ℤ) : Option (List (List ℤ)) :=
  let nums := nums.insertionSort (· ≤ ·)
  ThreeSum.firstLoop nums (List.range nums.length) []

namespace ThreeSum

/-! ## The numbers by position -/

/-- The numbers `v` of a list of length `n`, in order. -/
structure Numbers (nums : List ℤ) (v : ℕ → ℤ) : Prop where
  get : ∀ i, i < nums.length → nums[i]? = some (v i)
  mono : ∀ i j, i ≤ j → j < nums.length → v i ≤ v j

theorem numbers_of_pairwise {nums : List ℤ} (h : nums.Pairwise (· ≤ ·)) :
    Numbers nums fun i => nums.getD i 0 where
  get i hi := by simp [hi]
  mono i j hij hj := by
    rcases hij.eq_or_lt with rfl | hij
    · exact le_rfl
    · have hi := hij.trans hj
      simpa [hi, hj] using List.pairwise_iff_getElem.mp h i j hi hj hij

/-- The number at `i` is the first of its value from `start` on. -/
def Fresh (v : ℕ → ℤ) (start i : ℕ) : Prop := start < i → v i ≠ v (i - 1)

variable {nums : List ℤ} {v : ℕ → ℤ} {first second third start i : ℕ}

theorem Numbers.repeated_eq (h : Numbers nums v) (start : ℕ) (hi : i < nums.length) :
    ∃ b, repeated nums start i = some b ∧ (b = true ↔ ¬ Fresh v start i) := by
  unfold repeated
  split_ifs with hlt
  · refine ⟨v i == v (i - 1), ?_, ?_⟩
    · rw [h.get i hi, h.get (i - 1) (by omega)]
      rfl
    · simp [Fresh, hlt]
  · exact ⟨false, rfl, by simp [Fresh, hlt]⟩

/-- **The third pointer** is moved down as long as the sum is positive, and not below the second. -/
theorem Numbers.moveThird_spec (h : Numbers nums v) (hfirst : first < nums.length)
    (hsecond : second < nums.length) (hthird : third < nums.length) :
    ∃ third', moveThird nums first second third = some third' ∧ third' ≤ third ∧
      (third ≤ second → third' = third) ∧ (second ≤ third → second ≤ third') ∧
      (∀ k, third' < k → k ≤ third → 0 < v second + v k + v first) ∧
      (second < third' → v second + v third' + v first ≤ 0) := by
  induction third with
  | zero =>
    refine ⟨0, rfl, le_rfl, fun _ => rfl, id, ?_, ?_⟩
    · intro k h₀ hk
      omega
    · intro hlt
      omega
  | succ third ih =>
    rw [moveThird]
    split_ifs with hlt
    · simp only [h.get _ hsecond, h.get _ hthird, h.get _ hfirst, Option.bind_eq_bind,
        Option.bind_some]
      split_ifs with hpos
      · obtain ⟨third', hmove, hle, hstay, hge, hdown, hstop⟩ := ih (by omega)
        refine ⟨third', hmove, by omega, by omega, by omega, ?_, hstop⟩
        intro k hk hk'
        rcases hk'.eq_or_lt with rfl | hk'
        · exact hpos
        · exact hdown k hk (by omega)
      · refine ⟨third + 1, rfl, le_rfl, by omega, by omega, ?_, fun _ => not_lt.mp hpos⟩
        intro k hk hk'
        omega
    · refine ⟨third + 1, rfl, le_rfl, fun _ => rfl, fun h => h, ?_, by omega⟩
      intro k hk hk'
      omega

/-! ## One sweep -/

/-- The sums with a third number behind the pointer are positive, for the second numbers that are
left and for those at the pointer or behind it. -/
def Excluded (v : ℕ → ℤ) (n first second third : ℕ) : Prop :=
  ∀ j k, second ≤ j ∨ third ≤ j → j < n → third < k → k < n → 0 < v first + v j + v k

theorem excluded_start (v : ℕ → ℤ) (n first second : ℕ) :
    Excluded v n first second (n - 1) := by
  intro j k _ _ hk hkn
  omega

theorem Excluded.skip {n : ℕ} (h : Excluded v n first second third) :
    Excluded v n first (second + 1) third := by
  intro j k hj
  exact h j k (hj.imp_left Nat.le_of_succ_le)

/-- What the pointer is moved over is excluded. -/
theorem Excluded.move {third' : ℕ} (h : Numbers nums v)
    (hex : Excluded v nums.length first second third)
    (hstay : third ≤ second → third' = third) (hge : second ≤ third → second ≤ third')
    (hdown : ∀ k, third' < k → k ≤ third → 0 < v second + v k + v first) :
    Excluded v nums.length first second third' := by
  intro j k hj hjn hk hkn
  by_cases hkt : k ≤ third
  · have hmono := h.mono second j (by omega) hjn
    have := hdown k hk hkt
    omega
  · exact hex j k (by omega) hjn (by omega) hkn

/-- The triple `t` of the first number, the one at `j`, if that is the first of its value, and one
after it. -/
def FoundAt (v : ℕ → ℤ) (n first j : ℕ) (t : List ℤ) : Prop :=
  ∃ k, j < k ∧ k < n ∧ Fresh v (first + 1) j ∧ v first + v j + v k = 0 ∧ t = [v first, v j, v k]

/-- With a third number before the pointer the sum is not larger than at the pointer. -/
theorem Numbers.foundAt_iff (h : Numbers nums v)
    (hex : Excluded v nums.length first second third) (hfresh : Fresh v (first + 1) second)
    (hlt : second < third) (hthird : third < nums.length)
    (hle : v second + v third + v first ≤ 0) (t : List ℤ) :
    FoundAt v nums.length first second t ↔
      v second + v third + v first = 0 ∧ t = [v first, v second, v third] := by
  constructor
  · rintro ⟨k, hk, hkn, -, hsum, rfl⟩
    have hkt : k ≤ third := by
      by_contra hkt
      have := hex second k (.inl le_rfl) (hk.trans hkn) (by omega) hkn
      omega
    have := h.mono k third hkt hthird
    have hc : v k = v third := by omega
    exact ⟨by omega, by rw [hc]⟩
  · rintro ⟨hsum, rfl⟩
    exact ⟨third, hlt, hthird, hfresh, by omega, rfl⟩

/-- Behind the pointer nothing is found. -/
theorem Excluded.not_foundAt {n j : ℕ} (hex : Excluded v n first second third) (hj : second ≤ j)
    (hthird : third ≤ j) (t : List ℤ) : ¬ FoundAt v n first j t := by
  rintro ⟨k, hk, hkn, -, hsum, -⟩
  have := hex j k (.inl hj) (hk.trans hkn) (by omega) hkn
  omega

/-- Where the pointers have crossed, the sum is positive. -/
theorem Excluded.lt_of_sum {n : ℕ} (hex : Excluded v n first second third) (hne : second ≠ third)
    (hsecond : second < n) (hthird : third < n) (hsum : v second + v third + v first = 0) :
    second < third := by
  by_contra hlt
  have := hex third second (.inr le_rfl) hthird (by omega) hsecond
  omega

/-- Triples of the same first number and different second numbers are different. -/
theorem Numbers.not_foundAt_later (h : Numbers nums v) {j : ℕ} {c : ℤ} (hlt : first < second)
    (hj : second < j) : ¬ FoundAt v nums.length first j [v first, v second, c] := by
  rintro ⟨k, hk, hkn, hfresh, -, heq⟩
  have hvj : v second = v j := (List.cons.inj (List.cons.inj heq).2).1
  have h₁ := h.mono second (j - 1) (by omega) (by omega)
  have h₂ := h.mono (j - 1) j (by omega) (hk.trans hkn)
  exact hfresh (by omega) (by omega)

/-- What is found from `second` on is found at `second` or after it. -/
theorem exists_foundAt_iff {n : ℕ} (second : ℕ) (t : List ℤ) :
    (∃ j, second ≤ j ∧ FoundAt v n first j t) ↔
      FoundAt v n first second t ∨ ∃ j, second + 1 ≤ j ∧ FoundAt v n first j t := by
  constructor
  · rintro ⟨j, hj, hfound⟩
    rcases hj.eq_or_lt with rfl | hj
    · exact .inl hfound
    · exact .inr ⟨j, hj, hfound⟩
  · rintro (hfound | ⟨j, hj, hfound⟩)
    · exact ⟨second, le_rfl, hfound⟩
    · exact ⟨j, Nat.le_of_succ_le hj, hfound⟩

/-- **A sweep** appends, once each, the triples of the first number that are found from `second`
on. -/
theorem Numbers.secondLoop_spec (h : Numbers nums v) (hfirst : first < second)
    (hthird : third < nums.length) (hex : Excluded v nums.length first second third)
    (ans : List (List ℤ)) :
    ∃ out, secondLoop nums first (List.range' second (nums.length - second)) third ans =
        some (ans ++ out) ∧ out.Nodup ∧
      ∀ t, t ∈ out ↔ ∃ j, second ≤ j ∧ FoundAt v nums.length first j t := by
  induction hm : nums.length - second generalizing second third ans with
  | zero =>
    refine ⟨[], by simp [secondLoop], List.nodup_nil, fun t => iff_of_false (by simp) ?_⟩
    rintro ⟨j, hj, k, hk, hkn, -⟩
    omega
  | succ m ih =>
    have hsecond : second < nums.length := by omega
    have hrest : nums.length - (second + 1) = m := by omega
    obtain ⟨b, hb, hrep⟩ := h.repeated_eq (first + 1) hsecond
    rw [List.range'_succ, secondLoop, hb]
    cases b with
    | true =>
      -- a number that was there before is skipped
      obtain ⟨out, hout, hnodup, hmem⟩ := ih (by omega) hthird hex.skip ans hrest
      refine ⟨out, hout, hnodup, fun t => ?_⟩
      rw [hmem, exists_foundAt_iff second, or_iff_right]
      rintro ⟨k, -, -, hfresh, -⟩
      exact hrep.mp rfl hfresh
    | false =>
      have hfresh : Fresh v (first + 1) second := by simpa using hrep
      obtain ⟨third', hmove, hle, hstay, hge, hdown, hstop⟩ :=
        h.moveThird_spec (hfirst.trans hsecond) hsecond hthird
      have hex' := hex.move h hstay hge hdown
      have hthird' : third' < nums.length := hle.trans_lt hthird
      simp only [hmove, h.get _ (hfirst.trans hsecond), h.get _ hsecond, h.get _ hthird',
        Option.bind_eq_bind, Option.bind_some, Bool.false_eq_true, if_false]
      split_ifs with hmeet hsum
      · -- the pointers meet
        refine ⟨[], by simp, List.nodup_nil, fun t => iff_of_false (by simp) ?_⟩
        rintro ⟨j, hj, hfound⟩
        exact hex'.not_foundAt hj (hmeet ▸ hj) t hfound
      · -- a triple is found
        have hlt := hex'.lt_of_sum hmeet hsecond hthird' hsum
        obtain ⟨out, hout, hnodup, hmem⟩ := ih (by omega) hthird' hex'.skip
          (ans ++ [[v first, v second, v third']]) hrest
        refine ⟨[v first, v second, v third'] :: out, ?_, ?_, fun t => ?_⟩
        · rw [hout, List.append_assoc, List.singleton_append]
        · refine List.nodup_cons.mpr ⟨fun hin => ?_, hnodup⟩
          obtain ⟨j, hj, hfound⟩ := (hmem _).mp hin
          exact h.not_foundAt_later hfirst hj hfound
        · rw [List.mem_cons, hmem, exists_foundAt_iff second,
            h.foundAt_iff hex' hfresh hlt hthird' hsum.le, and_iff_right hsum]
      · obtain ⟨out, hout, hnodup, hmem⟩ := ih (by omega) hthird' hex'.skip ans hrest
        refine ⟨out, hout, hnodup, fun t => ?_⟩
        rw [hmem, exists_foundAt_iff second, or_iff_right]
        intro hfound
        by_cases hlt : second < third'
        · exact hsum ((h.foundAt_iff hex' hfresh hlt hthird' (hstop hlt) t).mp hfound).1
        · exact hex'.not_foundAt le_rfl (by omega) t hfound

end CodeTest.ThreeSum
