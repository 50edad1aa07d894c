import CodeTest.Foundations.Bisection
import CodeTest.Util.Selected

/-!
# Bisection of a sorted array

`getInsertPos` and `binarySearch` of `util.lua`. Both halve an interval of positions by a test of
its middle, which says whether the value belongs behind the element there. The test depends on the
direction of the array, and takes an element equivalent to the value to be behind it in an ascending
array and before it in a descending one.

The argument `none` stands for `nil` and `false` where the functions ask whether a value is there,
and for everything that is not a function where they ask for a function. The operators `==` and `<`,
which are used then, are parameters. As in `getTop`, a position outside the array is not read: what
reads one has no result.
-/

namespace CodeTest.Bisection

open GetTop

variable {α : Type}

/-- The variables of the loops, of which one is the middle of the two others. -/
structure Interval where
  nBegin : ℕ
  nEnd : ℕ
  nMid : ℕ
  nMid_eq : nMid = (nBegin + nEnd) >>> 1

/-- The bounds are set, and the middle after them. -/
def Interval.of (nBegin nEnd : ℕ) : Interval := ⟨nBegin, nEnd, (nBegin + nEnd) >>> 1, rfl⟩

theorem Interval.two_mul_nMid (s : Interval) :
    2 * s.nMid ≤ s.nBegin + s.nEnd ∧ s.nBegin + s.nEnd ≤ 2 * s.nMid + 1 := by
  rw [s.nMid_eq, Nat.shiftRight_eq_div_pow]
  omega

theorem at?_eq_some {t : List α} {i : ℕ} (h₁ : 1 ≤ i) (h₂ : i ≤ t.length) :
    ∃ a, at? t i = some a :=
  ⟨t[i - 1], by rw [at?, if_neg (by omega), List.getElem?_eq_getElem (by omega)]⟩

theorem getElem?_of_at? {t : List α} {i : ℕ} {a : α} (h : at? t i = some a) :
    1 ≤ i ∧ t[i - 1]? = some a := by
  unfold at? at h
  split_ifs at h with hi
  exact ⟨by omega, h⟩

section

variable (fCmpFunc : α → α → Bool) (t : List α) (value : α) (bSmallToLarge : Bool)

/-- The test of both functions for an element `a`. -/
def goesAfter (a : α) : Bool :=
  (fCmpFunc a value && bSmallToLarge) || !(fCmpFunc a value || bSmallToLarge)

def shouleInsertAfter (nPos : ℕ) : Option Bool :=
  (at? t nPos).map (goesAfter fCmpFunc value bSmallToLarge)

def shouleFindAfter (nPos : ℕ) : Option Bool :=
  (at? t nPos).map (goesAfter fCmpFunc value bSmallToLarge)

/-- The loop of `getInsertPos`. -/
def insertLoop (s : Interval) : Option Interval :=
  if _h : s.nEnd - s.nBegin > 1 then
    match shouleInsertAfter fCmpFunc t value bSmallToLarge s.nMid with
    | none => none
    | some true => insertLoop (.of s.nMid s.nEnd)
    | some false => insertLoop (.of s.nBegin s.nMid)
  else
    some s
termination_by s.nEnd - s.nBegin
decreasing_by
  all_goals
    have := s.two_mul_nMid
    simp only [Interval.of]
    omega

/-- What `getInsertPos` does behind its loop. -/
def insertEnd (s : Interval) : Option ℕ :=
  match shouleInsertAfter fCmpFunc t value bSmallToLarge s.nBegin with
  | none => none
  | some true =>
    (shouleInsertAfter fCmpFunc t value bSmallToLarge s.nEnd).map fun after =>
      if after then s.nEnd + 1 else s.nEnd
  | some false => some s.nBegin

/-- The loop of `binarySearch`. -/
def searchLoop (fEqual : α → α → Bool) (s : Interval) : Option ℤ :=
  if _h : s.nBegin ≤ s.nEnd then
    match _ha : at? t s.nMid with
    | none => none
    | some a =>
      if fEqual a value then
        some s.nMid
      else
        match shouleFindAfter fCmpFunc t value bSmallToLarge s.nMid with
        | none => none
        | some true => searchLoop fEqual (.of (s.nMid + 1) s.nEnd)
        | some false => searchLoop fEqual (.of s.nBegin (s.nMid - 1))
  else
    some (-1)
termination_by s.nEnd + 1 - s.nBegin
decreasing_by
  all_goals
    have := s.two_mul_nMid
    have := (getElem?_of_at? _ha).1
    simp only [Interval.of]
    omega

end

/-- `getInsertPos(tToInsert, value, bSmallToLarge, fCmpFunc)`, with the operator `lt`. The result
`some none` is nil. -/
def getInsertPos (lt : α → α → Bool) (tToInsert : Option (List α)) (value : Option α)
    (bSmallToLarge : Bool) (fCmpFunc : Option (α → α → Bool)) : Option (Option ℕ) :=
  match tToInsert with
  | none => some none
  | some t =>
    if t.length = 0 then
      some (some 1)
    else
      match value with
      | none => some none
      | some value =>
        let fCmpFunc := fCmpFunc.getD lt
        (insertLoop fCmpFunc t value bSmallToLarge (.of 1 t.length)).bind fun s =>
          (insertEnd fCmpFunc t value bSmallToLarge s).map some

/-- `binarySearch(tToSearch, value, bSmallToLarge, fEqual, fCmpFunc)`, with the operators `eq` and
`lt`. The result `some none` is nil. -/
def binarySearch (eq lt : α → α → Bool) (tToSearch : Option (List α)) (value : Option α)
    (bSmallToLarge : Bool) (fEqual fCmpFunc : Option (α → α → Bool)) : Option (Option ℤ) :=
  match tToSearch with
  | none => some none
  | some t =>
    if t.length ≤ 0 then
      some none
    else
      match value with
      | none => some none
      | some value =>
        let fEqual := fEqual.getD eq
        let fCmpFunc := fCmpFunc.getD lt
        (searchLoop fCmpFunc t value bSmallToLarge fEqual (.of 1 t.length)).map some

/-! ## The test in an array in order -/

/-- The order of an array: no element comes before an earlier one, or none behind an earlier one. -/
def InDirection (fCmpFunc : α → α → Bool) (bSmallToLarge : Bool) (t : List α) : Prop :=
  t.Pairwise fun a b => if bSmallToLarge then ¬ fCmpFunc b a else ¬ fCmpFunc a b

/-- How many elements the value belongs behind. -/
def rank (fCmpFunc : α → α → Bool) (t : List α) (value : α) (bSmallToLarge : Bool) : ℕ :=
  t.countP (goesAfter fCmpFunc value bSmallToLarge)

theorem rank_le_length (fCmpFunc : α → α → Bool) (t : List α) (value : α) (bSmallToLarge : Bool) :
    rank fCmpFunc t value bSmallToLarge ≤ t.length := List.countP_le_length

variable {fCmpFunc fEqual : α → α → Bool} {t : List α} {value a : α} {bSmallToLarge : Bool}
  {s : Interval} {i : ℕ}

theorem goesAfter_true : goesAfter fCmpFunc value true = fun a => fCmpFunc a value := by
  funext a
  simp [goesAfter]

theorem goesAfter_false : goesAfter fCmpFunc value false = fun a => !fCmpFunc a value := by
  funext a
  simp [goesAfter]

section

variable [IsStrictWeakOrder α fun a b => fCmpFunc a b = true]

/-- The elements that the value belongs behind are at the beginning. -/
theorem InDirection.initially (h : InDirection fCmpFunc bSmallToLarge t) (value : α) :
    Initially (goesAfter fCmpFunc value bSmallToLarge) t := by
  refine List.Pairwise.imp (fun {a b} hab hb => ?_) h
  cases bSmallToLarge with
  | true =>
    rw [goesAfter_true] at hb ⊢
    by_contra hav
    exact not_before_trans (r := fun a b => fCmpFunc a b = true) hab hav hb
  | false =>
    rw [goesAfter_false, Bool.not_eq_true'] at hb ⊢
    simp only [Bool.false_eq_true, if_false] at hab
    refine Bool.eq_false_iff.mpr ?_
    exact not_before_trans (r := fun a b => fCmpFunc a b = true) hab (Bool.eq_false_iff.mp hb)

/-- The value is put in its place. -/
theorem InDirection.insert (h : InDirection fCmpFunc bSmallToLarge t) (value : α) :
    InDirection fCmpFunc bSmallToLarge
      (t.insertIdx (rank fCmpFunc t value bSmallToLarge) value) := by
  refine (h.initially value).pairwise_insertIdx h (fun a _ ha => ?_) fun a _ ha => ?_
  · cases bSmallToLarge with
    | true =>
      rw [goesAfter_true] at ha
      exact fun hva => irrefl_of (fun a b => fCmpFunc a b = true) a
        (trans_of (fun a b => fCmpFunc a b = true) ha hva)
    | false => simpa [goesAfter_false] using ha
  · cases bSmallToLarge with
    | true => simpa [goesAfter_true] using ha
    | false =>
      rw [goesAfter_false, Bool.not_eq_true', Bool.not_eq_false] at ha
      exact fun hva => irrefl_of (fun a b => fCmpFunc a b = true) a
        (trans_of (fun a b => fCmpFunc a b = true) ha hva)

/-- The test answers for every position, by the number of elements that pass it. -/
theorem shouleInsertAfter_eq (h : InDirection fCmpFunc bSmallToLarge t) (value : α) (h₁ : 1 ≤ i)
    (h₂ : i ≤ t.length) :
    shouleInsertAfter fCmpFunc t value bSmallToLarge i =
      some (decide (i ≤ rank fCmpFunc t value bSmallToLarge)) := by
  obtain ⟨a, ha⟩ := at?_eq_some h₁ h₂
  have hiff := (h.initially value).iff_lt_countP (getElem?_of_at? ha).2
  rw [shouleInsertAfter, ha, Option.map_some]
  congr 1
  rw [Bool.eq_iff_iff, hiff, decide_eq_true_iff, rank]
  omega

/-! ## The position to insert at -/

/-- A bound of the loop is where it started, or the test has been made there. -/
structure Bracketed (n k : ℕ) (s : Interval) : Prop where
  pos : 1 ≤ s.nBegin
  le : s.nBegin ≤ s.nEnd
  inside : s.nEnd ≤ n
  left : s.nBegin = 1 ∨ s.nBegin ≤ k
  right : s.nEnd = n ∨ k < s.nEnd

theorem insertLoop_spec (h : InDirection fCmpFunc bSmallToLarge t) (value : α)
    (hs : Bracketed t.length (rank fCmpFunc t value bSmallToLarge) s) :
    ∃ s', insertLoop fCmpFunc t value bSmallToLarge s = some s' ∧ s'.nEnd ≤ s'.nBegin + 1 ∧
      Bracketed t.length (rank fCmpFunc t value bSmallToLarge) s' := by
  induction hn : s.nEnd - s.nBegin using Nat.strong_induction_on generalizing s with
  | _ n ih =>
    obtain ⟨hpos, hle, hinside, hleft, hright⟩ := hs
    have hmid := s.two_mul_nMid
    rw [insertLoop]
    split_ifs with hmore
    · rw [shouleInsertAfter_eq h value (by omega) (by omega)]
      by_cases hk : s.nMid ≤ rank fCmpFunc t value bSmallToLarge
      · rw [decide_eq_true hk]
        exact ih _ (by simp only [Interval.of]; omega)
          ⟨by simp only [Interval.of]; omega, by simp only [Interval.of]; omega, hinside, .inr hk,
            hright⟩ rfl
      · rw [decide_eq_false hk]
        exact ih _ (by simp only [Interval.of]; omega)
          ⟨hpos, by simp only [Interval.of]; omega, by simp only [Interval.of]; omega, hleft,
            .inr (not_le.mp hk)⟩ rfl
    · exact ⟨s, rfl, by omega, hpos, hle, hinside, hleft, hright⟩

/-- The two bounds decide. -/
theorem insertEnd_eq (h : InDirection fCmpFunc bSmallToLarge t) (value : α)
    (hs : Bracketed t.length (rank fCmpFunc t value bSmallToLarge) s)
    (hend : s.nEnd ≤ s.nBegin + 1) :
    insertEnd fCmpFunc t value bSmallToLarge s =
      some (rank fCmpFunc t value bSmallToLarge + 1) := by
  obtain ⟨hpos, hle, hinside, hleft, hright⟩ := hs
  have hall := rank_le_length fCmpFunc t value bSmallToLarge
  rw [insertEnd, shouleInsertAfter_eq h value hpos (by omega),
    shouleInsertAfter_eq h value (by omega) hinside]
  by_cases hbegin : s.nBegin ≤ rank fCmpFunc t value bSmallToLarge
  · rw [decide_eq_true hbegin]
    simp only [Option.map_some, decide_eq_true_eq]
    split_ifs with hk
    · have heq : s.nEnd = rank fCmpFunc t value bSmallToLarge := by omega
      rw [heq]
    · have heq : s.nEnd = rank fCmpFunc t value bSmallToLarge + 1 := by omega
      rw [heq]
  · rw [decide_eq_false hbegin]
    exact congrArg some (by omega)

end

/-- **`getInsertPos` keeps arrays sorted.** For every strict weak order, every array in ascending or
descending order and every value, `getInsertPos` comes to an end with a position from 1 to one
behind the last. The value inserted there leaves the array in order, and before it are the elements
strictly before the value, or the elements not strictly before it in a descending array. -/
theorem getInsertPos_spec (lt fCmpFunc : α → α → Bool)
    [IsStrictWeakOrder α fun a b => fCmpFunc a b = true] (t : List α) (value : α)
    (bSmallToLarge : Bool) (hsorted : InDirection fCmpFunc bSmallToLarge t) :
    ∃ p, getInsertPos lt (some t) (some value) bSmallToLarge (some fCmpFunc) = some (some p) ∧
      1 ≤ p ∧ p ≤ t.length + 1 ∧
      InDirection fCmpFunc bSmallToLarge (t.insertIdx (p - 1) value) ∧
      (bSmallToLarge = true → p = t.countP (fun a => fCmpFunc a value) + 1) ∧
      (bSmallToLarge = false → p = t.countP (fun a => !fCmpFunc a value) + 1) := by
  have hall := rank_le_length fCmpFunc t value bSmallToLarge
  refine ⟨rank fCmpFunc t value bSmallToLarge + 1, ?_, Nat.succ_pos _, by omega,
    hsorted.insert value, ?_, ?_⟩
  · rw [getInsertPos]
    split_ifs with hlen
    · rw [List.length_eq_zero_iff.mp hlen]
      rfl
    · have hstart : Bracketed t.length (rank fCmpFunc t value bSmallToLarge)
          (.of 1 t.length) :=
        ⟨Nat.le_refl 1, Nat.one_le_iff_ne_zero.mpr hlen, Nat.le_refl _, .inl rfl, .inl rfl⟩
      obtain ⟨s, hloop, hend, hs⟩ := insertLoop_spec hsorted value hstart
      simp [hloop, insertEnd_eq hsorted value hs hend]
  · rintro rfl
    rw [rank, goesAfter_true]
  · rintro rfl
    rw [rank, goesAfter_false]

/-- In a descending array with equal elements, the value goes behind all of them. -/
theorem getInsertPos_spec_descending :
    ∃ p, getInsertPos (fun _ _ : ℕ => false) (some [9, 5, 5, 2]) (some 5) false
        (some fun a b => decide (a < b)) = some (some p) ∧
      1 ≤ p ∧ p ≤ [9, 5, 5, 2].length + 1 ∧
      InDirection (fun a b => decide (a < b)) false ([9, 5, 5, 2].insertIdx (p - 1) 5) ∧
      (false = true → p = [9, 5, 5, 2].countP (fun a => decide (a < 5)) + 1) ∧
      (false = false → p = [9, 5, 5, 2].countP (fun a => !decide (a < 5)) + 1) :=
  getInsertPos_spec _ (fun a b : ℕ => decide (a < b)) _ 5 false (by simp [InDirection])

/-! ## The position of an equal element -/

section

variable [IsStrictWeakOrder α fun a b => fCmpFunc a b = true]

/-- Elements equal to the value are on the side of another element that the test says. -/
theorem InDirection.side (h : InDirection fCmpFunc bSmallToLarge t)
    (hequal : ∀ a ∈ t, fEqual a value ↔ ¬ fCmpFunc a value ∧ ¬ fCmpFunc value a) {j : ℕ} {b : α}
    (hb : at? t j = some b) (hne : ¬ fEqual b value) (ha : at? t i = some a)
    (heq : fEqual a value) :
    if goesAfter fCmpFunc value bSmallToLarge b then j < i else i < j := by
  obtain ⟨hi, ha⟩ := getElem?_of_at? ha
  obtain ⟨hj, hb⟩ := getElem?_of_at? hb
  have hpassa := (h.initially value).iff_lt_countP ha
  have hpassb := (h.initially value).iff_lt_countP hb
  have hequiv := (hequal a (List.mem_of_getElem? ha)).mp heq
  have hunequal := (hequal b (List.mem_of_getElem? hb)).not.mp hne
  -- what the value comes before is behind the elements equal to the value
  have hbefore : ¬ fCmpFunc b value → fCmpFunc a b := by
    intro hbv
    by_contra hab
    have hvb := not_before_trans (r := fun a b => fCmpFunc a b = true) hequiv.2 hab
    exact hunequal ⟨hbv, hvb⟩
  have hneq : i ≠ j := by
    rintro rfl
    rw [hb] at ha
    exact hunequal (Option.some.inj ha ▸ hequiv)
  have horder := List.pairwise_iff_getElem.mp h
  obtain ⟨hi', rfl⟩ := List.getElem?_eq_some_iff.mp ha
  obtain ⟨hj', rfl⟩ := List.getElem?_eq_some_iff.mp hb
  cases bSmallToLarge with
  | true =>
    simp only [goesAfter_true] at hpassa hpassb ⊢
    split_ifs with hbv
    · have := hpassb.mp hbv
      have := hpassa.not.mp hequiv.1
      omega
    · by_contra hji
      exact absurd (hbefore hbv) (horder (j - 1) (i - 1) hj' hi' (by omega))
  | false =>
    simp only [goesAfter_false, Bool.not_eq_true'] at hpassa hpassb ⊢
    split_ifs with hbv
    · by_contra hij
      have hab := hbefore (Bool.eq_false_iff.mp hbv)
      exact absurd hab (by simpa using horder (i - 1) (j - 1) hi' hj' (by omega))
    · have := hpassb.not.mp hbv
      have := hpassa.mp (Bool.eq_false_iff.mpr hequiv.1)
      omega

end

/-- The elements equal to the value are between the bounds. -/
structure Confined (fEqual : α → α → Bool) (t : List α) (value : α) (s : Interval) : Prop where
  pos : 1 ≤ s.nBegin
  inside : s.nEnd ≤ t.length
  within : ∀ i a, at? t i = some a → fEqual a value → s.nBegin ≤ i ∧ i ≤ s.nEnd

/-- What a search for an element equal to the value is to find: one of their positions, or that
there is none. -/
def Found (fEqual : α → α → Bool) (t : List α) (value : α) (r : ℤ) : Prop :=
  (∃ i : ℕ, r = i ∧ ∃ a, at? t i = some a ∧ fEqual a value) ∨
    r = -1 ∧ ∀ a ∈ t, ¬ fEqual a value

theorem mem_iff_at? : a ∈ t ↔ ∃ i, at? t i = some a := by
  rw [List.mem_iff_getElem?]
  constructor
  · rintro ⟨i, hi⟩
    exact ⟨i + 1, by rw [at?, if_neg (Nat.succ_ne_zero i), Nat.add_sub_cancel, hi]⟩
  · rintro ⟨i, hi⟩
    exact ⟨i - 1, (getElem?_of_at? hi).2⟩

section

variable [IsStrictWeakOrder α fun a b => fCmpFunc a b = true]

theorem searchLoop_spec (h : InDirection fCmpFunc bSmallToLarge t)
    (hequal : ∀ a ∈ t, fEqual a value ↔ ¬ fCmpFunc a value ∧ ¬ fCmpFunc value a)
    (hs : Confined fEqual t value s) :
    ∃ r, searchLoop fCmpFunc t value bSmallToLarge fEqual s = some r ∧
      Found fEqual t value r := by
  induction hn : s.nEnd + 1 - s.nBegin using Nat.strong_induction_on generalizing s with
  | _ n ih =>
    obtain ⟨hpos, hinside, hwithin⟩ := hs
    have hmid := s.two_mul_nMid
    rw [searchLoop]
    split_ifs with hmore
    · obtain ⟨b, hb⟩ := at?_eq_some (t := t) (i := s.nMid) (by omega) (by omega)
      have hfind : shouleFindAfter fCmpFunc t value bSmallToLarge s.nMid =
          some (goesAfter fCmpFunc value bSmallToLarge b) := by rw [shouleFindAfter, hb]; rfl
      split
      · next hnone => exact absurd (hb.symm.trans hnone) (by simp)
      · next b' hb' =>
        obtain rfl := Option.some.inj (hb.symm.trans hb')
        split_ifs with heq
        · exact ⟨s.nMid, rfl, .inl ⟨s.nMid, rfl, b, hb, heq⟩⟩
        · have hside := fun i a ha heq' => h.side hequal hb heq (i := i) (a := a) ha heq'
          rw [hfind]
          by_cases hafter : goesAfter fCmpFunc value bSmallToLarge b
          · rw [hafter]
            refine ih _ (by simp only [Interval.of]; omega)
              ⟨by simp only [Interval.of]; omega, hinside, fun i a ha heq' => ?_⟩ rfl
            have hlt := hside i a ha heq'
            rw [if_pos hafter] at hlt
            exact ⟨hlt, (hwithin i a ha heq').2⟩
          · rw [Bool.eq_false_iff.mpr hafter]
            refine ih _ (by simp only [Interval.of]; omega)
              ⟨hpos, by simp only [Interval.of]; omega, fun i a ha heq' => ?_⟩ rfl
            have hlt := hside i a ha heq'
            rw [if_neg hafter] at hlt
            exact ⟨(hwithin i a ha heq').1, Nat.le_sub_one_of_lt hlt⟩
    · refine ⟨-1, rfl, .inr ⟨rfl, fun a ha heq => ?_⟩⟩
      obtain ⟨i, hi⟩ := mem_iff_at?.mp ha
      have := hwithin i a hi heq
      omega

end

/-- **`binarySearch` is complete.** For every strict weak order, every array that is not empty, in
ascending or descending order, every value, and an `fEqual` that holds for the elements equivalent
to the value, `binarySearch` comes to an end without a look outside the array. What it returns is a
position of an element equal to the value if there is one, and -1 if there is none. -/
theorem binarySearch_spec (eq lt fCmpFunc fEqual : α → α → Bool)
    [IsStrictWeakOrder α fun a b => fCmpFunc a b = true] (t : List α) (hne : t ≠ []) (value : α)
    (bSmallToLarge : Bool) (hsorted : InDirection fCmpFunc bSmallToLarge t)
    (hequal : ∀ a ∈ t, fEqual a value ↔ ¬ fCmpFunc a value ∧ ¬ fCmpFunc value a) :
    ∃ r, binarySearch eq lt (some t) (some value) bSmallToLarge (some fEqual) (some fCmpFunc) =
        some (some r) ∧ Found fEqual t value r := by
  have hstart : Confined fEqual t value (.of 1 t.length) := by
    refine ⟨Nat.le_refl 1, Nat.le_refl _, fun i a ha _ => ?_⟩
    obtain ⟨hi, ha⟩ := getElem?_of_at? ha
    have := (List.getElem?_eq_some_iff.mp ha).1
    exact ⟨hi, by simp only [Interval.of]; omega⟩
  obtain ⟨r, hloop, hfound⟩ := searchLoop_spec hsorted hequal hstart
  have hlen : ¬ t.length ≤ 0 := by
    rw [Nat.le_zero, List.length_eq_zero_iff]
    exact hne
  exact ⟨r, by simp [binarySearch, hlen, hloop], hfound⟩

/-- In a descending array, where 4 is not there. -/
theorem binarySearch_spec_descending :
    ∃ r, binarySearch (fun _ _ => false) (fun _ _ : ℕ => false) (some [9, 5, 5, 2]) (some 4) false
        (some fun a b => a == b) (some fun a b => decide (a < b)) = some (some r) ∧
      Found (fun a b => a == b) [9, 5, 5, 2] 4 r :=
  binarySearch_spec _ _ (fun a b : ℕ => decide (a < b)) (fun a b => a == b) _ (by decide) 4 false
    (by simp [InDirection]) (by decide)

end CodeTest.Bisection
