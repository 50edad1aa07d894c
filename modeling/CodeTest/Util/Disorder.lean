import CodeTest.Foundations.Shuffle
import CodeTest.Util.GetTop

/-!
# Shuffling an array

`disorder` and `disorder2` of `util.lua`, which exchange every element of an array, from the last
one down, with one drawn from those up to it. The draws are what `Random.randomI` returns: one call
is made for every position, so the results are given by position. On an array without repeated
elements every arrangement comes from exactly one sequence of draws (`disorder_spec`).

An exchange that reads a position outside the array has no result: the array would get a hole.
-/

namespace CodeTest.Disorder

open BinaryHeap GetTop

variable {α : Type}

/-- The body of the loop: the elements at `i` and `j` change places. -/
def exchangeAt (t : List α) (i j : ℕ) : Option (List α) :=
  match at? t j, at? t i with
  | some tmp, some v => some ((t.set (j - 1) v).set (i - 1) tmp)
  | _, _ => none

/-- The loop over the positions from `i` down to 1, where `randomI i` is the result of the call of
`Random.randomI` for the range from 1 to `i`. -/
def disorderLoop (randomI : ℕ → ℕ) : ℕ → List α → Option (List α)
  | 0, t => some t
  | i + 1, t => (exchangeAt t (i + 1) (randomI (i + 1))).bind (disorderLoop randomI i)

def disorder (randomI : ℕ → ℕ) (t : List α) : Option (List α) := disorderLoop randomI t.length t

def disorder2 (randomI : ℕ → ℕ) (t : List α) (cnt : ℕ) : Option (List α) :=
  disorderLoop randomI cnt t

/-- The results of the calls for a sequence of draws: one from 1 to `i` for every `i`. -/
def randomI {n : ℕ} (d : Draws n) (i : ℕ) : ℕ := d.at (i - 1) + 1

theorem randomI_mem {n i : ℕ} (d : Draws n) (hi : 1 ≤ i) : 1 ≤ randomI d i ∧ randomI d i ≤ i := by
  have := d.at_le (i - 1)
  rw [randomI]
  omega

/-- Within the array the body of the loop is an exchange. -/
theorem exchangeAt_eq {t : List α} {i j : ℕ} (hi : i < t.length) (hj : j < t.length) :
    exchangeAt t (i + 1) (j + 1) = some (exchange t j i) := by
  rw [exchange_eq hj hi]
  simp [exchangeAt, at?, hi, hj]

theorem disorderLoop_eq {n i : ℕ} (d : Draws n) {t : List α} (hi : i ≤ t.length) :
    disorderLoop (randomI d) i t = some (exchanges d.at i t) := by
  induction i generalizing t with
  | zero => rfl
  | succ i ih =>
    have hle := d.at_le i
    rw [disorderLoop, exchanges, randomI, Nat.add_sub_cancel,
      exchangeAt_eq hi (Nat.lt_of_le_of_lt hle hi), Option.bind_some]
    exact ih (by rw [length_exchange]; omega)

open scoped Nat in
/-- **`disorder` is an unbiased shuffle.** For every list without repeated elements, the list left
by `disorder` is a one-to-one correspondence between the sequences of draws, one from 1 to `i` for
every `i` up to the length `n`, and the arrangements of the list. There are `n!` of each, and
uniform and independent draws give every arrangement with the same probability. The same holds for
`disorder2`, given the length. -/
theorem disorder_spec [DecidableEq α] (l : List α) (hl : l.Nodup) :
    (∃ left : Draws l.length ≃ {l' : List α // l'.Perm l},
      ∀ d, disorder (randomI d) l = some (left d : List α) ∧
        disorder2 (randomI d) l l.length = some (left d : List α)) ∧
      Fintype.card (Draws l.length) = l.length ! ∧
      ∀ l', l'.Perm l →
        ∑ d : Draws l.length with disorder (randomI d) l = some l', d.probability =
            1 / l.length ! ∧
          ∑ d : Draws l.length with disorder2 (randomI d) l l.length = some l', d.probability =
            1 / l.length ! := by
  have heq : ∀ d : Draws l.length, disorder (randomI d) l = some (exchanges d.at l.length l) :=
    fun d => disorderLoop_eq d (Nat.le_refl _)
  refine ⟨⟨shuffleEquiv hl, fun d => ⟨heq d, heq d⟩⟩, card_draws _, fun l' hperm => ?_⟩
  have hsum : ∑ d : Draws l.length with disorder (randomI d) l = some l', d.probability =
      1 / l.length ! := by
    simp only [heq, Option.some.injEq]
    exact sum_probability hl hperm
  exact ⟨hsum, hsum⟩

open scoped Nat in
/-- Three elements. -/
theorem disorder_spec_three :
    (∃ left : Draws [4, 7, 1].length ≃ {l' : List ℕ // l'.Perm [4, 7, 1]},
      ∀ d, disorder (randomI d) [4, 7, 1] = some (left d : List ℕ) ∧
        disorder2 (randomI d) [4, 7, 1] [4, 7, 1].length = some (left d : List ℕ)) ∧
      Fintype.card (Draws [4, 7, 1].length) = [4, 7, 1].length ! ∧
      ∀ l', l'.Perm [4, 7, 1] →
        ∑ d : Draws [4, 7, 1].length with disorder (randomI d) [4, 7, 1] = some l',
            d.probability = 1 / [4, 7, 1].length ! ∧
          ∑ d : Draws [4, 7, 1].length with
            disorder2 (randomI d) [4, 7, 1] [4, 7, 1].length = some l', d.probability =
            1 / [4, 7, 1].length ! :=
  disorder_spec [4, 7, 1] (by decide)

end CodeTest.Disorder
