import Mathlib.Logic.Equiv.Basic
import Mathlib.Order.Basic
import Mathlib.Tactic

/-!
# Binary heaps

A binary tree laid out by levels: the parent of the position `i` is `(i - 1) / 2`. The keys are a
function of the position, of which the first `n` matter, and to sift is to swap keys. What a sift
needs of the order is said by three conditions, all with the exception of one position `p`: `Loose`
exempts all edges at `p`, `UpFrom` only the edge to the parent of `p`, `DownFrom` only the edges to
its children. Each has a lemma for a swap and one for the end of the sift.
-/

namespace CodeTest.BinaryHeap

variable {K : Type*} [Preorder K] {k : ℕ → K} {n p c : ℕ}

def parent (i : ℕ) : ℕ := (i - 1) / 2

theorem parent_lt {i : ℕ} (h : 0 < i) : parent i < i := by
  unfold parent
  omega

/-- `i` is one of the first `n` positions and a child of `p`. -/
def IsChild (n p i : ℕ) : Prop := 0 < i ∧ i < n ∧ parent i = p

/-- No key is smaller than the one above it. -/
def Ordered (k : ℕ → K) (n : ℕ) : Prop := ∀ i, 0 < i → i < n → k (parent i) ≤ k i

/-- The keys below `p` are not smaller than the one above `p`. -/
def Bridged (k : ℕ → K) (n p : ℕ) : Prop := 0 < p → ∀ i, IsChild n p i → k (parent p) ≤ k i

/-- The keys are in order except at the edges of `p`. -/
structure Loose (k : ℕ → K) (n p : ℕ) : Prop where
  off : ∀ i, 0 < i → i < n → i ≠ p → parent i ≠ p → k (parent i) ≤ k i
  bridged : Bridged k n p

/-- The keys are in order except that the key at `p` may be smaller than the one above it. -/
structure UpFrom (k : ℕ → K) (n p : ℕ) : Prop where
  off : ∀ i, 0 < i → i < n → i ≠ p → k (parent i) ≤ k i
  bridged : Bridged k n p

/-- The keys are in order except that the key at `p` may be larger than those below it. -/
structure DownFrom (k : ℕ → K) (n p : ℕ) : Prop where
  off : ∀ i, 0 < i → i < n → parent i ≠ p → k (parent i) ≤ k i
  bridged : Bridged k n p

theorem DownFrom.loose (h : DownFrom k n p) : Loose k n p :=
  ⟨fun i h₀ hn _ hp => h.off i h₀ hn hp, h.bridged⟩

theorem Ordered.upFrom (h : Ordered k n) (p : ℕ) : UpFrom k n p := by
  refine ⟨fun i h₀ hn _ => h i h₀ hn, fun hp i hi => ?_⟩
  obtain ⟨h₀, hn, rfl⟩ := hi
  have hlt := parent_lt h₀
  exact (h (parent i) hp (by omega)).trans (h i h₀ hn)

/-! ## Sifting up -/

/-- A sift up goes on: the key at `c` is swapped with the one above it. -/
theorem UpFrom.swap (h : UpFrom k n c) (hc : 0 < c) (hcn : c < n) (hle : k c ≤ k (parent c)) :
    UpFrom (k ∘ Equiv.swap (parent c) c) n (parent c) := by
  have hlt := parent_lt hc
  constructor
  · intro i h₀ hn hip
    simp only [Function.comp_apply, Equiv.swap_apply_def]
    have hi := parent_lt h₀
    by_cases hic : i = c
    · subst hic
      simpa [hlt.ne, hlt.ne'] using hle
    · have hstep := h.off i h₀ hn hic
      by_cases hpi : parent i = parent c
      · simpa [hpi, hip, hic] using hle.trans (hpi ▸ hstep)
      · by_cases hpc : parent i = c
        · simpa [hip, hic, hpc, hlt.ne'] using h.bridged hc i ⟨h₀, hn, hpc⟩
        · simpa [hip, hic, hpc, hpi] using hstep
  · rintro hp i ⟨h₀, hn, hpi⟩
    simp only [Function.comp_apply, Equiv.swap_apply_def]
    have hpp := parent_lt hp
    have habove := h.off (parent c) hp (by omega) (by omega)
    by_cases hic : i = c
    · subst hic
      simpa [hpp.ne, (hpp.trans hlt).ne, hlt.ne'] using habove
    · have hi := parent_lt h₀
      have hstep := h.off i h₀ hn hic
      have hip : i ≠ parent c := by omega
      simpa [hpp.ne, (hpp.trans hlt).ne, hic, hip] using habove.trans (hpi ▸ hstep)

/-- A sift up ends. -/
theorem UpFrom.ordered (h : UpFrom k n c) (hstop : 0 < c → k (parent c) ≤ k c) : Ordered k n := by
  intro i h₀ hn
  by_cases hic : i = c
  · subst hic
    exact hstop h₀
  · exact h.off i h₀ hn hic

/-! ## Sifting down -/

/-- A sift down goes on: the key at `p` is swapped with the smallest key below it. -/
theorem Loose.swap (h : Loose k n p) (hc : IsChild n p c) (hle : k c ≤ k p)
    (hmin : ∀ i, IsChild n p i → k c ≤ k i) : DownFrom (k ∘ Equiv.swap p c) n c := by
  obtain ⟨hc₀, hcn, hpc⟩ := hc
  have hlt := parent_lt hc₀
  rw [hpc] at hlt
  constructor
  · intro i h₀ hn hic
    simp only [Function.comp_apply, Equiv.swap_apply_def]
    have hi := parent_lt h₀
    by_cases hip : i = p
    · subst hip
      have : parent i ≠ i := by omega
      simpa [this, hic] using h.bridged h₀ c ⟨hc₀, hcn, hpc⟩
    · by_cases hpi : parent i = p
      · by_cases hii : i = c
        · subst hii
          simpa [hpi, hip] using hle
        · simpa [hpi, hip, hii] using hmin i ⟨h₀, hn, hpi⟩
      · have hii : i ≠ c := fun hii => hpi (hii ▸ hpc)
        simpa [hpi, hip, hii, hic] using h.off i h₀ hn hip hpi
  · rintro - i ⟨h₀, hn, hpi⟩
    simp only [Function.comp_apply, Equiv.swap_apply_def]
    have hi := parent_lt h₀
    have hip : i ≠ p := by omega
    have hii : i ≠ c := by omega
    have hstep := h.off i h₀ hn hip (by omega)
    rw [hpi] at hstep
    simpa [hpc, hip, hii] using hstep

/-- A sift down ends. -/
theorem DownFrom.ordered (h : DownFrom k n p) (hstop : ∀ i, IsChild n p i → k p ≤ k i) :
    Ordered k n := by
  intro i h₀ hn
  by_cases hpi : parent i = p
  · rw [hpi]
    exact hstop i ⟨h₀, hn, hpi⟩
  · exact h.off i h₀ hn hpi

/-- At the top nothing is above. -/
theorem Loose.downFrom (h : Loose k n 0) : DownFrom k n 0 :=
  ⟨fun i h₀ hn hp => h.off i h₀ hn (by omega) hp, h.bridged⟩

/-- No key is smaller than the one at the top. -/
theorem Ordered.top_le (h : Ordered k n) {i : ℕ} (hi : i < n) : k 0 ≤ k i := by
  induction i using Nat.strong_induction_on with
  | _ i ih =>
    rcases Nat.eq_zero_or_pos i with rfl | h₀
    · exact le_rfl
    · have hlt := parent_lt h₀
      exact (ih (parent i) hlt (by omega)).trans (h i h₀ hi)

/-- A sift down that ends at once leaves a sift up to do. -/
theorem Loose.upFrom (h : Loose k n p) (hstop : ∀ i, IsChild n p i → k p ≤ k i) :
    UpFrom k n p := by
  refine ⟨fun i h₀ hn hip => ?_, h.bridged⟩
  by_cases hpi : parent i = p
  · rw [hpi]
    exact hstop i ⟨h₀, hn, hpi⟩
  · exact h.off i h₀ hn hip hpi

/-- A loose key that is smaller than the one above it is to be sifted up. -/
theorem Loose.upFrom_of_le (h : Loose k n p) (hp : 0 < p) (hle : k p ≤ k (parent p)) :
    UpFrom k n p :=
  h.upFrom fun i hi => hle.trans (h.bridged hp i hi)

/-- A loose key that is not smaller than the one above it is to be sifted down. -/
theorem Loose.downFrom_of_le (h : Loose k n p) (hle : 0 < p → k (parent p) ≤ k p) :
    DownFrom k n p := by
  refine ⟨fun i h₀ hn hpi => ?_, h.bridged⟩
  by_cases hip : i = p
  · subst hip
    exact hle h₀
  · exact h.off i h₀ hn hip hpi

/-- The children of `p`. -/
theorem isChild_iff {i : ℕ} : IsChild n p i ↔ i < n ∧ (i = p * 2 + 1 ∨ i = p * 2 + 2) := by
  unfold IsChild parent
  omega

/-- A key put in the place of a key of an ordered heap is loose there. -/
theorem Ordered.loose (h : Ordered k n) {k' : ℕ → K} (hk : ∀ i, i < n → i ≠ p → k' i = k i) :
    Loose k' n p := by
  constructor
  · intro i h₀ hn hip hpi
    have hi := parent_lt h₀
    rw [hk i hn hip, hk (parent i) (by omega) hpi]
    exact h i h₀ hn
  · rintro hp i ⟨h₀, hn, hpi⟩
    have hi := parent_lt h₀
    have hpp := parent_lt hp
    have hbridge := (h.upFrom p).bridged hp i ⟨h₀, hn, hpi⟩
    rwa [hk i hn (by omega), hk (parent p) (by omega) (by omega)]

/-! ## Swapping in a list -/

section Exchange

variable {α : Type*} {l : List α} {i j : ℕ}

/-- The list with the elements at `i` and `j` swapped. -/
def exchange (l : List α) (i j : ℕ) : List α :=
  match l[i]?, l[j]? with
  | some a, some b => (l.set i b).set j a
  | _, _ => l

theorem exchange_eq (hi : i < l.length) (hj : j < l.length) :
    exchange l i j = (l.set i l[j]).set j l[i] := by
  simp [exchange, hi, hj]

@[simp] theorem length_exchange (l : List α) (i j : ℕ) : (exchange l i j).length = l.length := by
  unfold exchange
  split <;> simp

theorem getElem?_exchange (hi : i < l.length) (hj : j < l.length) (m : ℕ) :
    (exchange l i j)[m]? = l[Equiv.swap i j m]? := by
  rw [exchange_eq hi hj, Equiv.swap_apply_def, List.getElem?_set, List.getElem?_set]
  by_cases hmj : j = m
  · subst hmj
    by_cases hij : i = j
    · subst hij
      simp [hi]
    · simp [hi, hj, Ne.symm hij]
  · by_cases hmi : i = m
    · subst hmi
      simp [hi, hj, hmj]
    · simp [hmj, hmi, Ne.symm hmj, Ne.symm hmi]

theorem exchange_perm (hi : i < l.length) (hj : j < l.length) : (exchange l i j).Perm l := by
  rw [exchange_eq hi hj]
  exact List.set_set_perm hi hj

/-- The list `l'` is `l` with its first `n` elements in some other order. -/
structure Shuffled (n : ℕ) (l l' : List α) : Prop where
  perm : (l'.take n).Perm (l.take n)
  rest : l'.drop n = l.drop n

namespace Shuffled

variable {n m : ℕ} {l' l'' : List α}

@[refl] theorem refl (n : ℕ) (l : List α) : Shuffled n l l := ⟨.refl _, rfl⟩

theorem trans (h : Shuffled n l l') (h' : Shuffled n l' l'') : Shuffled n l l'' :=
  ⟨h'.perm.trans h.perm, h'.rest.trans h.rest⟩

theorem perm_all (h : Shuffled n l l') : l'.Perm l := by
  rw [← List.take_append_drop n l, ← List.take_append_drop n l', h.rest]
  exact h.perm.append_right _

theorem length_eq (h : Shuffled n l l') : l'.length = l.length := h.perm_all.length_eq

theorem mono (h : Shuffled n l l') (hnm : n ≤ m) : Shuffled m l l' := by
  obtain ⟨k, rfl⟩ := Nat.exists_eq_add_of_le hnm
  constructor
  · rw [List.take_add, List.take_add, h.rest]
    exact h.perm.append_right _
  · rw [← List.drop_drop, ← List.drop_drop, h.rest]

/-- A position from `n` on keeps its element. -/
theorem getElem?_eq (h : Shuffled n l l') (hm : n ≤ m) : l'[m]? = l[m]? := by
  obtain ⟨k, rfl⟩ := Nat.exists_eq_add_of_le hm
  rw [← List.getElem?_drop, ← List.getElem?_drop, h.rest]

end Shuffled

theorem shuffled_exchange {n : ℕ} (hn : n ≤ l.length) (hi : i < n) (hj : j < n) :
    Shuffled n l (exchange l i j) := by
  have hil : i < (l.take n).length := by rw [List.length_take]; omega
  have hjl : j < (l.take n).length := by rw [List.length_take]; omega
  rw [exchange_eq (by omega) (by omega)]
  constructor
  · have htake : ((l.set i l[j]).set j l[i]).take n = exchange (l.take n) i j := by
      rw [exchange_eq hil hjl, List.take_set, List.take_set, List.getElem_take, List.getElem_take]
    rw [htake]
    exact exchange_perm hil hjl
  · rw [List.drop_set_of_lt hj, List.drop_set_of_lt hi]

end Exchange

end CodeTest.BinaryHeap
