import Mathlib.Data.List.Perm.Basic
import Mathlib.Tactic

/-!
# Regions of memory

A region is a start and a number of bytes. In a list of regions that is `Apart` any two have no
byte in common. Such a list stays so when it is rearranged, when regions are left out, when a region
gives way to one within it (`Apart.replace`), and when pieces are cut off a region (`Apart.carve`).
A `FreeChain` is a list of blocks each of which holds the pointer to the next, and the last one
null.
-/

namespace CodeTest

@[ext]
structure Region where
  start : ℕ
  length : ℕ
deriving DecidableEq

namespace Region

variable {r r' x : Region} {l : List Region}

/-- The address `w` is in the region. -/
def Covers (r : Region) (w : ℕ) : Prop := r.start ≤ w ∧ w < r.start + r.length

instance (r : Region) (w : ℕ) : Decidable (r.Covers w) :=
  inferInstanceAs (Decidable (r.start ≤ w ∧ w < r.start + r.length))

/-- One of the regions ends before the other starts. -/
def Disjoint (r r' : Region) : Prop :=
  r.start + r.length ≤ r'.start ∨ r'.start + r'.length ≤ r.start

instance (r r' : Region) : Decidable (r.Disjoint r') :=
  inferInstanceAs
    (Decidable (r.start + r.length ≤ r'.start ∨ r'.start + r'.length ≤ r.start))

def Within (r r' : Region) : Prop :=
  r'.start ≤ r.start ∧ r.start + r.length ≤ r'.start + r'.length

theorem Disjoint.symm (h : r.Disjoint r') : r'.Disjoint r := Or.symm h

theorem Disjoint.not_covers (h : r.Disjoint r') {w : ℕ} (hw : r.Covers w) : ¬ r'.Covers w := by
  intro hw'
  unfold Disjoint at h
  unfold Covers at hw hw'
  omega

theorem Within.trans {r'' : Region} (h : r.Within r') (h' : r'.Within r'') : r.Within r'' :=
  ⟨h'.1.trans h.1, h.2.trans h'.2⟩

theorem Disjoint.of_within (h : r'.Disjoint x) (hr : r.Within r') : r.Disjoint x := by
  unfold Disjoint at h ⊢
  unfold Within at hr
  omega

/-- Any two of the regions have no byte in common. -/
def Apart (l : List Region) : Prop := l.Pairwise Disjoint

namespace Apart

theorem perm {l' : List Region} (h : Apart l) (hperm : l.Perm l') : Apart l' :=
  (hperm.pairwise_iff fun hd => hd.symm).mp h

/-- A region gives way to one within it. -/
theorem replace (h : Apart (r' :: l)) (hr : r.Within r') : Apart (r :: l) := by
  obtain ⟨hhead, htail⟩ := List.pairwise_cons.mp h
  exact List.pairwise_cons.mpr ⟨fun x hx => (hhead x hx).of_within hr, htail⟩

/-- A region is cut in two. -/
theorem split {a m n : ℕ} (h : Apart (⟨a, m + n⟩ :: l)) : Apart (⟨a, m⟩ :: ⟨a + m, n⟩ :: l) := by
  refine List.pairwise_cons.mpr ⟨?_, h.replace ⟨Nat.le_add_right a m, (Nat.add_assoc a m n).le⟩⟩
  obtain ⟨hhead, -⟩ := List.pairwise_cons.mp h
  intro x hx
  rcases List.mem_cons.mp hx with rfl | hx
  · exact Or.inl le_rfl
  · refine (hhead x hx).of_within ⟨le_rfl, ?_⟩
    show a + m ≤ a + (m + n)
    omega

end Apart

/-- The starts of `n` pieces of `size` bytes each, one behind the other, from `a` on. -/
def pieces (size : ℕ) : ℕ → ℕ → List ℕ
  | _, 0 => []
  | a, n + 1 => a :: pieces size (a + size) n

theorem mem_pieces {size a n p : ℕ} (hp : p ∈ pieces size a n) :
    ∃ i < n, p = a + i * size := by
  induction n generalizing a with
  | zero => exact absurd hp List.not_mem_nil
  | succ n ih =>
    rcases List.mem_cons.mp hp with rfl | hp
    · exact ⟨0, Nat.succ_pos n, by rw [Nat.zero_mul, Nat.add_zero]⟩
    · obtain ⟨i, hi, rfl⟩ := ih hp
      exact ⟨i + 1, Nat.succ_lt_succ hi, by rw [Nat.succ_mul]; omega⟩

/-- A piece is within the region that the pieces are cut off. -/
theorem piece_within {size a n p m : ℕ} (hp : p ∈ pieces size a n) :
    Within ⟨p, size⟩ ⟨a, n * size + m⟩ := by
  obtain ⟨i, hi, rfl⟩ := mem_pieces hp
  have hle : (i + 1) * size ≤ n * size := Nat.mul_le_mul_right size hi
  rw [Nat.succ_mul] at hle
  refine ⟨Nat.le_add_right a _, ?_⟩
  show a + i * size + size ≤ a + (n * size + m)
  omega

/-- Pieces are cut off the front of a region. -/
theorem Apart.carve {size a n m : ℕ} (h : Apart (⟨a, n * size + m⟩ :: l)) :
    Apart ((pieces size a n).map (fun p => ⟨p, size⟩) ++ ⟨a + n * size, m⟩ :: l) := by
  induction n generalizing a l with
  | zero =>
    rw [Nat.zero_mul, Nat.zero_add] at h
    rw [Nat.zero_mul, Nat.add_zero]
    exact h
  | succ n ih =>
    rw [Nat.succ_mul, Nat.add_comm (n * size), Nat.add_assoc] at h
    have hrest := ih (h.split.perm (List.Perm.swap _ _ _))
    rw [Nat.add_assoc, Nat.add_comm size, ← Nat.succ_mul] at hrest
    refine hrest.perm ?_
    -- the first piece comes to the front
    exact ((List.Perm.swap _ _ l).append_left _).trans List.perm_middle

end Region

/-- From the pointer `p` on, the blocks `l` each hold the pointer to the next, and the last one
null. -/
def FreeChain (memory : ℕ → ℕ) : ℕ → List ℕ → Prop
  | p, [] => p = 0
  | p, x :: l => p = x ∧ x ≠ 0 ∧ FreeChain memory (memory x) l

namespace FreeChain

variable {memory memory' : ℕ → ℕ} {p : ℕ} {l : List ℕ}

theorem congr (h : FreeChain memory p l) (heq : ∀ x ∈ l, memory' x = memory x) :
    FreeChain memory' p l := by
  induction l generalizing p with
  | nil => exact h
  | cons x l ih =>
    obtain ⟨hp, hx, h⟩ := h
    refine ⟨hp, hx, ?_⟩
    rw [heq x List.mem_cons_self]
    exact ih h fun y hy => heq y (List.mem_cons_of_mem x hy)

theorem eq_nil_iff (h : FreeChain memory p l) : l = [] ↔ p = 0 := by
  cases l with
  | nil => exact iff_of_true rfl h
  | cons x l =>
    obtain ⟨rfl, hx, -⟩ := h
    exact iff_of_false (List.cons_ne_nil _ _) hx

end FreeChain

end CodeTest
