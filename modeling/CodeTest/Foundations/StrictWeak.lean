import Mathlib.Data.List.Forall2
import Mathlib.Data.List.Sort
import Mathlib.Order.Antisymmetrization
import Mathlib.Order.Defs.Unbundled
import Mathlib.Order.RelClasses

/-!
# Strict weak orders

What sorting and selecting rest on: a relation "comes before" that may leave elements unordered, as
long as to be unordered is an equivalence. The elements with `a ≤ b` when `a` does not come before
`b` are then a preorder, in which the last elements are the least (`Descending`).

Sorting has one result up to unordered elements (`forall₂_of_sorted_perm`). A comparison function is
asked for its laws on the elements of a list only (`StrictWeakOn`). A function that sorts a list may
be given one that does not keep the laws, or has no result for some elements; `SortFunction` says
what may be expected of it then.
-/

namespace CodeTest

variable {α : Type*} {r : α → α → Prop} [IsStrictWeakOrder α r] {a b c : α}

/-- Whoever is not before `b` is not before an element that `b` is not before. -/
theorem not_before_trans (hab : ¬ r a b) (hbc : ¬ r b c) : ¬ r a c := by
  intro hac
  have hba : ¬ r b a := fun h => hbc (trans_of r h hac)
  have hcb : ¬ r c b := fun h => hab (trans_of r hac h)
  exact (IsStrictWeakOrder.incomp_trans a b c ⟨hab, hba⟩ ⟨hbc, hcb⟩).1 hac

/-- The elements in the order of a heap with the last one on top. -/
def Descending (_ : α → α → Prop) : Type _ := α

/-- An element in that order. -/
def Descending.of (r : α → α → Prop) (a : α) : Descending r := a

instance : Preorder (Descending r) where
  le a b := ¬ r a b
  le_refl := fun a : α => irrefl_of r a
  le_trans := fun a b c : α => not_before_trans (r := r) (a := a) (b := b) (c := c)

theorem Descending.of_le_of : of r a ≤ of r b ↔ ¬ r a b := Iff.rfl

/-- Two sorted lists of the same elements have unordered elements at the same positions. -/
theorem forall₂_of_sorted_perm {l₁ l₂ : List α} (hperm : l₁.Perm l₂)
    (h₁ : l₁.Pairwise fun a b => ¬ r b a) (h₂ : l₂.Pairwise fun a b => ¬ r b a) :
    List.Forall₂ (fun a b => ¬ r a b ∧ ¬ r b a) l₁ l₂ := by
  let q : α → Antisymmetrization (Descending r) (· ≤ ·) := fun a =>
    toAntisymmetrization (· ≤ ·) (Descending.of r a)
  have hsorted : ∀ {l : List α}, (l.Pairwise fun a b => ¬ r b a) →
      (l.map q).Pairwise (· ≥ ·) := fun h =>
    List.pairwise_map.mpr (h.imp fun h => h)
  have heq : l₁.map q = l₂.map q :=
    List.Perm.eq_of_pairwise (fun a b _ _ hab hba => le_antisymm hba hab) (hsorted h₁)
      (hsorted h₂) (hperm.map q)
  have hforall : List.Forall₂ (· = ·) (l₁.map q) (l₂.map q) := List.forall₂_eq_eq_eq ▸ heq
  rw [List.forall₂_map_left_iff, List.forall₂_map_right_iff] at hforall
  exact hforall.imp fun a b h => Quotient.exact h

/-- The laws of a strict weak order on the elements of a list. -/
structure StrictWeakOn (r : α → α → Prop) (l : List α) : Prop where
  irrefl : ∀ a ∈ l, ¬ r a a
  asymm : ∀ a ∈ l, ∀ b ∈ l, r a b → ¬ r b a
  trans : ∀ a ∈ l, ∀ b ∈ l, ∀ c ∈ l, r a b → r b c → r a c
  incomp_trans : ∀ a ∈ l, ∀ b ∈ l, ∀ c ∈ l,
    ¬ r a b ∧ ¬ r b a → ¬ r b c ∧ ¬ r c b → ¬ r a c ∧ ¬ r c a

section

omit [IsStrictWeakOrder α r]

variable {l : List α}

/-- An element is behind the first or before the second of two that are ordered. -/
theorem StrictWeakOn.before_or (h : StrictWeakOn r l) (ha : a ∈ l) (hb : b ∈ l) (hc : c ∈ l)
    (hac : r a c) : r a b ∨ r b c := by
  by_contra hnot
  rw [not_or] at hnot
  have hba : ¬ r b a := fun hba => hnot.2 (h.trans b hb a ha c hc hba hac)
  have hcb : ¬ r c b := fun hcb => hnot.1 (h.trans a ha c hc b hb hac hcb)
  exact (h.incomp_trans a ha b hb c hc ⟨hnot.1, hba⟩ ⟨hnot.2, hcb⟩).1 hac

/-- That is all there is to the laws, besides asymmetry. -/
theorem strictWeakOn_of_before_or (hasymm : ∀ a ∈ l, ∀ b ∈ l, r a b → ¬ r b a)
    (hor : ∀ a ∈ l, ∀ b ∈ l, ∀ c ∈ l, r a c → r a b ∨ r b c) : StrictWeakOn r l where
  irrefl a ha haa := hasymm a ha a ha haa haa
  asymm := hasymm
  trans a ha b hb c hc hab hbc := (hor a ha c hc b hb hab).resolve_right (hasymm b hb c hc hbc)
  incomp_trans a ha b hb c hc hab hbc :=
    ⟨fun hac => (hor a ha b hb c hc hac).elim hab.1 hbc.1,
      fun hca => (hor c hc b hb a ha hca).elim hbc.2 hab.2⟩

/-- Sorting by a comparison with these laws has one result up to unordered elements. -/
theorem StrictWeakOn.forall₂_of_sorted {l₁ l₂ : List α} (h : StrictWeakOn r l)
    (hl₁ : l₁.Perm l) (hl₂ : l₂.Perm l) (h₁ : l₁.Pairwise fun a b => ¬ r b a)
    (h₂ : l₂.Pairwise fun a b => ¬ r b a) :
    List.Forall₂ (fun a b => ¬ r a b ∧ ¬ r b a) l₁ l₂ := by
  let r' : {a // a ∈ l} → {a // a ∈ l} → Prop := fun a b => r a b
  have hweak : IsStrictWeakOrder {a // a ∈ l} r' :=
    { irrefl := fun a => h.irrefl a a.2
      trans := fun a b c => h.trans a a.2 b b.2 c c.2
      incomp_trans := fun a b c => h.incomp_trans a a.2 b b.2 c c.2 }
  have hmem₁ : ∀ a ∈ l₁, a ∈ l := fun a ha => hl₁.mem_iff.mp ha
  have hmem₂ : ∀ a ∈ l₂, a ∈ l := fun a ha => hl₂.mem_iff.mp ha
  have hperm : (l₁.pmap Subtype.mk hmem₁).Perm (l₂.pmap Subtype.mk hmem₂) :=
    (hl₁.trans hl₂.symm).pmap Subtype.mk
  have hforall := forall₂_of_sorted_perm (r := r') hperm
    (h₁.pmap hmem₁ fun _ _ _ _ hab => hab) (h₂.pmap hmem₂ fun _ _ _ _ hab => hab)
  have hval : ∀ {l' : List α} (hl' : ∀ a ∈ l', a ∈ l),
      (l'.pmap (Subtype.mk (p := fun a => a ∈ l)) hl').map Subtype.val = l' := fun hl' => by
    simp [List.map_pmap]
  rw [← hval hmem₁, ← hval hmem₂, List.forall₂_map_left_iff, List.forall₂_map_right_iff]
  exact hforall

end

/-! ## Functions that sort -/

/-- A function that sorts a list by a comparison. It may have no result, but not when the comparison
has one for all elements and keeps the laws. -/
structure SortFunction (α : Type*) where
  sort : (α → α → Option Bool) → List α → Option (List α)
  perm : ∀ {less : α → α → Option Bool} {l l' : List α}, sort less l = some l' → l'.Perm l
  returns : ∀ {less : α → α → Option Bool} {l : List α}, (∀ a ∈ l, ∀ b ∈ l, (less a b).isSome) →
    StrictWeakOn (fun a b => less a b = some true) l → (sort less l).isSome

namespace SortFunction

variable {α : Type*} (less : α → α → Option Bool)

/-- The element `x` is put before the first one that it comes before. -/
def insertBefore (x : α) : List α → Option (List α)
  | [] => some [x]
  | y :: l => (less x y).bind fun b =>
    if b then some (x :: y :: l) else (insertBefore x l).map (y :: ·)

def insertionSort : List α → Option (List α)
  | [] => some []
  | x :: l => (insertionSort l).bind (insertBefore less x)

variable {less} {x : α} {l l' : List α}

theorem insertBefore_perm (h : insertBefore less x l = some l') : l'.Perm (x :: l) := by
  induction l generalizing l' with
  | nil => exact Option.some.inj h ▸ .refl _
  | cons y l ih =>
    obtain ⟨b, -, h⟩ := Option.bind_eq_some_iff.mp h
    cases b with
    | true => exact Option.some.inj h ▸ .refl _
    | false =>
      obtain ⟨l₁, hl₁, rfl⟩ := Option.map_eq_some_iff.mp h
      exact ((ih hl₁).cons y).trans (.swap x y l)

theorem insertionSort_perm (h : insertionSort less l = some l') : l'.Perm l := by
  induction l generalizing l' with
  | nil => exact Option.some.inj h ▸ .refl _
  | cons x l ih =>
    obtain ⟨l₁, hl₁, h⟩ := Option.bind_eq_some_iff.mp h
    exact (insertBefore_perm h).trans ((ih hl₁).cons x)

theorem isSome_insertBefore (h : ∀ y ∈ l, (less x y).isSome) :
    (insertBefore less x l).isSome := by
  induction l with
  | nil => rfl
  | cons y l ih =>
    obtain ⟨b, hb⟩ := Option.isSome_iff_exists.mp (h y List.mem_cons_self)
    obtain ⟨l₁, hl₁⟩ := Option.isSome_iff_exists.mp (ih fun z hz => h z (List.mem_cons_of_mem _ hz))
    cases b <;> simp [insertBefore, hb, hl₁]

theorem isSome_insertionSort (h : ∀ a ∈ l, ∀ b ∈ l, (less a b).isSome) :
    (insertionSort less l).isSome := by
  induction l with
  | nil => rfl
  | cons x l ih =>
    obtain ⟨l₁, hl₁⟩ := Option.isSome_iff_exists.mp
      (ih fun a ha b hb => h a (List.mem_cons_of_mem _ ha) b (List.mem_cons_of_mem _ hb))
    have hx : (insertBefore less x l₁).isSome := by
      refine isSome_insertBefore fun y hy => h x List.mem_cons_self y (List.mem_cons_of_mem _ ?_)
      exact (insertionSort_perm hl₁).mem_iff.mp hy
    rw [insertionSort, hl₁]
    exact hx

/-- Sorting by insertion. -/
def insertion (α : Type*) : SortFunction α where
  sort := insertionSort
  perm := insertionSort_perm
  returns h _ := isSome_insertionSort h

end SortFunction

end CodeTest
