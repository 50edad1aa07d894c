import Mathlib.Logic.Relation
import Mathlib.Data.Set.Card

/-!
# Trees of places

A partial function `child` gives for a node and a key the node at that place. The nodes below a root
form a tree when each of them stands at one place only, and the root at none. Then no node is below
itself, the nodes below different children are different, and the number of nodes below a node gets
smaller on the way down. So a check that recurses into the children returns, and says whether all
nodes pass (`decides_below`).
-/

namespace CodeTest

namespace Places

variable {α κ : Type*} (child : α → κ → Option α)

/-- A node is the child of another one. -/
def IsChild (p q : α) : Prop := ∃ k, child p k = some q

/-- The node itself and the nodes below it. -/
def below (p : α) : Set α := { q | Relation.ReflTransGen (IsChild child) p q }

/-- Below the root each node stands at one place, and the root at none. -/
structure IsTree (root : α) : Prop where
  root_not_child : ∀ p ∈ below child root, ∀ k, child p k ≠ some root
  place_unique : ∀ p ∈ below child root, ∀ p' ∈ below child root, ∀ k k' q,
    child p k = some q → child p' k' = some q → p = p' ∧ k = k'

variable {child} {root p q q' : α} {k k' : κ}

theorem mem_below_self (p : α) : p ∈ below child p := Relation.ReflTransGen.refl

theorem mem_below_of_child (hp : p ∈ below child root) (hq : child p k = some q) :
    q ∈ below child root :=
  Relation.ReflTransGen.tail hp ⟨k, hq⟩

theorem below_subset (hp : p ∈ below child root) : below child p ⊆ below child root :=
  fun _ hq => Relation.ReflTransGen.trans hp hq

/-- A node is itself, or below one of its children. -/
theorem mem_below_iff {r : α} :
    r ∈ below child p ↔ r = p ∨ ∃ k q, child p k = some q ∧ r ∈ below child q := by
  constructor
  · intro hr
    rcases Relation.ReflTransGen.cases_head hr with rfl | ⟨q, ⟨k, hq⟩, hpath⟩
    · exact .inl rfl
    · exact .inr ⟨k, q, hq, hpath⟩
  · rintro (rfl | ⟨k, q, hq, hr⟩)
    · exact mem_below_self r
    · exact Relation.ReflTransGen.head ⟨k, hq⟩ hr

/-- A node without children. -/
theorem below_of_forall_none (h : ∀ k, child root k = none) : below child root = {root} := by
  ext r
  rw [mem_below_iff, Set.mem_singleton_iff]
  constructor
  · rintro (rfl | ⟨k, q, hq, -⟩)
    · rfl
    · rw [h k] at hq
      cases hq
  · exact Or.inl

theorem isTree_of_forall_none (h : ∀ k, child root k = none) : IsTree child root where
  root_not_child := by
    rw [below_of_forall_none h]
    rintro _ rfl k
    simp [h k]
  place_unique := by
    rw [below_of_forall_none h]
    rintro _ rfl _ _ k k' q hq
    rw [h k] at hq
    cases hq

section Leaf

variable (hchild : ∀ k' q', child root k' = some q' ↔ k' = k ∧ q' = q)
  (hleaf : ∀ k, child q k = none)
include hchild hleaf

/-- A root whose only child has no children. -/
theorem below_of_leaf : below child root = {root, q} := by
  ext r
  rw [mem_below_iff, Set.mem_insert_iff, Set.mem_singleton_iff]
  constructor
  · rintro (rfl | ⟨k', q', hq', hr⟩)
    · exact .inl rfl
    · obtain ⟨-, rfl⟩ := (hchild k' q').mp hq'
      rw [below_of_forall_none hleaf] at hr
      exact .inr hr
  · rintro (rfl | rfl)
    · exact .inl rfl
    · exact .inr ⟨k, r, (hchild k r).mpr ⟨rfl, rfl⟩, mem_below_self r⟩

theorem isTree_of_leaf (hne : root ≠ q) : IsTree child root where
  root_not_child := by
    rw [below_of_leaf hchild hleaf]
    rintro p (rfl | rfl) k' hk'
    · exact hne ((hchild k' p).mp hk').2
    · rw [hleaf] at hk'
      cases hk'
  place_unique := by
    rw [below_of_leaf hchild hleaf]
    rintro p (rfl | rfl) p' (rfl | rfl) k₁ k₂ q' hk₁ hk₂
    · exact ⟨rfl, ((hchild k₁ q').mp hk₁).1.trans ((hchild k₂ q').mp hk₂).1.symm⟩
    all_goals simp [hleaf] at hk₁ hk₂

end Leaf

/-! ## Fewer places -/

section Fewer

variable {child' : α → κ → Option α}

/-- With fewer places there are fewer nodes below. -/
theorem below_mono
    (h : ∀ p ∈ below child root, ∀ k q, child' p k = some q → child p k = some q) :
    below child' root ⊆ below child root := by
  intro r hr
  induction hr with
  | refl => exact mem_below_self root
  | tail _ hstep ih =>
    obtain ⟨k, hk⟩ := hstep
    exact mem_below_of_child ih (h _ ih k _ hk)

/-- A tree stays one when places are taken away. -/
theorem IsTree.mono (htree : IsTree child root)
    (h : ∀ p ∈ below child root, ∀ k q, child' p k = some q → child p k = some q) :
    IsTree child' root where
  root_not_child p hp k hk :=
    htree.root_not_child p (below_mono h hp) k (h p (below_mono h hp) k _ hk)
  place_unique p hp p' hp' k k' q hk hk' :=
    htree.place_unique p (below_mono h hp) p' (below_mono h hp') k k' q
      (h p (below_mono h hp) k _ hk) (h p' (below_mono h hp') k' _ hk')

end Fewer

/-! ## Renamed trees -/

section Renamed

variable {β κ' : Type*} {child' : β → κ' → Option β} {f : α → β} {g : κ → κ'}

/-- The nodes below, when the places of a second function are those of the first one renamed. -/
theorem below_image (h : ∀ p ∈ below child root, ∀ k' q', child' (f p) k' = some q' ↔
      ∃ k q, child p k = some q ∧ g k = k' ∧ f q = q') :
    below child' (f root) = Set.image f (below child root) := by
  ext r'
  constructor
  · intro hr
    induction hr with
    | refl => exact ⟨root, mem_below_self root, rfl⟩
    | tail _ hstep ih =>
      obtain ⟨p, hp, rfl⟩ := ih
      obtain ⟨k', hk'⟩ := hstep
      obtain ⟨k, q, hq, -, rfl⟩ := (h p hp k' _).mp hk'
      exact ⟨q, mem_below_of_child hp hq, rfl⟩
  · rintro ⟨r, hr, rfl⟩
    induction hr with
    | refl => exact mem_below_self _
    | @tail p q hp hstep ih =>
      obtain ⟨k, hk⟩ := hstep
      exact mem_below_of_child ih ((h p hp (g k) _).mpr ⟨k, q, hk, rfl, rfl⟩)

/-- A renamed tree is a tree. -/
theorem IsTree.image (htree : IsTree child root) (hinj : Set.InjOn f (below child root))
    (h : ∀ p ∈ below child root, ∀ k' q', child' (f p) k' = some q' ↔
      ∃ k q, child p k = some q ∧ g k = k' ∧ f q = q') : IsTree child' (f root) where
  root_not_child := by
    intro p' hp' k' hk'
    rw [below_image h] at hp'
    obtain ⟨p, hp, rfl⟩ := hp'
    obtain ⟨k, q, hq, -, hroot⟩ := (h p hp k' _).mp hk'
    rw [hinj (mem_below_of_child hp hq) (mem_below_self root) hroot] at hq
    exact htree.root_not_child p hp k hq
  place_unique := by
    intro p₁' hp₁' p₂' hp₂' k₁' k₂' q' hk₁' hk₂'
    rw [below_image h] at hp₁' hp₂'
    obtain ⟨p₁, hp₁, rfl⟩ := hp₁'
    obtain ⟨p₂, hp₂, rfl⟩ := hp₂'
    obtain ⟨k₁, q₁, hq₁, rfl, rfl⟩ := (h p₁ hp₁ k₁' _).mp hk₁'
    obtain ⟨k₂, q₂, hq₂, rfl, hsame⟩ := (h p₂ hp₂ k₂' _).mp hk₂'
    rw [hinj (mem_below_of_child hp₂ hq₂) (mem_below_of_child hp₁ hq₁) hsame] at hq₂
    obtain ⟨rfl, rfl⟩ := htree.place_unique p₁ hp₁ p₂ hp₂ k₁ k₂ q₁ hq₁ hq₂
    exact ⟨rfl, rfl⟩

end Renamed

/-! ## Two trees side by side -/

section Both

/-- A pair is made of two optional values when it is made of both. -/
theorem bind_map_prodMk_eq_some_iff {β γ : Type*} {a : Option β} {b : Option γ} {x : β × γ} :
    (a.bind fun p => b.map fun q => (p, q)) = some x ↔ a = some x.1 ∧ b = some x.2 := by
  obtain ⟨p, q⟩ := x
  simp only [Option.bind_eq_some_iff, Option.map_eq_some_iff, Prod.mk.injEq]
  constructor
  · rintro ⟨_, hp, _, hq, rfl, rfl⟩
    exact ⟨hp, hq⟩
  · rintro ⟨hp, hq⟩
    exact ⟨p, hp, q, hq, rfl, rfl⟩

/-- The pair of children at a key of a pair of nodes. -/
def both (child : α → κ → Option α) (x : α × α) (k : κ) : Option (α × α) :=
  (child x.1 k).bind fun p => (child x.2 k).map fun q => (p, q)

variable {x y z : α × α}

theorem both_eq_some_iff :
    both child x k = some y ↔ child x.1 k = some y.1 ∧ child x.2 k = some y.2 :=
  bind_map_prodMk_eq_some_iff

/-- The nodes of a pair below are below the nodes of the pair, when the pairs at the keys are made
of children. -/
theorem sides_of_mem_below {pair : α × α → κ → Option (α × α)}
    (hpair : ∀ {x y k}, pair x k = some y → child x.1 k = some y.1 ∧ child x.2 k = some y.2)
    (hy : y ∈ below pair x) : y.1 ∈ below child x.1 ∧ y.2 ∈ below child x.2 := by
  induction hy with
  | refl => exact ⟨mem_below_self _, mem_below_self _⟩
  | tail _ hstep ih =>
    obtain ⟨k, hk⟩ := hstep
    obtain ⟨h₁, h₂⟩ := hpair hk
    exact ⟨mem_below_of_child ih.1 h₁, mem_below_of_child ih.2 h₂⟩

end Both

/-! ## Checks that go down a tree -/

/-- A computation returns, and says whether a statement holds. -/
def Decides {ε : Type*} (r : Except ε Bool) (P : Prop) : Prop := ∃ b, r = .ok b ∧ (b = true ↔ P)

namespace Decides

variable {ε : Type*} {r : Except ε Bool} {P Q : Prop}

theorem ok (b : Bool) : Decides (.ok b : Except ε Bool) (b = true) := ⟨b, rfl, Iff.rfl⟩

theorem congr (h : Decides r P) (hPQ : P ↔ Q) : Decides r Q := by
  obtain ⟨b, hr, hb⟩ := h
  exact ⟨b, hr, hb.trans hPQ⟩

theorem eq_true_iff (h : Decides r P) : r = .ok true ↔ P := by
  obtain ⟨b, rfl, hb⟩ := h
  rw [← hb, Except.ok.injEq]

theorem eq_false_iff (h : Decides r P) : r = .ok false ↔ ¬ P := by
  obtain ⟨b, rfl, hb⟩ := h
  rw [← hb, Except.ok.injEq, Bool.not_eq_true]

/-- Two computations that say whether the same holds have the same result. -/
theorem eq_iff {r' : Except ε Bool} (h : Decides r P) (h' : Decides r' Q) :
    r = r' ↔ (P ↔ Q) := by
  obtain ⟨b, rfl, hb⟩ := h
  obtain ⟨b', rfl, hb'⟩ := h'
  rw [← hb, ← hb', Except.ok.injEq, Bool.eq_iff_iff]

/-- A loop that stops at the first element that fails a test. -/
theorem allM {β : Type*} {f : β → Except ε Bool} {T : β → Prop} (l : List β)
    (h : ∀ x ∈ l, Decides (f x) (T x)) : Decides (l.allM f) (∀ x ∈ l, T x) := by
  induction l with
  | nil => exact ⟨true, rfl, by simp⟩
  | cons x l ih =>
    obtain ⟨b, hx, hb⟩ := h x List.mem_cons_self
    rw [List.allM_cons, hx]
    cases b with
    | true =>
      refine (ih fun y hy => h y (List.mem_cons_of_mem _ hy)).congr ?_
      simp [hb.mp rfl]
    | false =>
      refine ⟨false, rfl, ?_⟩
      simp only [Bool.false_eq_true, false_iff] at hb
      simp [hb]

end Decides

/-- What holds at a node and below it, one level at a time. -/
theorem forall_below_iff {L : α → Prop} :
    (∀ q ∈ below child p, L q) ↔
      L p ∧ ∀ k q, child p k = some q → ∀ r ∈ below child q, L r := by
  constructor
  · intro h
    exact ⟨h p (mem_below_self p), fun k q hq r hr => h r (mem_below_iff.mpr (.inr ⟨k, q, hq, hr⟩))⟩
  · rintro ⟨hp, hbelow⟩ q hq
    rcases mem_below_iff.mp hq with rfl | ⟨k, r, hr, hq⟩
    · exact hp
    · exact hbelow k r hr q hq

/-- **A check that goes down a tree**, at each node past a test of the node and the checks of its
children, says whether all nodes pass the test. The recursion may be as deep as the measure `m`. -/
theorem decides_below {ε : Type*} {check : ℕ → α → Except ε Bool} {L : α → Prop} (m : α → ℕ)
    (hm : ∀ x ∈ below child root, 0 < m x ∧ ∀ k y, child x k = some y → m y < m x)
    (hstep : ∀ d, ∀ x ∈ below child root, ∀ Q : α → Prop,
      (∀ k y, child x k = some y → Decides (check d y) (Q y)) →
      Decides (check (d + 1) x) (L x ∧ ∀ k y, child x k = some y → Q y)) {d : ℕ}
    (hd : m root ≤ d) : Decides (check d root) (∀ y ∈ below child root, L y) := by
  suffices h : ∀ x ∈ below child root, m x ≤ d →
      Decides (check d x) (∀ y ∈ below child x, L y) from h root (mem_below_self root) hd
  clear hd
  induction d with
  | zero =>
    intro x hx hd
    have hpos := (hm x hx).1
    omega
  | succ d ih =>
    intro x hx hd
    refine (hstep d x hx (fun y => ∀ z ∈ below child y, L z) ?_).congr forall_below_iff.symm
    intro k y hy
    have hlt := (hm x hx).2 k y hy
    exact ih y (mem_below_of_child hx hy) (by omega)

namespace IsTree

/-- No node is below one of its children. -/
theorem not_mem_below_child (h : IsTree child root) (hp : p ∈ below child root)
    (hq : child p k = some q) : p ∉ below child q := by
  intro hback
  -- along the way from the root: a node on a cycle has its parent on it
  induction hp generalizing k q with
  | refl =>
    rcases Relation.ReflTransGen.cases_tail hback with rfl | ⟨y, hy, k', hk'⟩
    · exact h.root_not_child _ (mem_below_self _) k hq
    · exact h.root_not_child y
        (below_subset (mem_below_of_child (mem_below_self root) hq) hy) k' hk'
  | @tail p' p hp' hstep ih =>
    obtain ⟨k', hk'⟩ := hstep
    have hp : p ∈ below child root := mem_below_of_child hp' hk'
    rcases Relation.ReflTransGen.cases_tail hback with rfl | ⟨y, hy, k'', hk''⟩
    · obtain ⟨rfl, -⟩ := h.place_unique _ hp _ hp' k k' _ hq hk'
      exact ih hq (mem_below_self _)
    · have hyroot : y ∈ below child root := below_subset (mem_below_of_child hp hq) hy
      obtain ⟨rfl, -⟩ := h.place_unique y hyroot p' hp' k'' k' p hk'' hk'
      exact ih hk' (mem_below_iff.mpr (.inr ⟨k, q, hq, hy⟩))

/-- The nodes below different children are different. -/
theorem disjoint_below (h : IsTree child root) (hp : p ∈ below child root)
    (hq : child p k = some q) (hq' : child p k' = some q') (hne : k ≠ k') :
    ∀ r ∈ below child q, r ∉ below child q' := by
  intro r hr
  have hroot : q ∈ below child root := mem_below_of_child hp hq
  have hroot' : q' ∈ below child root := mem_below_of_child hp hq'
  induction hr with
  | refl =>
    intro hback
    rcases Relation.ReflTransGen.cases_tail hback with rfl | ⟨y, hy, k₁, hk₁⟩
    · exact hne (h.place_unique p hp p hp k k' _ hq hq').2
    · obtain ⟨rfl, -⟩ := h.place_unique y (below_subset hroot' hy) p hp k₁ k q hk₁ hq
      exact h.not_mem_below_child hp hq' hy
  | @tail y r hy hstep ih =>
    obtain ⟨k₁, hk₁⟩ := hstep
    intro hback
    rcases Relation.ReflTransGen.cases_tail hback with rfl | ⟨y', hy', k₂, hk₂⟩
    · obtain ⟨rfl, -⟩ := h.place_unique y (below_subset hroot hy) p hp k₁ k' _ hk₁ hq'
      exact h.not_mem_below_child hp hq hy
    · obtain ⟨rfl, -⟩ := h.place_unique y (below_subset hroot hy) y' (below_subset hroot' hy')
        k₁ k₂ r hk₁ hk₂
      exact ih hy'

/-- There are fewer nodes below a child. -/
theorem ncard_below_lt (h : IsTree child root) (hfinite : (below child root).Finite)
    (hp : p ∈ below child root) (hq : child p k = some q) :
    (below child q).ncard < (below child p).ncard := by
  refine Set.ncard_lt_ncard ?_ (hfinite.subset (below_subset hp))
  refine ⟨below_subset (mem_below_of_child (mem_below_self p) hq), fun hsub => ?_⟩
  exact h.not_mem_below_child hp hq (hsub (mem_below_self p))

end IsTree

end Places

end CodeTest
