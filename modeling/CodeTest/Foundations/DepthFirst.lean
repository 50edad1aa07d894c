import Mathlib.Data.Finset.Card
import Mathlib.Logic.Relation
import Mathlib.Order.Nat

/-!
# Depth-first walks that change what they walk over

A walk visits a node and then, if they have not been visited, its successors, each with those that
are reached from it; when they are done the node is prepared and finished, which changes a state and
may raise. Nodes that are to be skipped are not visited. The successors of a node are read from the
state when the node is visited, and the depth of the recursion is limited.

As long as preparing and finishing a node does not change what is read for the other nodes, the walk
is that of the graph that is read at the start. With a limit above the number of the nodes it does
not get too deep, and finishes each node once, only nodes that are reachable, after its successors
unless these lead back to it, and if nothing raises all nodes that are reachable (`visit_spec`).
-/

namespace CodeTest.DepthFirst

open Relation

/-- How a visit ends. -/
inductive Outcome
  | finished
  | raised
  | tooDeep
deriving DecidableEq

/-- The nodes that were visited, those that are finished, in order, and the state. -/
structure Walk (σ α : Type) where
  visited : Finset α
  finished : List α
  state : σ

/-- What is done on a walk: which nodes are skipped, how their successors are read, and how they are
prepared and finished, with whether this raises. -/
structure Actions (σ α : Type) where
  skip : α → Bool
  succ : σ → α → List α
  prepare : α → σ → Bool × σ
  finish : α → σ → Bool × σ

variable {σ α : Type} [DecidableEq α]

/-- Visiting those of the nodes that were not visited. -/
def visitAll (visit : α → Walk σ α → Outcome × Walk σ α) :
    List α → Walk σ α → Outcome × Walk σ α
  | [], w => (.finished, w)
  | y :: ys, w =>
    if y ∈ w.visited then visitAll visit ys w
    else
      let (o, w) := visit y w
      if o = .finished then visitAll visit ys w else (o, w)

namespace Actions

variable (a : Actions σ α)

def visit : ℕ → α → Walk σ α → Outcome × Walk σ α
  | 0, _, w => (.tooDeep, w)
  | depth + 1, x, w =>
    if a.skip x then (.finished, w)
    else
      let (o, w) := visitAll (visit depth) (a.succ w.state x)
        { w with visited := insert x w.visited }
      if o = .finished then
        let (raised, s) := a.prepare x w.state
        if raised then (.raised, { w with state := s })
        else
          let (raised, s) := a.finish x s
          (if raised then .raised else .finished,
            { w with finished := w.finished ++ [x], state := s })
      else (o, w)

/-- Preparing or finishing the node raises in the state. -/
def Raises (y : α) (s : σ) : Prop :=
  (a.prepare y s).1 = true ∨ (a.finish y (a.prepare y s).2).1 = true

/-- What is read for a node changes only when the node itself is prepared and finished. -/
structure Keeps : Prop where
  prepare : ∀ x s y, y ≠ x → a.succ (a.prepare x s).2 y = a.succ s y
  finish : ∀ x s y, y ≠ x → a.succ (a.finish x (a.prepare x s).2).2 y = a.succ s y

/-- The edges between nodes that are not skipped. -/
def Edge (graph : α → List α) (x y : α) : Prop := y ∈ graph x ∧ a.skip y = false

end Actions

/-- A node that is visited and not finished. -/
def Walk.Open (w : Walk σ α) (x : α) : Prop := x ∈ w.visited ∧ x ∉ w.finished

/-! ## The invariant -/

/-- What holds of a walk over the graph at any time. -/
structure Sound (a : Actions σ α) (graph : α → List α) (w : Walk σ α) : Prop where
  nodup : w.finished.Nodup
  visited : ∀ y ∈ w.finished, y ∈ w.visited
  closed : ∀ y ∈ w.finished, ∀ z, a.Edge graph y z → z ∈ w.visited
  ordered : ∀ y ∈ w.finished, ∀ z, a.Edge graph y z →
    [z, y].Sublist w.finished ∨ ReflTransGen (a.Edge graph) z y
  reads : ∀ y ∉ w.visited, a.succ w.state y = graph y

/-- A walk has gone on, to nodes with `P`. -/
structure Grown (a : Actions σ α) (graph : α → List α) (P : α → Prop) (w : Walk σ α)
    (r : Outcome × Walk σ α) : Prop where
  sound : Sound a graph r.2
  mono : w.visited ⊆ r.2.visited
  reach : ∀ y ∈ r.2.visited, y ∈ w.visited ∨ P y
  not_deep : r.1 ≠ .tooDeep
  raised : r.1 = .raised → ∃ y s, P y ∧ a.Raises y s
  open_iff : r.1 = .finished → ∀ y, r.2.Open y ↔ w.Open y

variable {a : Actions σ α} {graph : α → List α} {P Q : α → Prop} {w : Walk σ α}
  {r r' : Outcome × Walk σ α} {x : α} {s : σ}

namespace Grown

omit [DecidableEq α] in
theorem refl (h : Sound a graph w) : Grown a graph P w (.finished, w) where
  sound := h
  mono := Finset.Subset.refl _
  reach _ hy := .inl hy
  not_deep := by simp
  raised h := by simp at h
  open_iff _ _ := Iff.rfl

omit [DecidableEq α] in
theorem trans (h : Grown a graph P w r) (hfinished : r.1 = .finished)
    (h' : Grown a graph P r.2 r') : Grown a graph P w r' where
  sound := h'.sound
  mono := h.mono.trans h'.mono
  reach y hy := (h'.reach y hy).elim (h.reach y) .inr
  not_deep := h'.not_deep
  raised := h'.raised
  open_iff hr y := (h'.open_iff hr y).trans (h.open_iff hfinished y)

omit [DecidableEq α] in
theorem weaken (h : Grown a graph P w r) (hPQ : ∀ y, P y → Q y) : Grown a graph Q w r where
  sound := h.sound
  mono := h.mono
  reach y hy := (h.reach y hy).imp_right (hPQ y)
  not_deep := h.not_deep
  raised hr := by
    obtain ⟨y, s, hy, hraises⟩ := h.raised hr
    exact ⟨y, s, hPQ y hy, hraises⟩
  open_iff := h.open_iff

end Grown

/-- What is left to visit, of a set of nodes. -/
def left (nodes : Finset α) (w : Walk σ α) : ℕ := (nodes \ w.visited).card

theorem left_le {nodes : Finset α} {w w' : Walk σ α} (h : w.visited ⊆ w'.visited) :
    left nodes w' ≤ left nodes w :=
  Finset.card_le_card (Finset.sdiff_subset_sdiff (Finset.Subset.refl _) h)

/-- A node that is visited is no longer left. -/
theorem left_insert_lt {nodes : Finset α} (hx : x ∈ nodes) (hnew : x ∉ w.visited) :
    left nodes { w with visited := insert x w.visited } < left nodes w := by
  refine Finset.card_lt_card ⟨?_, fun hsub => ?_⟩
  · exact Finset.sdiff_subset_sdiff (Finset.Subset.refl _) (Finset.subset_insert x _)
  · have hmem := hsub (Finset.mem_sdiff.mpr ⟨hx, hnew⟩)
    exact (Finset.mem_sdiff.mp hmem).2 (Finset.mem_insert_self x _)

/-! ## The loop over the successors -/

/-- The loop over successors of `x`, given what it is to visit one. -/
theorem grown_visitAll {visit : α → Walk σ α → Outcome × Walk σ α} {nodes : Finset α} {depth : ℕ}
    (hvisit : ∀ y w, y ∈ nodes → y ∉ w.visited → left nodes w < depth → Sound a graph w →
      (a.skip y = false → ∀ g, w.Open g → ReflTransGen (a.Edge graph) g y) →
      Grown a graph (fun z => a.skip y = false ∧ ReflTransGen (a.Edge graph) y z) w (visit y w) ∧
        ((visit y w).1 = .finished → a.skip y = false → y ∈ (visit y w).2.visited))
    {ys : List α} (hys : ∀ y ∈ ys, y ∈ nodes ∧ y ∈ graph x) {w : Walk σ α}
    (hleft : left nodes w < depth) (hsound : Sound a graph w)
    (hopen : ∀ g, w.Open g → ReflTransGen (a.Edge graph) g x) :
    Grown a graph (ReflTransGen (a.Edge graph) x) w (visitAll visit ys w) ∧
      ((visitAll visit ys w).1 = .finished →
        ∀ y ∈ ys, a.skip y = false → y ∈ (visitAll visit ys w).2.visited) := by
  induction ys generalizing w with
  | nil => exact ⟨.refl hsound, fun _ y hy => absurd hy List.not_mem_nil⟩
  | cons y ys ih =>
    obtain ⟨⟨hnode, hsucc⟩, hrest⟩ := List.forall_mem_cons.mp hys
    rw [visitAll]
    by_cases hvisited : y ∈ w.visited
    · rw [if_pos hvisited]
      obtain ⟨hgrown, hall⟩ := ih hrest hleft hsound hopen
      refine ⟨hgrown, fun hr z hz hskip => ?_⟩
      rcases List.mem_cons.mp hz with rfl | hz
      · exact hgrown.mono hvisited
      · exact hall hr z hz hskip
    · rw [if_neg hvisited]
      have hedge : a.skip y = false → a.Edge graph x y := fun hskip => ⟨hsucc, hskip⟩
      obtain ⟨hgrown, hself⟩ := hvisit y w hnode hvisited hleft hsound fun hskip g hg =>
        (hopen g hg).tail (hedge hskip)
      have hfrom : Grown a graph (ReflTransGen (a.Edge graph) x) w (visit y w) :=
        hgrown.weaken fun z hz => .head (hedge hz.1) hz.2
      simp only
      by_cases hfinished : (visit y w).1 = .finished
      · rw [if_pos hfinished]
        obtain ⟨hgrown', hall⟩ := ih hrest ((left_le hfrom.mono).trans_lt hleft) hfrom.sound
          fun g hg => hopen g ((hfrom.open_iff hfinished g).mp hg)
        refine ⟨hfrom.trans hfinished hgrown', fun hr z hz hskip => ?_⟩
        rcases List.mem_cons.mp hz with rfl | hz
        · exact hgrown'.mono (hself hfinished hskip)
        · exact hall hr z hz hskip
      · rw [if_neg hfinished]
        exact ⟨hfrom, fun hr => absurd hr hfinished⟩

/-! ## A visit -/

theorem Sound.insert (h : Sound a graph w) (x : α) :
    Sound a graph { w with visited := insert x w.visited } where
  nodup := h.nodup
  visited y hy := Finset.mem_insert_of_mem (h.visited y hy)
  closed y hy z hz := Finset.mem_insert_of_mem (h.closed y hy z hz)
  ordered := h.ordered
  reads y hy := h.reads y fun hmem => hy (Finset.mem_insert_of_mem hmem)

omit [DecidableEq α] in
theorem Sound.prepare (h : Sound a graph w) (hkeeps : a.Keeps) (hx : x ∈ w.visited) :
    Sound a graph { w with state := (a.prepare x w.state).2 } where
  nodup := h.nodup
  visited := h.visited
  closed := h.closed
  ordered := h.ordered
  reads y hy := by
    have hne : y ≠ x := fun heq => hy (heq ▸ hx)
    rw [hkeeps.prepare x w.state y hne]
    exact h.reads y hy

/-- A node is finished after its successors. -/
theorem Sound.finish (h : Sound a graph w) (hkeeps : a.Keeps) (hx : w.Open x)
    (hall : ∀ z, a.Edge graph x z → z ∈ w.visited)
    (hopen : ∀ g, w.Open g → ReflTransGen (a.Edge graph) g x) :
    Sound a graph
      { w with
        finished := w.finished ++ [x], state := (a.finish x (a.prepare x w.state).2).2 } where
  nodup := by
    refine List.nodup_append.mpr ⟨h.nodup, List.nodup_singleton x, fun y hy z hz => ?_⟩
    rw [List.mem_singleton.mp hz]
    exact fun heq => hx.2 (heq ▸ hy)
  visited y hy := by
    rcases List.mem_append.mp hy with hy | hy
    · exact h.visited y hy
    · exact List.mem_singleton.mp hy ▸ hx.1
  closed y hy z hz := by
    rcases List.mem_append.mp hy with hy | hy
    · exact h.closed y hy z hz
    · exact hall z (List.mem_singleton.mp hy ▸ hz)
  ordered y hy z hz := by
    rcases List.mem_append.mp hy with hy | hy
    · exact (h.ordered y hy z hz).imp_left fun hsub => hsub.trans (List.sublist_append_left _ _)
    · obtain rfl := List.mem_singleton.mp hy
      by_cases hfinished : z ∈ w.finished
      · exact .inl ((List.singleton_sublist.mpr hfinished).append (List.Sublist.refl [y]))
      · exact .inr (hopen z ⟨hall z hz, hfinished⟩)
  reads y hy := by
    have hne : y ≠ x := fun heq => hy (heq ▸ hx.1)
    rw [hkeeps.finish x w.state y hne]
    exact h.reads y hy

/-- A node that was opened and finished is not open, and the others are as before. -/
theorem open_finish_iff {w₁ : Walk σ α} (hnew : x ∉ w.visited)
    (hiff : ∀ y, w₁.Open y ↔ ({ w with visited := insert x w.visited } : Walk σ α).Open y)
    (state : σ) (y : α) :
    ({ w₁ with finished := w₁.finished ++ [x], state } : Walk σ α).Open y ↔ w.Open y := by
  have hy := hiff y
  simp only [Walk.Open, List.mem_append, List.mem_singleton, not_or] at hy ⊢
  rw [← and_assoc, hy, Finset.mem_insert]
  constructor
  · rintro ⟨⟨rfl | hy, hnot⟩, hne⟩
    · exact absurd rfl hne
    · exact ⟨hy, hnot⟩
  · rintro ⟨hy, hnot⟩
    exact ⟨⟨.inr hy, hnot⟩, fun heq => hnew (heq ▸ hy)⟩

/-- **A visit of a node**, of a finite set of nodes with their successors. -/
theorem grown_visit (hkeeps : a.Keeps) {nodes : Finset α}
    (hnodes : ∀ y ∈ nodes, ∀ z ∈ graph y, z ∈ nodes) (depth : ℕ) (x : α) (w : Walk σ α)
    (hx : x ∈ nodes) (hnew : x ∉ w.visited) (hleft : left nodes w < depth)
    (hsound : Sound a graph w)
    (hopen : a.skip x = false → ∀ g, w.Open g → ReflTransGen (a.Edge graph) g x) :
    Grown a graph (fun z => a.skip x = false ∧ ReflTransGen (a.Edge graph) x z) w
        (a.visit depth x w) ∧
      ((a.visit depth x w).1 = .finished → a.skip x = false →
        x ∈ (a.visit depth x w).2.visited) := by
  induction depth generalizing x w with
  | zero => exact absurd hleft (Nat.not_lt_zero _)
  | succ depth ih =>
    rw [Actions.visit]
    by_cases hskip : a.skip x = true
    · rw [if_pos hskip]
      exact ⟨.refl hsound, fun _ h => absurd (hskip.symm.trans h) (by simp)⟩
    · rw [if_neg hskip, hsound.reads x hnew]
      rw [Bool.not_eq_true] at hskip
      let w₀ : Walk σ α := { w with visited := insert x w.visited }
      have hfin : x ∉ w.finished := fun hmem => hnew (hsound.visited x hmem)
      have hopen₀ : ∀ g, w₀.Open g → ReflTransGen (a.Edge graph) g x := by
        rintro g ⟨hg, hnot⟩
        rcases Finset.mem_insert.mp hg with rfl | hg
        · exact .refl
        · exact hopen hskip g ⟨hg, hnot⟩
      have hleft₀ : left nodes w₀ < depth :=
        (left_insert_lt hx hnew).trans_le (Nat.le_of_lt_succ hleft)
      obtain ⟨hgrown, hall⟩ := grown_visitAll (x := x) ih
        (fun y hy => ⟨hnodes x hx y hy, hy⟩) hleft₀ (hsound.insert x) hopen₀
      change Grown a graph _ w₀ (visitAll (a.visit depth) (graph x) w₀) at hgrown
      change (visitAll (a.visit depth) (graph x) w₀).1 = _ → _ at hall
      generalize visitAll (a.visit depth) (graph x) w₀ = r at hgrown hall ⊢
      obtain ⟨o, w₁⟩ := r
      have hself : x ∈ w₁.visited := hgrown.mono (Finset.mem_insert_self x _)
      have hmono : w.visited ⊆ w₁.visited := (Finset.subset_insert x _).trans hgrown.mono
      have hreach : ∀ y ∈ w₁.visited,
          y ∈ w.visited ∨ a.skip x = false ∧ ReflTransGen (a.Edge graph) x y := by
        intro y hy
        rcases hgrown.reach y hy with hy | hy
        · rcases Finset.mem_insert.mp hy with rfl | hy
          · exact .inr ⟨hskip, .refl⟩
          · exact .inl hy
        · exact .inr ⟨hskip, hy⟩
      simp only
      by_cases hfinished : o = .finished
      · have hiff := hgrown.open_iff hfinished
        have hopen₁ : ∀ g, w₁.Open g → ReflTransGen (a.Edge graph) g x := fun g hg =>
          hopen₀ g ((hiff g).mp hg)
        have hx₁ : w₁.Open x := (hiff x).mpr ⟨Finset.mem_insert_self x _, hfin⟩
        rw [if_pos hfinished]
        cases hprepare : (a.prepare x w₁.state).1 with
        | true =>
          rw [if_pos rfl]
          refine ⟨⟨hgrown.sound.prepare hkeeps hself, hmono, hreach, by simp, fun _ => ?_,
            fun h => by simp at h⟩, fun h => by simp at h⟩
          exact ⟨x, w₁.state, ⟨hskip, .refl⟩, .inl hprepare⟩
        | false =>
          rw [if_neg (by simp)]
          refine ⟨⟨?_, hmono, hreach, by split <;> simp, fun hraised => ?_,
            fun _ y => open_finish_iff hnew hiff _ y⟩, fun _ _ => hself⟩
          · exact hgrown.sound.finish hkeeps hx₁ (fun z hz => hall hfinished z hz.1 hz.2) hopen₁
          · refine ⟨x, w₁.state, ⟨hskip, .refl⟩, .inr ?_⟩
            by_contra hnot
            simp [hnot] at hraised
      · rw [if_neg hfinished]
        refine ⟨⟨hgrown.sound, hmono, hreach, hgrown.not_deep, fun hraised => ?_,
          fun h => absurd h hfinished⟩, fun h => absurd h hfinished⟩
        obtain ⟨y, s, hy, hraises⟩ := hgrown.raised hraised
        exact ⟨y, s, ⟨hskip, hy⟩, hraises⟩

/-- **A walk from a node.** -/
theorem visit_spec (hkeeps : a.Keeps) {nodes : Finset α}
    (hnodes : ∀ y ∈ nodes, ∀ z ∈ a.succ s y, z ∈ nodes) (hx : x ∈ nodes) {depth : ℕ}
    (hdepth : nodes.card < depth) :
    let r := a.visit depth x ⟨∅, [], s⟩
    r.1 ≠ .tooDeep ∧ r.2.finished.Nodup ∧
      (∀ y ∈ r.2.finished, a.skip x = false ∧ ReflTransGen (a.Edge (a.succ s)) x y) ∧
      (∀ y ∈ r.2.finished, ∀ z, a.Edge (a.succ s) y z →
        [z, y].Sublist r.2.finished ∨ ReflTransGen (a.Edge (a.succ s)) z y) ∧
      (r.1 = .finished → a.skip x = false → ∀ y, ReflTransGen (a.Edge (a.succ s)) x y →
        y ∈ r.2.finished) ∧
      (r.1 = .raised → ∃ y s', a.skip x = false ∧ ReflTransGen (a.Edge (a.succ s)) x y ∧
        a.Raises y s') := by
  have hsound : Sound a (a.succ s) ⟨∅, [], s⟩ :=
    ⟨.nil, by simp, by simp, by simp, fun _ _ => rfl⟩
  have hleft : left nodes (⟨∅, [], s⟩ : Walk σ α) < depth := by
    rwa [left, Finset.sdiff_empty]
  obtain ⟨hgrown, hself⟩ := grown_visit hkeeps hnodes depth x ⟨∅, [], s⟩ hx
    (Finset.notMem_empty x) hleft hsound fun _ g hg => absurd hg.1 (Finset.notMem_empty g)
  have hreach : ∀ y ∈ (a.visit depth x ⟨∅, [], s⟩).2.visited,
      a.skip x = false ∧ ReflTransGen (a.Edge (a.succ s)) x y := fun y hy =>
    (hgrown.reach y hy).resolve_left (Finset.notMem_empty y)
  refine ⟨hgrown.not_deep, hgrown.sound.nodup,
    fun y hy => hreach y (hgrown.sound.visited y hy), hgrown.sound.ordered,
    fun hr hskip y hy => ?_, fun hr => ?_⟩
  · -- nothing that is visited is still open
    have hclosed : ∀ y ∈ (a.visit depth x ⟨∅, [], s⟩).2.visited,
        y ∈ (a.visit depth x ⟨∅, [], s⟩).2.finished := by
      intro y hy
      by_contra hnot
      exact absurd ((hgrown.open_iff hr y).mp ⟨hy, hnot⟩).1 (Finset.notMem_empty y)
    induction hy with
    | refl => exact hclosed x (hself hr hskip)
    | tail _ hedge ih => exact hclosed _ (hgrown.sound.closed _ ih _ hedge)
  · obtain ⟨y, s', ⟨hskip, hy⟩, hraises⟩ := hgrown.raised hr
    exact ⟨y, s', hskip, hy, hraises⟩

end CodeTest.DepthFirst
