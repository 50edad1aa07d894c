import Mathlib.Data.List.Nodup
import Mathlib.Tactic

/-!
# Ledgers

Items are opened one after the other, and numbered in this order. An open item has a place; when it
is closed, its place becomes free, and a log records its number and how it was closed. Places are
used again.

`Balanced` says that the places and the log account for every item: each is either open, at one
place, or closed, once. It is kept when an item is opened at a free place (`Balanced.openAt`) and
when the items at several places are closed (`Balanced.close`). If every entry of the log has at
most one effect, then the effects that belong to an item are those of its one entry
(`filter_filterMap_effect`).
-/

namespace CodeTest.Ledger

variable {K O E : Type*} {owner owner' : K → Option ℕ} {n : ℕ} {closed : List (ℕ × O)}

/-- Of the items with the numbers below `n` those that are not in the log are open, each at one
place: `owner k` is the number of the item at the place `k`. -/
structure Balanced (owner : K → Option ℕ) (n : ℕ) (closed : List (ℕ × O)) : Prop where
  owner_lt : ∀ k c, owner k = some c → c < n
  unique : ∀ k k' c, owner k = some c → owner k' = some c → k = k'
  open_iff : ∀ c < n, (∃ k, owner k = some c) ↔ c ∉ closed.map Prod.fst
  closed_lt : ∀ c ∈ closed.map Prod.fst, c < n
  nodup : (closed.map Prod.fst).Nodup

theorem balanced_empty : Balanced (fun _ : K => none) 0 ([] : List (ℕ × O)) where
  owner_lt k c h := absurd h (by simp)
  unique k k' c h := absurd h (by simp)
  open_iff c h := absurd h (Nat.not_lt_zero c)
  closed_lt c h := absurd h (by simp)
  nodup := by simp

namespace Balanced

theorem not_mem_closed (h : Balanced owner n closed) {k : K} {c : ℕ} (hk : owner k = some c) :
    c ∉ closed.map Prod.fst :=
  (h.open_iff c (h.owner_lt k c hk)).mp ⟨k, hk⟩

/-- An item is opened at a free place. -/
theorem openAt [DecidableEq K] (h : Balanced owner n closed) (k : K) (hfree : owner k = none)
    (howner : ∀ k', owner' k' = if k' = k then some n else owner k') :
    Balanced owner' (n + 1) closed := by
  have hcases : ∀ k' c, owner' k' = some c ↔ k' = k ∧ c = n ∨ owner k' = some c := by
    intro k' c
    rw [howner]
    split_ifs with hk
    · subst hk
      simp [hfree, eq_comm]
    · simp [hk]
  constructor
  · intro k' c hk'
    rcases (hcases k' c).mp hk' with ⟨-, rfl⟩ | hk'
    · exact Nat.lt_succ_self _
    · exact (h.owner_lt k' c hk').trans (Nat.lt_succ_self n)
  · intro k₁ k₂ c h₁ h₂
    rcases (hcases k₁ c).mp h₁ with ⟨rfl, rfl⟩ | h₁ <;>
      rcases (hcases k₂ c).mp h₂ with ⟨rfl, hc⟩ | h₂
    · rfl
    · exact absurd (h.owner_lt k₂ _ h₂) (lt_irrefl _)
    · exact absurd (h.owner_lt k₁ _ h₁) (hc ▸ lt_irrefl _)
    · exact h.unique k₁ k₂ c h₁ h₂
  · intro c hc
    rcases Nat.lt_succ_iff_lt_or_eq.mp hc with hc | rfl
    · rw [← h.open_iff c hc]
      refine exists_congr fun k' => ?_
      rw [hcases]
      exact or_iff_right fun hnew => absurd hnew.2 hc.ne
    · exact ⟨fun _ hmem => absurd (h.closed_lt c hmem) (lt_irrefl c),
        fun _ => ⟨k, (hcases k c).mpr (.inl ⟨rfl, rfl⟩)⟩⟩
  · exact fun c hc => (h.closed_lt c hc).trans (Nat.lt_succ_self n)
  · exact h.nodup

/-- The items of the entries `es` are closed: `place` and `num` tell the place and the number of an
entry from its two components. -/
theorem close [DecidableEq K] {F T : Type*} (h : Balanced owner n closed) {place : F → K}
    (hplace : place.Injective) (num : T → ℕ) (es : List (Σ _ : F, T))
    (hnodup : (es.map Sigma.fst).Nodup)
    (hmem : ∀ f t, ⟨f, t⟩ ∈ es → owner (place f) = some (num t))
    (howner : ∀ k, owner' k = if k ∈ es.map (fun e => place e.1) then none else owner k) (o : O) :
    Balanced owner' n (closed ++ (es.map Sigma.snd).map fun t => (num t, o)) := by
  have hmap : (closed ++ (es.map Sigma.snd).map fun t => (num t, o)).map Prod.fst =
      closed.map Prod.fst ++ es.map fun e => num e.2 := by
    rw [List.map_append, List.map_map, List.map_map]
    rfl
  have hcases : ∀ k c, owner' k = some c ↔ k ∉ es.map (fun e => place e.1) ∧ owner k = some c := by
    intro k c
    rw [howner]
    split_ifs with hk <;> simp [hk]
  have hat : ∀ c ∈ es.map (fun e => num e.2), ∃ e ∈ es, owner (place e.1) = some c := by
    intro c hc
    obtain ⟨e, he, rfl⟩ := List.mem_map.mp hc
    exact ⟨e, he, hmem e.1 e.2 he⟩
  refine ⟨fun k c hk => h.owner_lt k c ((hcases k c).mp hk).2,
    fun k k' c hk hk' => h.unique k k' c ((hcases k c).mp hk).2 ((hcases k' c).mp hk').2,
    ?_, ?_, ?_⟩
  · intro c hc
    rw [hmap, List.mem_append, not_or, ← h.open_iff c hc]
    constructor
    · rintro ⟨k, hk⟩
      obtain ⟨hnot, hk⟩ := (hcases k c).mp hk
      refine ⟨⟨k, hk⟩, fun hc => hnot ?_⟩
      obtain ⟨e, he, hk'⟩ := hat c hc
      exact List.mem_map.mpr ⟨e, he, h.unique _ k c hk' hk⟩
    · rintro ⟨⟨k, hk⟩, hnot⟩
      refine ⟨k, (hcases k c).mpr ⟨fun hmem' => hnot ?_, hk⟩⟩
      obtain ⟨e, he, rfl⟩ := List.mem_map.mp hmem'
      exact List.mem_map.mpr ⟨e, he, Option.some_inj.mp ((hmem e.1 e.2 he).symm.trans hk)⟩
  · rw [hmap]
    intro c hc
    rcases List.mem_append.mp hc with hc | hc
    · exact h.closed_lt c hc
    · obtain ⟨e, -, hk⟩ := hat c hc
      exact h.owner_lt _ c hk
  · rw [hmap]
    refine h.nodup.append ?_ fun c hc hc' => ?_
    · -- two entries with the same number are at the same place
      refine List.Nodup.map_on (fun e he e' he' heq => ?_) hnodup.of_map
      apply List.inj_on_of_nodup_map hnodup he he'
      apply hplace
      exact h.unique _ _ _ (hmem e.1 e.2 he) (heq ▸ hmem e'.1 e'.2 he')
    · obtain ⟨e, -, hk⟩ := hat c hc'
      exact h.not_mem_closed hk hc

/-- **Each item is open and not in the log, or is not open and in the log once.** -/
theorem open_or_closed (h : Balanced owner n closed) {c : ℕ} (hc : c < n) :
    ((∃ k, owner k = some c) ∧ closed.filter (fun x => x.1 = c) = []) ∨
      ((¬ ∃ k, owner k = some c) ∧ ∃ o, closed.filter (fun x => x.1 = c) = [(c, o)]) := by
  by_cases hmem : c ∈ closed.map Prod.fst
  · refine .inr ⟨fun hopen => (h.open_iff c hc).mp hopen hmem, ?_⟩
    have hcount : (closed.filter (fun x => x.1 = c)).length = 1 := by
      rw [← List.countP_eq_length_filter, ← List.count_eq_one_of_mem h.nodup hmem, List.count,
        List.countP_map]
      exact List.countP_congr fun x _ => by simp
    obtain ⟨⟨c', o⟩, hx⟩ := List.length_eq_one_iff.mp hcount
    have hmem' : (c', o) ∈ closed.filter (fun x => x.1 = c) := by simp [hx]
    obtain rfl : c' = c := by simpa using (List.mem_filter.mp hmem').2
    exact ⟨o, hx⟩
  · refine .inl ⟨(h.open_iff c hc).mpr hmem, ?_⟩
    rw [List.filter_eq_nil_iff]
    intro x hx hxc
    exact hmem (List.mem_map.mpr ⟨x, hx, decide_eq_true_eq.mp hxc⟩)

end Balanced

/-- The effects that belong to an item are those of its entries. -/
theorem filter_filterMap_effect (closed : List (ℕ × O)) {effect : ℕ × O → Option E} {num : E → ℕ}
    (hnum : ∀ x e, effect x = some e → num e = x.1) (c : ℕ) :
    (closed.filterMap effect).filter (fun e => num e = c) =
      (closed.filter fun x => x.1 = c).filterMap effect := by
  rw [List.filter_filterMap, List.filterMap_filter]
  refine List.filterMap_congr fun x _ => ?_
  cases hx : effect x with
  | none => simp
  | some e => simp [Option.filter, hnum x e hx]

/-- The effects belong to items in the order of the log, to each once at most. -/
theorem map_effect_sublist (closed : List (ℕ × O)) {effect : ℕ × O → Option E} {num : E → ℕ}
    (hnum : ∀ x e, effect x = some e → num e = x.1) :
    ((closed.filterMap effect).map num).Sublist (closed.map Prod.fst) := by
  induction closed with
  | nil => exact .slnil
  | cons x closed ih =>
    cases hx : effect x with
    | none =>
      rw [List.filterMap_cons_none hx]
      exact ih.cons x.1
    | some e =>
      rw [List.filterMap_cons_some hx, List.map_cons, hnum x e hx]
      exact ih.cons_cons x.1

end CodeTest.Ledger
