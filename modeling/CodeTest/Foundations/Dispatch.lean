import CodeTest.Foundations.Machine
import Mathlib.Order.Nat

/-!
# Batches of callbacks that may raise

A machine hands out a batch of callbacks with each step, which are called one after the other; one
that raises ends the batch (`untilRaise`). The callbacks come from entries that the machine stores
at places. The entries are numbered in the order in which they were made (`Numbered`), and what is
in a batch is stored no more (`Dispatches`).

If in each batch no callback that raises comes before one that does not, all those that do not raise
are called in their batch. Otherwise there is one that is never called, however the run goes on
(`Dispatches.called_iff`).
-/

namespace CodeTest

/-- The callbacks that are called: all up to the first that raises. -/
def untilRaise {ι : Type} (raises : ι → Bool) : List ι → List ι
  | [] => []
  | i :: is => i :: if raises i then [] else untilRaise raises is

section Batch

variable {ι : Type} {raises : ι → Bool}

theorem mem_of_mem_untilRaise {batch : List ι} {i : ι} (hi : i ∈ untilRaise raises batch) :
    i ∈ batch := by
  induction batch with
  | nil => exact hi
  | cons j batch ih =>
    rw [untilRaise, List.mem_cons] at hi
    rcases hi with rfl | hi
    · exact List.mem_cons_self
    · split at hi
      · cases hi
      · exact List.mem_cons_of_mem j (ih hi)

/-- None that raises comes before one that does not: all that do not raise are called. -/
theorem mem_untilRaise {batch : List ι} (horderly : batch.Pairwise fun i j => raises i → raises j)
    {i : ι} (hi : i ∈ batch) (hraises : raises i = false) : i ∈ untilRaise raises batch := by
  induction batch with
  | nil => exact hi
  | cons j batch ih =>
    obtain ⟨hfirst, hrest⟩ := List.pairwise_cons.mp horderly
    rw [untilRaise, List.mem_cons]
    rcases List.mem_cons.mp hi with rfl | hi
    · exact .inl rfl
    · have hj : ¬ raises j := by
        intro hj
        have := hfirst i hi hj
        rw [hraises] at this
        exact absurd this (by simp)
      rw [if_neg hj]
      exact .inr (ih hrest hi)

/-- One that raises comes before one that does not: some callback is left out. -/
theorem exists_not_called {num : ι → ℕ} {batch : List ι} (hnodup : (batch.map num).Nodup)
    (hnot : ¬ batch.Pairwise fun i j => raises i → raises j) :
    ∃ j ∈ batch, raises j = false ∧ num j ∉ (untilRaise raises batch).map num := by
  induction batch with
  | nil => exact absurd .nil hnot
  | cons i batch ih =>
    rw [List.map_cons, List.nodup_cons] at hnodup
    have hne : ∀ j ∈ batch, num j ≠ num i := fun j hj heq =>
      hnodup.1 (heq ▸ List.mem_map_of_mem hj)
    rw [List.pairwise_cons, not_and_or] at hnot
    by_cases hi : raises i
    · -- the rest is not called
      have hlast : ∃ j ∈ batch, raises j = false := by
        rcases hnot with hfirst | hrest
        · push Not at hfirst
          obtain ⟨j, hj, -, hraises⟩ := hfirst
          exact ⟨j, hj, by simpa using hraises⟩
        · obtain ⟨j, hj, hraises, -⟩ := ih hnodup.2 hrest
          exact ⟨j, hj, hraises⟩
      obtain ⟨j, hj, hraises⟩ := hlast
      refine ⟨j, List.mem_cons_of_mem i hj, hraises, ?_⟩
      rw [untilRaise, if_pos hi, List.map_singleton, List.mem_singleton]
      exact hne j hj
    · have hrest := hnot.resolve_left (by simp [hi])
      obtain ⟨j, hj, hraises, hcalled⟩ := ih hnodup.2 hrest
      refine ⟨j, List.mem_cons_of_mem i hj, hraises, ?_⟩
      rw [untilRaise, if_neg hi, List.map_cons, List.mem_cons, not_or]
      exact ⟨hne j hj, hcalled⟩

end Batch

/-! ## Numbered entries -/

/-- The entries at the places have numbers below `next`, each its own. -/
structure Numbered {κ : Type} (owner : κ → Option ℕ) (next : ℕ) : Prop where
  lt : ∀ p c, owner p = some c → c < next
  inj : ∀ p q c, owner p = some c → owner q = some c → p = q

namespace Numbered

variable {κ : Type} {owner owner' : κ → Option ℕ} {next : ℕ}

/-- A new entry gets the next number; an entry at its place is overwritten. -/
theorem put (h : Numbered owner next) (p : κ)
    (hnew : ∀ q c, owner' q = some c → q = p ∧ c = next ∨ owner q = some c) :
    Numbered owner' (next + 1) where
  lt q c hq := by
    rcases hnew q c hq with ⟨-, rfl⟩ | hq
    · exact Nat.lt_succ_self _
    · exact (h.lt q c hq).trans (Nat.lt_succ_self _)
  inj q₁ q₂ c h₁ h₂ := by
    rcases hnew q₁ c h₁ with ⟨rfl, rfl⟩ | h₁ <;> rcases hnew q₂ c h₂ with ⟨rfl, hc⟩ | h₂
    · rfl
    · exact absurd (h.lt q₂ _ h₂) (lt_irrefl _)
    · exact absurd (h.lt q₁ _ h₁) (hc ▸ lt_irrefl _)
    · exact h.inj q₁ q₂ c h₁ h₂

/-- Entries are removed. -/
theorem mono (h : Numbered owner next) (hold : ∀ p c, owner' p = some c → owner p = some c) :
    Numbered owner' next where
  lt p c hp := h.lt p c (hold p c hp)
  inj p q c hp hq := h.inj p q c (hold p c hp) (hold q c hq)

/-- The numbers of entries at different places. -/
theorem nodup {ε : Type} (h : Numbered owner next) {num : ε → ℕ} {es : List (κ × ε)}
    (hplaces : (es.map Prod.fst).Nodup) (hown : ∀ e ∈ es, owner e.1 = some (num e.2)) :
    (es.map fun e => num e.2).Nodup := by
  induction es with
  | nil => exact List.nodup_nil
  | cons e es ih =>
    rw [List.map_cons, List.nodup_cons] at hplaces ⊢
    refine ⟨fun hmem => hplaces.1 ?_, ih hplaces.2 fun e' he' => hown e' (.tail _ he')⟩
    obtain ⟨e', he', heq⟩ := List.mem_map.mp hmem
    have hsame := hown e' (.tail _ he')
    rw [heq] at hsame
    exact h.inj _ _ _ (hown e (.head _)) hsame ▸ List.mem_map_of_mem he'

end Numbered

/-! ## The logs -/

/-- A state, the callbacks of the batches so far that do not raise, and those that were called. -/
structure Logged (τ ι : Type) where
  state : τ
  due : List ι
  called : List ι

namespace Logged

variable {τ ε ι : Type}

def init (s : τ) : Logged τ ι := { state := s, due := [], called := [] }

def step (next : τ → ε → Option (List ι × τ)) (raises : ι → Bool) (s : Logged τ ι) (e : ε) :
    Option (Logged τ ι) :=
  (next s.state e).map fun r =>
    { state := r.2
      due := s.due ++ r.1.filter fun i => !raises i
      called := s.called ++ untilRaise raises r.1 }

/-- In the batch of the step, none that raises comes before one that does not. -/
def Orderly (next : τ → ε → Option (List ι × τ)) (raises : ι → Bool) (s : Logged τ ι) (e : ε) :
    Prop :=
  ∀ r ∈ next s.state e, r.1.Pairwise fun i j => raises i → raises j

/-- Every callback that is due has been called, or is in some continuation of the run. -/
def Kept (next : τ → ε → Option (List ι × τ)) (raises : ι → Bool) (s : Logged τ ι) : Prop :=
  ∀ i ∈ s.due, ∃ (es : List ε) (s' : Logged τ ι),
    es.foldlM (step next raises) s = some s' ∧ i ∈ s'.called

end Logged

/-- What a step with the batch `batch` does to the entries: numbers are given in order, and what is
in the batch was stored and is so no more. -/
structure DispatchStep {κ ι : Type} (num : ι → ℕ) (owner owner' : κ → Option ℕ) (count count' : ℕ)
    (batch : List ι) : Prop where
  le : count ≤ count'
  old_or_new : ∀ p c, owner' p = some c → (∃ q, owner q = some c) ∨ count ≤ c
  nodup : (batch.map num).Nodup
  stored : ∀ i ∈ batch, ∃ p, owner p = some (num i)
  gone : ∀ i ∈ batch, ∀ p, owner' p ≠ some (num i)

namespace DispatchStep

variable {κ ι : Type} {num : ι → ℕ} {owner owner' : κ → Option ℕ} {count : ℕ}

theorem put {p : κ} (hnew : ∀ q c, owner' q = some c → q = p ∧ c = count ∨ owner q = some c) :
    DispatchStep num owner owner' count (count + 1) [] where
  le := Nat.le_succ _
  old_or_new q c hq := (hnew q c hq).elim (fun h => .inr h.2.ge) fun h => .inl ⟨q, h⟩
  nodup := List.nodup_nil
  stored _ hi := by cases hi
  gone _ hi := by cases hi

theorem mono (hold : ∀ p c, owner' p = some c → owner p = some c) :
    DispatchStep num owner owner' count count [] where
  le := le_rfl
  old_or_new p c hp := .inl ⟨p, hold p c hp⟩
  nodup := List.nodup_nil
  stored _ hi := by cases hi
  gone _ hi := by cases hi

/-- The entries `es` are taken out, and the batch is made of callbacks of some of them. -/
theorem take {ε : Type} {call : ε → Option ι} (numE : ε → ℕ) (h : Numbered owner count)
    {es : List (κ × ε)} (hplaces : (es.map Prod.fst).Nodup)
    (hown : ∀ e ∈ es, owner e.1 = some (numE e.2))
    (hcall : ∀ e ∈ es, ∀ i, call e.2 = some i → num i = numE e.2)
    (hleft : ∀ p c, owner' p = some c → owner p = some c ∧ p ∉ es.map Prod.fst) :
    DispatchStep num owner owner' count count (es.filterMap fun e => call e.2) where
  le := le_rfl
  old_or_new p c hp := .inl ⟨p, (hleft p c hp).1⟩
  nodup := by
    have hsub : ((es.filterMap fun e => call e.2).map num).Sublist
        (es.map fun e => numE e.2) := by
      clear hplaces hown hleft
      induction es with
      | nil => exact .slnil
      | cons e es ih =>
        have hrest := ih fun e' he' => hcall e' (.tail _ he')
        rw [List.filterMap_cons, List.map_cons]
        cases hi : call e.2 with
        | none => exact hrest.cons _
        | some i =>
          rw [List.map_cons, hcall e (.head _) i hi]
          exact hrest.cons_cons _
    exact (h.nodup hplaces hown).sublist hsub
  stored i hi := by
    obtain ⟨e, he, hei⟩ := List.mem_filterMap.mp hi
    exact ⟨e.1, hcall e he i hei ▸ hown e he⟩
  gone i hi p hp := by
    obtain ⟨e, he, hei⟩ := List.mem_filterMap.mp hi
    obtain ⟨hold, hnot⟩ := hleft p _ hp
    rw [hcall e he i hei] at hold
    exact hnot (h.inj _ _ _ hold (hown e he) ▸ List.mem_map_of_mem he)

end DispatchStep

/-- Steps from states with the invariant lead to such states, and dispatch. -/
structure Dispatches {τ ε ι κ : Type} (next : τ → ε → Option (List ι × τ)) (num : ι → ℕ)
    (Inv : τ → Prop) (owner : τ → κ → Option ℕ) (count : τ → ℕ) : Prop where
  lt : ∀ s p c, Inv s → owner s p = some c → c < count s
  step : ∀ s e, Inv s → ∃ batch s', next s e = some (batch, s') ∧ Inv s' ∧
    DispatchStep num (owner s) (owner s') (count s) (count s') batch

namespace Dispatches

open Logged

variable {τ ε ι κ : Type} {next : τ → ε → Option (List ι × τ)} {num : ι → ℕ} {Inv : τ → Prop}
  {owner : τ → κ → Option ℕ} {count : τ → ℕ} (h : Dispatches next num Inv owner count)
  (raises : ι → Bool) {s : Logged τ ι} {i : ι}

/-- What was called is not stored. -/
structure Sound (Inv : τ → Prop) (num : ι → ℕ) (owner : τ → κ → Option ℕ) (count : τ → ℕ)
    (s : Logged τ ι) : Prop where
  inv : Inv s.state
  lt : ∀ i ∈ s.called, num i < count s.state
  gone : ∀ i ∈ s.called, ∀ p, owner s.state p ≠ some (num i)

/-- A callback that is due, was not called, and is not stored. -/
structure Lost (num : ι → ℕ) (owner : τ → κ → Option ℕ) (count : τ → ℕ) (i : ι)
    (s : Logged τ ι) : Prop where
  due : i ∈ s.due
  not_called : i ∉ s.called
  lt : num i < count s.state
  gone : ∀ p, owner s.state p ≠ some (num i)

include h

/-- What a step does to the logs. -/
theorem exists_step (hs : Inv s.state) (e : ε) : ∃ batch s',
    next s.state e = some (batch, s') ∧ Inv s' ∧
      DispatchStep num (owner s.state) (owner s') (count s.state) (count s') batch ∧
      Logged.step next raises s e = some
        { state := s'
          due := s.due ++ batch.filter fun i => !raises i
          called := s.called ++ untilRaise raises batch } := by
  obtain ⟨batch, s', hstep, hinv, hdispatch⟩ := h.step s.state e hs
  refine ⟨batch, s', hstep, hinv, hdispatch, ?_⟩
  rw [Logged.step, hstep]
  rfl

omit h in
/-- A number that is not stored and not new stays so. -/
theorem gone_of_gone {owner owner' : κ → Option ℕ} {c c' n : ℕ} {batch : List ι}
    (hd : DispatchStep num owner owner' c c' batch) (hlt : n < c)
    (hgone : ∀ p, owner p ≠ some n) (p : κ) : owner' p ≠ some n := by
  intro hp
  rcases hd.old_or_new p n hp with ⟨q, hq⟩ | hle
  · exact hgone q hq
  · exact absurd hlt (Nat.not_lt.mpr hle)

theorem sound_step (hs : Sound Inv num owner count s) (e : ε) : ∃ s',
    Logged.step next raises s e = some s' ∧ Sound Inv num owner count s' := by
  obtain ⟨batch, s', -, hinv, hd, hstep⟩ := h.exists_step raises hs.inv e
  refine ⟨_, hstep, hinv, fun i hi => ?_, fun i hi => ?_⟩
  all_goals rcases List.mem_append.mp hi with hi | hi
  · exact (hs.lt i hi).trans_le hd.le
  · obtain ⟨p, hp⟩ := hd.stored i (mem_of_mem_untilRaise hi)
    exact (h.lt _ p _ hs.inv hp).trans_le hd.le
  · exact gone_of_gone hd (hs.lt i hi) (hs.gone i hi)
  · exact hd.gone i (mem_of_mem_untilRaise hi)

theorem lost_step (hs : Inv s.state) (hlost : Lost num owner count i s) (e : ε) {s' : Logged τ ι}
    (hstep : Logged.step next raises s e = some s') :
    Inv s'.state ∧ Lost num owner count i s' := by
  obtain ⟨batch, s₁, -, hinv, hd, hstep'⟩ := h.exists_step raises hs e
  obtain rfl := Option.some_inj.mp (hstep'.symm.trans hstep)
  refine ⟨hinv, List.mem_append_left _ hlost.due, fun hi => ?_, hlost.lt.trans_le hd.le,
    gone_of_gone hd hlost.lt hlost.gone⟩
  rcases List.mem_append.mp hi with hi | hi
  · exact hlost.not_called hi
  · obtain ⟨p, hp⟩ := hd.stored i (mem_of_mem_untilRaise hi)
    exact hlost.gone p hp

theorem lost_run (hs : Inv s.state) (hlost : Lost num owner count i s) {es : List ε}
    {s' : Logged τ ι} (hrun : es.foldlM (Logged.step next raises) s = some s') :
    Lost num owner count i s' := by
  have hstep := fun s e s' (hs : Inv s.state ∧ Lost num owner count i s) (_ : True)
    (hstep : Logged.step next raises s e = some s') => h.lost_step raises hs.1 hs.2 e hstep
  exact (PartialMachine.run_invariant hstep ⟨hs, hlost⟩ (PartialMachine.meets_true _ es) hrun).2

/-- A step that is not orderly loses a callback. -/
theorem exists_lost (hs : Sound Inv num owner count s) {e : ε} (hnot : ¬ Orderly next raises s e)
    {s' : Logged τ ι} (hstep : Logged.step next raises s e = some s') :
    ∃ i, Lost num owner count i s' := by
  obtain ⟨batch, s₁, hnext, -, hd, hstep'⟩ := h.exists_step raises hs.inv e
  obtain rfl := Option.some_inj.mp (hstep'.symm.trans hstep)
  have hbatch : ¬ batch.Pairwise fun i j => raises i → raises j := by
    intro hpairwise
    apply hnot
    intro r hr
    obtain rfl := Option.some_inj.mp (hnext.symm.trans hr)
    exact hpairwise
  obtain ⟨j, hj, hraises, hcalled⟩ := exists_not_called hd.nodup hbatch
  obtain ⟨p, hp⟩ := hd.stored j hj
  refine ⟨j, ?_, fun hmem => ?_, (h.lt _ p _ hs.inv hp).trans_le hd.le, hd.gone j hj⟩
  · exact List.mem_append_right _ (List.mem_filter.mpr ⟨hj, by simp [hraises]⟩)
  · rcases List.mem_append.mp hmem with hmem | hmem
    · exact hs.gone j hmem p hp
    · exact hcalled (List.mem_map_of_mem hmem)

/-- So does a run with such a step. -/
theorem exists_lost_run (hs : Sound Inv num owner count s) {es : List ε}
    (hnot : ¬ PartialMachine.Meets (Logged.step next raises) (Orderly next raises) s es)
    {s' : Logged τ ι} (hrun : es.foldlM (Logged.step next raises) s = some s') :
    ∃ i, Lost num owner count i s' := by
  induction es generalizing s with
  | nil => exact absurd trivial hnot
  | cons e es ih =>
    obtain ⟨s₁, hstep, hs₁⟩ := h.sound_step raises hs e
    rw [List.foldlM_cons, hstep] at hrun
    by_cases horderly : Orderly next raises s e
    · refine ih hs₁ (fun hmeets => hnot ⟨horderly, fun s₂ hs₂ => ?_⟩) hrun
      obtain rfl := Option.some_inj.mp (hstep.symm.trans hs₂)
      exact hmeets
    · obtain ⟨i, hlost⟩ := h.exists_lost raises hs horderly hstep
      exact ⟨i, h.lost_run raises hs₁.inv hlost hrun⟩

/-- An orderly step calls all that do not raise. -/
theorem due_called_step (hs : Inv s.state) (hcalled : ∀ i ∈ s.due, i ∈ s.called) {e : ε}
    (horderly : Orderly next raises s e) {s' : Logged τ ι}
    (hstep : Logged.step next raises s e = some s') :
    Inv s'.state ∧ ∀ i ∈ s'.due, i ∈ s'.called := by
  obtain ⟨batch, s₁, hnext, hinv, -, hstep'⟩ := h.exists_step raises hs e
  obtain rfl := Option.some_inj.mp (hstep'.symm.trans hstep)
  refine ⟨hinv, fun i hi => ?_⟩
  rcases List.mem_append.mp hi with hi | hi
  · exact List.mem_append_left _ (hcalled i hi)
  · obtain ⟨hbatch, hraises⟩ := List.mem_filter.mp hi
    have hpairwise := horderly (batch, s₁) hnext
    exact List.mem_append_right _ (mem_untilRaise hpairwise hbatch (by simpa using hraises))

/-- **When no callback is lost.** A run goes to the end; if all its steps are orderly, every
callback that does not raise is called in its batch; and every such callback is called then or in
some continuation of the run only if all its steps are orderly. -/
theorem called_iff {s : τ} (hs : Inv s) (es : List ε) :
    ∃ s', es.foldlM (Logged.step next raises) (Logged.init s) = some s' ∧
      (PartialMachine.Meets (Logged.step next raises) (Orderly next raises) (Logged.init s) es →
        ∀ i ∈ s'.due, i ∈ s'.called) ∧
      (s'.Kept next raises ↔ PartialMachine.Meets (Logged.step next raises) (Orderly next raises)
        (Logged.init s) es) := by
  have hinit : Sound Inv num owner count (Logged.init s : Logged τ ι) :=
    ⟨hs, fun _ hi => absurd hi List.not_mem_nil, fun _ hi => absurd hi List.not_mem_nil⟩
  obtain ⟨s', hrun, hsound⟩ := PartialMachine.exists_run
    (fun s e (hs : Sound Inv num owner count s) _ => h.sound_step raises hs e) hinit
    (PartialMachine.meets_true _ es)
  have hcalled : PartialMachine.Meets (Logged.step next raises) (Orderly next raises)
      (Logged.init s) es → ∀ i ∈ s'.due, i ∈ s'.called := fun hmeets =>
    (PartialMachine.run_invariant
      (fun s e s' (hs : Inv s.state ∧ ∀ i ∈ s.due, i ∈ s.called) horderly hstep =>
        h.due_called_step raises hs.1 hs.2 horderly hstep)
      ⟨hs, fun _ hi => absurd hi List.not_mem_nil⟩ hmeets hrun).2
  refine ⟨s', hrun, hcalled, fun hlater => ?_, fun hmeets i hi => ?_⟩
  swap
  · exact ⟨[], s', rfl, hcalled hmeets i hi⟩
  by_contra hnot
  obtain ⟨i, hlost⟩ := h.exists_lost_run raises hinit hnot hrun
  obtain ⟨es', s'', hrun', hi⟩ := hlater i hlost.due
  exact (h.lost_run raises hsound.inv hlost hrun').not_called hi

end Dispatches

end CodeTest
