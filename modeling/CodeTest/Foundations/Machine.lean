import Mathlib.Data.List.Basic

/-!
# Runs of machines

A machine answers every event with an output and a new state. The state after a list of events is
`run`, the list of answers is `outputs`, and `Along P` says that the condition `P`, on an event and
the state it meets, holds at every step of a run. An invariant that every step under `P` keeps holds
after every run along `P` (`run_invariant`), and conditions can be compared under an invariant
(`along_iff_along`, `along_and_last_iff`); a relation between the states of two machines that
every step under `P` keeps, with related answers, makes their outputs related (`simulation`).

A partial machine has no answers, and may have no next state: `Meets P` says that `P` holds at every
step of a run as far as it goes, `run_invariant` is as above, `length_le_measure` bounds the length
of a run, `exists_run` says that a run along an invariant goes to the end, and `isSome_run_iff` when
a run does.
-/

namespace CodeTest

/-- A machine with states `σ`, events `ε` and outputs `ο`. -/
abbrev Machine (σ ε ο : Type*) := σ → ε → ο × σ

namespace Machine

variable {σ τ ε ο : Type*} (step : Machine σ ε ο)

/-- The state after the events `es`. -/
def run : σ → List ε → σ
  | s, [] => s
  | s, e :: es => run (step s e).2 es

/-- The answers to the events `es`. -/
def outputs : σ → List ε → List ο
  | _, [] => []
  | s, e :: es => (step s e).1 :: outputs (step s e).2 es

/-- Every event of `es` meets a state with which it satisfies `P`. -/
def Along (P : σ → ε → Prop) : σ → List ε → Prop
  | _, [] => True
  | s, e :: es => P s e ∧ Along P (step s e).2 es

instance decidableAlong (P : σ → ε → Prop) [∀ s e, Decidable (P s e)] :
    ∀ s es, Decidable (Along step P s es)
  | _, [] => inferInstanceAs (Decidable True)
  | s, e :: es =>
    have := decidableAlong P (step s e).2 es
    inferInstanceAs (Decidable (P s e ∧ Along step P (step s e).2 es))

@[simp] theorem run_nil (s : σ) : run step s [] = s := rfl

@[simp] theorem run_cons (s : σ) (e : ε) (es : List ε) :
    run step s (e :: es) = run step (step s e).2 es := rfl

@[simp] theorem outputs_nil (s : σ) : outputs step s [] = [] := rfl

@[simp] theorem outputs_cons (s : σ) (e : ε) (es : List ε) :
    outputs step s (e :: es) = (step s e).1 :: outputs step (step s e).2 es := rfl

@[simp] theorem along_nil (P : σ → ε → Prop) (s : σ) : Along step P s [] := trivial

@[simp] theorem along_cons (P : σ → ε → Prop) (s : σ) (e : ε) (es : List ε) :
    Along step P s (e :: es) ↔ P s e ∧ Along step P (step s e).2 es := Iff.rfl

variable {step}

theorem run_append (s : σ) (es es' : List ε) :
    run step s (es ++ es') = run step (run step s es) es' := by
  induction es generalizing s with
  | nil => rfl
  | cons e es ih => exact ih _

theorem Along.of_append {P : σ → ε → Prop} {s : σ} {es es' : List ε}
    (h : Along step P s (es ++ es')) : Along step P s es := by
  induction es generalizing s with
  | nil => trivial
  | cons e es ih => exact ⟨h.1, ih h.2⟩

/-- A condition on the events alone comes with one on the steps. -/
theorem Along.and_of_forall {P : σ → ε → Prop} {Q : ε → Prop} {s : σ} {es : List ε}
    (h : Along step P s es) (hQ : ∀ e ∈ es, Q e) : Along step (fun s e => P s e ∧ Q e) s es := by
  induction es generalizing s with
  | nil => trivial
  | cons e es ih =>
    rw [List.forall_mem_cons] at hQ
    exact ⟨⟨h.1, hQ.1⟩, ih h.2 hQ.2⟩

theorem along_true (s : σ) (es : List ε) : Along step (fun _ _ => True) s es := by
  induction es generalizing s with
  | nil => trivial
  | cons e es ih => exact ⟨trivial, ih _⟩

/-- What holds at the start and is kept by every step under `P` holds after every run along `P`. -/
theorem run_invariant {P : σ → ε → Prop} {Inv : σ → Prop}
    (hstep : ∀ s e, Inv s → P s e → Inv (step s e).2) {s : σ} {es : List ε} (h : Inv s)
    (hP : Along step P s es) : Inv (run step s es) := by
  induction es generalizing s with
  | nil => exact h
  | cons e es ih => exact ih (hstep s e h hP.1) hP.2

/-- Two conditions that are the same under an invariant hold along the same runs. -/
theorem along_iff_along {P Q : σ → ε → Prop} {Inv : σ → Prop}
    (hiff : ∀ s e, Inv s → (P s e ↔ Q s e)) (hstep : ∀ s e, Inv s → Q s e → Inv (step s e).2)
    {s : σ} {es : List ε} (h : Inv s) : Along step P s es ↔ Along step Q s es := by
  induction es generalizing s with
  | nil => exact Iff.rfl
  | cons e es ih =>
    rw [along_cons, along_cons, hiff s e h]
    exact and_congr_right fun hQ => ih (hstep s e h hQ)

/-- An invariant that is part of the condition `P` holds up to the end of a run along `P` if the
condition `Q` says when it is kept. -/
theorem along_and_last_iff {P Q : σ → ε → Prop} {Inv : σ → Prop} (hP : ∀ s e, P s e → Inv s)
    (hiff : ∀ s e, Inv s → (P s e ∧ Inv (step s e).2 ↔ Q s e)) {s : σ} {es : List ε} (h : Inv s) :
    Along step P s es ∧ Inv (run step s es) ↔ Along step Q s es := by
  induction es generalizing s with
  | nil => simpa using h
  | cons e es ih =>
    rw [along_cons, along_cons, run_cons]
    constructor
    · rintro ⟨⟨hPe, hall⟩, hlast⟩
      have hnext : Inv (step s e).2 := by
        cases es with
        | nil => exact hlast
        | cons e' es => exact hP _ e' hall.1
      exact ⟨(hiff s e h).mp ⟨hPe, hnext⟩, (ih hnext).mp ⟨hall, hlast⟩⟩
    · rintro ⟨hQ, hall⟩
      obtain ⟨hPe, hnext⟩ := (hiff s e h).mpr hQ
      obtain ⟨hrest, hlast⟩ := (ih hnext).mpr hall
      exact ⟨⟨hPe, hrest⟩, hlast⟩

/-- Two machines that give related answers under `P` in related states, and stay related, have
related outputs along `P` and end in related states. -/
theorem simulation {ο' : Type*} {step' : Machine τ ε ο'} {P : σ → ε → Prop} {R : σ → τ → Prop}
    {Q : ο → ο' → Prop}
    (hstep : ∀ s t e, R s t → P s e →
      Q (step s e).1 (step' t e).1 ∧ R (step s e).2 (step' t e).2)
    {s : σ} {t : τ} {es : List ε} (h : R s t) (hP : Along step P s es) :
    List.Forall₂ Q (outputs step s es) (outputs step' t es) ∧
      R (run step s es) (run step' t es) := by
  induction es generalizing s t with
  | nil => exact ⟨.nil, h⟩
  | cons e es ih =>
    obtain ⟨hout, hrel⟩ := hstep s t e h hP.1
    obtain ⟨houts, hlast⟩ := ih hrel hP.2
    exact ⟨.cons hout houts, hlast⟩

end Machine

namespace PartialMachine

variable {σ ε : Type} (step : σ → ε → Option σ)

/-- Every event of `es` meets a state with which it satisfies `P`, as long as there is a state. -/
def Meets (P : σ → ε → Prop) : σ → List ε → Prop
  | _, [] => True
  | s, e :: es => P s e ∧ ∀ s' ∈ step s e, Meets P s' es

instance decidableMeets (P : σ → ε → Prop) [∀ s e, Decidable (P s e)] :
    ∀ s es, Decidable (Meets step P s es)
  | _, [] => inferInstanceAs (Decidable True)
  | s, e :: es =>
    have : Decidable (∀ s' ∈ step s e, Meets step P s' es) :=
      match step s e with
      | none => isTrue (by simp)
      | some s' =>
        have := decidableMeets P s' es
        decidable_of_iff (Meets step P s' es) (by simp)
    inferInstanceAs (Decidable (P s e ∧ ∀ s' ∈ step s e, Meets step P s' es))

variable {step}

theorem meets_true (s : σ) (es : List ε) : Meets step (fun _ _ => True) s es := by
  induction es generalizing s with
  | nil => trivial
  | cons e es ih => exact ⟨trivial, fun s' _ => ih s'⟩

theorem Meets.mono {P Q : σ → ε → Prop} (hPQ : ∀ s e, P s e → Q s e) {s : σ} {es : List ε}
    (hP : Meets step P s es) : Meets step Q s es := by
  induction es generalizing s with
  | nil => trivial
  | cons e es ih => exact ⟨hPQ s e hP.1, fun s' hs' => ih (hP.2 s' hs')⟩

/-- Two conditions are met together. -/
theorem Meets.and {P Q : σ → ε → Prop} {s : σ} {es : List ε} (hP : Meets step P s es)
    (hQ : Meets step Q s es) : Meets step (fun s e => P s e ∧ Q s e) s es := by
  induction es generalizing s with
  | nil => trivial
  | cons e es ih =>
    exact ⟨⟨hP.1, hQ.1⟩, fun s' hs' => ih (hP.2 s' hs') (hQ.2 s' hs')⟩

/-- A condition on the events alone. -/
theorem meets_of_forall {P : ε → Prop} {s : σ} {es : List ε} (h : ∀ e ∈ es, P e) :
    Meets step (fun _ e => P e) s es := by
  induction es generalizing s with
  | nil => trivial
  | cons e es ih =>
    rw [List.forall_mem_cons] at h
    exact ⟨h.1, fun _ _ => ih h.2⟩

/-- What an event must meet for a step to go on is met by every event of a run to its end. -/
theorem forall_mem_of_run {P : ε → Prop} (hstep : ∀ s e s', step s e = some s' → P e) {s s' : σ}
    {es : List ε} (hrun : es.foldlM step s = some s') : ∀ e ∈ es, P e := by
  induction es generalizing s with
  | nil => simp
  | cons e es ih =>
    rw [List.foldlM_cons] at hrun
    obtain ⟨s₁, hs₁, hrun⟩ := Option.bind_eq_some_iff.mp hrun
    rw [List.forall_mem_cons]
    exact ⟨hstep s e s₁ hs₁, ih hrun⟩

/-- What holds at the start and is kept by every step under `P` holds after every run along `P`. -/
theorem run_invariant {P : σ → ε → Prop} {Inv : σ → Prop}
    (hstep : ∀ s e s', Inv s → P s e → step s e = some s' → Inv s') {s s' : σ} {es : List ε}
    (h : Inv s) (hP : Meets step P s es) (hrun : es.foldlM step s = some s') : Inv s' := by
  induction es generalizing s with
  | nil =>
    cases hrun
    exact h
  | cons e es ih =>
    rw [List.foldlM_cons] at hrun
    obtain ⟨s₁, hs₁, hrun⟩ := Option.bind_eq_some_iff.mp hrun
    exact ih (hstep s e s₁ h hP.1 hs₁) (hP.2 s₁ hs₁) hrun

/-- If under an invariant a step goes on exactly where `P` holds, then a run goes to its end exactly
along `P`. -/
theorem isSome_run_iff {P : σ → ε → Prop} {Inv : σ → Prop}
    (hiff : ∀ s e, Inv s → ((step s e).isSome ↔ P s e))
    (hstep : ∀ s e s', Inv s → step s e = some s' → Inv s') {s : σ} {es : List ε} (h : Inv s) :
    (es.foldlM step s).isSome ↔ Meets step P s es := by
  induction es generalizing s with
  | nil => exact iff_of_true rfl trivial
  | cons e es ih =>
    rw [List.foldlM_cons, Meets, ← hiff s e h]
    cases hs : step s e with
    | none => simp
    | some s' => simpa using ih (hstep s e s' h hs)

/-- If every step under `P` lowers a measure, then a run along `P` is not longer than it. -/
theorem length_le_measure {P : σ → ε → Prop} {Inv : σ → Prop} {measure : σ → ℕ}
    (hstep : ∀ s e s', Inv s → P s e → step s e = some s' → Inv s' ∧ measure s' < measure s)
    {s s' : σ} {es : List ε} (h : Inv s) (hP : Meets step P s es)
    (hrun : es.foldlM step s = some s') : es.length ≤ measure s := by
  induction es generalizing s with
  | nil => exact Nat.zero_le _
  | cons e es ih =>
    rw [List.foldlM_cons] at hrun
    obtain ⟨s₁, hs₁, hrun⟩ := Option.bind_eq_some_iff.mp hrun
    obtain ⟨h₁, hlt⟩ := hstep s e s₁ h hP.1 hs₁
    exact Nat.lt_of_le_of_lt (ih h₁ (hP.2 s₁ hs₁) hrun) hlt

/-- If every step under `P` from a state with the invariant leads to such a state, so does every
run. -/
theorem exists_run {P : σ → ε → Prop} {Inv : σ → Prop}
    (hstep : ∀ s e, Inv s → P s e → ∃ s', step s e = some s' ∧ Inv s') {s : σ} {es : List ε}
    (h : Inv s) (hP : Meets step P s es) : ∃ s', es.foldlM step s = some s' ∧ Inv s' := by
  induction es generalizing s with
  | nil => exact ⟨s, rfl, h⟩
  | cons e es ih =>
    obtain ⟨s₁, hs₁, h₁⟩ := hstep s e h hP.1
    obtain ⟨s', hs', h'⟩ := ih h₁ (hP.2 s₁ hs₁)
    refine ⟨s', ?_, h'⟩
    rw [List.foldlM_cons, hs₁]
    exact hs'

end PartialMachine

end CodeTest
