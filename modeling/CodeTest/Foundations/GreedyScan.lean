import Mathlib.Data.List.Infix
import Mathlib.Tactic

/-!
# Scanning for words without going back

A scan goes down a text as long as what it has read since it started afresh begins some word of a
list, and answers when it can go no further: if it stands on a word the answer is `true`, and if not
it starts afresh, either with the letter that did not fit or after it. `Scan.eq_occurs_iff` says for
which lists of words this finds exactly the texts in which a word occurs. Two things must not be:
that a beginning of a word, itself not a word, has a word inside (`NoneInside`), and that a word
begins inside such a beginning and goes on where the scan starts afresh (`NoneAcross`).
-/

namespace CodeTest

variable {α : Type*}

/-- `p` begins a word of the list. -/
def Begins (W : List (List α)) (p : List α) : Prop := p = [] ∨ ∃ w ∈ W, p <+: w

/-- A word of the list occurs in the text. -/
def Occurs (W : List (List α)) (x : List α) : Prop := ∃ w ∈ W, w <:+: x

/-- The answer `f` to a text is found by scanning. With `keep`, a scan that does not stand at the
start of a word starts afresh with the letter that did not fit; without, it drops that letter. -/
structure Scan (W : List (List α)) (keep : Prop) [Decidable keep] (f : List α → Prop) : Prop where
  last : ∀ p, Begins W p → (f p ↔ p ∈ W)
  hit : ∀ p c r, Begins W p → ¬ Begins W (p ++ [c]) → p ∈ W → f (p ++ c :: r)
  miss : ∀ p c r, Begins W p → ¬ Begins W (p ++ [c]) → p ∉ W →
    (f (p ++ c :: r) ↔ f (if keep ∧ p ≠ [] then c :: r else r))

/-- A beginning of a word that is not a word has no word inside. -/
def NoneInside (W : List (List α)) : Prop := ∀ p, Begins W p → p ∉ W → ¬ Occurs W p

/-- When a scan gives up the beginning `p` at the letter `c`, a word that begins inside `p` and goes
over `c` has another word in what it has after the fresh start. -/
def NoneAcross (W : List (List α)) (keep : Prop) [Decidable keep] : Prop :=
  ∀ p s c t, Begins W p → p ∉ W → ¬ Begins W (p ++ [c]) → s <:+ p → s ≠ p → (keep → s ≠ []) →
    s ++ c :: t ∈ W → Occurs W (if keep then c :: t else t)

variable {W : List (List α)} {keep : Prop} [Decidable keep] {f : List α → Prop} {x y p : List α}

theorem begins_of_mem {w : List α} (hw : w ∈ W) (hp : p <+: w) : Begins W p := .inr ⟨w, hw, hp⟩

theorem Occurs.mono (h : Occurs W x) (hxy : x <:+: y) : Occurs W y :=
  let ⟨w, hw, hwx⟩ := h
  ⟨w, hw, hwx.trans hxy⟩

/-- A text is a beginning of a word, or a longest one followed by a letter that does not fit. -/
theorem exists_longest (W : List (List α)) (p x : List α) (hp : Begins W p) :
    Begins W (p ++ x) ∨
      ∃ u c r, x = u ++ c :: r ∧ Begins W (p ++ u) ∧ ¬ Begins W (p ++ u ++ [c]) := by
  induction x generalizing p with
  | nil => exact .inl (by rwa [List.append_nil])
  | cons c r ih =>
    by_cases hc : Begins W (p ++ [c])
    · rcases ih (p ++ [c]) hc with h | ⟨u, c', r', rfl, hu, hc'⟩
      · exact .inl (by simpa using h)
      · exact .inr ⟨c :: u, c', r', rfl, by simpa using hu, by simpa using hc'⟩
    · exact .inr ⟨[], c, r, rfl, by rwa [List.append_nil], by rwa [List.append_nil]⟩

/-- What occurs in a text whose first beginning is given up occurs after the fresh start. -/
theorem occurs_restart (hne : [] ∉ W) (hin : NoneInside W) (hacross : NoneAcross W keep) {c : α}
    {r : List α} (hp : Begins W p) (hc : ¬ Begins W (p ++ [c])) (hpW : p ∉ W)
    (h : Occurs W (p ++ c :: r)) : Occurs W (if keep ∧ p ≠ [] then c :: r else r) := by
  obtain ⟨w, hw, hwx⟩ := h
  -- a word that goes over `c` from inside `p`
  have hover : ∀ s t, w = s ++ c :: t → s <:+ p → (keep → s ≠ []) →
      Occurs W (if keep then c :: t else t) := by
    rintro s t rfl hs hkeep
    refine hacross p s c t hp hpW hc hs ?_ hkeep hw
    rintro rfl
    exact hc (begins_of_mem hw ⟨t, by simp⟩)
  rcases List.infix_append_iff_ne_nil.mp hwx with hwp | hwr | ⟨s, l, hs, hl, rfl, hsp, hlr⟩
  · exact absurd ⟨w, hw, hwp⟩ (hin p hp hpW)
  · by_cases hkeep : keep ∧ p ≠ []
    · rw [if_pos hkeep]
      exact ⟨w, hw, hwr⟩
    · rw [if_neg hkeep]
      rcases List.infix_cons_iff.mp hwr with hpre | hinf
      · obtain ⟨a, t, rfl⟩ := List.exists_cons_of_ne_nil (fun h : w = [] => hne (h ▸ hw))
        obtain ⟨rfl, ht⟩ := List.cons_prefix_cons.mp hpre
        have hp₀ : p ≠ [] := by
          rintro rfl
          exact hc (begins_of_mem hw (by simp))
        have hk : ¬ keep := fun hk => hkeep ⟨hk, hp₀⟩
        have := hover [] t rfl List.nil_suffix fun h => absurd h hk
        rw [if_neg hk] at this
        exact this.mono ht.isInfix
      · exact ⟨w, hw, hinf⟩
  · obtain ⟨a, t, rfl⟩ := List.exists_cons_of_ne_nil hl
    obtain ⟨rfl, ht⟩ := List.cons_prefix_cons.mp hlr
    have hp₀ : p ≠ [] := by
      rintro rfl
      exact hs (List.suffix_nil.mp hsp)
    have := hover s t rfl hsp fun _ => hs
    by_cases hk : keep
    · rw [if_pos hk] at this
      rw [if_pos ⟨hk, hp₀⟩]
      exact this.mono hlr.isInfix
    · rw [if_neg hk] at this
      rw [if_neg fun h => hk h.1]
      exact this.mono ht.isInfix

/-- **When a scan finds exactly what occurs.** -/
theorem Scan.eq_occurs_iff (h : Scan W keep f) (hne : [] ∉ W) :
    (∀ x, f x ↔ Occurs W x) ↔ NoneInside W ∧ NoneAcross W keep := by
  constructor
  · intro hall
    constructor
    · intro p hp hpW hocc
      exact hpW ((h.last p hp).mp ((hall p).mpr hocc))
    · intro p s c t hp hpW hc hs hsp hkeep hw
      have hocc : Occurs W (p ++ c :: t) := by
        obtain ⟨u, rfl⟩ := hs
        exact ⟨_, hw, u, [], by simp⟩
      have hf := (h.miss p c t hp hc hpW).mp ((hall _).mpr hocc)
      have hp₀ : p ≠ [] := by
        rintro rfl
        exact hsp (List.suffix_nil.mp hs)
      by_cases hk : keep
      · rw [if_pos ⟨hk, hp₀⟩] at hf
        rw [if_pos hk]
        exact (hall _).mp hf
      · rw [if_neg fun h => hk h.1] at hf
        rw [if_neg hk]
        exact (hall _).mp hf
  · rintro ⟨hin, hacross⟩ x
    induction hn : x.length using Nat.strong_induction_on generalizing x with
    | _ n ih =>
      subst hn
      rcases exists_longest W [] x (.inl rfl) with hx | ⟨p, c, r, rfl, hp, hc⟩
      · rw [h.last x hx]
        exact ⟨fun hW => ⟨x, hW, List.infix_rfl⟩, fun hocc => by_contra fun hW => hin x hx hW hocc⟩
      · by_cases hpW : p ∈ W
        · exact iff_of_true (h.hit p c r hp hc hpW) ⟨p, hpW, List.infix_append' [] p (c :: r)⟩
        · rw [h.miss p c r hp hc hpW]
          have hinfix : (if keep ∧ p ≠ [] then c :: r else r) <:+: p ++ c :: r := by
            split_ifs
            · exact (List.suffix_append p _).isInfix
            · exact ⟨p ++ [c], [], by simp⟩
          rw [ih _ ?_ _ rfl]
          · exact ⟨fun hocc => hocc.mono hinfix, occurs_restart hne hin hacross hp hc hpW⟩
          · split_ifs with hk
            · have := List.length_pos_iff.mpr hk.2
              simp only [List.length_append]
              omega
            · simp only [List.length_append, List.length_cons]
              omega

end CodeTest
