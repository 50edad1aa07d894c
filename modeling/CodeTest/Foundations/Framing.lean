import Mathlib.Data.List.Basic

/-!
# Messages cut by a delimiter

A stream of messages is the concatenation of the messages, each followed by a delimiter `d`
(`frames`). A reader that finds the next border in what it has got so far takes `frameSize` values:
up to the first delimiter and with it, or everything when there is none. The border it finds in a
prefix of a stream of messages without `d` is the border of the first message as soon as the prefix
has a delimiter (`exists_frame_of_append_eq_frames`).
-/

namespace CodeTest.Framing

variable {α : Type*}

/-- The messages, each followed by the delimiter. -/
def frames (d : α) (ms : List (List α)) : List α := ms.flatMap (· ++ [d])

@[simp] theorem frames_nil (d : α) : frames d [] = [] := rfl

@[simp] theorem frames_cons (d : α) (m : List α) (ms : List (List α)) :
    frames d (m :: ms) = m ++ d :: frames d ms := by
  simp [frames]

/-- A prefix of a stream that has a delimiter has the whole first message. -/
theorem exists_frame_of_append_eq_frames {d : α} {q r : List α} {ms : List (List α)}
    (hms : ∀ m ∈ ms, d ∉ m) (h : q ++ r = frames d ms) (hq : d ∈ q) :
    ∃ m ms' rest, ms = m :: ms' ∧ q = m ++ d :: rest ∧ rest ++ r = frames d ms' := by
  cases ms with
  | nil =>
    rw [frames_nil, List.append_eq_nil_iff] at h
    rw [h.1] at hq
    exact absurd hq List.not_mem_nil
  | cons m ms' =>
    have hm : d ∉ m := hms m (by simp)
    rw [frames_cons, List.append_eq_append_iff] at h
    rcases h with ⟨a, rfl, -⟩ | ⟨c, rfl, hc⟩
    · exact absurd (List.mem_append_left a hq) hm
    · rcases List.cons_eq_append_iff.mp hc with ⟨rfl, -⟩ | ⟨rest, rfl, hrest⟩
      · rw [List.append_nil] at hq
        exact absurd hq hm
      · exact ⟨m, ms', rest, rfl, rfl, hrest.symm⟩

variable [DecidableEq α] {d : α}

/-- The length of the first frame of `q`, or of `q` when it has no delimiter. -/
def frameSize (d : α) (q : List α) : ℕ := (q.takeWhile (· ≠ d)).length + if d ∈ q then 1 else 0

theorem takeWhile_ne_of_not_mem {m : List α} (h : d ∉ m) (l : List α) :
    (m ++ l).takeWhile (· ≠ d) = m ++ l.takeWhile (· ≠ d) :=
  List.takeWhile_append_of_pos fun a ha => by
    simpa using fun heq : a = d => h (heq ▸ ha)

theorem frameSize_of_not_mem {q : List α} (h : d ∉ q) : frameSize d q = q.length := by
  have := takeWhile_ne_of_not_mem h []
  rw [List.append_nil, List.takeWhile_nil, List.append_nil] at this
  rw [frameSize, this, if_neg h, Nat.add_zero]

theorem frameSize_frame {m : List α} (h : d ∉ m) (l : List α) :
    frameSize d (m ++ d :: l) = m.length + 1 := by
  rw [frameSize, takeWhile_ne_of_not_mem h, if_pos (by simp)]
  simp

theorem frameSize_append_of_not_mem {m : List α} (h : d ∉ m) (l : List α) :
    frameSize d (m ++ l) = m.length + frameSize d l := by
  rw [frameSize, takeWhile_ne_of_not_mem h, frameSize, List.length_append, Nat.add_assoc]
  simp [h]

theorem frameSize_append_of_mem {q : List α} (h : d ∈ q) (l : List α) :
    frameSize d (q ++ l) = frameSize d q := by
  obtain ⟨m, k, rfl, hm⟩ := List.eq_append_cons_of_mem h
  rw [List.append_assoc, List.cons_append, frameSize_frame hm, frameSize_frame hm]

theorem frameSize_le_length (q : List α) : frameSize d q ≤ q.length := by
  by_cases h : d ∈ q
  · obtain ⟨m, l, rfl, hm⟩ := List.eq_append_cons_of_mem h
    rw [frameSize_frame hm, List.length_append, List.length_cons]
    omega
  · exact Nat.le_of_eq (frameSize_of_not_mem h)

/-- The delimiters in a stream of messages without delimiter are as many as the messages. -/
theorem count_frames {ms : List (List α)} (h : ∀ m ∈ ms, d ∉ m) :
    (frames d ms).count d = ms.length := by
  induction ms with
  | nil => rfl
  | cons m ms ih =>
    rw [frames_cons, List.count_append, List.count_eq_zero.mpr (h m (by simp)),
      List.count_cons_self,
      ih fun m' hm' => h m' (by simp [hm']), List.length_cons, Nat.zero_add]

end CodeTest.Framing
