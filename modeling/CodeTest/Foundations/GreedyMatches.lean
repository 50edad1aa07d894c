import CodeTest.Foundations.GreedyScan

/-!
# What a scan gives up before its matches

`greedyMatches` follows a scan over the whole text: it lists the matches, each with the letters of
the beginnings that were given up since the match before. A match is a word that occurs in the text
(`mem_greedyMatches`). No letters are left over if every beginning of a word that is not a word, but
the empty one, goes on with every letter (`Endless.left_nil`); for any other list some text has one
match, after letters that were given up (`exists_left`).
-/

namespace CodeTest

variable {α : Type*} {W : List (List α)} {keep : Bool} {p u w x : List α} {c : α}

/-- A beginning of a word that is not a word goes on with every letter. -/
def Endless (W : List (List α)) : Prop :=
  ∀ p, p ≠ [] → Begins W p → p ∉ W → ∀ c, Begins W (p ++ [c])

/-- The word `w` of the list occurs in the text. -/
def OccursIn (W : List (List α)) (x w : List α) : Prop := w ∈ W ∧ w <:+: x

theorem Begins.of_append (h : Begins W (p ++ u)) : Begins W p := by
  rcases h with h | ⟨w, hw, hpw⟩
  · exact .inl (List.append_eq_nil_iff.mp h).1
  · exact .inr ⟨w, hw, (List.prefix_append p u).trans hpw⟩

section

variable [DecidableEq α]

instance decidableBegins (W : List (List α)) (p : List α) : Decidable (Begins W p) :=
  inferInstanceAs (Decidable (_ ∨ _))

/-- Where a scan starts afresh at a letter that does not fit. -/
def fresh (W : List (List α)) (keep : Bool) (c : α) : List α :=
  if keep = true ∧ Begins W [c] then [c] else []

/-- The matches of a scan that has read `p` since it started afresh, and given up beginnings with
the letters `g` since the last match. Each comes with the letters given up before it. -/
def matchesFrom (W : List (List α)) (keep : Bool) :
    List α → List α → List α → List (List α × List α)
  | g, p, [] => if p ∈ W then [(g, p)] else []
  | g, p, c :: x =>
    if Begins W (p ++ [c]) then matchesFrom W keep g (p ++ [c]) x
    else if p ∈ W then (g, p) :: matchesFrom W keep [] (fresh W keep c) x
    else matchesFrom W keep (g ++ p) (fresh W keep c) x

def greedyMatches (W : List (List α)) (keep : Bool) (x : List α) : List (List α × List α) :=
  matchesFrom W keep [] [] x

theorem begins_fresh (W : List (List α)) (keep : Bool) (c : α) : Begins W (fresh W keep c) := by
  unfold fresh
  split_ifs with h
  · exact h.2
  · exact .inl rfl

theorem fresh_suffix (W : List (List α)) (keep : Bool) (c : α) : fresh W keep c <:+ [c] := by
  unfold fresh
  split_ifs
  · exact List.suffix_rfl
  · exact List.nil_suffix

/-- A match is a word of the list that occurs in what is read. -/
theorem mem_matchesFrom {g : List α} {gm : List α × List α}
    (h : gm ∈ matchesFrom W keep g p x) : OccursIn W (p ++ x) gm.2 := by
  induction x generalizing g p with
  | nil =>
    unfold matchesFrom at h
    split_ifs at h with hp
    · rw [List.mem_singleton.mp h, List.append_nil]
      exact ⟨hp, List.infix_rfl⟩
    · cases h
  | cons c x ih =>
    have hrest : ∀ {g'}, gm ∈ matchesFrom W keep g' (fresh W keep c) x →
        OccursIn W (p ++ c :: x) gm.2 := by
      intro g' hmem
      obtain ⟨hW, hinfix⟩ := ih hmem
      obtain ⟨l, hl⟩ := fresh_suffix W keep c
      refine ⟨hW, hinfix.trans ⟨p ++ l, [], ?_⟩⟩
      rw [List.append_nil, List.append_assoc, ← List.append_assoc l, hl, List.singleton_append]
    rw [matchesFrom] at h
    split_ifs at h with hc hp
    · simpa using ih h
    · rcases List.mem_cons.mp h with rfl | h
      · exact ⟨hp, (List.prefix_append p _).isInfix⟩
      · exact hrest h
    · exact hrest h

theorem mem_greedyMatches {gm : List α × List α} (h : gm ∈ greedyMatches W keep x) :
    OccursIn W x gm.2 :=
  mem_matchesFrom h

/-- A scan goes down as long as it reads a beginning of a word. -/
theorem matchesFrom_append (g : List α) (h : Begins W (p ++ u)) (x : List α) :
    matchesFrom W keep g p (u ++ x) = matchesFrom W keep g (p ++ u) x := by
  induction u generalizing p with
  | nil => simp
  | cons c u ih =>
    have hc : Begins W (p ++ [c]) := Begins.of_append (u := u) (by simpa using h)
    rw [List.cons_append, matchesFrom, if_pos hc, ih (by simpa using h)]
    simp

/-- Nothing is given up over an endless list. -/
theorem Endless.left_nil (h : Endless W) {gm : List α × List α} (hp : Begins W p)
    (hgm : gm ∈ matchesFrom W keep [] p x) : gm.1 = [] := by
  induction x generalizing p with
  | nil =>
    unfold matchesFrom at hgm
    split_ifs at hgm
    · rw [List.mem_singleton.mp hgm]
    · cases hgm
  | cons c x ih =>
    rw [matchesFrom] at hgm
    split_ifs at hgm with hc hpW
    · exact ih hc hgm
    · rcases List.mem_cons.mp hgm with rfl | hgm
      · rfl
      · exact ih (begins_fresh W keep c) hgm
    · have hp₀ : p = [] := by
        by_contra hne
        exact hc (h p hne hp hpW c)
      rw [hp₀, List.append_nil] at hgm
      exact ih (begins_fresh W keep c) hgm

/-- Over a list that is not endless, some text has one match, and with the letters given up before
it this is no word. -/
theorem exists_left (W : List (List α)) (keep : Bool) (h : ¬ Endless W) :
    ∃ x gm, greedyMatches W keep x = [gm] ∧ gm.1 ++ gm.2 ∉ W := by
  simp only [Endless, not_forall] at h
  obtain ⟨p, hne, hp, hpW, c, hc⟩ := h
  -- `p` is given up at the letter `c`, and then a word is read to its end
  have hread : ∀ v, v ∈ W → ∀ l, Begins W l → l ++ (v.drop l.length) = v → fresh W keep c = l →
      greedyMatches W keep (p ++ c :: v.drop l.length) = [(p, v)] := by
    intro v hv l hl hlv hfresh
    rw [greedyMatches, matchesFrom_append [] (by simpa using hp), List.nil_append, matchesFrom,
      if_neg hc, if_neg hpW, List.nil_append, hfresh, ← List.append_nil (v.drop l.length),
      matchesFrom_append p (hlv.symm ▸ begins_of_mem hv List.prefix_rfl), hlv, matchesFrom,
      if_pos hv]
  by_cases hkeep : keep = true ∧ Begins W [c]
  · obtain ⟨v, hv, t, rfl⟩ : ∃ v ∈ W, [c] <+: v := hkeep.2.resolve_left (by simp)
    refine ⟨_, _, hread _ hv [c] hkeep.2 (by simp) (if_pos hkeep), fun hmem => hc ?_⟩
    exact begins_of_mem hmem ⟨t, by simp⟩
  · obtain ⟨v, hv, -⟩ : ∃ v ∈ W, p <+: v := hp.resolve_left hne
    -- the longest word, so that no word is longer by what was left over
    obtain ⟨v, hv, hmax⟩ := W.toFinset.exists_max_image List.length ⟨v, List.mem_toFinset.mpr hv⟩
    refine ⟨_, _, hread v (List.mem_toFinset.mp hv) [] (.inl rfl) (by simp) (if_neg hkeep),
      fun hmem => hne ?_⟩
    have hlen := hmax (p ++ v) (List.mem_toFinset.mpr hmem)
    rw [List.length_append] at hlen
    exact List.length_eq_zero_iff.mp (by omega)

end

end CodeTest
