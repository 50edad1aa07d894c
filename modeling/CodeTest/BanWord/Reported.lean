import CodeTest.BanWord.Search
import CodeTest.Foundations.GreedyMatches

/-!
# What the trie searches report

The searches of `banword4.lua` and `banword.py` collect the letters of the word they report on their
way down the trie, and do not drop them where they start afresh. So what they report is a match
together with the letters that were given up before it (`Trie.search_eq_true_iff`,
`Tree.search_eq_true_iff`, `Tree.searchall_eq`). `reported_iff` says when that is an inserted word
which occurs in the text.
-/

namespace CodeTest

variable {α : Type*} [DecidableEq α] {words : List (List α)}

/-- What a match is reported as: with the letters given up before it. -/
def reported (gm : List α × List α) : List α := gm.1 ++ gm.2

/-! ## What is reported -/

theorem Trie.isEnd_of_walk {p : List α} {node : Trie α}
    (hnode : (ofWords words).walk p = some node) : node.isEnd = true ↔ p ∈ words := by
  rw [← isEnd_walk_ofWords, hnode, Option.any_some]

/-- The way on at a letter that fits. -/
theorem Trie.exists_child {p : List α} {node : Trie α} {c : α}
    (hnode : (ofWords words).walk p = some node) (hc : Begins words (p ++ [c])) :
    ∃ next, node.child c = some next ∧ (ofWords words).walk (p ++ [c]) = some next := by
  obtain ⟨next, hnext⟩ := Option.isSome_iff_exists.mp ((isSome_walk_ofWords words _).mpr hc)
  refine ⟨next, ?_, hnext⟩
  rwa [walk_concat, hnode, Option.bind_some] at hnext

theorem Trie.child_eq_none {p : List α} {node : Trie α} {c : α}
    (hnode : (ofWords words).walk p = some node) (hc : ¬ Begins words (p ++ [c])) :
    node.child c = none := by
  rwa [← isSome_walk_ofWords, walk_concat, hnode, Option.bind_some,
    Option.not_isSome_iff_eq_none] at hc

/-- Where the searches that keep the letter start afresh. -/
theorem Trie.fresh_cases (words : List (List α)) (c : α) :
    (∃ next, (ofWords words).child c = some next ∧
        (ofWords words).walk (fresh words true c) = some next ∧ fresh words true c = [c]) ∨
      ((ofWords words).child c = none ∧ fresh words true c = []) := by
  have hroot : (ofWords words).walk [] = some (ofWords words) := walk_nil _
  by_cases hc : Begins words [c]
  · have hfresh : fresh words true c = [c] := if_pos ⟨rfl, hc⟩
    obtain ⟨next, hchild, hnext⟩ := exists_child hroot (c := c) hc
    exact .inl ⟨next, hchild, hfresh ▸ hnext, hfresh⟩
  · exact .inr ⟨child_eq_none hroot hc, if_neg fun h => hc h.2⟩

/-- The search in Lua, at the node of what was read since it started afresh. -/
theorem Trie.searchLoop_eq_true_iff {node : Trie α} {g p : List α}
    (hnode : (ofWords words).walk p = some node) (text w : List α) :
    searchLoop (ofWords words) node (g ++ p) text = (true, w) ↔
      (matchesFrom words true g p text).head?.map reported = some w := by
  induction text generalizing node g p with
  | nil =>
    rw [searchLoop, matchesFrom, Prod.mk.injEq, isEnd_of_walk hnode]
    split_ifs with hp <;> simp [hp, reported]
  | cons c text ih =>
    rw [matchesFrom]
    split_ifs with hc hp
    · obtain ⟨next, hchild, hnext⟩ := exists_child hnode hc
      rw [← ih hnext, searchLoop]
      simp [hchild]
    · rw [searchLoop, if_pos ⟨by simp [child_eq_none hnode hc], (isEnd_of_walk hnode).mpr hp⟩]
      simp [reported]
    · have hend : node.isEnd = false := by rwa [← Bool.not_eq_true, isEnd_of_walk hnode]
      rw [searchLoop]
      simp only [child_eq_none hnode hc, hend, Option.isNone_none, if_true, Bool.false_eq_true,
        and_false, if_false]
      rcases fresh_cases words c with ⟨next, hchild, hnext, hfresh⟩ | ⟨hchild, hfresh⟩
      · rw [← ih hnext, hchild, hfresh]
      · rw [hfresh, ← ih (walk_nil _), hchild, List.append_nil]

/-- **What `Trie:search` reports** is the first match, with the letters given up before it. -/
theorem Trie.search_eq_true_iff (words : List (List α)) (text w : List α) :
    (ofWords words).search text = (true, w) ↔
      (greedyMatches words true text).head?.map reported = some w :=
  searchLoop_eq_true_iff (g := []) (walk_nil _) text w

/-- The search in Python, at the node of what was read since it started afresh. -/
theorem Tree.searchLoop_eq_true_iff {node : Tree α} {g p : List α}
    (hnode : (Trie.ofWords words).walk p = some node) (text w : List α) :
    searchLoop (ofWords words) node (g ++ p) text = (true, w) ↔
      (matchesFrom words false g p text).head?.map reported = some w := by
  induction text generalizing node g p with
  | nil =>
    rw [searchLoop, matchesFrom, Prod.mk.injEq, Trie.isEnd_of_walk hnode]
    split_ifs with hp <;> simp [hp, reported]
  | cons c text ih =>
    rw [matchesFrom]
    split_ifs with hc hp
    · obtain ⟨next, hchild, hnext⟩ := Trie.exists_child hnode hc
      rw [← ih hnext, searchLoop, hchild]
      simp
    · rw [searchLoop, Trie.child_eq_none hnode hc]
      simp [(Trie.isEnd_of_walk hnode).mpr hp, reported]
    · have hend : node.isEnd = false := by rwa [← Bool.not_eq_true, Trie.isEnd_of_walk hnode]
      have hfresh : fresh words false c = [] := if_neg fun h => Bool.false_ne_true h.1
      rw [hfresh, ← ih (Trie.walk_nil _), searchLoop, Trie.child_eq_none hnode hc, List.append_nil]
      simp [hend, ofWords_eq]

/-- **What `Tree.search` reports** is the first match of the scan that drops letters. -/
theorem Tree.search_eq_true_iff (words : List (List α)) (text w : List α) :
    (ofWords words).search text = (true, w) ↔
      (greedyMatches words false text).head?.map reported = some w :=
  searchLoop_eq_true_iff (g := []) (Trie.walk_nil _) text w

/-- The search for all words, at the node of what was read since it started afresh. -/
theorem Tree.searchallLoop_eq {node : Tree α} {g p : List α}
    (hnode : (Trie.ofWords words).walk p = some node) (banwords : List (List α)) (text : List α) :
    searchallLoop (ofWords words) node (g ++ p) banwords text =
      banwords ++ (matchesFrom words true g p text).map reported := by
  induction text generalizing node g p banwords with
  | nil =>
    rw [searchallLoop, matchesFrom]
    simp only [Trie.isEnd_of_walk hnode]
    split_ifs <;> simp [reported]
  | cons c text ih =>
    rw [matchesFrom]
    split_ifs with hc hp
    · obtain ⟨next, hchild, hnext⟩ := Trie.exists_child hnode hc
      rw [← ih hnext, searchallLoop, hchild]
      simp
    · have hend := (Trie.isEnd_of_walk hnode).mpr hp
      rw [searchallLoop, Trie.child_eq_none hnode hc]
      simp only [hend, if_true]
      rw [List.map_cons, List.append_cons banwords (reported (g, p))]
      rcases Trie.fresh_cases words c with ⟨next, hchild, hnext, hfresh⟩ | ⟨hchild, hfresh⟩
      · rw [ofWords_eq, hchild, hfresh]
        exact ih (g := []) (hfresh ▸ hnext) _
      · rw [ofWords_eq, hchild, hfresh]
        exact ih (g := []) (Trie.walk_nil _) _
    · have hend : node.isEnd = false := by rwa [← Bool.not_eq_true, Trie.isEnd_of_walk hnode]
      rw [searchallLoop, Trie.child_eq_none hnode hc]
      simp only [hend, Bool.false_eq_true, if_false]
      rcases Trie.fresh_cases words c with ⟨next, hchild, hnext, hfresh⟩ | ⟨hchild, hfresh⟩
      · rw [ofWords_eq, hchild, hfresh]
        exact ih (hfresh ▸ hnext) banwords
      · rw [ofWords_eq, hchild, hfresh, ← ih (Trie.walk_nil _) banwords, List.append_nil]
        rfl

/-- **What `Tree.searchall` reports** are all matches, each with the letters given up before it. -/
theorem Tree.searchall_eq (words : List (List α)) (text : List α) :
    (ofWords words).searchall text = (greedyMatches words true text).map reported :=
  searchallLoop_eq (g := []) (Trie.walk_nil _) [] text

/-! ## When it is an inserted word that occurs -/

/-- What `Trie:search` reports is an inserted word that occurs in the text. -/
def Trie.Truthful (words : List (List α)) (text : List α) : Prop :=
  ∀ w, (ofWords words).search text = (true, w) → OccursIn words text w

/-- What `Tree.search` reports is an inserted word that occurs in the text. -/
def Tree.Truthful (words : List (List α)) (text : List α) : Prop :=
  ∀ w, (ofWords words).search text = (true, w) → OccursIn words text w

/-- What `Tree.searchall` reports are inserted words that occur in the text. -/
def Tree.AllTruthful (words : List (List α)) (text : List α) : Prop :=
  ∀ w ∈ (ofWords words).searchall text, OccursIn words text w

/-- Nothing was given up before a match, or what was given up makes it longer to another word that
occurs in the text. -/
def Undisturbed (words : List (List α)) (text : List α) (gm : List α × List α) : Prop :=
  gm.1 = [] ∨ OccursIn words text (gm.1 ++ gm.2)

theorem occursIn_reported_iff {keep : Bool} {text : List α} {gm : List α × List α}
    (hgm : gm ∈ greedyMatches words keep text) :
    OccursIn words text (reported gm) ↔ Undisturbed words text gm := by
  refine ⟨.inr, ?_⟩
  rintro (hnil | hoccurs)
  · rw [reported, hnil, List.nil_append]
    exact mem_greedyMatches hgm
  · exact hoccurs

/-- A first match. -/
theorem head_truthful_iff {keep : Bool} {text : List α} :
    (∀ w, (greedyMatches words keep text).head?.map reported = some w → OccursIn words text w) ↔
      ∀ gm ∈ (greedyMatches words keep text).head?, Undisturbed words text gm := by
  constructor
  · intro h gm hgm
    have hgm' : (greedyMatches words keep text).head? = some gm := hgm
    exact (occursIn_reported_iff (List.mem_of_mem_head? hgm)).mp (h _ (by rw [hgm']; rfl))
  · intro h w hw
    obtain ⟨gm, hgm, rfl⟩ := Option.map_eq_some_iff.mp hw
    exact (occursIn_reported_iff (List.mem_of_mem_head? hgm)).mpr (h gm hgm)

/-- No match is disturbed in any text exactly if nothing is ever given up. -/
theorem forall_undisturbed_iff (words : List (List α)) (keep : Bool) :
    (∀ text, ∀ gm ∈ (greedyMatches words keep text).head?, Undisturbed words text gm) ↔
      Endless words := by
  constructor
  · intro h
    by_contra hend
    obtain ⟨text, gm, hgm, hleft⟩ := exists_left words keep hend
    rcases h text gm (by rw [hgm]; rfl) with hnil | hoccurs
    · have hmem : gm ∈ greedyMatches words keep text := by simp [hgm]
      rw [hnil, List.nil_append] at hleft
      exact hleft (mem_greedyMatches hmem).1
    · exact hleft hoccurs.1
  · intro hend text gm hgm
    exact .inl (hend.left_nil (.inl rfl) (List.mem_of_mem_head? hgm))

end CodeTest
