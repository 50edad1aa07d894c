import CodeTest.BanWord.Trie

/-!
# When the trie searches find the banned words

Both searches are scans (`Scan`) over the words of the trie, `Trie.search` one that keeps the letter
that does not fit and `Tree.search` one that drops it. `searches_eq_check_iff` says for which lists
of words each agrees with the plain search on every text. The letters of a word are not the same in
the two languages, so each search has a list of its own.
-/

namespace CodeTest

variable {α : Type*} [DecidableEq α] {words : List (List α)}

/-- The node of a beginning of a word. -/
theorem Trie.exists_node {p : List α} (hp : Begins words p) :
    ∃ node, (Trie.ofWords words).walk p = some node ∧ (node.isEnd = true ↔ p ∈ words) ∧
      ∀ c, node.child c = none ↔ ¬ Begins words (p ++ [c]) := by
  obtain ⟨node, hnode⟩ := Option.isSome_iff_exists.mp ((isSome_walk_ofWords words p).mpr hp)
  refine ⟨node, hnode, ?_, fun c => ?_⟩
  · rw [← isEnd_walk_ofWords, hnode, Option.any_some]
  · rw [← isSome_walk_ofWords, walk_concat, hnode, Option.bind_some, Option.not_isSome_iff_eq_none]

/-! ## The search in Lua -/

namespace Trie

omit [DecidableEq α]

variable {root node node' : Trie α} {c : α}

/-- The search goes down where the trie has a way. -/
theorem searchLoop_append {u : List α} (h : node.walk u = some node') (banWord rest : List α) :
    searchLoop root node banWord (u ++ rest) = searchLoop root node' (banWord ++ u) rest := by
  induction u generalizing node banWord with
  | nil =>
    rw [walk, Option.some_inj] at h
    rw [h, List.nil_append, List.append_nil]
  | cons c u ih =>
    rw [walk, Option.bind_eq_some_iff] at h
    obtain ⟨next, hc, hu⟩ := h
    rw [List.cons_append, searchLoop]
    simp only [hc, Option.isNone_some, Bool.false_eq_true, false_and, if_false]
    rw [ih hu, List.append_assoc]
    rfl

/-- The letters read so far do not change the answer. -/
theorem searchLoop_fst (banWord banWord' text : List α) :
    (searchLoop root node banWord text).1 = (searchLoop root node banWord' text).1 := by
  induction text generalizing node banWord banWord' with
  | nil => rfl
  | cons c text ih =>
    rw [searchLoop, searchLoop]
    split_ifs
    · rfl
    all_goals
      dsimp only
      split
      · exact ih _ _
      · exact ih _ _

/-- At a letter that does not fit, the search goes on as from the root. -/
theorem searchLoop_restart (hc : node.child c = none) (hnode : node.isEnd = false)
    (hroot : root.isEnd = false) (banWord text : List α) :
    (searchLoop root node banWord (c :: text)).1 = (search root (c :: text)).1 := by
  rw [search, searchLoop, searchLoop]
  simp only [hc, hnode, hroot, Option.isNone_none, Bool.false_eq_true, and_false, if_false, if_true,
    ite_self]
  cases root.child c with
  | none => exact searchLoop_fst _ _ _
  | some next => exact searchLoop_fst _ _ _

end Trie

/-- No word ends at the root. -/
theorem Trie.isEnd_ofWords (hne : [] ∉ words) : (ofWords words).isEnd = false := by
  have := (isEnd_walk_ofWords words []).not.mpr hne
  rwa [walk_nil, Option.any_some, Bool.not_eq_true] at this

/-- `Trie:search` is a scan that keeps the letter that does not fit. -/
theorem Trie.search_scan (hne : [] ∉ words) :
    Scan words True fun x => ((ofWords words).search x).1 = true := by
  have hroot := isEnd_ofWords hne
  constructor
  · intro p hp
    obtain ⟨node, hnode, hend, -⟩ := exists_node hp
    have hdown : (ofWords words).search p = searchLoop (ofWords words) node p [] := by
      simpa [search] using searchLoop_append hnode [] []
    rw [hdown, ← hend]
    rfl
  · intro p c r hp hc hpW
    obtain ⟨node, hnode, hend, hchild⟩ := exists_node hp
    rw [search, searchLoop_append hnode, searchLoop, if_pos]
    exact ⟨Option.isNone_iff_eq_none.mpr ((hchild c).mpr hc), hend.mpr hpW⟩
  · intro p c r hp hc hpW
    obtain ⟨node, hnode, hend, hchild⟩ := exists_node hp
    have hnone := (hchild c).mpr hc
    have hnodeEnd : node.isEnd = false := by rwa [← Bool.not_eq_true, hend]
    simp only [true_and]
    split_ifs with hp₀
    · rw [search, searchLoop_append hnode, searchLoop_restart hnone hnodeEnd hroot]
    · -- at the root the letter is skipped
      obtain rfl := not_not.mp hp₀
      rw [walk_nil, Option.some_inj] at hnode
      rw [List.nil_append, search, searchLoop]
      simp only [hnode, hnone, hnodeEnd, Bool.false_eq_true, and_false, if_false, ite_self]
      rfl

/-! ## The search in Python -/

namespace Tree

omit [DecidableEq α]

variable {root node node' : Tree α} {c : α}

theorem searchLoop_append {u : List α} (h : node.walk u = some node') (banword rest : List α) :
    searchLoop root node banword (u ++ rest) = searchLoop root node' (banword ++ u) rest := by
  induction u generalizing node banword with
  | nil =>
    rw [Trie.walk, Option.some_inj] at h
    rw [h, List.nil_append, List.append_nil]
  | cons c u ih =>
    rw [Trie.walk, Option.bind_eq_some_iff] at h
    obtain ⟨next, hc, hu⟩ := h
    rw [List.cons_append, searchLoop, hc]
    simp only
    rw [ih hu, List.append_assoc]
    rfl

theorem searchLoop_fst (banword banword' word : List α) :
    (searchLoop root node banword word).1 = (searchLoop root node banword' word).1 := by
  induction word generalizing node banword banword' with
  | nil => rfl
  | cons c word ih =>
    rw [searchLoop, searchLoop]
    cases node.child c with
    | none =>
      simp only
      split_ifs
      · rfl
      · exact ih _ _
    | some next => exact ih _ _

end Tree

theorem Tree.ofWords_eq (words : List (List α)) : Tree.ofWords words = Trie.ofWords words := rfl

/-- `Tree.search` is a scan that drops the letter that does not fit. -/
theorem Tree.search_scan (words : List (List α)) :
    Scan words False fun x => ((ofWords words).search x).1 = true := by
  rw [ofWords_eq]
  constructor
  · intro p hp
    obtain ⟨node, hnode, hend, -⟩ := Trie.exists_node hp
    have hdown : search (Trie.ofWords words) p = searchLoop (Trie.ofWords words) node p [] := by
      simpa [search] using searchLoop_append hnode [] []
    rw [hdown, ← hend]
    rfl
  · intro p c r hp hc hpW
    obtain ⟨node, hnode, hend, hchild⟩ := Trie.exists_node hp
    rw [search, searchLoop_append hnode, searchLoop, (hchild c).mpr hc]
    simp only [hend.mpr hpW, if_true]
  · intro p c r hp hc hpW
    obtain ⟨node, hnode, hend, hchild⟩ := Trie.exists_node hp
    have hnodeEnd : node.isEnd = false := by rwa [← Bool.not_eq_true, hend]
    rw [search, searchLoop_append hnode, searchLoop, (hchild c).mpr hc]
    simp only [hnodeEnd, Bool.false_eq_true, if_false, false_and]
    rw [searchLoop_fst _ []]
    rfl

/-! ## The condition on the words -/

/-- **The trie searches and the plain search.** For every list of words that are not empty, in the
letters of the language, the search in Lua, and that in Python, agrees with the plain search on
every text if and only if no beginning of a word that is not itself a word has a word inside, and
every word that begins inside such a beginning and goes over a letter at which it is given up has a
word in what it has after the fresh start: from that letter on in Lua, after it in Python. -/
theorem searches_eq_check_iff {β : Type*} [DecidableEq β] (words : List (List α))
    (hne : ∀ w ∈ words, w ≠ []) (words' : List (List β)) (hne' : ∀ w ∈ words', w ≠ []) :
    ((∀ text, ((Trie.ofWords words).search text).1 = checkForbiddenWords words text) ↔
        NoneInside words ∧ NoneAcross words True) ∧
      ((∀ text, ((Tree.ofWords words').search text).1 = checkForbiddenWords words' text) ↔
        NoneInside words' ∧ NoneAcross words' False) := by
  have hne : [] ∉ words := fun h => hne [] h rfl
  have hne' : [] ∉ words' := fun h => hne' [] h rfl
  have hlua := (Trie.search_scan hne).eq_occurs_iff hne
  have hpython := (Tree.search_scan words').eq_occurs_iff hne'
  simp only [← checkForbiddenWords_eq_true_iff, ← Bool.eq_iff_iff] at hlua hpython
  exact ⟨hlua, hpython⟩

/-- Words of one letter, a byte in Lua and a character in Python. -/
theorem searches_eq_check_letters :
    ((Trie.ofWords [[120], [121]]).search [97, 121, 120, (97 : UInt8)]).1 =
        checkForbiddenWords [[120], [121]] [97, 121, 120, 97] ∧
      ((Tree.ofWords [['x'], ['y']]).search ['a', 'y', 'x', 'a']).1 =
        checkForbiddenWords [['x'], ['y']] ['a', 'y', 'x', 'a'] := by
  have hgiven : ∀ {γ : Type} (x y : γ) (p : List γ), Begins [[x], [y]] p → p ∉ [[x], [y]] →
      p = [] := by
    rintro γ x y p (rfl | ⟨w, hw, hp⟩) hpW
    · rfl
    · rcases List.mem_pair.mp hw with rfl | rfl
      all_goals
        rcases List.prefix_cons_iff.mp hp with rfl | ⟨t, rfl, ht⟩
        · rfl
        · rw [List.prefix_nil.mp ht] at hpW
          exact absurd hw hpW
  have hinside : ∀ {γ : Type} (x y : γ), NoneInside [[x], [y]] := by
    rintro γ x y p hp hpW ⟨w, hw, hwp⟩
    rw [hgiven x y p hp hpW, List.infix_nil] at hwp
    subst hwp
    simp at hw
  have hacross : ∀ {γ : Type} (x y : γ) (keep : Prop) [Decidable keep],
      NoneAcross [[x], [y]] keep := by
    intro γ x y keep _ p s c t hp hpW _ hs hsp
    rw [hgiven x y p hp hpW] at hs hsp
    exact absurd (List.suffix_nil.mp hs) hsp
  obtain ⟨hlua, hpython⟩ := searches_eq_check_iff [[(120 : UInt8)], [121]] (by decide)
    [['x'], ['y']] (by decide)
  exact ⟨hlua.mpr ⟨hinside 120 121, hacross 120 121 True⟩ _,
    hpython.mpr ⟨hinside 'x' 'y', hacross 'x' 'y' False⟩ _⟩

/-- The word `aab` in the text `aaab`: both searches give up at the third `a` and miss it. -/
theorem aab_missed :
    ((Trie.ofWords [[97, 97, 98]]).search [97, 97, 97, (98 : UInt8)]).1 ≠
        checkForbiddenWords [[97, 97, 98]] [97, 97, 97, 98] ∧
      ((Tree.ofWords ["aab".toList]).search "aaab".toList).1 ≠
        checkForbiddenWords ["aab".toList] "aaab".toList := by
  decide +kernel

end CodeTest
