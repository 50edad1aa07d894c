import CodeTest.SkipList.SkipList
import Mathlib.Data.List.Perm.Subperm

/-!
# The descent of the skip list

A skip list represents a list of entries sorted by key: at each level `i` the pointers lead, from
the head, through the entries of level at least `i` (`Represents`). On a skip list that represents a
list the descent ends, at every level, in the last entry of that level whose key is below the one
looked for (`Represents.descend`), and the node after it at level 1 is the one with the key, if
there is one (`Represents.candidate`).
-/

namespace CodeTest.SkipList

variable {K V : Type} [LinearOrder K]

/-- An entry of the list that a skip list represents, with the address of its node. -/
structure Entry (K V : Type) where
  addr : Addr
  key : K
  level : ℕ
  value : Option V

/-- The entries of level at least `i`. -/
def atLevel (L : List (Entry K V)) (i : ℕ) : List (Entry K V) := L.filter fun e => i ≤ e.level

/-- The entries with a key below `key`. -/
def below (L : List (Entry K V)) (key : K) : List (Entry K V) := L.filter fun e => e.key < key

/-- The address of the last entry of a list, or the head. -/
def lastAddr (head : Addr) (L : List (Entry K V)) : Addr := (L.map Entry.addr).getLastD head

/-- The pointer of the node at `a` for the level `i`. -/
def fwd (nodes : Memory (Node K V)) (i : ℕ) (a : Addr) : Option Addr :=
  (nodes.lookup a).bind fun node => node.forward.lookup i

/-- What the node at `a` holds besides its pointers. -/
def content (nodes : Memory (Node K V)) (a : Addr) : Option (Option K × Option V × ℕ) :=
  (nodes.lookup a).map fun node => (node.key, node.value, node.level)

structure Represents (s : SkipList K V) (L : List (Entry K V)) : Prop where
  head : s.head ∈ s.nodes
  content : ∀ e ∈ L, content s.nodes e.addr = some (some e.key, e.value, e.level)
  level : ∀ e ∈ L, 1 ≤ e.level ∧ e.level ≤ s.maxLevel
  sorted : L.Pairwise fun e e' => e.key < e'.key
  nodup : (s.head :: L.map Entry.addr).Nodup
  chain : ∀ i, 1 ≤ i → i ≤ s.maxLevel →
    Chain (fwd s.nodes i) s.head ((atLevel L i).map Entry.addr)

variable {s : SkipList K V} {L X Y : List (Entry K V)} {key : K} {i : ℕ}

omit [LinearOrder K] in
theorem exists_node_of_content {nodes : Memory (Node K V)} {e : Entry K V}
    (h : SkipList.content nodes e.addr = some (some e.key, e.value, e.level)) :
    ∃ node, nodes.lookup e.addr = some node ∧ node.key = some e.key ∧ node.value = e.value ∧
      node.level = e.level := by
  obtain ⟨node, hnode, heq⟩ := Option.map_eq_some_iff.mp h
  simp only [Prod.mk.injEq] at heq
  exact ⟨node, hnode, heq⟩

omit [LinearOrder K] in
@[simp] theorem lastAddr_nil (head : Addr) : lastAddr head ([] : List (Entry K V)) = head := rfl

omit [LinearOrder K] in
@[simp] theorem lastAddr_cons (head : Addr) (e : Entry K V) (L : List (Entry K V)) :
    lastAddr head (e :: L) = lastAddr e.addr L := by
  rw [lastAddr, List.map_cons, List.getLastD_cons, lastAddr]

omit [LinearOrder K] in
theorem lastAddr_append (head : Addr) (X Y : List (Entry K V)) :
    lastAddr head (X ++ Y) = lastAddr (lastAddr head X) Y := by
  induction X generalizing head with
  | nil => rfl
  | cons e X ih => rw [List.cons_append, lastAddr_cons, lastAddr_cons, ih]

/-! ## Sorted lists -/

/-- In a sorted list the entries below a key come first. -/
theorem takeWhile_eq_below (h : L.Pairwise fun e e' => e.key < e'.key) (key : K) :
    L.takeWhile (fun e => decide (e.key < key)) = below L key := by
  induction L with
  | nil => rfl
  | cons e L ih =>
    obtain ⟨he, hL⟩ := List.pairwise_cons.mp h
    by_cases hlt : e.key < key
    · simp [below, hlt, ih hL]
    · have hnone : below L key = [] := by
        refine List.filter_eq_nil_iff.mpr fun e' he' => ?_
        simpa using (not_lt.mp hlt).trans (he e' he').le
      simp only [below] at hnone
      simp [below, hlt, hnone]

/-- A sorted list is what is below a key and what is not. -/
theorem below_append (h : L.Pairwise fun e e' => e.key < e'.key) (key : K) :
    below L key ++ L.filter (fun e => key ≤ e.key) = L := by
  induction L with
  | nil => rfl
  | cons e L ih =>
    obtain ⟨he, hL⟩ := List.pairwise_cons.mp h
    have ih := ih hL
    by_cases hlt : e.key < key
    · simpa [below, hlt, not_le.mpr hlt] using ih
    · have hnone : below L key = [] := by
        refine List.filter_eq_nil_iff.mpr fun e' he' => ?_
        simpa using (not_lt.mp hlt).trans (he e' he').le
      rw [hnone, List.nil_append] at ih
      simp only [below] at hnone
      simp [below, hlt, hnone, not_lt.mp hlt, ih]

/-! ## The walk along one level -/

/-- The walk from `c` along the entries `Y` stops after those below the key. -/
theorem advance_eq
    (hY : ∀ e ∈ Y, SkipList.content s.nodes e.addr = some (some e.key, e.value, e.level))
    {c : Addr} (hc : c ∈ s.nodes) (h : Chain (fwd s.nodes i) c (Y.map Entry.addr)) {fuel : ℕ}
    (hfuel : Y.length < fuel) :
    s.advance i key fuel c =
      some (lastAddr c (Y.takeWhile fun e => decide (e.key < key))) := by
  induction Y generalizing c fuel with
  | nil =>
    obtain ⟨fuel, rfl⟩ := Nat.exists_eq_succ_of_ne_zero (by omega : fuel ≠ 0)
    obtain ⟨node, hnode⟩ := Option.isSome_iff_exists.mp (AList.lookup_isSome.mpr hc)
    have hnext : node.forward.lookup i = none := by
      have := h.next_eq
      rwa [fwd, hnode, Option.bind_some] at this
    simp [advance, hnode, hnext]
  | cons e Y ih =>
    obtain ⟨fuel, rfl⟩ := Nat.exists_eq_succ_of_ne_zero (by omega : fuel ≠ 0)
    obtain ⟨node, hnode⟩ := Option.isSome_iff_exists.mp (AList.lookup_isSome.mpr hc)
    have hnext : node.forward.lookup i = some e.addr := by
      have := h.next_eq
      rwa [fwd, hnode, Option.bind_some] at this
    obtain ⟨node', hnode', hkey, -⟩ := exists_node_of_content (hY e (by simp))
    have he : e.addr ∈ s.nodes := AList.lookup_isSome.mp (by rw [hnode']; rfl)
    have hrest := ih (fun e' he' => hY e' (List.mem_cons_of_mem _ he')) he h.2
      (Nat.lt_of_succ_lt_succ hfuel)
    by_cases hlt : e.key < key
    · simp [advance, hnode, hnext, hnode', hkey, hlt, hrest]
    · simp [advance, hnode, hnext, hnode', hkey, hlt]

namespace Represents

variable (h : Represents s L)

include h

theorem mem_nodes {e : Entry K V} (he : e ∈ L) : e.addr ∈ s.nodes := by
  obtain ⟨node, hnode, -⟩ := exists_node_of_content (h.content e he)
  exact AList.lookup_isSome.mp (by rw [hnode]; rfl)

theorem lastAddr_mem (hX : X ⊆ L) : lastAddr s.head X ∈ s.nodes := by
  rcases List.mem_cons.mp (Chain.getLastD_mem (X.map Entry.addr) s.head) with heq | hmem
  · rw [lastAddr, heq]
    exact h.head
  · obtain ⟨e, he, heq⟩ := List.mem_map.mp hmem
    rw [lastAddr, ← heq]
    exact h.mem_nodes (hX he)

/-- There are more nodes than entries. -/
theorem length_lt : L.length < s.nodes.entries.length := by
  have hsub : s.head :: L.map Entry.addr ⊆ s.nodes.keys := by
    intro a ha
    rcases List.mem_cons.mp ha with rfl | ha
    · exact AList.mem_keys.mp h.head
    · obtain ⟨e, he, rfl⟩ := List.mem_map.mp ha
      exact AList.mem_keys.mp (h.mem_nodes he)
  have := (List.subperm_of_subset h.nodup hsub).length_le
  simpa [AList.keys, List.keys] using this

/-- The walk along the level `i`, from a place before which all keys are below. -/
theorem advance (hi : 1 ≤ i) (hmax : i ≤ s.maxLevel) (hsplit : atLevel L i = X ++ Y)
    (hX : ∀ e ∈ X, e.key < key) :
    s.advance i key s.nodes.entries.length (lastAddr s.head X) =
      some (lastAddr s.head (below (atLevel L i) key)) := by
  have hsub : atLevel L i ⊆ L := fun e he => (List.mem_filter.mp he).1
  have hXL : X ⊆ L := fun e he => hsub (hsplit ▸ List.mem_append_left _ he)
  have hYL : Y ⊆ L := fun e he => hsub (hsplit ▸ List.mem_append_right _ he)
  have hchain := h.chain i hi hmax
  rw [hsplit, List.map_append] at hchain
  have hlen : Y.length < s.nodes.entries.length := by
    have h₁ := congrArg List.length hsplit
    have h₂ : (atLevel L i).length ≤ L.length := List.length_filter_le _ _
    have h₃ := h.length_lt
    rw [List.length_append] at h₁
    omega
  rw [advance_eq (fun e he => h.content e (hYL he)) (h.lastAddr_mem hXL) hchain.drop hlen]
  have hsorted : (atLevel L i).Pairwise fun e e' => e.key < e'.key := h.sorted.filter _
  rw [← takeWhile_eq_below hsorted, hsplit, List.takeWhile_append_of_pos (by simpa using hX),
    lastAddr_append]

/-- The place in which the walk along one level ends is a place on the level below. -/
theorem exists_split (key : K) (i : ℕ) : ∃ X Y, atLevel L i = X ++ Y ∧ (∀ e ∈ X, e.key < key) ∧
    lastAddr s.head X = lastAddr s.head (below (atLevel L (i + 1)) key) := by
  rcases List.eq_nil_or_concat (below (atLevel L (i + 1)) key) with hnil | ⟨Z, e, hZ⟩
  · exact ⟨[], atLevel L i, rfl, by simp, by rw [hnil]⟩
  · have he : e ∈ below (atLevel L (i + 1)) key := by simp [hZ]
    simp only [below, atLevel, List.mem_filter, decide_eq_true_eq] at he
    obtain ⟨⟨heL, hlevel⟩, hlt⟩ := he
    have hmem : e ∈ atLevel L i := by
      simp only [atLevel, List.mem_filter, decide_eq_true_eq]
      exact ⟨heL, by omega⟩
    obtain ⟨X, Y, hsplit⟩ := List.append_of_mem hmem
    have hsorted : (atLevel L i).Pairwise fun e e' => e.key < e'.key := h.sorted.filter _
    rw [hsplit, List.pairwise_append] at hsorted
    refine ⟨X ++ [e], Y, by simpa using hsplit, ?_, ?_⟩
    · intro e' he'
      rcases List.mem_append.mp he' with he' | he'
      · exact (hsorted.2.2 e' he' e (by simp)).trans hlt
      · rwa [List.mem_singleton.mp he']
    · rw [hZ]
      simp [lastAddr_append]

/-- The descent from the level `i` on. -/
theorem descend_from (key : K) (hmax : i ≤ s.maxLevel) {c : Addr}
    (hc : ∃ X Y, atLevel L i = X ++ Y ∧ (∀ e ∈ X, e.key < key) ∧ lastAddr s.head X = c)
    (update : Table ℕ Addr) :
    ∃ update', s.descend key i c update =
        some (if i = 0 then c else lastAddr s.head (below (atLevel L 1) key), update') ∧
      ∀ j, update'.lookup j = if 1 ≤ j ∧ j ≤ i then some (lastAddr s.head (below (atLevel L j) key))
        else update.lookup j := by
  induction i generalizing c update with
  | zero => exact ⟨update, rfl, fun j => by rw [if_neg (by omega)]⟩
  | succ i ih =>
    obtain ⟨X, Y, hsplit, hX, rfl⟩ := hc
    have hadvance := h.advance (by omega) hmax hsplit hX
    obtain ⟨update', hdescend, hupdate⟩ := ih (by omega) (h.exists_split key i)
      (update.insert (i + 1) (lastAddr s.head (below (atLevel L (i + 1)) key)))
    refine ⟨update', ?_, fun j => ?_⟩
    · rw [SkipList.descend, hadvance]
      simp only [Option.bind_eq_bind, Option.bind_some]
      rw [hdescend, if_neg (Nat.succ_ne_zero i)]
      by_cases hi : i = 0
      · subst hi
        rfl
      · rw [if_neg hi]
    · rw [hupdate, Table.lookup_insert_eq]
      by_cases hj : j = i + 1
      · subst hj
        rw [if_neg (by omega), if_pos rfl, if_pos (by omega)]
      · rw [if_neg hj]
        by_cases hji : 1 ≤ j ∧ j ≤ i
        · rw [if_pos hji, if_pos (by omega)]
        · rw [if_neg hji, if_neg (by omega)]

theorem atLevel_one : atLevel L 1 = L :=
  List.filter_eq_self.mpr fun e he => by simpa using (h.level e he).1

/-- **The descent** notes at each level the last entry below the key. -/
theorem descend (hmax : 1 ≤ s.maxLevel) (key : K) :
    ∃ update, s.descend key s.maxLevel s.head ∅ = some (lastAddr s.head (below L key), update) ∧
      ∀ j, 1 ≤ j → j ≤ s.maxLevel →
        update.lookup j = some (lastAddr s.head (below (atLevel L j) key)) := by
  obtain ⟨update, hdescend, hupdate⟩ :=
    h.descend_from key le_rfl ⟨[], _, rfl, by simp, lastAddr_nil _⟩ ∅
  rw [if_neg (by omega), h.atLevel_one] at hdescend
  exact ⟨update, hdescend, fun j h₁ h₂ => by rw [hupdate, if_pos ⟨h₁, h₂⟩]⟩

/-- The pointer at a level from the last entry below the key leads to the first that is not. -/
theorem fwd_lastAddr (hi : 1 ≤ i) (hmax : i ≤ s.maxLevel) (key : K) :
    fwd s.nodes i (lastAddr s.head (below (atLevel L i) key)) =
      (((atLevel L i).filter fun e => key ≤ e.key).map Entry.addr).head? := by
  have hsorted : (atLevel L i).Pairwise fun e e' => e.key < e'.key := h.sorted.filter _
  have hchain := h.chain i hi hmax
  rw [← below_append hsorted key, List.map_append] at hchain
  exact hchain.drop.next_eq

/-- The entry with a key, if there is one, is the first that is not below it. -/
theorem find?_eq (key : K) : L.find? (fun e => e.key = key) =
    ((L.filter fun e => key ≤ e.key).head?).filter fun e => e.key = key := by
  have hsorted := h.sorted
  clear h
  induction L with
  | nil => rfl
  | cons e L ih =>
    obtain ⟨he, hL⟩ := List.pairwise_cons.mp hsorted
    rw [List.find?_cons]
    rcases lt_trichotomy e.key key with hlt | heq | hgt
    · have hne : e.key ≠ key := hlt.ne
      simpa [hne, not_le.mpr hlt] using ih hL
    · simp [heq, Option.filter]
    · have hnone : L.find? (fun e => decide (e.key = key)) = none := by
        refine List.find?_eq_none.mpr fun e' he' => ?_
        simpa using (hgt.trans (he e' he')).ne'
      simp [hgt.ne', hgt.le, hnone, Option.filter]

/-- **The candidate** after the descent is the entry with the key. -/
theorem candidate (hmax : 1 ≤ s.maxLevel) (key : K) :
    s.candidate key (lastAddr s.head (below L key)) =
      some ((L.find? fun e => e.key = key).map Entry.addr) := by
  have hmem : lastAddr s.head (below L key) ∈ s.nodes :=
    h.lastAddr_mem fun e he => (List.mem_filter.mp he).1
  obtain ⟨node, hnode⟩ := Option.isSome_iff_exists.mp (AList.lookup_isSome.mpr hmem)
  have hnext := h.fwd_lastAddr le_rfl hmax key
  rw [h.atLevel_one, fwd, hnode, Option.bind_some] at hnext
  rw [SkipList.candidate, hnode, h.find?_eq]
  simp only [Option.bind_eq_bind, Option.bind_some, hnext]
  cases hY : L.filter (fun e => decide (key ≤ e.key)) with
  | nil => rfl
  | cons e Y =>
    have he : e ∈ L := (List.mem_filter.mp (hY ▸ List.mem_cons_self)).1
    obtain ⟨node', hnode', hkey, -⟩ := exists_node_of_content (h.content e he)
    by_cases hk : e.key = key <;> simp [hnode', hkey, hk, Option.filter]

/-- **`find`** returns the value of the entry with the key. -/
theorem find (hmax : 1 ≤ s.maxLevel) (key : K) :
    s.find key = some ((L.find? fun e => e.key = key).bind Entry.value) := by
  obtain ⟨update, hdescend, -⟩ := h.descend hmax key
  rw [SkipList.find, hdescend]
  simp only [Option.bind_eq_bind, Option.bind_some, h.candidate hmax]
  cases hfind : L.find? (fun e => decide (e.key = key)) with
  | none => rfl
  | some e =>
    obtain ⟨node, hnode, -, hvalue, -⟩ :=
      exists_node_of_content (h.content e (List.mem_of_find?_eq_some hfind))
    simp [hnode, hvalue]

end Represents

end CodeTest.SkipList
