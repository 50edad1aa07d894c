import CodeTest.SkipList.Links

/-!
# The skip list is a finite map

`insert` and `delete` on a skip list that represents a list of entries (`Represents.insert`,
`Represents.delete`), and `skipList_finiteMap`: after every sequence of them, whatever the draws,
the levels are chains as they should be and `find` returns what was inserted last.
-/

namespace CodeTest.SkipList

variable {K V : Type} [LinearOrder K] {s : SkipList K V} {L : List (Entry K V)}

/-- The value of a key in a list of entries. -/
def valueOf (L : List (Entry K V)) (key : K) : Option V :=
  (L.find? fun e => e.key = key).bind Entry.value

theorem valueOf_setValue (L : List (Entry K V)) {key : K} (hkey : ∃ e ∈ L, e.key = key)
    (value : Option V) (k : K) :
    valueOf (L.map (Entry.setValue key value)) k = if k = key then value else valueOf L k := by
  have hcomp : ((fun e => decide (e.key = k)) ∘ Entry.setValue key value) =
      fun e : Entry K V => decide (e.key = k) := by
    funext e
    simp
  rw [valueOf, valueOf, List.find?_map, hcomp]
  cases hfind : L.find? (fun e => decide (e.key = k)) with
  | none =>
    have hk : k ≠ key := by
      rintro rfl
      obtain ⟨e, he, hek⟩ := hkey
      exact absurd hek (by simpa using List.find?_eq_none.mp hfind e he)
    simp [hk]
  | some e =>
    have hek : e.key = k := by simpa using List.find?_some hfind
    by_cases hk : k = key <;> simp [Entry.setValue, hek, hk]

theorem valueOf_putIn (hsorted : L.Pairwise fun e e' => e.key < e'.key) (e : Entry K V) (k : K) :
    valueOf (putIn L e) k = if k = e.key then e.value else valueOf L k := by
  have hcut := below_append hsorted e.key
  by_cases hk : k = e.key
  · subst hk
    have hnone : (below L e.key).find? (fun e' => decide (e'.key = e.key)) = none := by
      refine List.find?_eq_none.mpr fun e' he' => ?_
      have : e'.key < e.key := by simpa using (List.mem_filter.mp he').2
      simpa using this.ne
    simp [valueOf, putIn, List.find?_append, hnone]
  · have hskip : (putIn L e).find? (fun e' => decide (e'.key = k)) =
        L.find? fun e' => decide (e'.key = k) := by
      rw [putIn, List.find?_append, List.find?_cons_of_neg (by simpa using Ne.symm hk),
        ← List.find?_append, hcut]
    rw [if_neg hk, valueOf, hskip, valueOf]

theorem valueOf_filter (L : List (Entry K V)) (key k : K) :
    valueOf (L.filter fun e => e.key ≠ key) k = if k = key then none else valueOf L k := by
  rw [valueOf, List.find?_filter]
  by_cases hk : k = key
  · have hnone :
        L.find? (fun e => decide (decide (e.key ≠ key) = true ∧ decide (e.key = k) = true)) =
          none := by
      refine List.find?_eq_none.mpr fun e _ => ?_
      simp [hk]
    rw [hnone, if_pos hk, Option.bind_none]
  · rw [if_neg hk, valueOf]
    congr 2
    funext e
    by_cases hek : e.key = k <;> simp [hek, hk]

theorem mem_levels {level j : ℕ} : j ∈ List.range' 1 level ↔ 1 ≤ j ∧ j ≤ level := by
  rw [List.mem_range'_1]
  omega

namespace Represents

variable (h : Represents s L)

include h

/-- A key that no entry has gets a new node. -/
theorem insert_new (hmax : 1 ≤ s.maxLevel) (alloc : Allocator (Node K V)) {key : K}
    (hfind : L.find? (fun e => decide (e.key = key)) = none) (value : Option V)
    (draw : ℕ → Bool) :
    ∃ s' L', s.insert alloc key value draw = some s' ∧ s'.maxLevel = s.maxLevel ∧
      Represents s' L' ∧ ∀ k, valueOf L' k = if k = key then value else valueOf L k := by
  obtain ⟨update, hdescend, hupdate⟩ := h.descend hmax key
  have hkey : ∀ e' ∈ L, e'.key ≠ key := by
    intro e' he'
    simpa using List.find?_eq_none.mp hfind e' he'
  set a := alloc.fresh s.nodes with ha
  have hfresh : a ∉ s.nodes := AList.lookup_eq_none.mp (alloc.fresh_free _)
  set level := randomLevel s.maxLevel draw 1 with hlevel
  have hlevel' : 1 ≤ level ∧ level ≤ s.maxLevel := le_randomLevel _ _ hmax
  set nodes₀ := s.nodes.insert a ⟨some key, value, level, ∅⟩
  have hlookup : ∀ x, nodes₀.lookup x = if x = a then some ⟨some key, value, level, ∅⟩
      else s.nodes.lookup x := fun x => Table.lookup_insert_eq _ _ _ _
  have hmem₀ : ∀ x, x ∈ s.nodes → x ∈ nodes₀ := fun x hx => (AList.mem_insert _).mpr (.inr hx)
  set u : ℕ → Addr := fun j => lastAddr s.head (below (atLevel L j) key)
  have hu : ∀ j, u j ∈ s.nodes := fun j =>
    h.lastAddr_mem fun e he => (List.mem_filter.mp (List.mem_filter.mp he).1).1
  have hne : ∀ j, u j ≠ a := fun j heq => hfresh (heq ▸ hu j)
  have hupdate' : ∀ j ∈ List.range' 1 level, update.lookup j = some (u j) := by
    intro j hj
    obtain ⟨h₁, h₂⟩ := mem_levels.mp hj
    exact hupdate j h₁ (h₂.trans hlevel'.2)
  have ha₀ : a ∈ nodes₀ := (AList.mem_insert _).mpr (.inl rfl)
  obtain ⟨nodes', hlink, hmem, hcontent, hfwd⟩ :=
    link_eq hupdate' (fun j _ => hmem₀ _ (hu j)) ha₀ (fun j _ => hne j) List.nodup_range'
  refine ⟨{ s with nodes := nodes' }, SkipList.putIn L ⟨a, key, level, value⟩, ?_, rfl, ?_,
    fun k => ?_⟩
  · rw [SkipList.insert, hdescend]
    simp only [Option.bind_eq_bind, Option.bind_some, h.candidate hmax, hfind, Option.map_none,
      ← ha, ← hlevel]
    rw [hlink]
    rfl
  · apply h.putIn (e := ⟨a, key, level, value⟩) hkey hlevel' hfresh
      (fun x hx => (hmem x).mpr (hmem₀ x hx)) (fun x => ?_) fun i x => ?_
    · rw [hcontent, SkipList.content, hlookup]
      split_ifs <;> rfl
    · have hfwd₀ : ∀ x, fwd nodes₀ i x = if x = a then none else fwd s.nodes i x := by
        intro x
        rw [fwd, hlookup]
        split_ifs <;> rfl
      rw [hfwd, hfwd₀, hfwd₀, if_neg (hne i)]
      simp only [mem_levels]
      split_ifs <;> rfl
  · exact valueOf_putIn h.sorted _ k

/-- **`insert`** sets the value of the key and leaves those of the others. -/
theorem insert (hmax : 1 ≤ s.maxLevel) (alloc : Allocator (Node K V)) (key : K) (value : Option V)
    (draw : ℕ → Bool) :
    ∃ s' L', s.insert alloc key value draw = some s' ∧ s'.maxLevel = s.maxLevel ∧
      Represents s' L' ∧ ∀ k, valueOf L' k = if k = key then value else valueOf L k := by
  cases hfind : L.find? (fun e => decide (e.key = key)) with
  | some e =>
    obtain ⟨update, hdescend, -⟩ := h.descend hmax key
    have he := List.mem_of_find?_eq_some hfind
    have hek : e.key = key := by simpa using List.find?_some hfind
    refine ⟨{ s with nodes := s.nodes.modify e.addr fun node => { node with value := value } }, _,
      ?_, rfl, h.setValue he value, fun k => ?_⟩
    · rw [SkipList.insert, hdescend]
      simp only [Option.bind_eq_bind, Option.bind_some, h.candidate hmax, hfind]
      rfl
    · rw [hek, valueOf_setValue L ⟨e, he, hek⟩]
  | none => exact h.insert_new hmax alloc hfind value draw

/-- **`delete`** removes the value of the key and leaves those of the others. -/
theorem delete (hmax : 1 ≤ s.maxLevel) (key : K) :
    ∃ s' L', s.delete key = some s' ∧ s'.maxLevel = s.maxLevel ∧ Represents s' L' ∧
      ∀ k, valueOf L' k = if k = key then none else valueOf L k := by
  obtain ⟨update, hdescend, hupdate⟩ := h.descend hmax key
  cases hfind : L.find? (fun e => decide (e.key = key)) with
  | none =>
    refine ⟨s, L, ?_, rfl, h, fun k => ?_⟩
    · rw [SkipList.delete, hdescend]
      simp only [Option.bind_eq_bind, Option.bind_some, h.candidate hmax, hfind]
      rfl
    · split_ifs with hk
      · rw [hk, valueOf, hfind, Option.bind_none]
      · rfl
  | some e =>
    have he := List.mem_of_find?_eq_some hfind
    have hek : e.key = key := by simpa using List.find?_some hfind
    subst hek
    obtain ⟨node, hnode, -, -, hlevel⟩ := exists_node_of_content (h.content e he)
    set u : ℕ → Addr := fun j => lastAddr s.head (below (atLevel L j) e.key)
    have hmaxLevel := (h.level e he).2
    have hupdate' : ∀ j ∈ List.range' 1 e.level, update.lookup j = some (u j) := by
      intro j hj
      obtain ⟨h₁, h₂⟩ := mem_levels.mp hj
      exact hupdate j h₁ (h₂.trans hmaxLevel)
    have hbefore : ∀ j ∈ List.range' 1 e.level,
        fwd s.nodes j (u j) = some e.addr ∧ u j ≠ e.addr := by
      intro j hj
      obtain ⟨h₁, h₂⟩ := mem_levels.mp hj
      exact h.before_entry he h₁ h₂
    obtain ⟨nodes', hunlink, hmem, hcontent, hfwd⟩ :=
      unlink_eq hupdate' (fun j hj => (hbefore j hj).1) (h.mem_nodes he)
        (fun j hj => (hbefore j hj).2) List.nodup_range'
    refine ⟨{ s with nodes := nodes' }, _, ?_, rfl, h.takeOut he hmem hcontent ?_,
      valueOf_filter L e.key⟩
    · rw [SkipList.delete, hdescend]
      simp only [Option.bind_eq_bind, Option.bind_some, h.candidate hmax, hfind, Option.map_some,
        hnode, hlevel]
      rw [hunlink]
      rfl
    · intro i x
      rw [hfwd]
      simp only [mem_levels, u]

end Represents

/-! ## Runs -/

/-- The operations that change a skip list; each insertion comes with the outcomes of its draws. -/
inductive Op (K V : Type)
  | insert (key : K) (value : Option V) (draw : ℕ → Bool)
  | delete (key : K)

def apply (alloc : Allocator (Node K V)) (s : SkipList K V) : Op K V → Option (SkipList K V)
  | .insert key value draw => s.insert alloc key value draw
  | .delete key => s.delete key

/-- The value of the latest insertion of the key that no deletion follows, starting with `value`. -/
def latest (key : K) : Option V → List (Op K V) → Option V
  | value, [] => value
  | value, .insert k v _ :: ops => latest key (if key = k then v else value) ops
  | value, .delete k :: ops => latest key (if key = k then none else value) ops

theorem represents_new (alloc : Allocator (Node K V)) (maxLevel : ℕ) :
    Represents (new alloc maxLevel) ([] : List (Entry K V)) where
  head := (AList.mem_insert _).mpr (.inl rfl)
  content e he := by simp at he
  level e he := by simp at he
  sorted := List.Pairwise.nil
  nodup := by simp
  chain i _ _ := by
    show (AList.lookup (alloc.fresh ∅) (AList.insert (alloc.fresh ∅) _ _)).bind _ = none
    rw [AList.lookup_insert]
    rfl

/-- A sequence of operations. -/
theorem Represents.foldlM (h : Represents s L) (hmax : 1 ≤ s.maxLevel)
    (alloc : Allocator (Node K V)) (ops : List (Op K V)) :
    ∃ s' L', ops.foldlM (SkipList.apply alloc) s = some s' ∧ s'.maxLevel = s.maxLevel ∧
      Represents s' L' ∧ ∀ k, valueOf L' k = latest k (valueOf L k) ops := by
  induction ops generalizing s L with
  | nil => exact ⟨s, L, rfl, rfl, h, fun k => rfl⟩
  | cons op ops ih =>
    obtain ⟨s₁, L₁, happly, hmax₁, h₁, hvalue₁⟩ : ∃ s₁ L₁, s.apply alloc op = some s₁ ∧
        s₁.maxLevel = s.maxLevel ∧ Represents s₁ L₁ ∧
        ∀ k, latest k (valueOf L₁ k) ops = latest k (valueOf L k) (op :: ops) := by
      cases op with
      | insert key value draw =>
        obtain ⟨s₁, L₁, hop, hmax₁, h₁, hvalue⟩ := h.insert hmax alloc key value draw
        exact ⟨s₁, L₁, hop, hmax₁, h₁, fun k => by rw [hvalue, latest]⟩
      | delete key =>
        obtain ⟨s₁, L₁, hop, hmax₁, h₁, hvalue⟩ := h.delete hmax key
        exact ⟨s₁, L₁, hop, hmax₁, h₁, fun k => by rw [hvalue, latest]⟩
    obtain ⟨s', L', hrest, hmax', h', hvalue'⟩ := ih h₁ (hmax₁ ▸ hmax)
    refine ⟨s', L', ?_, hmax'.trans hmax₁, h', fun k => (hvalue' k).trans (hvalue₁ k)⟩
    rw [List.foldlM_cons, happly]
    exact hrest

/-- The key and the level of the node at an address. -/
def keyAt (s : SkipList K V) (a : Addr) : Option K := (s.nodes.lookup a).bind Node.key

def levelAt (s : SkipList K V) (a : Addr) : Option ℕ := (s.nodes.lookup a).map Node.level

/-- **The skip list is a finite map.** For every `maxLevel` from 1 on, every sequence of insertions
and deletions and all outcomes of the draws, no operation fails or runs for ever, and afterwards
there are chains of nodes such that: the pointers of each level lead through its chain; the keys of
a chain grow; each chain is a part of the one below; a node is on the chains of the levels up to its
own; and `find` returns the value of the latest insertion that no deletion follows. -/
theorem skipList_finiteMap (alloc : Allocator (Node K V)) (maxLevel : ℕ) (hmax : 1 ≤ maxLevel)
    (ops : List (Op K V)) :
    ∃ (s : SkipList K V) (chain : ℕ → List Addr),
      ops.foldlM (SkipList.apply alloc) (new alloc maxLevel) = some s ∧
      (∀ i, 1 ≤ i → i ≤ maxLevel → Chain (fwd s.nodes i) s.head (chain i)) ∧
      (∀ i, (chain i).Pairwise fun a b =>
        ∃ k ∈ s.keyAt a, ∃ k' ∈ s.keyAt b, k < k') ∧
      (∀ i, (chain (i + 1)).Sublist (chain i)) ∧
      (∀ a ∈ chain 1, ∃ level, s.levelAt a = some level ∧ 1 ≤ level ∧ level ≤ maxLevel ∧
        ∀ i, 1 ≤ i → (a ∈ chain i ↔ i ≤ level)) ∧
      ∀ key, s.find key = some (latest key none ops) := by
  obtain ⟨s, L, hrun, hmax', h, hvalue⟩ :=
    (represents_new (V := V) (K := K) alloc maxLevel).foldlM hmax alloc ops
  have hmax' : s.maxLevel = maxLevel := hmax'
  have hmem : ∀ i e, e ∈ atLevel L i ↔ e ∈ L ∧ i ≤ e.level := fun i e => by
    simp [atLevel]
  refine ⟨s, fun i => (atLevel L i).map Entry.addr, hrun, fun i h₁ h₂ => h.chain i h₁ (hmax' ▸ h₂),
    fun i => ?_, fun i => ?_, fun a ha => ?_, fun key => ?_⟩
  · rw [List.pairwise_map]
    refine (h.sorted.filter _).imp_of_mem fun {e e'} he he' hlt => ?_
    obtain ⟨node, hnode, hkey, -⟩ := exists_node_of_content (h.content e ((hmem i e).mp he).1)
    obtain ⟨node', hnode', hkey', -⟩ := exists_node_of_content (h.content e' ((hmem i e').mp he').1)
    exact ⟨e.key, by simp [keyAt, hnode, hkey], e'.key, by simp [keyAt, hnode', hkey'], hlt⟩
  · have : atLevel L (i + 1) = atLevel (atLevel L i) (i + 1) := by
      rw [atLevel, atLevel, atLevel, List.filter_filter]
      refine List.filter_congr fun e _ => ?_
      by_cases hi : i + 1 ≤ e.level
      · simp [hi, Nat.le_of_succ_le hi]
      · simp [hi]
    simp only [this]
    exact List.filter_sublist.map _
  · obtain ⟨e, he, rfl⟩ := List.mem_map.mp ha
    have heL := ((hmem 1 e).mp he).1
    obtain ⟨node, hnode, -, -, hlevel⟩ := exists_node_of_content (h.content e heL)
    obtain ⟨h₁, h₂⟩ := h.level e heL
    refine ⟨e.level, by simp [levelAt, hnode, hlevel], h₁, hmax' ▸ h₂, fun i _ => ?_⟩
    simp only [List.mem_map]
    constructor
    · rintro ⟨e', he', heq⟩
      obtain ⟨he'L, hi⟩ := (hmem i e').mp he'
      exact h.addr_inj he'L heL heq ▸ hi
    · intro hi
      exact ⟨e, (hmem i e).mpr ⟨heL, hi⟩, rfl⟩
  · rw [h.find (hmax' ▸ hmax) key]
    exact congrArg some (hvalue key)

/-- Two keys inserted, one of them again and the other deleted. -/
theorem skipList_finiteMap_two :
    ∃ s : SkipList ℕ String, List.foldlM (SkipList.apply (Allocator.above _))
        (new (Allocator.above _) 4)
        [.insert 2 (some "b") (fun _ => true), .insert 1 (some "a") (fun _ => false),
          .insert 2 (some "c") (fun _ => false), .delete 1] = some s ∧
      s.find 2 = some (some "c") ∧ s.find 1 = some none := by
  obtain ⟨s, chain, hrun, -, -, -, -, hfind⟩ := skipList_finiteMap
    (Allocator.above (Node ℕ String)) 4 (by decide)
    [.insert 2 (some "b") (fun _ => true), .insert 1 (some "a") (fun _ => false),
      .insert 2 (some "c") (fun _ => false), .delete 1]
  exact ⟨s, hrun, hfind 2, hfind 1⟩

end CodeTest.SkipList
