import CodeTest.SkipList.Descent

/-!
# Linking and unlinking nodes

What the loops at the end of `insert` and `delete` do to the pointers, and from it that the two
operations keep a skip list a representation: of the list with the entry put in, or taken out.
-/

namespace CodeTest.SkipList

variable {K V : Type} {nodes : Memory (Node K V)} {update : Table ℕ Addr} {u : ℕ → Addr}
  {node : Addr} {is : List ℕ}

/-! ## The pointers after an assignment -/

theorem mem_setForward (p x : Addr) (i : ℕ) (q : Option Addr) :
    x ∈ setForward nodes p i q ↔ x ∈ nodes := by
  rw [setForward, ← AList.lookup_isSome, ← AList.lookup_isSome, Memory.lookup_modify]
  by_cases hx : x = p
  · subst hx
    simp
  · simp [hx]

theorem content_setForward (p x : Addr) (i : ℕ) (q : Option Addr) :
    content (setForward nodes p i q) x = content nodes x := by
  rw [content, setForward, Memory.lookup_modify, content]
  by_cases hx : x = p
  · rw [if_pos hx, hx, Option.map_map]
    rfl
  · rw [if_neg hx]

theorem fwd_setForward {p : Addr} (hp : p ∈ nodes) (x : Addr) (i j : ℕ) (q : Option Addr) :
    fwd (setForward nodes p i q) j x = if x = p ∧ j = i then q else fwd nodes j x := by
  obtain ⟨n, hn⟩ := Option.isSome_iff_exists.mp (AList.lookup_isSome.mpr hp)
  rw [fwd, setForward, Memory.lookup_modify, fwd]
  by_cases hx : x = p
  · subst hx
    rw [if_pos rfl, hn, Option.map_some, Option.bind_some, Table.lookup_assign]
    by_cases hj : j = i <;> simp [hj]
  · simp [hx]

/-! ## The loops -/

/-- The loop of `insert`: at each of the levels the new node gets the pointer of the node before it,
which then leads to the new node. -/
theorem link_eq (hupdate : ∀ i ∈ is, update.lookup i = some (u i)) (hu : ∀ i ∈ is, u i ∈ nodes)
    (hnode : node ∈ nodes) (hne : ∀ i ∈ is, u i ≠ node) (hnd : is.Nodup) :
    ∃ nodes', link node update is nodes = some nodes' ∧ (∀ x, x ∈ nodes' ↔ x ∈ nodes) ∧
      (∀ x, content nodes' x = content nodes x) ∧
      ∀ j x, fwd nodes' j x =
        if j ∈ is then
          if x = node then fwd nodes j (u j) else if x = u j then some node else fwd nodes j x
        else fwd nodes j x := by
  induction is generalizing nodes with
  | nil => exact ⟨nodes, rfl, fun _ => Iff.rfl, fun _ => rfl, fun j x => by simp⟩
  | cons i is ih =>
    have hi := List.mem_cons_self (a := i) (l := is)
    obtain ⟨n, hn⟩ := Option.isSome_iff_exists.mp (AList.lookup_isSome.mpr (hu i hi))
    set nodes₁ := setForward (setForward nodes node i (n.forward.lookup i)) (u i) i (some node)
    have hmem₁ : ∀ x, x ∈ nodes₁ ↔ x ∈ nodes := fun x => by
      rw [mem_setForward, mem_setForward]
    have hfwd₁ : ∀ j x, fwd nodes₁ j x = if j = i then
        if x = node then fwd nodes i (u i) else if x = u i then some node else fwd nodes j x
        else fwd nodes j x := by
      intro j x
      have hafter : fwd nodes i (u i) = n.forward.lookup i := by rw [fwd, hn, Option.bind_some]
      rw [fwd_setForward ((mem_setForward _ _ _ _).mpr (hu i hi)), fwd_setForward hnode, hafter]
      by_cases hj : j = i
      · by_cases hx : x = node
        · simp [hj, hx, Ne.symm (hne i hi)]
        · simp [hj, hx]
      · simp [hj]
    obtain ⟨nodes', hlink, hmem, hcontent, hfwd⟩ := @ih nodes₁
      (fun j hj => hupdate j (List.mem_cons_of_mem _ hj))
      (fun j hj => (hmem₁ _).mpr (hu j (List.mem_cons_of_mem _ hj))) ((hmem₁ _).mpr hnode)
      (fun j hj => hne j (List.mem_cons_of_mem _ hj)) (List.nodup_cons.mp hnd).2
    refine ⟨nodes', ?_, fun x => (hmem x).trans (hmem₁ x), fun x => ?_, fun j x => ?_⟩
    · rw [link, hupdate i hi]
      simpa [hn] using hlink
    · rw [hcontent, content_setForward, content_setForward]
    · rw [hfwd, hfwd₁, hfwd₁]
      by_cases hji : j = i
      · subst hji
        simp [(List.nodup_cons.mp hnd).1]
      · simp [hji]

/-- The loop of `delete`: as long as the node follows at each of the levels, it is taken out at all
of them, and the loop is not left early. -/
theorem unlink_eq (hupdate : ∀ i ∈ is, update.lookup i = some (u i))
    (hnext : ∀ i ∈ is, fwd nodes i (u i) = some node) (hnode : node ∈ nodes)
    (hne : ∀ i ∈ is, u i ≠ node) (hnd : is.Nodup) :
    ∃ nodes', unlink node update is nodes = some nodes' ∧ (∀ x, x ∈ nodes' ↔ x ∈ nodes) ∧
      (∀ x, content nodes' x = content nodes x) ∧
      ∀ j x, fwd nodes' j x = if j ∈ is ∧ x = u j then fwd nodes j node else fwd nodes j x := by
  induction is generalizing nodes with
  | nil => exact ⟨nodes, rfl, fun _ => Iff.rfl, fun _ => rfl, fun j x => by simp⟩
  | cons i is ih =>
    have hi := List.mem_cons_self (a := i) (l := is)
    obtain ⟨n, hn, hni⟩ := Option.bind_eq_some_iff.mp (hnext i hi)
    have hui : u i ∈ nodes := AList.lookup_isSome.mp (by rw [hn]; rfl)
    obtain ⟨m, hm⟩ := Option.isSome_iff_exists.mp (AList.lookup_isSome.mpr hnode)
    set nodes₁ := setForward nodes (u i) i (m.forward.lookup i)
    have hfwd₁ : ∀ j x, fwd nodes₁ j x =
        if x = u i ∧ j = i then fwd nodes i node else fwd nodes j x := by
      intro j x
      have hafter : fwd nodes i node = m.forward.lookup i := by rw [fwd, hm, Option.bind_some]
      rw [fwd_setForward hui, hafter]
    have hother : ∀ j ∈ is, j ≠ i := fun j hj hji => (List.nodup_cons.mp hnd).1 (hji ▸ hj)
    obtain ⟨nodes', hunlink, hmem, hcontent, hfwd⟩ := @ih nodes₁
      (fun j hj => hupdate j (List.mem_cons_of_mem _ hj))
      (fun j hj => by
        rw [hfwd₁, if_neg fun h => hother j hj h.2]
        exact hnext j (List.mem_cons_of_mem _ hj))
      ((mem_setForward _ _ _ _).mpr hnode)
      (fun j hj => hne j (List.mem_cons_of_mem _ hj)) (List.nodup_cons.mp hnd).2
    refine ⟨nodes', ?_, fun x => (hmem x).trans (mem_setForward _ _ _ _), fun x => ?_,
      fun j x => ?_⟩
    · rw [unlink, hupdate i hi]
      simpa [hn, hni, hm] using hunlink
    · rw [hcontent, content_setForward]
    · rw [hfwd, hfwd₁, hfwd₁]
      by_cases hji : j = i
      · subst hji
        have hj : j ∉ is := (List.nodup_cons.mp hnd).1
        by_cases hx : x = u j <;> simp [hj, hx]
      · simp [hji]

/-! ## The operations -/

section Operations

variable [LinearOrder K] {s : SkipList K V} {L : List (Entry K V)}

theorem le_randomLevel (maxLevel : ℕ) (draw : ℕ → Bool) {level : ℕ} (h : level ≤ maxLevel) :
    level ≤ randomLevel maxLevel draw level ∧ randomLevel maxLevel draw level ≤ maxLevel := by
  fun_induction randomLevel maxLevel draw level with
  | case1 level hgo ih =>
    have := ih hgo.2
    omega
  | case2 level hstop => exact ⟨le_rfl, h⟩

/-- The list with an entry put in at its place. -/
def putIn (L : List (Entry K V)) (e : Entry K V) : List (Entry K V) :=
  below L e.key ++ e :: L.filter fun e' => e.key ≤ e'.key

/-- The entry with its value changed, if it has the key. -/
def Entry.setValue (key : K) (value : Option V) (e : Entry K V) : Entry K V :=
  if e.key = key then { e with value := value } else e

@[simp] theorem Entry.setValue_addr (key : K) (value : Option V) (e : Entry K V) :
    (e.setValue key value).addr = e.addr := by
  unfold Entry.setValue
  split_ifs <;> rfl

@[simp] theorem Entry.setValue_key (key : K) (value : Option V) (e : Entry K V) :
    (e.setValue key value).key = e.key := by
  unfold Entry.setValue
  split_ifs <;> rfl

@[simp] theorem Entry.setValue_level (key : K) (value : Option V) (e : Entry K V) :
    (e.setValue key value).level = e.level := by
  unfold Entry.setValue
  split_ifs <;> rfl

namespace Represents

variable (h : Represents s L)

include h

omit h in
theorem key_inj (hsorted : L.Pairwise fun e e' => e.key < e'.key) {e e' : Entry K V} (he : e ∈ L)
    (he' : e' ∈ L) (heq : e.key = e'.key) : e = e' := by
  have hnd : (L.map Entry.key).Nodup :=
    List.pairwise_map.mpr (hsorted.imp fun hlt => hlt.ne)
  exact List.inj_on_of_nodup_map hnd he he' heq

theorem addr_inj {e e' : Entry K V} (he : e ∈ L) (he' : e' ∈ L) (heq : e.addr = e'.addr) : e = e' :=
  List.inj_on_of_nodup_map (List.nodup_cons.mp h.nodup).2 he he' heq

/-- Changing the value of a node. -/
theorem setValue {e : Entry K V} (he : e ∈ L) (value : Option V) :
    Represents { s with nodes := s.nodes.modify e.addr fun node => { node with value := value } }
      (L.map (Entry.setValue e.key value)) := by
  set nodes' := s.nodes.modify e.addr fun node => { node with value := value }
  have hmem : ∀ x, x ∈ nodes' ↔ x ∈ s.nodes := by
    intro x
    rw [← AList.lookup_isSome, ← AList.lookup_isSome, Memory.lookup_modify]
    by_cases hx : x = e.addr
    · subst hx
      simp
    · simp [hx]
  have hfwd : ∀ i x, fwd nodes' i x = fwd s.nodes i x := by
    intro i x
    rw [fwd, Memory.lookup_modify, fwd]
    by_cases hx : x = e.addr
    · subst hx
      rw [if_pos rfl]
      cases s.nodes.lookup e.addr <;> rfl
    · rw [if_neg hx]
  have haddr : ∀ i, (atLevel (L.map (Entry.setValue e.key value)) i).map Entry.addr =
      (atLevel L i).map Entry.addr := by
    intro i
    simp only [atLevel, List.filter_map, List.map_map, Function.comp_def, Entry.setValue_addr,
      Entry.setValue_level]
  refine ⟨(hmem _).mpr h.head, ?_, ?_, ?_, ?_, fun i h₁ h₂ => ?_⟩
  · rintro _ hmap
    obtain ⟨e', he', rfl⟩ := List.mem_map.mp hmap
    have hcontent := h.content e' he'
    show SkipList.content nodes' _ = _
    rw [Entry.setValue_addr, SkipList.content, Memory.lookup_modify]
    by_cases hee : e' = e
    · subst hee
      obtain ⟨node, hnode, hkey, -, hlevel⟩ := exists_node_of_content hcontent
      simp [hnode, hkey, hlevel, Entry.setValue]
    · have ha : e'.addr ≠ e.addr := fun ha => hee (h.addr_inj he' he ha)
      have hk : e'.key ≠ e.key := fun hk => hee (key_inj h.sorted he' he hk)
      rw [if_neg ha, Entry.setValue, if_neg hk]
      exact hcontent
  · rintro _ hmap
    obtain ⟨e', he', rfl⟩ := List.mem_map.mp hmap
    rw [Entry.setValue_level]
    exact h.level e' he'
  · rw [List.pairwise_map]
    simpa only [Entry.setValue_key] using h.sorted
  · simpa only [List.map_map, Function.comp_def, Entry.setValue_addr] using h.nodup
  · rw [haddr]
    exact (h.chain i h₁ h₂).congr fun x _ => hfwd i x

/-- The head and the entries of a level are different nodes. -/
theorem nodup_atLevel (i : ℕ) : (s.head :: (atLevel L i).map Entry.addr).Nodup :=
  h.nodup.sublist ((List.filter_sublist.map _).cons_cons _)

omit h [LinearOrder K] in
theorem atLevel_append (X Y : List (Entry K V)) (i : ℕ) :
    atLevel (X ++ Y) i = atLevel X i ++ atLevel Y i := List.filter_append _ _

omit h in
theorem below_atLevel (L : List (Entry K V)) (i : ℕ) (key : K) :
    below (atLevel L i) key = atLevel (below L key) i := by
  simp only [below, atLevel, List.filter_filter, Bool.and_comm]

/-- The entries of a level, cut at a key. -/
theorem atLevel_split (i : ℕ) (key : K) :
    atLevel L i = atLevel (below L key) i ++ atLevel (L.filter fun e => key ≤ e.key) i := by
  rw [← atLevel_append, below_append h.sorted]

omit h in
theorem sorted_putIn {e : Entry K V} (hsorted : L.Pairwise fun e e' => e.key < e'.key)
    (hkey : ∀ e' ∈ L, e'.key ≠ e.key) :
    (SkipList.putIn L e).Pairwise fun e e' => e.key < e'.key := by
  have hlt : ∀ e' ∈ below L e.key, e'.key < e.key := fun e' he' => by
    simpa using (List.mem_filter.mp he').2
  have hgt : ∀ e' ∈ L.filter (fun e' => decide (e.key ≤ e'.key)), e.key < e'.key := by
    intro e' he'
    obtain ⟨he', hle⟩ := List.mem_filter.mp he'
    exact lt_of_le_of_ne (by simpa using hle) (hkey e' he').symm
  rw [SkipList.putIn, List.pairwise_append, List.pairwise_cons]
  refine ⟨hsorted.filter _, ⟨hgt, hsorted.filter _⟩, fun e₁ h₁ e₂ h₂ => ?_⟩
  rcases List.mem_cons.mp h₂ with rfl | h₂
  · exact hlt e₁ h₁
  · exact (hlt e₁ h₁).trans (hgt e₂ h₂)

/-- A new node linked in at the levels up to its own. -/
theorem putIn {e : Entry K V} {nodes' : Memory (Node K V)} (hkey : ∀ e' ∈ L, e'.key ≠ e.key)
    (hlevel : 1 ≤ e.level ∧ e.level ≤ s.maxLevel) (hfresh : e.addr ∉ s.nodes)
    (hmem : ∀ x, x ∈ s.nodes → x ∈ nodes')
    (hcontent : ∀ x, SkipList.content nodes' x =
      if x = e.addr then some (some e.key, e.value, e.level) else SkipList.content s.nodes x)
    (hfwd : ∀ i x, fwd nodes' i x =
      if 1 ≤ i ∧ i ≤ e.level then
        if x = e.addr then fwd s.nodes i (lastAddr s.head (below (atLevel L i) e.key))
        else if x = lastAddr s.head (below (atLevel L i) e.key) then some e.addr
        else fwd s.nodes i x
      else if x = e.addr then none else fwd s.nodes i x) :
    Represents { s with nodes := nodes' } (putIn L e) := by
  have hperm : (SkipList.putIn L e).Perm (e :: L) := by
    refine List.perm_middle.trans (.cons e ?_)
    rw [below_append h.sorted]
  have hmemL : ∀ e', e' ∈ SkipList.putIn L e ↔ e' = e ∨ e' ∈ L := fun e' => by
    rw [hperm.mem_iff, List.mem_cons]
  have hold : ∀ x ∈ s.head :: L.map Entry.addr, x ≠ e.addr := by
    rintro x hx rfl
    rcases List.mem_cons.mp hx with hx | hx
    · exact hfresh (hx ▸ h.head)
    · obtain ⟨e', he', hx⟩ := List.mem_map.mp hx
      exact hfresh (hx ▸ h.mem_nodes he')
  refine ⟨hmem _ h.head, ?_, ?_, ?_, ?_, fun i h₁ h₂ => ?_⟩
  · intro e' he'
    show SkipList.content nodes' _ = _
    rw [hcontent]
    rcases (hmemL e').mp he' with rfl | he'
    · rw [if_pos rfl]
    · rw [if_neg (hold _ (List.mem_cons_of_mem _ (List.mem_map_of_mem he'))), h.content e' he']
  · intro e' he'
    rcases (hmemL e').mp he' with rfl | he'
    · exact hlevel
    · exact h.level e' he'
  · exact sorted_putIn h.sorted hkey
  · have := ((hperm.map Entry.addr).cons s.head).trans (List.Perm.swap _ _ _)
    rw [this.nodup_iff, List.nodup_cons]
    exact ⟨fun hmem => hold _ hmem rfl, h.nodup⟩
  · have hchain := h.chain i h₁ h₂
    have hnd := h.nodup_atLevel i
    have hnew : e.addr ∉ s.head :: (atLevel L i).map Entry.addr := fun hmem =>
      hold e.addr (((List.filter_sublist.map _).cons_cons _).subset hmem) rfl
    rw [h.atLevel_split i e.key, List.map_append] at hchain hnd hnew
    rw [SkipList.putIn, atLevel_append, List.map_append]
    by_cases hi : i ≤ e.level
    · have hcons : ∀ Y, atLevel (e :: Y) i = e :: atLevel Y i := fun Y =>
        List.filter_cons_of_pos (by simpa using hi)
      rw [hcons, List.map_cons]
      refine hchain.insert hnd hnew fun x => ?_
      rw [hfwd, if_pos ⟨h₁, hi⟩, below_atLevel]
      rfl
    · have hcons : ∀ Y, atLevel (e :: Y) i = atLevel Y i := fun Y =>
        List.filter_cons_of_neg (by simpa using hi)
      rw [hcons]
      refine hchain.congr fun x hx => ?_
      rw [hfwd, if_neg fun h => hi h.2, if_neg fun hxe : x = e.addr => hnew (hxe ▸ hx)]

omit h in
/-- A sorted list, cut at an entry. -/
theorem exists_cut (hsorted : L.Pairwise fun e e' => e.key < e'.key) {e : Entry K V} (he : e ∈ L) :
    ∃ X Y, L = X ++ e :: Y ∧ below L e.key = X ∧
      L.filter (fun e' => decide (e'.key ≠ e.key)) = X ++ Y := by
  obtain ⟨X, Y, rfl⟩ := List.append_of_mem he
  obtain ⟨-, hY, hX⟩ := List.pairwise_append.mp hsorted
  have hX : ∀ e' ∈ X, e'.key < e.key := fun e' he' => hX e' he' e (by simp)
  have hY : ∀ e' ∈ Y, e.key < e'.key := (List.pairwise_cons.mp hY).1
  refine ⟨X, Y, rfl, ?_, ?_⟩
  · have h₁ : X.filter (fun e' => decide (e'.key < e.key)) = X :=
      List.filter_eq_self.mpr (by simpa using hX)
    have h₂ : Y.filter (fun e' => decide (e'.key < e.key)) = [] :=
      List.filter_eq_nil_iff.mpr (by simpa using fun e' he' => (hY e' he').le)
    simp [below, List.filter_append, h₁, h₂]
  · have h₁ : X.filter (fun e' => decide (e'.key ≠ e.key)) = X :=
      List.filter_eq_self.mpr (by simpa using fun e' he' => (hX e' he').ne)
    have h₂ : Y.filter (fun e' => decide (e'.key ≠ e.key)) = Y :=
      List.filter_eq_self.mpr (by simpa using fun e' he' => (hY e' he').ne')
    rw [List.filter_append, h₁, List.filter_cons_of_neg (by simp), h₂]

/-- An entry is on each of its levels right after the last entry below its key. -/
theorem before_entry {e : Entry K V} (he : e ∈ L) {j : ℕ} (h₁ : 1 ≤ j) (h₂ : j ≤ e.level) :
    fwd s.nodes j (lastAddr s.head (below (atLevel L j) e.key)) = some e.addr ∧
      lastAddr s.head (below (atLevel L j) e.key) ≠ e.addr := by
  obtain ⟨X, Y, hL, hbelow, -⟩ := exists_cut h.sorted he
  have hlevels : (atLevel L j).map Entry.addr =
      (atLevel X j).map Entry.addr ++ e.addr :: (atLevel Y j).map Entry.addr := by
    have hcons : atLevel (e :: Y) j = e :: atLevel Y j :=
      List.filter_cons_of_pos (by simpa using h₂)
    rw [hL, atLevel_append, hcons, List.map_append, List.map_cons]
  rw [below_atLevel, hbelow]
  constructor
  · have hchain := h.chain j h₁ (h₂.trans (h.level e he).2)
    rw [hlevels] at hchain
    exact hchain.drop.next_eq
  · intro heq
    have hnd := h.nodup_atLevel j
    rw [hlevels, ← List.cons_append, List.nodup_append'] at hnd
    have hmem : e.addr ∈ s.head :: (atLevel X j).map Entry.addr := by
      rw [← heq]
      exact Chain.getLastD_mem _ _
    exact hnd.2.2 hmem (by simp)

/-- A node unlinked at the levels up to its own. -/
theorem takeOut {e : Entry K V} (he : e ∈ L) {nodes' : Memory (Node K V)}
    (hmem : ∀ x, x ∈ nodes' ↔ x ∈ s.nodes)
    (hcontent : ∀ x, SkipList.content nodes' x = SkipList.content s.nodes x)
    (hfwd : ∀ i x, fwd nodes' i x =
      if (1 ≤ i ∧ i ≤ e.level) ∧ x = lastAddr s.head (below (atLevel L i) e.key) then
        fwd s.nodes i e.addr
      else fwd s.nodes i x) :
    Represents { s with nodes := nodes' } (L.filter fun e' => e'.key ≠ e.key) := by
  have hsub : ∀ e', e' ∈ L.filter (fun e' => decide (e'.key ≠ e.key)) → e' ∈ L := fun e' he' =>
    (List.mem_filter.mp he').1
  refine ⟨(hmem _).mpr h.head, fun e' he' => (hcontent _).trans (h.content e' (hsub e' he')),
    fun e' he' => h.level e' (hsub e' he'), h.sorted.filter _,
    h.nodup.sublist ((List.filter_sublist.map _).cons_cons _), fun i h₁ h₂ => ?_⟩
  obtain ⟨X, Y, hL, hbelow, hrest⟩ := exists_cut h.sorted he
  have hchain := h.chain i h₁ h₂
  have hnd := h.nodup_atLevel i
  simp only [below_atLevel, hbelow] at hfwd
  rw [hrest, atLevel_append, List.map_append]
  rw [hL, atLevel_append, List.map_append] at hchain hnd
  by_cases hi : i ≤ e.level
  · have hcons : atLevel (e :: Y) i = e :: atLevel Y i :=
      List.filter_cons_of_pos (by simpa using hi)
    rw [hcons, List.map_cons] at hchain hnd
    refine hchain.remove hnd fun x => ?_
    rw [hfwd]
    simp only [h₁, hi, and_self, true_and]
    rfl
  · have hcons : atLevel (e :: Y) i = atLevel Y i :=
      List.filter_cons_of_neg (by simpa using hi)
    rw [hcons] at hchain
    refine hchain.congr fun x _ => ?_
    rw [hfwd, if_neg fun h => hi h.1.2]

end Represents

end Operations

end CodeTest.SkipList
