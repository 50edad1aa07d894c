import CodeTest.Foundations.Machine
import CodeTest.LuaTable.Offset

/-!
# Assignments to a table with a shadow

After `genShadowTable` a program makes tables and assigns to the proxy and to other tables. The
pairs of tables in which `isEqual` compares the source with the shadow are `compared`. An assignment
is `Careful` when the value fits the shadow in all pairs with the table that is changed, or is a
number that the proxy writes to the shadow too. Such assignments keep an invariant
(`Mirrored.step`), under which `isEqual` returns `true` (`Mirrored.isEqual`).
-/

namespace CodeTest

open Places

/-- What a program does after a call of `genShadowTable`. -/
inductive TableAction (N : Type)
  /-- A table constructor `{}`. -/
  | create
  /-- An assignment `t[k] = v`. -/
  | assign (t : Addr) (k : LuaValue N) (v : Option (LuaValue N))

namespace Shadowed

variable {N : Type} [DecidableEq N] [LuaNumber N]

/-- An assignment that raises an error changes nothing. -/
def step (lua : Lua N) : Machine (Shadowed N) (TableAction N) (Option LuaError)
  | s, .create => (none, { s with heap := s.heap.insert (lua.alloc.fresh s.heap) ⟨∅, none⟩ })
  | s, .assign t k v =>
    match s.assign lua t k v with
    | .ok s' => (none, s')
    | .error e => (some e, s)

/-- The table that is read at an address: the proxy stands for the source. -/
def source (s : Shadowed N) (p : Addr) : Addr := if p = s.tNew then s.tSource else p

/-- The pair of tables that `isEqual` compares at a key of a pair. -/
def places (s : Shadowed N) (x : Addr × Addr) (k : LuaValue N) : Option (Addr × Addr) :=
  (s.heap.child (s.source x.1) k).bind fun p => (s.heap.child x.2 k).map fun q => (p, q)

/-- The pairs of tables that are compared, from a pair on. -/
def compared (s : Shadowed N) (p q : Addr) : Set (Addr × Addr) := below s.places (p, q)

/-- `isEqual` finds no difference between the values of a key, tables aside. -/
def fits (nOffset : N) : Option (LuaValue N) → Option (LuaValue N) → Bool
  | none, _ => true
  | _, none => true
  | some (.table _), _ => true
  | _, some (.table _) => true
  | some (.boolean false), _ => true
  | some (.number n), some w => (LuaValue.number (LuaNumber.add n nOffset)).rawEqual w
  | some v, some w => v.rawEqual w

/-- A pair of tables in which `isEqual` finds no difference, other tables aside. -/
def Agrees (s : Shadowed N) (x : Addr × Addr) : Prop :=
  s.heap.Bare (s.source x.1) ∧
    ∀ k, fits s.nOffset (s.heap.rawget (s.source x.1) k) (s.heap.rawget x.2 k)

/-- The value `v` may be assigned to the key `k` of the table `t` as far as the table `q` of the
shadow is concerned, with which `t` is compared: it fits the value there, and when both are tables,
so do all pairs that are compared below them. -/
def Suits (s : Shadowed N) (t : Addr) (k : LuaValue N) (v : Option (LuaValue N)) (q : Addr) :
    Prop :=
  fits s.nOffset v (s.heap.rawget q k) ∧
    ∀ p' q', v = some (.table p') → s.heap.rawget q k = some (.table q') →
      ∀ y ∈ s.compared p' q', s.Agrees y ∧ (s.source y.1 = s.source t → s.heap.rawget y.2 k = none)

/-- The number that an assignment through the proxy writes to the shadow too, before the offset. -/
def mirrored (s : Shadowed N) (t : Addr) : Option (LuaValue N) → Option N
  | some (.number n) => if t = s.tNew then some n else none
  | _ => none

/-- The condition on a step. The assignment is to the proxy, or to a table without metatable that is
not hidden, and stores no hidden table; a number that is written to the shadow too is not NaN; and
the value suits all tables of the shadow that the table is compared with, except the shadow itself
when the number is written there. -/
def Careful (hidden : Set Addr) (s : Shadowed N) : TableAction N → Prop
  | .create => True
  | .assign t k v =>
    t ∉ hidden ∧ (s.heap.lookup t).isSome ∧ (t = s.tNew ∨ s.heap.Bare t) ∧
      (∀ p, v = some (.table p) → p ∉ hidden) ∧ (∀ n ∈ s.mirrored t v, LuaNumber.eq n n) ∧
      ∀ x ∈ s.compared s.tSource s.tShadow, s.source x.1 = s.source t →
        x.2 = s.tShadow ∧ (s.mirrored t v).isSome ∨ s.Suits t k v x.2

/-! ## The invariant -/

/-- The fields of the metatable of the proxy. -/
def proxyFields (s : Shadowed N) : Table (LuaValue N) (LuaValue N) :=
  (AList.insert (.string "__index") (.table s.tSource) ∅).insert (.string "__newindex")
    (.function s.newindex)

/-- The invariant: the metatable of the proxy is as it was made; the tables of the shadow are a tree
of hidden tables without metatables, in at most `depth` levels, to which no other table refers; and
`isEqual` finds no difference in a pair that it compares. -/
structure Mirrored (hidden : Set Addr) (depth : ℕ) (s : Shadowed N) : Prop where
  offset : ∃ n : ℤ, s.nOffset = LuaNumber.ofInt n
  source_there : (s.heap.lookup s.tSource).isSome
  source_ne : s.tSource ≠ s.tNew
  source_visible : s.tSource ∉ hidden
  proxy_visible : s.tNew ∉ hidden
  proxy : ∃ mt ∈ hidden, mt ≠ s.tShadow ∧ s.heap.view s.tNew = (some (some mt), fun _ => none) ∧
    s.heap.view mt = (some none, s.proxyFields.lookup)
  shadow_there : (s.heap.lookup s.tShadow).isSome
  shadow_hidden : below s.heap.child s.tShadow ⊆ hidden
  shadow_bare : ∀ p ∈ below s.heap.child s.tShadow, s.heap.Bare p
  tree : IsTree s.heap.child s.tShadow
  finite : (below s.heap.child s.tShadow).Finite
  card_le : (below s.heap.child s.tShadow).ncard ≤ depth
  separate : ∀ p ∉ hidden, ∀ k q, s.heap.child p k = some q → q ∉ hidden
  agrees : ∀ x ∈ s.compared s.tSource s.tShadow, s.Agrees x

section Compared

variable {s : Shadowed N} {hidden : Set Addr} {x y : Addr × Addr} {k : LuaValue N} {p q : Addr}

omit [LuaNumber N] in
theorem places_eq_some_iff : s.places x k = some y ↔
    s.heap.child (s.source x.1) k = some y.1 ∧ s.heap.child x.2 k = some y.2 :=
  bind_map_prodMk_eq_some_iff

omit [DecidableEq N] [LuaNumber N] in
theorem source_not_mem (hsource : s.tSource ∉ hidden) (hp : p ∉ hidden) :
    s.source p ∉ hidden := by
  unfold source
  split_ifs
  · exact hsource
  · exact hp

omit [LuaNumber N] in
/-- In a pair that is compared the first table is not hidden, and the second one is a part of the
second table that it began with. -/
theorem sides_of_mem_compared (hsource : s.tSource ∉ hidden)
    (hseparate : ∀ p ∉ hidden, ∀ k q, s.heap.child p k = some q → q ∉ hidden) (hp : p ∉ hidden)
    (hx : x ∈ s.compared p q) : x.1 ∉ hidden ∧ x.2 ∈ below s.heap.child q := by
  induction hx with
  | refl => exact ⟨hp, mem_below_self q⟩
  | @tail x y _ hstep ih =>
    obtain ⟨k, hk⟩ := hstep
    obtain ⟨h₁, h₂⟩ := places_eq_some_iff.mp hk
    exact ⟨hseparate _ (source_not_mem hsource ih.1) k _ h₁, mem_below_of_child ih.2 h₂⟩

omit [LuaNumber N] in
/-- A pair with the root of a tree is the pair that it began with. -/
theorem eq_of_mem_compared (htree : IsTree s.heap.child q) (hx : x ∈ s.compared p q)
    (hxq : x.2 = q) : x = (p, q) := by
  have hbelow : ∀ y ∈ s.compared p q, y.2 ∈ below s.heap.child q := by
    intro y hy
    induction hy with
    | refl => exact mem_below_self q
    | tail _ hstep ih =>
      obtain ⟨k, hk⟩ := hstep
      exact mem_below_of_child ih (places_eq_some_iff.mp hk).2
  rcases Relation.ReflTransGen.cases_tail hx with hx | ⟨y, hy, k, hk⟩
  · exact hx
  · obtain ⟨-, hchild⟩ := places_eq_some_iff.mp hk
    rw [hxq] at hchild
    exact absurd hchild (htree.root_not_child y.2 (hbelow y hy) k)

end Compared

/-! ## The check -/

section Check

variable {s : Shadowed N} {hidden : Set Addr} {depth : ℕ} {lua : Lua N}

/-- One turn of the loop of `isEqual`, when the values fit, and tables are equal. -/
theorem equalValues_eq_true {isEqual : Addr → Addr → Except LuaError Bool} {nOffset : N}
    {v : Option (LuaValue N)} {w : LuaValue N} (hfits : fits nOffset v (some w))
    (htables : ∀ p q, v = some (.table p) → w = .table q → isEqual p q = .ok true) :
    LuaHeap.equalValues isEqual nOffset v (some w) = .ok true := by
  have hok : Except.ok (fits nOffset v (some w)) = (.ok true : Except LuaError Bool) :=
    congrArg Except.ok hfits
  cases v with
  | none => cases w <;> rfl
  | some v =>
    cases v with
    | table p =>
      cases w with
      | table q => exact htables p q rfl rfl
      | _ => rfl
    | boolean b => cases b <;> cases w <;> first | rfl | exact hok
    | _ => cases w <;> first | rfl | exact hok

/-- The loop of `isEqual` goes to the end when the values of all keys fit, and tables are equal. -/
theorem equalEntries_eq_true {isEqual : Addr → Addr → Except LuaError Bool} {tb1 tb2 : Addr}
    (l : List (Σ _ : LuaValue N, LuaValue N))
    (h : ∀ e ∈ l, ∃ v, s.heap.index lua (.table tb1) e.1 = .ok v ∧
      s.heap.index lua (.table tb2) e.1 = .ok (some e.2) ∧ fits s.nOffset v (some e.2) ∧
      ∀ p q, v = some (.table p) → e.2 = .table q → isEqual p q = .ok true) :
    s.heap.equalEntries lua isEqual s.nOffset tb1 tb2 l = .ok true := by
  induction l with
  | nil => rfl
  | cons e l ih =>
    have hrest := ih fun e' he' => h e' (List.mem_cons_of_mem _ he')
    obtain ⟨v, hv, hw, hfits, htables⟩ := h e List.mem_cons_self
    simp only [LuaHeap.equalEntries, hv, hw, bind, Except.bind, equalValues_eq_true hfits htables]
    exact hrest

namespace Mirrored

/-- The fields of the metatable of the proxy. -/
theorem metafield_proxy (h : s.Mirrored hidden depth) (field : String) :
    s.heap.metafield s.tNew field = s.proxyFields.lookup (.string field) := by
  obtain ⟨mt, -, -, hproxy, hmt⟩ := h.proxy
  rw [LuaHeap.metafield_of_view (by rw [hproxy])]
  exact congrFun (congrArg Prod.snd hmt) _

theorem rawget_proxy (h : s.Mirrored hidden depth) (k : LuaValue N) :
    s.heap.rawget s.tNew k = none := by
  obtain ⟨mt, -, -, hproxy, -⟩ := h.proxy
  exact congrFun (congrArg Prod.snd hproxy) k

/-- An access to a table without metatable, or through the proxy to the source. -/
theorem index (h : s.Mirrored hidden depth) (hloop : 0 < lua.maxTagLoop) {p : Addr}
    (hp : s.heap.Bare (s.source p)) (k : LuaValue N) :
    s.heap.index lua (.table p) k = .ok (s.heap.rawget (s.source p) k) := by
  unfold source at hp ⊢
  split_ifs at hp ⊢ with hnew
  · obtain ⟨n, hn⟩ := Nat.exists_eq_succ_of_ne_zero hloop.ne'
    rw [hnew, LuaHeap.index, hn, LuaHeap.indexChain, h.rawget_proxy, h.metafield_proxy]
    show s.heap.indexChain lua (n + 1) (.table s.tSource) k = _
    rw [LuaHeap.indexChain, LuaHeap.metafield_of_bare hp]
    cases s.heap.rawget s.tSource k <;> rfl
  · exact LuaHeap.index_of_bare hp lua k

/-- A table of the source is not `==` to one of the shadow. -/
theorem equal_eq_false (h : s.Mirrored hidden depth) {p q : Addr}
    (hp : s.heap.Bare (s.source p)) (hvisible : p ∉ hidden)
    (hq : q ∈ below s.heap.child s.tShadow) : s.heap.equal lua p q = false := by
  have hne : p ≠ q := by
    rintro rfl
    exact hvisible (h.shadow_hidden hq)
  have hfield : s.heap.metafield p "__eq" = none := by
    unfold source at hp
    split_ifs at hp with hnew
    · rw [hnew, h.metafield_proxy]
      rfl
    · exact LuaHeap.metafield_of_bare hp _
  simp [LuaHeap.equal, hne, hfield, LuaHeap.metafield_of_bare (h.shadow_bare q hq)]

/-- `isEqual` returns `true` for every pair that it compares. -/
theorem isEqual_pair (h : s.Mirrored hidden depth) (hloop : 0 < lua.maxTagLoop) {d : ℕ}
    {x : Addr × Addr} (hx : x ∈ s.compared s.tSource s.tShadow)
    (hd : (below s.heap.child x.2).ncard ≤ d) :
    s.heap.isEqual lua s.nOffset d x.1 x.2 = .ok true := by
  induction d generalizing x with
  | zero =>
    obtain ⟨-, hmem⟩ := sides_of_mem_compared h.source_visible h.separate h.source_visible hx
    have hpos := (Set.ncard_pos (h.finite.subset (below_subset hmem))).mpr ⟨x.2, mem_below_self x.2⟩
    omega
  | succ d ih =>
    obtain ⟨hvisible, hmem⟩ :=
      sides_of_mem_compared h.source_visible h.separate h.source_visible hx
    obtain ⟨hbare, hfits⟩ := h.agrees x hx
    obtain ⟨l, hl, -, hmeml⟩ := LuaHeap.pairs_of_bare (h.shadow_bare x.2 hmem) lua
    have hloop' : s.heap.equalEntries lua (s.heap.isEqual lua s.nOffset d) s.nOffset x.1 x.2 l =
        .ok true := by
      refine equalEntries_eq_true l fun e he => ?_
      have hget := (hmeml e.1 e.2).mp he
      refine ⟨_, h.index hloop hbare e.1, ?_, ?_, ?_⟩
      · rw [LuaHeap.index_of_bare (h.shadow_bare x.2 hmem), hget]
      · rw [← hget]
        exact hfits e.1
      · intro p q hp hq
        rw [hq] at hget
        have hchild : s.heap.child x.2 e.1 = some q := LuaHeap.child_eq_some_iff.mpr hget
        have hlt := h.tree.ncard_below_lt h.finite hmem hchild
        have hplace : s.places x e.1 = some (p, q) :=
          places_eq_some_iff.mpr ⟨LuaHeap.child_eq_some_iff.mpr hp, hchild⟩
        have hpq : (below s.heap.child (p, q).2).ncard ≤ d := by
          show (below s.heap.child q).ncard ≤ d
          omega
        exact ih (mem_below_of_child hx hplace) hpq
    simp only [LuaHeap.isEqual, h.equal_eq_false hbare hvisible hmem, hl, bind, Except.bind, hloop']
    rfl

/-- **The check finds no difference** between the source and the shadow. -/
theorem isEqual (h : s.Mirrored hidden depth) (hloop : 0 < lua.maxTagLoop) :
    s.heap.isEqual lua s.nOffset depth s.tSource s.tShadow = .ok true :=
  h.isEqual_pair hloop (mem_below_self (s.tSource, s.tShadow)) h.card_le

end Mirrored

end Check

/-! ## One assignment -/

/-- The entries after an assignment. -/
def written (s : Shadowed N) (t : Addr) (k : LuaValue N) (v : Option (LuaValue N)) (q : Addr)
    (k' : LuaValue N) : Option (LuaValue N) :=
  if k' = k ∧ q = s.source t then v
  else if k' = k ∧ q = s.tShadow then
    ((s.mirrored t v).map fun n => .number (LuaNumber.add n s.nOffset)).or (s.heap.rawget q k')
  else s.heap.rawget q k'

section Assign

variable {s s' : Shadowed N} {hidden : Set Addr} {depth : ℕ} {lua : Lua N} {heap' : LuaHeap N}
  {t : Addr} {k : LuaValue N} {v : Option (LuaValue N)}

/-- `rawset` changes one entry and no metatable. -/
theorem rawassign_spec {heap : LuaHeap N} {p : Addr} (hp : (heap.lookup p).isSome)
    (hassign : heap.rawassign p k v = .ok heap') :
    (∀ q, (heap'.view q).1 = (heap.view q).1) ∧
      ∀ q k', heap'.rawget q k' = if k' = k ∧ q = p then v else heap.rawget q k' := by
  refine ⟨fun q => ?_, fun q k' => ?_⟩
  · rw [LuaHeap.view_rawassign hp hassign]
    split_ifs with hq
    · rw [hq]
    · rfl
  · have hget : heap'.rawget q k' = _ :=
      congrFun (congrArg Prod.snd (LuaHeap.view_rawassign hp hassign q)) k'
    rw [hget]
    by_cases hq : q = p
    · simp [hq]
    · simp [hq, LuaHeap.view]

/-- The function `__newindex` writes to the source, and numbers to the shadow. -/
theorem setThrough_spec (hsource : (s.heap.lookup s.tSource).isSome)
    (hshadow : (s.heap.lookup s.tShadow).isSome) (hne : s.tSource ≠ s.tShadow)
    (hset : s.setThrough k v = .ok s') :
    ∃ heap', s' = { s with heap := heap' } ∧ (∀ q, (heap'.view q).1 = (s.heap.view q).1) ∧
      ∀ q k', heap'.rawget q k' = s.written s.tNew k v q k' := by
  cases h₁ : s.heap.rawassign s.tSource k v with
  | error e =>
    simp only [setThrough, h₁, bind, Except.bind] at hset
    cases hset
  | ok heap₁ =>
    obtain ⟨hview₁, hget₁⟩ := rawassign_spec hsource h₁
    simp only [setThrough, h₁, bind, Except.bind] at hset
    have hother : s.mirrored s.tNew v = none → s' = { s with heap := heap₁ } →
        ∃ heap', s' = { s with heap := heap' } ∧ (∀ q, (heap'.view q).1 = (s.heap.view q).1) ∧
          ∀ q k', heap'.rawget q k' = s.written s.tNew k v q k' := by
      intro hnone hs'
      refine ⟨heap₁, hs', hview₁, fun q k' => ?_⟩
      simp [hget₁, written, hnone, source]
    cases v with
    | none => exact hother rfl (Except.ok.inj hset).symm
    | some value =>
      cases value with
      | number n =>
        cases h₂ : heap₁.rawassign s.tShadow k (some (.number (LuaNumber.add n s.nOffset))) with
        | error e =>
          simp only [h₂] at hset
          cases hset
        | ok heap₂ =>
          have hshadow₁ : (heap₁.lookup s.tShadow).isSome := by
            rw [LuaHeap.isSome_lookup_iff, hview₁, ← LuaHeap.isSome_lookup_iff]
            exact hshadow
          obtain ⟨hview₂, hget₂⟩ := rawassign_spec hshadow₁ h₂
          simp only [h₂] at hset
          refine ⟨heap₂, (Except.ok.inj hset).symm, fun q => (hview₂ q).trans (hview₁ q), ?_⟩
          intro q k'
          rw [hget₂, hget₁, written, source, if_pos rfl]
          have hmirrored : s.mirrored s.tNew (some (.number n)) = some n := if_pos rfl
          by_cases hq : q = s.tShadow
          · simp [hq, hne.symm, hmirrored]
          · simp [hq]
      | _ => exact hother rfl (Except.ok.inj hset).symm

theorem Mirrored.shadow_mem (h : s.Mirrored hidden depth) : s.tShadow ∈ hidden :=
  h.shadow_hidden (mem_below_self _)

theorem Mirrored.source_ne_shadow (h : s.Mirrored hidden depth) : s.tSource ≠ s.tShadow := by
  intro heq
  exact h.source_visible (heq ▸ h.shadow_mem)

/-- What an assignment to the proxy, or to a table without metatable, changes. -/
theorem Mirrored.assign_spec (h : s.Mirrored hidden depth) (hthere : (s.heap.lookup t).isSome)
    (ht : t = s.tNew ∨ s.heap.Bare t) (hassign : s.assign lua t k v = .ok s') :
    ∃ heap', s' = { s with heap := heap' } ∧ (∀ q, (heap'.view q).1 = (s.heap.view q).1) ∧
      ∀ q k', heap'.rawget q k' = s.written t k v q k' := by
  by_cases hnew : t = s.tNew
  · rw [Shadowed.assign, assignChain, hnew, h.rawget_proxy, h.metafield_proxy] at hassign
    have hset : s.setThrough k v = .ok s' := by
      simpa [proxyFields] using hassign
    rw [hnew]
    exact setThrough_spec h.source_there h.shadow_there h.source_ne_shadow hset
  · have hbare := ht.resolve_left hnew
    have hraw : (s.heap.rawassign t k v).map (fun heap => { s with heap }) = .ok s' := by
      rw [Shadowed.assign, assignChain, LuaHeap.metafield_of_bare hbare] at hassign
      cases hget : s.heap.rawget t k <;> rw [hget] at hassign <;> exact hassign
    have hnone : s.mirrored t v = none := by
      unfold mirrored
      split
      · exact if_neg hnew
      · rfl
    cases hok : s.heap.rawassign t k v with
    | error e =>
      rw [hok] at hraw
      cases hraw
    | ok heap' =>
      rw [hok] at hraw
      obtain ⟨hview, hget⟩ := rawassign_spec hthere hok
      refine ⟨heap', (Except.ok.inj hraw).symm, hview, fun q k' => ?_⟩
      simp [hget, written, hnone, source, hnew]

/-! ### The entries after an assignment -/

namespace Mirrored

/-- A table that is not hidden changes at most at the key. -/
theorem written_left (h : s.Mirrored hidden depth) {p : Addr} (hp : p ∉ hidden)
    (k' : LuaValue N) :
    s.written t k v p k' = if k' = k ∧ p = s.source t then v else s.heap.rawget p k' := by
  have hne : p ≠ s.tShadow := by
    rintro rfl
    exact hp h.shadow_mem
  simp [written, hne]

/-- A hidden table changes only if it is the shadow. -/
theorem written_right (h : s.Mirrored hidden depth) (ht : t ∉ hidden) {q : Addr} (hq : q ∈ hidden)
    (k' : LuaValue N) :
    s.written t k v q k' =
      if k' = k ∧ q = s.tShadow then
        ((s.mirrored t v).map fun n => .number (LuaNumber.add n s.nOffset)).or (s.heap.rawget q k')
      else s.heap.rawget q k' := by
  have hne : q ≠ s.source t := by
    rintro rfl
    exact source_not_mem h.source_visible ht hq
  simp [written, hne]

/-- No hidden table gets another sub-table. -/
theorem table_of_written_right (h : s.Mirrored hidden depth) (ht : t ∉ hidden) {q r : Addr}
    (hq : q ∈ hidden) {k' : LuaValue N} (hr : s.written t k v q k' = some (.table r)) :
    s.heap.rawget q k' = some (.table r) := by
  rw [h.written_right ht hq] at hr
  split_ifs at hr with hk
  · cases hm : s.mirrored t v with
    | none => simpa [hm] using hr
    | some n => simp [hm] at hr
  · exact hr

/-- The tables that are not hidden do not get to refer to hidden ones. -/
theorem separate_written (h : s.Mirrored hidden depth)
    (hget : ∀ q k', heap'.rawget q k' = s.written t k v q k')
    (hv : ∀ p, v = some (.table p) → p ∉ hidden) :
    ∀ p ∉ hidden, ∀ k' q, heap'.child p k' = some q → q ∉ hidden := by
  intro p hp k' q hq
  rw [LuaHeap.child_eq_some_iff, hget, h.written_left hp] at hq
  split_ifs at hq
  · exact hv q hq
  · exact h.separate p hp k' q (LuaHeap.child_eq_some_iff.mpr hq)

/-- A table that is assigned suits the tables of the shadow. -/
theorem suits_table (hcareful : s.Careful hidden (.assign t k v)) {x : Addr × Addr} {p : Addr}
    (hx : x ∈ s.compared s.tSource s.tShadow) (hxt : s.source x.1 = s.source t)
    (hv : v = some (.table p)) : s.Suits t k v x.2 := by
  obtain ⟨-, -, -, -, -, hsuits⟩ := hcareful
  refine (hsuits x hx hxt).resolve_left ?_
  rintro ⟨-, hsome⟩
  rw [hv] at hsome
  cases hsome

/-- A pair that is compared after the assignment was compared before, or is below a table that is
assigned. -/
theorem mem_compared_written (h : s.Mirrored hidden depth)
    (hget : ∀ q k', heap'.rawget q k' = s.written t k v q k')
    (hcareful : s.Careful hidden (.assign t k v)) {y : Addr × Addr}
    (hy : y ∈ ({ s with heap := heap' } : Shadowed N).compared s.tSource s.tShadow) :
    y ∈ s.compared s.tSource s.tShadow ∨
      ∃ x ∈ s.compared s.tSource s.tShadow, ∃ p' q', s.source x.1 = s.source t ∧
        v = some (.table p') ∧ s.heap.rawget x.2 k = some (.table q') ∧ y ∈ s.compared p' q' := by
  have ht := hcareful.1
  have hv := hcareful.2.2.2.1
  -- how a step from a pair that was compared before goes
  have hstep : ∀ {p q k'} {x y : Addr × Addr}, p ∉ hidden → q ∈ below s.heap.child s.tShadow →
      x ∈ s.compared p q → ({ s with heap := heap' } : Shadowed N).places x k' = some y →
      y ∈ s.compared p q ∨ k' = k ∧ s.source x.1 = s.source t ∧ v = some (.table y.1) ∧
        s.heap.rawget x.2 k = some (.table y.2) := by
    intro p q k' x y hp hq hx hplace
    obtain ⟨hx₁, hx₂⟩ := sides_of_mem_compared h.source_visible h.separate hp hx
    obtain ⟨hchild₁, hchild₂⟩ := places_eq_some_iff.mp hplace
    rw [LuaHeap.child_eq_some_iff, hget] at hchild₁ hchild₂
    have hright := h.table_of_written_right ht (h.shadow_hidden (below_subset hq hx₂)) hchild₂
    have hleft : s.written t k v (s.source x.1) k' = some (.table y.1) := hchild₁
    rw [h.written_left (source_not_mem h.source_visible hx₁)] at hleft
    split_ifs at hleft with hk
    · exact .inr ⟨hk.1, hk.2, hleft, hk.1 ▸ hright⟩
    · have hold : s.places x k' = some y := places_eq_some_iff.mpr
        ⟨LuaHeap.child_eq_some_iff.mpr hleft, LuaHeap.child_eq_some_iff.mpr hright⟩
      exact .inl (mem_below_of_child hx hold)
  induction hy with
  | refl => exact .inl (mem_below_self _)
  | @tail x y _ hplace ih =>
    obtain ⟨k', hplace⟩ := hplace
    rcases ih with hx | ⟨x₀, hx₀, p', q', hx₀t, hvp, hq', hx⟩
    · rcases hstep h.source_visible (mem_below_self _) hx hplace with hy | ⟨rfl, hxt, hvy, hgety⟩
      · exact .inl hy
      · exact .inr ⟨x, hx, y.1, y.2, hxt, hvy, hgety, mem_below_self y⟩
    · have hmem := (sides_of_mem_compared h.source_visible h.separate h.source_visible hx₀).2
      have hq'mem := mem_below_of_child hmem (LuaHeap.child_eq_some_iff.mpr hq')
      rcases hstep (hv p' hvp) hq'mem hx hplace with hy | ⟨rfl, hxt, -, hgety⟩
      · exact .inr ⟨x₀, hx₀, p', q', hx₀t, hvp, hq', hy⟩
      · have hnone := ((suits_table hcareful hx₀ hx₀t hvp).2 p' q' hvp hq' x hx).2 hxt
        rw [hnone] at hgety
        cases hgety

/-- The tables of the shadow stay as they are, except the shadow itself when a number is written
there. -/
theorem written_right_eq (h : s.Mirrored hidden depth) (ht : t ∉ hidden) {q : Addr}
    (hq : q ∈ hidden) (hnot : ¬ (q = s.tShadow ∧ (s.mirrored t v).isSome)) (k' : LuaValue N) :
    s.written t k v q k' = s.heap.rawget q k' := by
  rw [h.written_right ht hq]
  split_ifs with hk
  · have hnone : s.mirrored t v = none := by
      simpa [hk.2] using hnot
    rw [hnone]
    rfl
  · rfl

/-- A number and what is written to the shadow for it. -/
theorem fits_mirrored (h : s.Mirrored hidden depth) {n : N} (hn : LuaNumber.eq n n) :
    fits s.nOffset (some (.number n)) (some (.number (LuaNumber.add n s.nOffset))) := by
  obtain ⟨offset, hoffset⟩ := h.offset
  rw [hoffset]
  exact LuaNumber.add_ofInt n offset hn

omit [DecidableEq N] [LuaNumber N] in
theorem mirrored_eq_some_iff {n : N} :
    s.mirrored t v = some n ↔ t = s.tNew ∧ v = some (.number n) := by
  unfold mirrored
  split
  · rename_i n'
    split_ifs with hnew <;> simp [hnew]
  · rename_i hnot
    constructor
    · intro hsome
      cases hsome
    · rintro ⟨-, rfl⟩
      exact absurd rfl (hnot n)

/-- The pairs that were compared before still agree. -/
theorem fits_written (h : s.Mirrored hidden depth) (hcareful : s.Careful hidden (.assign t k v))
    {y : Addr × Addr} (hy : y ∈ s.compared s.tSource s.tShadow) (k' : LuaValue N) :
    fits s.nOffset (s.written t k v (s.source y.1) k') (s.written t k v y.2 k') := by
  obtain ⟨ht, -, -, -, hnumber, hsuits⟩ := hcareful
  obtain ⟨hy₁, hy₂⟩ := sides_of_mem_compared h.source_visible h.separate h.source_visible hy
  have hold := (h.agrees y hy).2 k'
  rw [h.written_left (source_not_mem h.source_visible hy₁)]
  by_cases hmirror : y.2 = s.tShadow ∧ (s.mirrored t v).isSome
  · -- the source and the shadow, with a number through the proxy
    obtain ⟨n, hn⟩ := Option.isSome_iff_exists.mp hmirror.2
    obtain ⟨hnew, hv⟩ := mirrored_eq_some_iff.mp hn
    have hysource : s.source y.1 = s.source t := by
      rw [eq_of_mem_compared h.tree hy hmirror.1, hnew]
      simp [source]
    rw [h.written_right ht (h.shadow_hidden hy₂), hn]
    by_cases hk : k' = k
    · rw [if_pos ⟨hk, hysource⟩, if_pos ⟨hk, hmirror.1⟩, hv]
      exact h.fits_mirrored (hnumber n hn)
    · rw [if_neg fun h' => hk h'.1, if_neg fun h' => hk h'.1]
      exact hold
  · rw [h.written_right_eq ht (h.shadow_hidden hy₂) hmirror]
    split_ifs with hk
    · rw [hk.1]
      exact ((hsuits y hy hk.2).resolve_left hmirror).1
    · exact hold

/-- The pairs below a table that is assigned agree. -/
theorem fits_written_below (h : s.Mirrored hidden depth)
    (hcareful : s.Careful hidden (.assign t k v)) {x y : Addr × Addr} {p' q' : Addr}
    (hx : x ∈ s.compared s.tSource s.tShadow) (hxt : s.source x.1 = s.source t)
    (hv : v = some (.table p')) (hq' : s.heap.rawget x.2 k = some (.table q'))
    (hy : y ∈ s.compared p' q') (k' : LuaValue N) :
    fits s.nOffset (s.written t k v (s.source y.1) k') (s.written t k v y.2 k') := by
  obtain ⟨hagrees, habsent⟩ := (suits_table hcareful hx hxt hv).2 p' q' hv hq' y hy
  obtain ⟨ht, -, -, hstored, -, -⟩ := hcareful
  obtain ⟨hy₁, hy₂⟩ := sides_of_mem_compared h.source_visible h.separate (hstored p' hv) hy
  have hx₂ := (sides_of_mem_compared h.source_visible h.separate h.source_visible hx).2
  have hq'mem := mem_below_of_child hx₂ (LuaHeap.child_eq_some_iff.mpr hq')
  have hnot : ¬ (y.2 = s.tShadow ∧ (s.mirrored t v).isSome) := by
    rintro ⟨-, hsome⟩
    rw [hv] at hsome
    cases hsome
  rw [h.written_left (source_not_mem h.source_visible hy₁),
    h.written_right_eq ht (h.shadow_hidden (below_subset hq'mem hy₂)) hnot]
  split_ifs with hk
  · rw [hk.1, habsent hk.2]
    cases v <;> rfl
  · exact hagrees.2 k'

/-- The proxy and its metatable stay as they are. -/
theorem proxy_written (h : s.Mirrored hidden depth)
    (hview : ∀ q, (heap'.view q).1 = (s.heap.view q).1)
    (hget : ∀ q k', heap'.rawget q k' = s.written t k v q k') (ht : t ∉ hidden) :
    ∃ mt ∈ hidden, mt ≠ s.tShadow ∧ heap'.view s.tNew = (some (some mt), fun _ => none) ∧
      heap'.view mt = (some none, s.proxyFields.lookup) := by
  obtain ⟨mt, hmt, hne, hproxy, hfields⟩ := h.proxy
  have hnew : s.tNew ≠ s.source t := by
    unfold source
    split_ifs with htnew
    · exact h.source_ne.symm
    · exact fun heq => htnew heq.symm
  refine ⟨mt, hmt, hne, ?_, ?_⟩
  · rw [← hproxy]
    refine Prod.ext (hview _) (funext fun k' => ?_)
    show heap'.rawget s.tNew k' = s.heap.rawget s.tNew k'
    rw [hget, h.written_left h.proxy_visible, if_neg fun h' => hnew h'.2]
  · rw [← hfields]
    refine Prod.ext (hview _) (funext fun k' => ?_)
    show heap'.rawget mt k' = s.heap.rawget mt k'
    rw [hget, h.written_right_eq ht hmt fun h' => hne h'.1]

/-- The invariant after a careful assignment. -/
theorem of_written (h : s.Mirrored hidden depth)
    (hview : ∀ q, (heap'.view q).1 = (s.heap.view q).1)
    (hget : ∀ q k', heap'.rawget q k' = s.written t k v q k')
    (hcareful : s.Careful hidden (.assign t k v)) :
    ({ s with heap := heap' } : Shadowed N).Mirrored hidden depth := by
  have ht := hcareful.1
  have hthere : ∀ q, (s.heap.lookup q).isSome → (heap'.lookup q).isSome := by
    intro q hq
    rw [LuaHeap.isSome_lookup_iff, hview, ← LuaHeap.isSome_lookup_iff]
    exact hq
  have hbare : ∀ q, s.heap.Bare q → heap'.Bare q := by
    intro q hq
    rw [LuaHeap.bare_iff, hview, ← LuaHeap.bare_iff]
    exact hq
  have hshrink : ∀ q ∈ below s.heap.child s.tShadow, ∀ k' r, heap'.child q k' = some r →
      s.heap.child q k' = some r := by
    intro q hq k' r hr
    rw [LuaHeap.child_eq_some_iff, hget] at hr
    exact LuaHeap.child_eq_some_iff.mpr (h.table_of_written_right ht (h.shadow_hidden hq) hr)
  have hbelow : below heap'.child s.tShadow ⊆ below s.heap.child s.tShadow := below_mono hshrink
  exact {
    offset := h.offset
    source_there := hthere _ h.source_there
    source_ne := h.source_ne
    source_visible := h.source_visible
    proxy_visible := h.proxy_visible
    proxy := h.proxy_written hview hget ht
    shadow_there := hthere _ h.shadow_there
    shadow_hidden := hbelow.trans h.shadow_hidden
    shadow_bare := fun q hq => hbare q (h.shadow_bare q (hbelow hq))
    tree := h.tree.mono hshrink
    finite := h.finite.subset hbelow
    card_le := (Set.ncard_le_ncard hbelow h.finite).trans h.card_le
    separate := h.separate_written hget hcareful.2.2.2.1
    agrees := by
      intro y hy
      rcases h.mem_compared_written hget hcareful hy with hy | ⟨x, hx, p', q', hxt, hv, hq', hy⟩
      · refine ⟨hbare _ (h.agrees y hy).1, fun k' => ?_⟩
        have hfits := h.fits_written hcareful hy k'
        rw [← hget, ← hget] at hfits
        exact hfits
      · have hagrees := ((suits_table hcareful hx hxt hv).2 p' q' hv hq' y hy).1
        refine ⟨hbare _ hagrees.1, fun k' => ?_⟩
        have hfits := h.fits_written_below hcareful hx hxt hv hq' hy k'
        rw [← hget, ← hget] at hfits
        exact hfits }

end Mirrored

end Assign

/-! ## Every step -/

section Step

variable {s : Shadowed N} {hidden : Set Addr} {depth : ℕ} {lua : Lua N}

omit [LuaNumber N] in
/-- A new table without entries changes no entry, and no metatable of a table that is there. -/
theorem create_spec {heap : LuaHeap N} {p : Addr} (hp : heap.lookup p = none) :
    LuaHeap.rawget (heap.insert p ⟨∅, none⟩) = heap.rawget ∧
      (∀ q, (heap.lookup q).isSome → AList.lookup q (heap.insert p ⟨∅, none⟩) = heap.lookup q) ∧
      ∀ q, heap.Bare q → LuaHeap.Bare (heap.insert p ⟨∅, none⟩) q := by
  refine ⟨?_, ?_, ?_⟩
  · funext q k
    rw [LuaHeap.rawget, Table.lookup_insert_eq, LuaHeap.rawget]
    split_ifs with hq
    · rw [hq, hp]
      rfl
    · rfl
  · intro q hq
    rw [Table.lookup_insert_eq, if_neg]
    rintro rfl
    rw [hp] at hq
    cases hq
  · intro q hq t ht
    rw [Option.mem_def, Table.lookup_insert_eq] at ht
    split_ifs at ht
    · cases ht
      rfl
    · exact hq t ht

omit [LuaNumber N] in
theorem child_create {heap : LuaHeap N} {p : Addr} (hp : heap.lookup p = none) :
    LuaHeap.child (heap.insert p ⟨∅, none⟩) = heap.child := by
  funext q k
  rw [LuaHeap.child, (create_spec hp).1, LuaHeap.child]

namespace Mirrored

/-- A new table keeps the invariant. -/
theorem create (h : s.Mirrored hidden depth) {p : Addr} (hp : s.heap.lookup p = none) :
    ({ s with heap := s.heap.insert p ⟨∅, none⟩ } : Shadowed N).Mirrored hidden depth := by
  obtain ⟨hget, hlookup, hbare⟩ := create_spec hp
  have hchild := child_create hp
  generalize s.heap.insert p ⟨∅, none⟩ = heap' at hget hlookup hbare hchild
  have hplaces : ({ s with heap := heap' } : Shadowed N).places = s.places := by
    funext x k
    show (LuaHeap.child heap' (s.source x.1) k).bind _ = _
    rw [hchild]
    rfl
  have hthere : ∀ q, (s.heap.lookup q).isSome → (heap'.lookup q).isSome := by
    intro q hq
    rw [hlookup q hq]
    exact hq
  have hview : ∀ q m, (s.heap.view q).1 = some m → LuaHeap.view heap' q = s.heap.view q := by
    intro q m hm
    have hq : (s.heap.lookup q).isSome := by
      rw [LuaHeap.isSome_lookup_iff, hm]
      rfl
    rw [LuaHeap.view, hlookup q hq, hget, LuaHeap.view]
  obtain ⟨mt, hmt, hne, hproxy, hfields⟩ := h.proxy
  exact {
    offset := h.offset
    source_there := hthere _ h.source_there
    source_ne := h.source_ne
    source_visible := h.source_visible
    proxy_visible := h.proxy_visible
    proxy := ⟨mt, hmt, hne, (hview _ _ (by rw [hproxy])).trans hproxy,
      (hview _ _ (by rw [hfields])).trans hfields⟩
    shadow_there := hthere _ h.shadow_there
    shadow_hidden := by
      rw [hchild]
      exact h.shadow_hidden
    shadow_bare := by
      rw [hchild]
      exact fun q hq => hbare q (h.shadow_bare q hq)
    tree := by
      rw [hchild]
      exact h.tree
    finite := by
      rw [hchild]
      exact h.finite
    card_le := by
      rw [hchild]
      exact h.card_le
    separate := by
      rw [hchild]
      exact h.separate
    agrees := by
      intro x hx
      rw [compared, hplaces] at hx
      refine ⟨hbare _ (h.agrees x hx).1, fun k => ?_⟩
      show fits s.nOffset (LuaHeap.rawget heap' (s.source x.1) k) (LuaHeap.rawget heap' x.2 k)
      rw [hget]
      exact (h.agrees x hx).2 k }

/-- **Careful steps keep the invariant**, and change nothing but the memory. -/
theorem step (h : s.Mirrored hidden depth) {a : TableAction N} (ha : s.Careful hidden a) :
    ∃ heap', (Shadowed.step lua s a).2 = { s with heap := heap' } ∧
      (Shadowed.step lua s a).2.Mirrored hidden depth := by
  cases a with
  | create => exact ⟨_, rfl, h.create (lua.alloc.fresh_free s.heap)⟩
  | assign t k v =>
    cases hassign : s.assign lua t k v with
    | error e =>
      have hstep : (Shadowed.step lua s (.assign t k v)).2 = s := by
        simp only [Shadowed.step, hassign]
      rw [hstep]
      exact ⟨s.heap, rfl, h⟩
    | ok s' =>
      obtain ⟨heap', rfl, hview, hget⟩ := h.assign_spec ha.2.1 ha.2.2.1 hassign
      have hstep : (Shadowed.step lua s (.assign t k v)).2 = { s with heap := heap' } := by
        simp only [Shadowed.step, hassign]
      rw [hstep]
      exact ⟨heap', rfl, h.of_written hview hget ha⟩

end Mirrored

end Step

end Shadowed

end CodeTest
