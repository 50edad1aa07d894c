import CodeTest.LuaTable.TreeShaped

/-!
# Merging tables

`copyKeyValueRecursion(des, src)` of `util.lua` writes the values of `src` that are no tables to
`des`, and goes on with the sub-tables that both have. Where `src` has a sub-table and `des` has
nothing or `false`, the sub-table is left out; where `des` has another value that is no table, the
assignment to it raises an error, unless there is nothing to assign. A table of `src` whose first
key is `false` is taken for an empty one, and left out too.

For tables that form trees and have no table in common, the call returns and all values of `src` are
in `des` afterwards exactly when no sub-table of `src` with values faces anything but a table, and a
table of `src` that is taken for empty has only values that `des` has too
(`copyKeyValueRecursion_iff`).
-/

namespace CodeTest

open Places

/-- A computation returns exactly when a condition holds, and then with a result as described. -/
structure ReturnsIff {ε α : Type} (r : Except ε α) (P : Prop) (post : α → Prop) : Prop where
  returns : P → ∃ a, r = .ok a ∧ post a
  raises : ¬ P → ∃ e, r = .error e

namespace ReturnsIff

variable {ε α β : Type} {r : Except ε α} {P Q : Prop} {post : α → Prop} {post' : β → Prop}

theorem congr (h : ReturnsIff r P post) (hPQ : P ↔ Q) : ReturnsIff r Q post :=
  ⟨fun hQ => h.returns (hPQ.mpr hQ), fun hQ => h.raises fun hP => hQ (hPQ.mp hP)⟩

theorem ok {a : α} (hP : P) (ha : post a) : ReturnsIff (.ok a : Except ε α) P post :=
  ⟨fun _ => ⟨a, rfl, ha⟩, fun h => absurd hP h⟩

theorem error {e : ε} (hP : ¬ P) : ReturnsIff (.error e : Except ε α) P post :=
  ⟨fun h => absurd h hP, fun _ => ⟨e, rfl⟩⟩

theorem mono {post'' : α → Prop} (h : ReturnsIff r P post) (hpost : ∀ a, post a → post'' a) :
    ReturnsIff r P post'' := by
  refine ⟨fun hP => ?_, h.raises⟩
  obtain ⟨a, hr, ha⟩ := h.returns hP
  exact ⟨a, hr, hpost a ha⟩

/-- One computation after another. -/
theorem bind {f : α → Except ε β} (h : ReturnsIff r P post)
    (hf : ∀ a, post a → ReturnsIff (f a) Q post') : ReturnsIff (r >>= f) (P ∧ Q) post' := by
  by_cases hP : P
  · obtain ⟨a, rfl, ha⟩ := h.returns hP
    exact (hf a ha).congr (by simp [hP])
  · obtain ⟨e, rfl⟩ := h.raises hP
    exact error fun hPQ => hP hPQ.1

end ReturnsIff

namespace LuaHeap

variable {N : Type} [DecidableEq N]

/-- The access `value[key]`. A string has the fields of the library of strings, which are functions.
-/
def indexValue (lua : Lua N) (stringLibrary : LuaValue N → Option ℕ) (heap : LuaHeap N) :
    LuaValue N → LuaValue N → Except LuaError (Option (LuaValue N))
  | .string _, key => .ok ((stringLibrary key).map .function)
  | value, key => heap.index lua value key

/-- The assignment `value[key] = v`, through a chain of at most `n` values. -/
def setindexChain (heap : LuaHeap N) :
    ℕ → LuaValue N → LuaValue N → LuaValue N → Except LuaError (LuaHeap N)
  | 0, _, _, _ => .error .indexChain
  | n + 1, .table p, key, v =>
    match heap.rawget p key, heap.metafield p "__newindex" with
    | none, some (.function _) => .error .metamethod
    | none, some value => setindexChain heap n value key v
    | _, _ => .ok (heap.rawset p key v)
  | _ + 1, _, _, _ => .error .indexValue

def setindex (lua : Lua N) (heap : LuaHeap N) (value key v : LuaValue N) :
    Except LuaError (LuaHeap N) :=
  heap.setindexChain (lua.maxTagLoop + 1) value key v

/-- The loop of `copyKeyValueRecursion` over the entries of `src`. -/
def mergeEntries (lua : Lua N) (stringLibrary : LuaValue N → Option ℕ)
    (copy : LuaHeap N → Option (LuaValue N) → Addr → Except LuaError (LuaHeap N))
    (des : LuaValue N) :
    List (Σ _ : LuaValue N, LuaValue N) → LuaHeap N → Except LuaError (LuaHeap N)
  | [], heap => .ok heap
  | ⟨key, .table value⟩ :: entries, heap => do
    let sub ← heap.indexValue lua stringLibrary des key
    let heap ← copy heap sub value
    mergeEntries lua stringLibrary copy des entries heap
  | ⟨key, value⟩ :: entries, heap => do
    let heap ← heap.setindex lua des key value
    mergeEntries lua stringLibrary copy des entries heap

/-- `copyKeyValueRecursion(des, src)`, with a recursion of at most the given depth. -/
def copyKeyValueRecursion (lua : Lua N) (stringLibrary : LuaValue N → Option ℕ) :
    ℕ → LuaHeap N → Option (LuaValue N) → Addr → Except LuaError (LuaHeap N)
  | 0, _, _, _ => .error .stackOverflow
  | _ + 1, heap, none, _ => .ok heap
  | depth + 1, heap, some des, src =>
    if !LuaValue.truthy (some des) then .ok heap
    else if ¬ heap.testNext lua src then .ok heap
    else do
      let entries ← heap.pairs lua src
      mergeEntries lua stringLibrary (copyKeyValueRecursion lua stringLibrary depth) des entries
        heap

/-! ## What a merge is -/

/-- The value that a path of keys leads to. -/
def valueAt (heap : LuaHeap N) : LuaValue N → List (LuaValue N) → Option (LuaValue N)
  | v, [] => some v
  | .table p, k :: path => (heap.rawget p k).bind fun v => valueAt heap v path
  | _, _ :: _ => none

/-- A path leads to a value that is no table. -/
def LeafAt (heap : LuaHeap N) (root : Addr) (path : List (LuaValue N)) (v : LuaValue N) : Prop :=
  heap.valueAt (.table root) path = some v ∧ v.table? = none

/-- The memory `heap'` is what a merge of `src` into `des` makes of `heap`: each leaf of `src` is
found in `des`; a leaf of `des` stays when no leaf of `src` is on its path; and the tables of `src`
are as they were. -/
structure Merged (heap heap' : LuaHeap N) (des src : Addr) : Prop where
  copied : ∀ path v, heap.LeafAt src path v → heap'.LeafAt des path v
  kept : ∀ path v, heap.LeafAt des path v →
    (∀ path' w, path' <+: path → ¬ heap.LeafAt src path' w) → heap'.LeafAt des path v
  source : ∀ q ∈ below heap.child src, heap'.view q = heap.view q

/-- The tables that are merged form trees and have no table in common. -/
structure Forest (heap : LuaHeap N) (des src : Addr) : Prop where
  des_tree : heap.TreeShaped des
  src_tree : heap.TreeShaped src
  apart : ∀ p ∈ below heap.child des, p ∉ below heap.child src

/-- The value of a key that the loop over a table meets: none at all when the table is taken for an
empty one. -/
def met (lua : Lua N) (heap : LuaHeap N) (q : Addr) (k : LuaValue N) : Option (LuaValue N) :=
  if heap.testNext lua q then heap.rawget q k else none

/-- The sub-table at a key that the loop over a table meets. -/
def metChild (lua : Lua N) (heap : LuaHeap N) (q : Addr) (k : LuaValue N) : Option Addr :=
  (heap.met lua q k).bind LuaValue.table?

/-- The pair of sub-tables at a key that the loop over the second table meets. -/
def bothMet (lua : Lua N) (heap : LuaHeap N) (x : Addr × Addr) (k : LuaValue N) :
    Option (Addr × Addr) :=
  (heap.child x.1 k).bind fun p => (heap.metChild lua x.2 k).map fun q => (p, q)

/-- There are only tables in a table and below it. -/
def Leafless (heap : LuaHeap N) (p : Addr) : Prop :=
  ∀ q ∈ below heap.child p, ∀ k v, heap.rawget q k = some v → v.table?.isSome

/-- The call for the value `v` of `des` and the sub-table `t` of `src` raises no error in the
assignments to `v`. -/
def Accepts (lua : Lua N) (stringLibrary : LuaValue N → Option ℕ) (heap : LuaHeap N) :
    Option (LuaValue N) → Addr → Prop
  | some (.table _), _ => True
  | none, _ => True
  | some (.boolean false), _ => True
  | some (.string _), t => ∀ k v, heap.met lua t k = some v →
      ∃ t', v = .table t' ∧ ((stringLibrary k).isSome → ¬ heap.testNext lua t')
  | _, t => ¬ heap.testNext lua t

/-- The condition: at every pair of tables that the loops come to, a sub-table of the second faces a
table, or it has no leaf and raises no error; and if the second is taken for empty, the first has
its leaves already. -/
structure Mergeable (lua : Lua N) (stringLibrary : LuaValue N → Option ℕ) (heap : LuaHeap N)
    (des src : Addr) : Prop where
  faced : ∀ x ∈ below (heap.bothMet lua) (des, src), ∀ k t, heap.metChild lua x.2 k = some t →
    (heap.child x.1 k).isSome ∨
      heap.Leafless t ∧ Accepts lua stringLibrary heap (heap.rawget x.1 k) t
  present : ∀ x ∈ below (heap.bothMet lua) (des, src), heap.FalseFirst lua x.2 →
    ∀ path v, heap.LeafAt x.2 path v → heap.LeafAt x.1 path v

section Merge

variable {lua : Lua N} {stringLibrary : LuaValue N → Option ℕ} {heap heap₁ heap₂ : LuaHeap N}
  {p q t : Addr} {x y z : Addr × Addr} {k : LuaValue N}

/-! ## What the loops meet -/

theorem met_of_testNext (h : heap.testNext lua q) : heap.met lua q = heap.rawget q :=
  funext fun _ => if_pos h

theorem met_of_not_testNext (h : ¬ heap.testNext lua q) (k : LuaValue N) :
    heap.met lua q k = none :=
  if_neg h

/-- A table whose first key is not `false` is met as it is. -/
theorem met_of_not_falseFirst (h : ¬ heap.FalseFirst lua q) : heap.met lua q = heap.rawget q := by
  by_cases hnext : heap.testNext lua q
  · exact met_of_testNext hnext
  · obtain hempty | hfirst := testNext_eq_false_iff.mp (Bool.eq_false_of_not_eq_true hnext)
    · exact funext fun k => by rw [met_of_not_testNext hnext, hempty]
    · exact absurd hfirst h

theorem rawget_of_met {v : LuaValue N} (h : heap.met lua q k = some v) :
    heap.rawget q k = some v := by
  unfold met at h
  split_ifs at h
  exact h

theorem metChild_eq_some_iff :
    heap.metChild lua q k = some t ↔ heap.met lua q k = some (.table t) := by
  rw [metChild, Option.bind_eq_some_iff]
  constructor
  · rintro ⟨v, hv, ht⟩
    cases v <;> cases ht
    exact hv
  · intro h
    exact ⟨_, h, rfl⟩

theorem child_of_metChild (h : heap.metChild lua q k = some t) : heap.child q k = some t :=
  child_eq_some_iff.mpr (rawget_of_met (metChild_eq_some_iff.mp h))

theorem metChild_of_not_falseFirst (h : ¬ heap.FalseFirst lua q) (k : LuaValue N) :
    heap.metChild lua q k = heap.child q k := by
  rw [metChild, met_of_not_falseFirst h, child]

theorem bothMet_eq_some_iff : heap.bothMet lua x k = some y ↔
    heap.child x.1 k = some y.1 ∧ heap.metChild lua x.2 k = some y.2 :=
  bind_map_prodMk_eq_some_iff

/-- The tables of the pairs that the loops come to are below the first two. -/
theorem sides_of_mem_below_bothMet (hy : y ∈ below (heap.bothMet lua) x) :
    y.1 ∈ below heap.child x.1 ∧ y.2 ∈ below heap.child x.2 :=
  sides_of_mem_below
    (fun hk => (bothMet_eq_some_iff.mp hk).imp_right child_of_metChild) hy

section Same

variable {heap' : LuaHeap N} (h : heap'.lookup q = heap.lookup q)
include h

omit [DecidableEq N] in
theorem bare_congr : heap'.Bare q ↔ heap.Bare q := by
  rw [Bare, h, Bare]

theorem rawget_congr : heap'.rawget q = heap.rawget q := by
  funext k
  rw [rawget, h, rawget]

theorem view_congr : heap'.view q = heap.view q := by
  rw [view, h, rawget_congr h, view]

theorem met_congr : heap'.met lua q = heap.met lua q := by
  funext k
  rw [met, met, testNext_congr lua h, rawget_congr h]

end Same

/-! ## Calls without a table to write to -/

theorem copy_of_falsy (depth : ℕ) {v : Option (LuaValue N)} (hv : LuaValue.truthy v = false)
    (src : Addr) : copyKeyValueRecursion lua stringLibrary (depth + 1) heap v src = .ok heap := by
  cases v with
  | none => rfl
  | some v => simp [copyKeyValueRecursion, hv]

theorem copy_of_not_testNext (depth : ℕ) (v : Option (LuaValue N)) {src : Addr}
    (hsrc : ¬ heap.testNext lua src) :
    copyKeyValueRecursion lua stringLibrary (depth + 1) heap v src = .ok heap := by
  cases v with
  | none => rfl
  | some v =>
    rw [copyKeyValueRecursion, if_pos hsrc]
    split_ifs <;> rfl

/-- A call that goes through the entries of `src`. -/
theorem copy_eq_mergeEntries (depth : ℕ) {v : LuaValue N} {src : Addr}
    (hv : LuaValue.truthy (some v) = true) (hsrc : heap.testNext lua src)
    {l : List (Σ _ : LuaValue N, LuaValue N)} (hl : heap.pairs lua src = .ok l) :
    copyKeyValueRecursion lua stringLibrary (depth + 1) heap (some v) src =
      mergeEntries lua stringLibrary (copyKeyValueRecursion lua stringLibrary depth) v l heap := by
  rw [copyKeyValueRecursion, if_neg (by simp [hv]), if_neg (not_not.mpr hsrc), hl]
  rfl

variable (lua) in
/-- The entries of a table that is not taken for empty. -/
theorem exists_entries (hbare : heap.Bare t) (hne : heap.testNext lua t) :
    ∃ e l, heap.pairs lua t = .ok (e :: l) := by
  obtain ⟨l, hl, -, hmem⟩ := pairs_of_bare hbare lua
  cases l with
  | nil =>
    have hempty : ∀ k, heap.rawget t k = none := by
      intro k
      rw [Option.eq_none_iff_forall_ne_some]
      intro v hv
      exact absurd ((hmem k v).mpr hv) List.not_mem_nil
    rw [testNext_eq_false_iff.mpr (.inl hempty)] at hne
    cases hne
  | cons e l => exact ⟨e, l, hl⟩

/-- A value that can neither be indexed nor assigned to. -/
theorem copy_error (depth : ℕ) {v : LuaValue N} (hv : LuaValue.truthy (some v) = true)
    (htable : v.table? = none) (hstring : ∀ s, v ≠ .string s) (hbare : heap.Bare t)
    (hne : heap.testNext lua t) :
    ∃ e, copyKeyValueRecursion lua stringLibrary (depth + 1) heap (some v) t = .error e := by
  obtain ⟨⟨k, w⟩, l, hl⟩ := exists_entries lua hbare hne
  rw [copy_eq_mergeEntries depth hv hne hl]
  refine ⟨.indexValue, ?_⟩
  cases v with
  | table p => cases htable
  | string s => exact absurd rfl (hstring s)
  | _ => cases w <;> rfl

variable (lua stringLibrary) in
/-- The calls that the loop for a string makes. -/
theorem copy_library (depth : ℕ) (hbare : heap.Bare t) :
    ReturnsIff (copyKeyValueRecursion lua stringLibrary (depth + 1) heap
        ((stringLibrary k).map .function) t)
      ((stringLibrary k).isSome → ¬ heap.testNext lua t) (· = heap) := by
  cases hf : stringLibrary k with
  | none => exact ⟨fun _ => ⟨heap, rfl, rfl⟩, fun h => absurd (by simp) h⟩
  | some f =>
    refine ⟨fun h => ⟨heap, copy_of_not_testNext depth _ (h rfl), rfl⟩, fun h => ?_⟩
    have hne : heap.testNext lua t := by
      by_contra hempty
      exact h fun _ => hempty
    exact copy_error depth rfl rfl (by simp) hbare hne

/-- The loop for a string: assignments raise an error, and so do sub-tables with entries at the keys
of the library. -/
theorem mergeEntries_string {depth : ℕ} (s : String) (l : List (Σ _ : LuaValue N, LuaValue N))
    (hbare : ∀ k t, ⟨k, .table t⟩ ∈ l → heap.Bare t) :
    ReturnsIff (mergeEntries lua stringLibrary
        (copyKeyValueRecursion lua stringLibrary (depth + 1)) (.string s) l heap)
      (∀ e ∈ l, ∃ t, e.2 = .table t ∧ ((stringLibrary e.1).isSome → ¬ heap.testNext lua t))
      (· = heap) := by
  induction l with
  | nil => exact ⟨fun _ => ⟨heap, rfl, rfl⟩, fun h => absurd (by simp) h⟩
  | cons e l ih =>
    have hrest := ih fun k t ht => hbare k t (List.mem_cons_of_mem _ ht)
    obtain ⟨k, w⟩ := e
    cases w with
    | table t =>
      have hcall := copy_library lua stringLibrary (k := k) depth (hbare k t List.mem_cons_self)
      have hturns : ((stringLibrary k).isSome → ¬ heap.testNext lua t) ∧
          (∀ e ∈ l, ∃ t, e.2 = .table t ∧
            ((stringLibrary e.1).isSome → ¬ heap.testNext lua t)) ↔ ∀ e ∈ ⟨k, .table t⟩ :: l,
          ∃ t, e.2 = .table t ∧ ((stringLibrary e.1).isSome → ¬ heap.testNext lua t) := by
        rw [List.forall_mem_cons]
        simp
      refine ReturnsIff.congr ?_ hturns
      exact hcall.bind fun heap' heq => heq ▸ hrest
    | _ =>
      refine ReturnsIff.error fun h => ?_
      obtain ⟨t, ht, -⟩ := h _ List.mem_cons_self
      cases ht

/-- A call for a value that is no table. -/
theorem copy_of_not_table {depth : ℕ} {v : Option (LuaValue N)} (hv : ∀ p, v ≠ some (.table p))
    (ht : heap.Bare t) (hbare : ∀ k t', heap.child t k = some t' → heap.Bare t')
    (hdepth : 1 < depth) :
    ReturnsIff (copyKeyValueRecursion lua stringLibrary depth heap v t)
      (Accepts lua stringLibrary heap v t) (· = heap) := by
  obtain ⟨depth, rfl⟩ := Nat.exists_eq_add_of_lt hdepth
  rw [Nat.add_comm 1 depth]
  have hreturn : LuaValue.truthy v = false ∨ ¬ heap.testNext lua t →
      copyKeyValueRecursion lua stringLibrary (depth + 1 + 1) heap v t = .ok heap := by
    rintro (hfalsy | hempty)
    · exact copy_of_falsy _ hfalsy t
    · exact copy_of_not_testNext _ v hempty
  have hfalsy : LuaValue.truthy v = false → Accepts lua stringLibrary heap v t →
      ReturnsIff (copyKeyValueRecursion lua stringLibrary (depth + 1 + 1) heap v t)
        (Accepts lua stringLibrary heap v t) (· = heap) :=
    fun h haccepts => ⟨fun _ => ⟨heap, hreturn (.inl h), rfl⟩, fun h => absurd haccepts h⟩
  have hother : ∀ w : LuaValue N, v = some w → LuaValue.truthy v = true → w.table? = none →
      (∀ s, w ≠ .string s) → Accepts lua stringLibrary heap v t = (¬ heap.testNext lua t) →
      ReturnsIff (copyKeyValueRecursion lua stringLibrary (depth + 1 + 1) heap v t)
        (Accepts lua stringLibrary heap v t) (· = heap) := by
    rintro w rfl hw htable hstring haccepts
    rw [haccepts]
    exact ⟨fun h => ⟨heap, hreturn (.inr h), rfl⟩,
      fun hne => copy_error _ hw htable hstring ht (not_not.mp hne)⟩
  cases v with
  | none => exact hfalsy rfl trivial
  | some v =>
    cases v with
    | table p => exact absurd rfl (hv p)
    | boolean b =>
      cases b with
      | false => exact hfalsy rfl trivial
      | true => exact hother _ rfl rfl rfl (by simp) rfl
    | number n => exact hother _ rfl rfl rfl (by simp) rfl
    | function f => exact hother _ rfl rfl rfl (by simp) rfl
    | string s =>
      by_cases hnext : heap.testNext lua t
      swap
      · refine ⟨fun _ => ⟨heap, hreturn (.inr hnext), rfl⟩, fun h => absurd ?_ h⟩
        intro k v hv
        rw [met_of_not_testNext hnext] at hv
        cases hv
      obtain ⟨l, hl, -, hmem⟩ := pairs_of_bare ht lua
      rw [← met_of_testNext hnext] at hmem
      rw [copy_eq_mergeEntries _ rfl hnext hl]
      refine (mergeEntries_string s l fun k t' ht' => ?_).congr ?_
      · exact hbare k t' (child_eq_some_iff.mpr (rawget_of_met ((hmem k _).mp ht')))
      · exact ⟨fun h k v hv => h ⟨k, v⟩ ((hmem k v).mpr hv),
          fun h e he => h e.1 e.2 ((hmem _ _).mp he)⟩

/-! ## What a call does -/

omit [DecidableEq N] in
theorem table_eq_of_table? {v : LuaValue N} (h : v.table? = some t) : v = .table t := by
  cases v <;> cases h
  rfl

/-- What becomes of the first table of a pair. -/
def mergedView (lua : Lua N) (heap : LuaHeap N) (x : Addr × Addr) :
    Option (Option Addr) × (LuaValue N → Option (LuaValue N)) :=
  ((heap.view x.1).1, fun k =>
    ((heap.met lua x.2 k).filter fun v => v.table?.isNone).or (heap.rawget x.1 k))

/-- No value that is met in the pairs below a pair raises an error. -/
def NoError (lua : Lua N) (stringLibrary : LuaValue N → Option ℕ) (heap : LuaHeap N)
    (x : Addr × Addr) : Prop :=
  ∀ y ∈ below (heap.bothMet lua) x, ∀ k t, heap.metChild lua y.2 k = some t →
    Accepts lua stringLibrary heap (heap.rawget y.1 k) t

/-- From `heap₁` to `heap₂` the first tables of the pairs below a pair have got the values of the
second ones, as they were in `heap`, and nothing else has changed. -/
structure MergedBelow (lua : Lua N) (heap heap₁ heap₂ : LuaHeap N) (x : Addr × Addr) : Prop where
  inside : ∀ y ∈ below (heap.bothMet lua) x, heap₂.view y.1 = mergedView lua heap y
  outside : ∀ a, (∀ y ∈ below (heap.bothMet lua) x, a ≠ y.1) → heap₂.lookup a = heap₁.lookup a

/-- What is expected of a call for a pair of tables, which are as in `heap`. -/
def Merges (lua : Lua N) (stringLibrary : LuaValue N → Option ℕ) (heap : LuaHeap N)
    (copy : LuaHeap N → Option (LuaValue N) → Addr → Except LuaError (LuaHeap N))
    (x : Addr × Addr) : Prop :=
  ∀ heap₁ : LuaHeap N, (∀ a ∈ below heap.child x.1, heap₁.lookup a = heap.lookup a) →
    (∀ a ∈ below heap.child x.2, heap₁.lookup a = heap.lookup a) →
    ReturnsIff (copy heap₁ (some (.table x.1)) x.2) (NoError lua stringLibrary heap x)
      (MergedBelow lua heap heap₁ · x)

/-- The memory `heap₁` during the loop for a pair, which began in `base`: the keys `keys` have had
their turn. -/
structure Merging (lua : Lua N) (heap base : LuaHeap N) (x : Addr × Addr) (keys : Set (LuaValue N))
    (heap₁ : LuaHeap N) : Prop where
  table : (heap₁.view x.1).1 = (heap.view x.1).1
  done : ∀ k ∈ keys, heap₁.rawget x.1 k = (mergedView lua heap x).2 k
  same : ∀ k ∉ keys, heap₁.rawget x.1 k = heap.rawget x.1 k
  inside : ∀ k ∈ keys, ∀ y, heap.bothMet lua x k = some y → ∀ z ∈ below (heap.bothMet lua) y,
    heap₁.view z.1 = mergedView lua heap z
  outside : ∀ a ≠ x.1, (∀ k ∈ keys, ∀ y, heap.bothMet lua x k = some y →
    ∀ z ∈ below (heap.bothMet lua) y, a ≠ z.1) → heap₁.lookup a = base.lookup a

/-- One turn of the loop. -/
def mergeTurn (lua : Lua N) (stringLibrary : LuaValue N → Option ℕ)
    (copy : LuaHeap N → Option (LuaValue N) → Addr → Except LuaError (LuaHeap N))
    (des : LuaValue N) (heap : LuaHeap N) (key : LuaValue N) :
    LuaValue N → Except LuaError (LuaHeap N)
  | .table value => do
    let sub ← heap.indexValue lua stringLibrary des key
    copy heap sub value
  | value => heap.setindex lua des key value

theorem mergeEntries_cons
    {copy : LuaHeap N → Option (LuaValue N) → Addr → Except LuaError (LuaHeap N)}
    {des : LuaValue N} (e : Σ _ : LuaValue N, LuaValue N)
    (l : List (Σ _ : LuaValue N, LuaValue N)) :
    mergeEntries lua stringLibrary copy des (e :: l) heap =
      mergeTurn lua stringLibrary copy des heap e.1 e.2 >>= fun heap =>
        mergeEntries lua stringLibrary copy des l heap := by
  obtain ⟨key, value⟩ := e
  cases value with
  | table value =>
    simp only [mergeEntries, mergeTurn]
    cases heap.indexValue lua stringLibrary des key <;> rfl
  | _ => rfl

/-- A value of the first table of a pair is kept when the second one has no leaf there. -/
theorem mergedView_of_not_leaf (h : ∀ v, heap.met lua x.2 k = some v → v.table?.isSome) :
    (mergedView lua heap x).2 k = heap.rawget x.1 k := by
  cases hv : heap.met lua x.2 k with
  | none => simp [mergedView, hv]
  | some v =>
    obtain ⟨t, ht⟩ := Option.isSome_iff_exists.mp (h v hv)
    simp [mergedView, hv, ht, Option.filter]

theorem mergedView_of_leaf {v : LuaValue N} (hv : heap.met lua x.2 k = some v)
    (hleaf : v.table? = none) : (mergedView lua heap x).2 k = some v := by
  simp [mergedView, hv, hleaf, Option.filter]

namespace Forest

variable {des src : Addr} (h : heap.Forest des src)
include h

/-- The tables of the pairs below a sub-table are not the table itself. -/
theorem first_ne (hx : x ∈ below (heap.bothMet lua) (des, src))
    (hy : heap.bothMet lua x k = some y) (hz : z ∈ below (heap.bothMet lua) y) : x.1 ≠ z.1 := by
  intro heq
  have hmem := (sides_of_mem_below_bothMet hx).1
  refine h.des_tree.tree.not_mem_below_child hmem (bothMet_eq_some_iff.mp hy).1 ?_
  rw [heq]
  exact (sides_of_mem_below_bothMet hz).1

/-- The tables below sub-tables at different keys are different. -/
theorem first_apart (hx : x ∈ below (heap.bothMet lua) (des, src)) {k' : LuaValue N} (hne : k ≠ k')
    {y' : Addr × Addr} (hy : heap.bothMet lua x k = some y) (hy' : heap.bothMet lua x k' = some y')
    {a : Addr} (ha : a ∈ below heap.child y.1) (hz : z ∈ below (heap.bothMet lua) y') :
    a ≠ z.1 := by
  rintro rfl
  have hmem := (sides_of_mem_below_bothMet hx).1
  exact h.des_tree.tree.disjoint_below hmem (bothMet_eq_some_iff.mp hy).1
    (bothMet_eq_some_iff.mp hy').1 hne _ ha (sides_of_mem_below_bothMet hz).1

/-- The tables of `src` are not among those that are written. -/
theorem source_ne {a : Addr} (ha : a ∈ below heap.child src)
    (hz : z ∈ below (heap.bothMet lua) (des, src)) : a ≠ z.1 := by
  rintro rfl
  exact h.apart _ (sides_of_mem_below_bothMet hz).1 ha

end Forest

namespace Merging

variable {base : LuaHeap N} {keys : Set (LuaValue N)}

/-- A key at which nothing is written. -/
theorem skip (h : Merging lua heap base x keys heap₁) (hk : k ∉ keys)
    (hmerged : (mergedView lua heap x).2 k = heap.rawget x.1 k)
    (hboth : heap.bothMet lua x k = none) :
    Merging lua heap base x (insert k keys) heap₁ := by
  constructor
  · exact h.table
  · rintro k' (rfl | hk')
    · rw [hmerged, h.same k' hk]
    · exact h.done k' hk'
  · intro k' hk'
    exact h.same k' fun hmem => hk' (.inr hmem)
  · rintro k' (rfl | hk') y hy
    · rw [hboth] at hy
      cases hy
    · exact h.inside k' hk' y hy
  · intro a ha hnot
    exact h.outside a ha fun k' hk' => hnot k' (.inr hk')

section Tree

variable {des src : Addr} (hforest : heap.Forest des src)
  (hx : x ∈ below (heap.bothMet lua) (des, src)) (h : Merging lua heap base x keys heap₁)
include hforest hx h

/-- A value that is no table is written. -/
theorem leaf (hthere : (heap.lookup x.1).isSome) {v : LuaValue N}
    (hv : heap.met lua x.2 k = some v) (hleaf : v.table? = none) :
    Merging lua heap base x (insert k keys) (heap₁.rawset x.1 k v) := by
  have hthere₁ : (heap₁.lookup x.1).isSome := by
    rw [isSome_lookup_iff, h.table, ← isSome_lookup_iff]
    exact hthere
  have hself := view_rawset hthere₁ k v x.1
  rw [if_pos rfl] at hself
  have hget : ∀ k', (heap₁.rawset x.1 k v).rawget x.1 k' =
      if k' = k then some v else heap₁.rawget x.1 k' :=
    fun k' => congrFun (congrArg Prod.snd hself) k'
  have hlookup : ∀ a ≠ x.1, (heap₁.rawset x.1 k v).lookup a = heap₁.lookup a := by
    intro a ha
    rw [rawset, Memory.lookup_modify, if_neg ha]
  constructor
  · rw [hself]
    exact h.table
  · intro k' hk'
    rw [hget]
    split_ifs with heq
    · rw [heq, mergedView_of_leaf hv hleaf]
    · exact h.done k' (hk'.resolve_left heq)
  · intro k' hk'
    rw [hget, if_neg fun heq => hk' (.inl heq)]
    exact h.same k' fun hmem => hk' (.inr hmem)
  · rintro k' (rfl | hk') y hy z hz
    · have hchild := metChild_eq_some_iff.mp (bothMet_eq_some_iff.mp hy).2
      rw [hv, Option.some_inj] at hchild
      rw [hchild] at hleaf
      cases hleaf
    · rw [view_congr (hlookup z.1 (hforest.first_ne hx hy hz).symm)]
      exact h.inside k' hk' y hy z hz
  · intro a ha hnot
    rw [hlookup a ha]
    exact h.outside a ha fun k' hk' => hnot k' (.inr hk')

/-- A call for a sub-table has returned. -/
theorem subtable (hk : k ∉ keys) (hy : heap.bothMet lua x k = some y)
    (hcall : MergedBelow lua heap heap₁ heap₂ y) :
    Merging lua heap base x (insert k keys) heap₂ := by
  have hself : heap₂.view x.1 = heap₁.view x.1 :=
    view_congr (hcall.outside x.1 fun z hz => hforest.first_ne hx hy hz)
  have hget : ∀ k', heap₂.rawget x.1 k' = heap₁.rawget x.1 k' :=
    fun k' => congrFun (congrArg Prod.snd hself) k'
  constructor
  · rw [hself]
    exact h.table
  · rintro k' (rfl | hk')
    · rw [hget, h.same k' hk, mergedView_of_not_leaf]
      intro v hv
      rw [metChild_eq_some_iff.mp (bothMet_eq_some_iff.mp hy).2, Option.some_inj] at hv
      rw [← hv]
      rfl
    · rw [hget]
      exact h.done k' hk'
  · intro k' hk'
    rw [hget]
    exact h.same k' fun hmem => hk' (.inr hmem)
  · rintro k' (rfl | hk') y' hy' z hz
    · rw [hy, Option.some_inj] at hy'
      exact hcall.inside z (hy' ▸ hz)
    · have hne : k' ≠ k := by
        rintro rfl
        exact hk hk'
      rw [view_congr (hcall.outside z.1 fun z' hz' =>
        hforest.first_apart hx hne hy' hy (sides_of_mem_below_bothMet hz).1 hz')]
      exact h.inside k' hk' y' hy' z hz
  · intro a ha hnot
    rw [hcall.outside a fun z hz => hnot k (.inl rfl) y hy z hz]
    exact h.outside a ha fun k' hk' => hnot k' (.inr hk')

omit h in
/-- The tables of `src` are as they were. -/
theorem source_same (h : Merging lua heap base x keys heap₁)
    (hbase : ∀ a ∈ below heap.child x.2, base.lookup a = heap.lookup a) {a : Addr}
    (ha : a ∈ below heap.child x.2) : heap₁.lookup a = heap.lookup a := by
  have hmem := below_subset (sides_of_mem_below_bothMet hx).2 ha
  rw [h.outside a (hforest.source_ne hmem hx) fun k' _ y hy z hz => ?_, hbase a ha]
  exact hforest.source_ne hmem (below_subset (mem_below_of_child hx hy) hz)

/-- The tables below a key that had no turn yet are as they were. -/
theorem des_same (hbase : ∀ a ∈ below heap.child x.1, base.lookup a = heap.lookup a) (hk : k ∉ keys)
    (hy : heap.bothMet lua x k = some y) {a : Addr} (ha : a ∈ below heap.child y.1) :
    heap₁.lookup a = heap.lookup a := by
  have hmem := (sides_of_mem_below_bothMet hx).1
  have hchild := (bothMet_eq_some_iff.mp hy).1
  have hne : a ≠ x.1 := by
    rintro rfl
    exact hforest.des_tree.tree.not_mem_below_child hmem hchild ha
  rw [h.outside a hne fun k' hk' y' hy' z hz => ?_]
  · exact hbase a (mem_below_iff.mpr (.inr ⟨k, y.1, hchild, ha⟩))
  · have hkk' : k ≠ k' := by
      rintro rfl
      exact hk hk'
    exact hforest.first_apart hx hkk' hy hy' ha hz

end Tree

end Merging

/-- The turn of a key raises no error. -/
def TurnOk (lua : Lua N) (stringLibrary : LuaValue N → Option ℕ) (heap : LuaHeap N)
    (x : Addr × Addr) (k : LuaValue N) : Prop :=
  (∀ t, heap.metChild lua x.2 k = some t → Accepts lua stringLibrary heap (heap.rawget x.1 k) t) ∧
    ∀ y, heap.bothMet lua x k = some y → NoError lua stringLibrary heap y

/-- What is expected of a call for the value `v`, which is no table, and a sub-table. -/
def MergesValue (lua : Lua N) (stringLibrary : LuaValue N → Option ℕ) (heap : LuaHeap N)
    (copy : LuaHeap N → Option (LuaValue N) → Addr → Except LuaError (LuaHeap N))
    (v : Option (LuaValue N)) (t : Addr) : Prop :=
  ∀ heap₁ : LuaHeap N, (∀ a ∈ below heap.child t, heap₁.lookup a = heap.lookup a) →
    ReturnsIff (copy heap₁ v t) (Accepts lua stringLibrary heap v t) (· = heap₁)

section Loop

variable {base : LuaHeap N} {keys : Set (LuaValue N)} {des src : Addr}
  {copy : LuaHeap N → Option (LuaValue N) → Addr → Except LuaError (LuaHeap N)}

variable (lua stringLibrary copy) in
/-- A value that is no table is assigned. -/
theorem mergeTurn_of_leaf {p : Addr} {v : LuaValue N} (hbare : heap₁.Bare p)
    (hv : v.table? = none) :
    mergeTurn lua stringLibrary copy (.table p) heap₁ k v = .ok (heap₁.rawset p k v) := by
  have hset : heap₁.setindex lua (.table p) k v = .ok (heap₁.rawset p k v) := by
    rw [setindex, setindexChain, metafield_of_bare hbare]
    cases heap₁.rawget p k <;> rfl
  rw [← hset]
  cases v <;> first | rfl | cases hv

variable (lua stringLibrary copy) in
/-- A sub-table is merged into what stands under its key. -/
theorem mergeTurn_of_table {p t : Addr} (hbare : heap₁.Bare p) :
    mergeTurn lua stringLibrary copy (.table p) heap₁ k (.table t) =
      copy heap₁ (heap₁.rawget p k) t := by
  simp only [mergeTurn, indexValue, index_of_bare hbare, bind, Except.bind]

variable (lua) in
/-- **One turn** of the loop for a pair. -/
theorem mergeTurn_spec (hforest : heap.Forest des src)
    (hx : x ∈ below (heap.bothMet lua) (des, src)) (hthere : (heap.lookup x.1).isSome)
    (h : Merging lua heap base x keys heap₁) (hk : k ∉ keys) {v : LuaValue N}
    (hv : heap.met lua x.2 k = some v)
    (hbase₁ : ∀ a ∈ below heap.child x.1, base.lookup a = heap.lookup a)
    (hbase₂ : ∀ a ∈ below heap.child x.2, base.lookup a = heap.lookup a)
    (hsub : ∀ y, heap.bothMet lua x k = some y → Merges lua stringLibrary heap copy y)
    (hvalue : ∀ t, heap.metChild lua x.2 k = some t → (∀ p, heap.rawget x.1 k ≠ some (.table p)) →
      MergesValue lua stringLibrary heap copy (heap.rawget x.1 k) t) :
    ReturnsIff (mergeTurn lua stringLibrary copy (.table x.1) heap₁ k v)
      (TurnOk lua stringLibrary heap x k) (Merging lua heap base x (insert k keys)) := by
  have hbare₁ : heap₁.Bare x.1 := by
    rw [bare_iff, h.table, ← bare_iff]
    exact hforest.des_tree.bare _ (sides_of_mem_below_bothMet hx).1
  have hget : heap₁.rawget x.1 k = heap.rawget x.1 k := h.same k hk
  cases hvt : v.table? with
  | none =>
    have hchild : heap.metChild lua x.2 k = none := by rw [metChild, hv, Option.bind_some, hvt]
    rw [mergeTurn_of_leaf lua stringLibrary copy hbare₁ hvt]
    refine ReturnsIff.ok ⟨by simp [hchild], fun y hy => ?_⟩ (h.leaf hforest hx hthere hv hvt)
    rw [(bothMet_eq_some_iff.mp hy).2] at hchild
    cases hchild
  | some t =>
    obtain rfl : v = .table t := table_eq_of_table? hvt
    have ht : heap.metChild lua x.2 k = some t := metChild_eq_some_iff.mpr hv
    rw [mergeTurn_of_table lua stringLibrary copy hbare₁, hget]
    have hsource : ∀ a ∈ below heap.child t, heap₁.lookup a = heap.lookup a := fun a ha =>
      h.source_same hforest hx hbase₂
        (below_subset (mem_below_of_child (mem_below_self _) (child_of_metChild ht)) ha)
    by_cases hp : ∃ p, heap.rawget x.1 k = some (.table p)
    · obtain ⟨p, hp⟩ := hp
      have hy : heap.bothMet lua x k = some (p, t) :=
        bothMet_eq_some_iff.mpr ⟨child_eq_some_iff.mpr hp, ht⟩
      have hsame := fun a ha => h.des_same hforest hx hbase₁ hk hy (a := a) ha
      rw [hp]
      refine ((hsub _ hy heap₁ hsame hsource).mono fun heap₂ hcall => ?_).congr ?_
      · exact h.subtable hforest hx hk hy hcall
      · simp [TurnOk, ht, hp, hy, Accepts]
    · have hchild : heap.child x.1 k = none := by
        rw [Option.eq_none_iff_forall_ne_some]
        exact fun p hp' => hp ⟨p, child_eq_some_iff.mp hp'⟩
      have hboth : heap.bothMet lua x k = none := by rw [bothMet, hchild, Option.bind_none]
      have hmerged : (mergedView lua heap x).2 k = heap.rawget x.1 k := by
        apply mergedView_of_not_leaf
        intro w hw
        rw [hv, Option.some_inj] at hw
        rw [← hw]
        rfl
      refine ((hvalue t ht (not_exists.mp hp) heap₁ hsource).mono fun heap₂ heq => ?_).congr ?_
      · rw [heq]
        exact h.skip hk hmerged hboth
      · simp [TurnOk, ht, hboth]

/-- The loop for a pair. -/
theorem mergeEntries_spec (hforest : heap.Forest des src)
    (hx : x ∈ below (heap.bothMet lua) (des, src)) (hthere : (heap.lookup x.1).isSome)
    (hbase₁ : ∀ a ∈ below heap.child x.1, base.lookup a = heap.lookup a)
    (hbase₂ : ∀ a ∈ below heap.child x.2, base.lookup a = heap.lookup a)
    (hsub : ∀ k y, heap.bothMet lua x k = some y → Merges lua stringLibrary heap copy y)
    (hvalue : ∀ k t, heap.metChild lua x.2 k = some t → (∀ p, heap.rawget x.1 k ≠ some (.table p)) →
      MergesValue lua stringLibrary heap copy (heap.rawget x.1 k) t)
    (l : List (Σ _ : LuaValue N, LuaValue N)) (hnodup : (l.map Sigma.fst).Nodup)
    (hl : ∀ e ∈ l, heap.met lua x.2 e.1 = some e.2 ∧ e.1 ∉ keys)
    (h : Merging lua heap base x keys heap₁) :
    ReturnsIff (mergeEntries lua stringLibrary copy (.table x.1) l heap₁)
      (∀ e ∈ l, TurnOk lua stringLibrary heap x e.1)
      (Merging lua heap base x (keys ∪ { k | k ∈ l.map Sigma.fst })) := by
  induction l generalizing keys heap₁ with
  | nil => exact ReturnsIff.ok (by simp) (by simpa using h)
  | cons e l ih =>
    rw [List.map_cons, List.nodup_cons] at hnodup
    obtain ⟨he, hkey⟩ := hl e List.mem_cons_self
    have hl' : ∀ e' ∈ l, heap.met lua x.2 e'.1 = some e'.2 ∧ e'.1 ∉ insert e.1 keys := by
      intro e' he'
      obtain ⟨hget, hnot⟩ := hl e' (List.mem_cons_of_mem _ he')
      refine ⟨hget, ?_⟩
      rintro (heq | hmem)
      · exact hnodup.1 (heq ▸ List.mem_map_of_mem he')
      · exact hnot hmem
    have hturn := mergeTurn_spec lua hforest hx hthere h hkey he hbase₁ hbase₂ (hsub e.1)
      (hvalue e.1)
    have hkeys : keys ∪ { k | k ∈ (e :: l).map Sigma.fst } =
        insert e.1 keys ∪ { k | k ∈ l.map Sigma.fst } := by
      ext k
      simp only [List.map_cons, List.mem_cons, Set.mem_union, Set.mem_ofPred_eq, Set.mem_insert_iff]
      tauto
    rw [mergeEntries_cons, hkeys]
    refine ReturnsIff.congr ?_ List.forall_mem_cons.symm
    exact hturn.bind fun heap₂ h₂ => ih hnodup.2 hl' h₂

end Loop

/-- The condition `Accepts` reads the sub-table and its sub-tables. -/
theorem accepts_congr {v : Option (LuaValue N)}
    (h : ∀ a ∈ below heap.child t, heap₁.lookup a = heap.lookup a) :
    Accepts lua stringLibrary heap₁ v t ↔ Accepts lua stringLibrary heap v t := by
  have hself := testNext_congr lua (h t (mem_below_self t))
  rcases v with _ | (b | n | s | f | p)
  · exact Iff.rfl
  · cases b
    · exact Iff.rfl
    · simp only [Accepts, hself]
  · simp only [Accepts, hself]
  · simp only [Accepts, met_congr (h t (mem_below_self t))]
    refine forall₃_congr fun k v hv => exists_congr fun t' => and_congr_right fun ht' => ?_
    have hchild : heap.child t k = some t' := child_eq_some_iff.mpr (rawget_of_met (ht' ▸ hv))
    rw [testNext_congr lua (h t' (mem_below_of_child (mem_below_self t) hchild))]
  · simp only [Accepts, hself]
  · exact Iff.rfl

/-- A call for a value that is no table and a sub-table that is as in `heap`. -/
theorem mergesValue_of_not_table {v : Option (LuaValue N)} (hv : ∀ p, v ≠ some (.table p))
    (hbare : ∀ a ∈ below heap.child t, heap.Bare a) {depth : ℕ} (hdepth : 1 < depth) :
    MergesValue lua stringLibrary heap (copyKeyValueRecursion lua stringLibrary depth) v t := by
  intro heap₁ hsame
  have hbare₁ : ∀ a ∈ below heap.child t, heap₁.Bare a := by
    intro a ha
    exact (bare_congr (hsame a ha)).mpr (hbare a ha)
  have hget : heap₁.rawget t = heap.rawget t := rawget_congr (hsame t (mem_below_self t))
  refine (copy_of_not_table hv (hbare₁ t (mem_below_self t)) ?_ hdepth).congr (accepts_congr hsame)
  intro k t' ht'
  rw [child, hget] at ht'
  exact hbare₁ t' (mem_below_of_child (mem_below_self t) ht')

/-- A call for two tables is the loop over what is met of the second one. -/
theorem copy_of_table (depth : ℕ) (p : Addr) (hbare : heap.Bare q) :
    ∃ l, copyKeyValueRecursion lua stringLibrary (depth + 1) heap (some (.table p)) q =
        mergeEntries lua stringLibrary (copyKeyValueRecursion lua stringLibrary depth) (.table p) l
          heap ∧
      (l.map Sigma.fst).Nodup ∧ ∀ k v, ⟨k, v⟩ ∈ l ↔ heap.met lua q k = some v := by
  by_cases hnext : heap.testNext lua q
  · obtain ⟨l, hl, hnodup, hmem⟩ := pairs_of_bare hbare lua
    refine ⟨l, copy_eq_mergeEntries depth rfl hnext hl, hnodup, ?_⟩
    rw [met_of_testNext hnext]
    exact hmem
  · refine ⟨[], copy_of_not_testNext depth _ hnext, List.nodup_nil, fun k v => ?_⟩
    simp [met_of_not_testNext hnext]

/-- All keys have had their turn. -/
theorem Merging.mergedBelow {base : LuaHeap N} {keys : Set (LuaValue N)}
    (h : Merging lua heap base x keys heap₁)
    (hkeys : ∀ k, k ∈ keys ↔ (heap.met lua x.2 k).isSome) : MergedBelow lua heap base heap₁ x := by
  have hboth : ∀ k y, heap.bothMet lua x k = some y → k ∈ keys := by
    intro k y hy
    rw [hkeys, metChild_eq_some_iff.mp (bothMet_eq_some_iff.mp hy).2]
    rfl
  constructor
  · intro y hy
    rcases mem_below_iff.mp hy with rfl | ⟨k, z, hz, hy⟩
    · refine Prod.ext h.table (funext fun k => ?_)
      by_cases hk : k ∈ keys
      · exact h.done k hk
      · rw [mergedView_of_not_leaf]
        · exact h.same k hk
        · intro v hv
          rw [hkeys, hv] at hk
          exact absurd rfl hk
    · exact h.inside k (hboth k z hz) z hz y hy
  · intro a ha
    refine h.outside a (ha x (mem_below_self x)) fun k _ y hy z hz => ha z ?_
    exact mem_below_iff.mpr (.inr ⟨k, y, hy, hz⟩)

/-- A call raises no error when no turn of its loop does. -/
theorem noError_iff {l : List (Σ _ : LuaValue N, LuaValue N)}
    (hmem : ∀ k v, ⟨k, v⟩ ∈ l ↔ heap.met lua x.2 k = some v) :
    (∀ e ∈ l, TurnOk lua stringLibrary heap x e.1) ↔ NoError lua stringLibrary heap x := by
  have hlevel : NoError lua stringLibrary heap x ↔
      (∀ k t, heap.metChild lua x.2 k = some t →
        Accepts lua stringLibrary heap (heap.rawget x.1 k) t) ∧
      ∀ k y, heap.bothMet lua x k = some y → NoError lua stringLibrary heap y := forall_below_iff
  rw [hlevel]
  constructor
  · intro h
    have hturn : ∀ k t, heap.metChild lua x.2 k = some t → TurnOk lua stringLibrary heap x k :=
      fun k t ht => h ⟨k, .table t⟩ ((hmem k _).mpr (metChild_eq_some_iff.mp ht))
    exact ⟨fun k t ht => (hturn k t ht).1 t ht,
      fun k y hy => (hturn k y.2 (bothMet_eq_some_iff.mp hy).2).2 y hy⟩
  · rintro ⟨hself, hsub⟩ e -
    exact ⟨hself e.1, hsub e.1⟩

variable (lua stringLibrary) in
/-- **What a call does** for a pair of tables that stand at one path: it returns when no value that
is met raises an error, and then the tables of `des` have got the values of `src`. -/
theorem copyKeyValueRecursion_spec {des src : Addr} (hclosed : heap.Closed)
    (hforest : heap.Forest des src) {depth : ℕ} (hx : x ∈ below (heap.bothMet lua) (des, src))
    (hdepth : (below heap.child x.2).ncard < depth) :
    Merges lua stringLibrary heap (copyKeyValueRecursion lua stringLibrary depth) x := by
  induction depth generalizing x with
  | zero => omega
  | succ depth ih =>
    intro heap₁ hbase₁ hbase₂
    obtain ⟨hmem₁, hmem₂⟩ := sides_of_mem_below_bothMet hx
    have hlt := (hforest.src_tree.ncard_below hclosed hmem₂).2
    have hsame₂ := hbase₂ x.2 (mem_below_self x.2)
    have hbare₂ : heap₁.Bare x.2 := (bare_congr hsame₂).mpr (hforest.src_tree.bare _ hmem₂)
    obtain ⟨l, hcall, hnodup, hmem⟩ := copy_of_table depth x.1 hbare₂
    rw [met_congr hsame₂] at hmem
    rw [hcall]
    have hsame₁ := hbase₁ x.1 (mem_below_self x.1)
    have hstart : Merging lua heap heap₁ x ∅ heap₁ :=
      ⟨by rw [view_congr hsame₁], by simp, fun k _ => congrFun (rawget_congr hsame₁) k, by simp,
        fun _ _ _ => rfl⟩
    have hsub : ∀ k y, heap.bothMet lua x k = some y →
        Merges lua stringLibrary heap (copyKeyValueRecursion lua stringLibrary depth) y := by
      intro k y hy
      have hltk := hlt k y.2 (child_of_metChild (bothMet_eq_some_iff.mp hy).2)
      exact ih (mem_below_of_child hx hy) (by omega)
    have hvalue : ∀ k t, heap.metChild lua x.2 k = some t →
        (∀ p, heap.rawget x.1 k ≠ some (.table p)) →
        MergesValue lua stringLibrary heap (copyKeyValueRecursion lua stringLibrary depth)
          (heap.rawget x.1 k) t := by
      intro k t ht hnot
      have ht' := mem_below_of_child hmem₂ (child_of_metChild ht)
      have hltk := hlt k t (child_of_metChild ht)
      have hpos := (hforest.src_tree.ncard_below hclosed ht').1
      exact mergesValue_of_not_table hnot
        (fun a ha => hforest.src_tree.bare a (below_subset ht' ha)) (by omega)
    refine ((mergeEntries_spec hforest hx ?_ hbase₁ hbase₂ hsub hvalue l hnodup ?_ hstart).mono
      fun heap₂ hmerging => hmerging.mergedBelow fun k => ?_).congr (noError_iff hmem)
    · exact isSome_of_mem_below hclosed hforest.des_tree.there hmem₁
    · exact fun e he => ⟨(hmem e.1 e.2).mp he, Set.notMem_empty _⟩
    · rw [Set.empty_union, Set.mem_ofPred_eq, List.mem_map, Option.isSome_iff_exists]
      constructor
      · rintro ⟨e, he, hk⟩
        exact ⟨e.2, hk ▸ (hmem e.1 e.2).mp he⟩
      · rintro ⟨v, hv⟩
        exact ⟨⟨k, v⟩, (hmem k v).mpr hv, rfl⟩

end Merge

end LuaHeap

end CodeTest
