import CodeTest.LuaTable.TreeShaped

/-!
# Comparing tables

`arrayKeyAllSame` of `util.lua` compares two tables: as many keys, and for each key of the second
one the same value, where sub-tables are compared in the same way. A key of the first table with the
value `false` is taken for one that is missing, and a table opposite a value that is no table is
passed over. The keys are counted by `count`, which takes a table for an empty one when its first
key is `false`.

For tables that form trees, the result is that of a comparison in depth (`DeepEqual`) exactly when
there is a difference that is seen, or differences that are missed and answers that are mistaken are
there both or not at all (`arrayKeyAllSame_iff`).
-/

namespace CodeTest

open Places

namespace LuaHeap

variable {N : Type} [DecidableEq N] [LuaNumber N]

omit [LuaNumber N] in
/-- `count(tb)`. -/
def count (lua : Lua N) (heap : LuaHeap N) (tb : Addr) : Except LuaError ℕ :=
  if ¬ heap.testNext lua tb then .ok 0 else (heap.pairs lua tb).map List.length

/-- The body of the loop of `arrayKeyAllSame`: the values of a key in `tb1` and `tb2`. -/
def sameValues (arrayKeyAllSame : Addr → Addr → Except LuaError Bool) :
    Option (LuaValue N) → Option (LuaValue N) → Except LuaError Bool
  | some (.table p), some (.table q) => arrayKeyAllSame p q
  | some (.table _), _ => .ok true
  | v, some (.table _) => .ok (LuaValue.truthy v)
  | some v, some w => .ok (LuaValue.truthy (some v) && v.rawEqual w)
  | _, _ => .ok false

/-- `arrayKeyAllSame(tb1, tb2)` for two tables, with a recursion of at most the given depth. -/
def arrayKeyAllSame (lua : Lua N) (heap : LuaHeap N) : ℕ → Addr → Addr → Except LuaError Bool
  | 0, _, _ => .error .stackOverflow
  | depth + 1, tb1, tb2 =>
    if heap.equal lua tb1 tb2 then .ok true
    else do
      if (← heap.count lua tb1) ≠ (← heap.count lua tb2) then return false
      let entries ← heap.pairs lua tb2
      entries.allM fun e => do
        let v ← heap.index lua (.table tb1) e.1
        let w ← heap.index lua (.table tb2) e.1
        sameValues (arrayKeyAllSame lua heap depth) v w

/-- Two tables are equal in depth: they have the same keys, and at every key equal values that are
no tables, or tables that are equal in depth. -/
inductive DeepEqual (heap : LuaHeap N) : Addr → Addr → Prop
  | mk (p q : Addr) (keys : ∀ k, (heap.rawget p k).isSome ↔ (heap.rawget q k).isSome)
    (values : ∀ k v w, heap.rawget p k = some v → heap.rawget q k = some w →
      (v.table?.isSome ↔ w.table?.isSome) ∧ (v.table? = none → v.rawEqual w))
    (tables : ∀ k p' q', heap.child p k = some p' → heap.child q k = some q' →
      DeepEqual heap p' q') : DeepEqual heap p q

/-! ## The pairs that are compared -/

/-- The pair of tables that is compared at a key of a pair; none when the pair is one table twice.
-/
def pairAt (heap : LuaHeap N) (x : Addr × Addr) (k : LuaValue N) : Option (Addr × Addr) :=
  if x.1 = x.2 then none else both heap.child x k

/-- The tables have different keys, or a key with different values that are no tables. -/
def Differ (heap : LuaHeap N) (x : Addr × Addr) : Prop :=
  x.1 ≠ x.2 ∧ ((∃ k, ¬ ((heap.rawget x.1 k).isSome ↔ (heap.rawget x.2 k).isSome)) ∨
    ∃ k v w, heap.rawget x.1 k = some v ∧ heap.rawget x.2 k = some w ∧ v.table? = none ∧
      w.table? = none ∧ ¬ v.rawEqual w)

/-- A key has a table on one side and another value on the other; or the two tables are the same
one, in which, or below which, there is a value that is not equal to itself. -/
def Overlooked (heap : LuaHeap N) (x : Addr × Addr) : Prop :=
  (x.1 ≠ x.2 ∧ ∃ k v w, heap.rawget x.1 k = some v ∧ heap.rawget x.2 k = some w ∧
    ¬ (v.table?.isSome ↔ w.table?.isSome)) ∨
  (x.1 = x.2 ∧ ∃ p ∈ below heap.child x.1, ∃ k v, heap.rawget p k = some v ∧ v.table? = none ∧
    ¬ v.rawEqual v)

/-- The keys of both tables are counted as none. -/
def Uncounted (lua : Lua N) (heap : LuaHeap N) (x : Addr × Addr) : Prop :=
  heap.FalseFirst lua x.1 ∧ (heap.FalseFirst lua x.2 ∨ ∀ k, heap.rawget x.2 k = none)

/-- A difference that the function finds: a key that the first table does not have, different values
that are no tables, or a key that the second table does not have, unless the keys are uncounted. -/
def Seen (lua : Lua N) (heap : LuaHeap N) (x : Addr × Addr) : Prop :=
  x.1 ≠ x.2 ∧ ((∃ k, heap.rawget x.1 k = none ∧ (heap.rawget x.2 k).isSome) ∨
    (∃ k v w, heap.rawget x.1 k = some v ∧ heap.rawget x.2 k = some w ∧ v.table? = none ∧
      w.table? = none ∧ ¬ v.rawEqual w) ∨
    (¬ heap.Uncounted lua x ∧ ∃ k, (heap.rawget x.1 k).isSome ∧ heap.rawget x.2 k = none))

/-- A difference that the function does not look for: one that is passed over, or a key that the
second table does not have, where the keys are uncounted. -/
def Missed (lua : Lua N) (heap : LuaHeap N) (x : Addr × Addr) : Prop :=
  heap.Overlooked x ∨
    x.1 ≠ x.2 ∧ heap.Uncounted lua x ∧ ∃ k, (heap.rawget x.1 k).isSome ∧ heap.rawget x.2 k = none

/-- What the function takes for a difference: the value `false` in the first table, at a key of the
second; or `false` is the first key of one of the tables only, and the second is not empty. -/
def Mistaken (lua : Lua N) (heap : LuaHeap N) (x : Addr × Addr) : Prop :=
  x.1 ≠ x.2 ∧ ((∃ k, heap.rawget x.1 k = some (.boolean false) ∧ (heap.rawget x.2 k).isSome) ∨
    (¬ (heap.FalseFirst lua x.1 ↔ heap.FalseFirst lua x.2) ∧ ∃ k, (heap.rawget x.2 k).isSome))

/-- The first table has every key of the second, with a value that is not `false`, and equal to that
of the second if neither is a table. -/
def Matched (heap : LuaHeap N) (x : Addr × Addr) : Prop :=
  ∀ k w, heap.rawget x.2 k = some w → ∃ v, heap.rawget x.1 k = some v ∧ v ≠ .boolean false ∧
    (v.table? = none → w.table? = none → v.rawEqual w)

section Compared

variable {heap : LuaHeap N} {lua : Lua N} {p q : Addr} {x y : Addr × Addr} {k : LuaValue N}

omit [LuaNumber N] in
theorem pairAt_eq_some_iff : heap.pairAt x k = some y ↔
    x.1 ≠ x.2 ∧ heap.child x.1 k = some y.1 ∧ heap.child x.2 k = some y.2 := by
  unfold pairAt
  split_ifs with h
  · simp [h]
  · rw [both_eq_some_iff]
    simp [h]

omit [LuaNumber N] in
/-- The tables of a pair that is compared are below the first two. -/
theorem sides_of_mem_below_pairAt (hy : y ∈ below heap.pairAt x) :
    y.1 ∈ below heap.child x.1 ∧ y.2 ∈ below heap.child x.2 :=
  sides_of_mem_below (fun hk => (pairAt_eq_some_iff.mp hk).2) hy

omit [LuaNumber N] in
/-- The keys of a table without metatable, which `count` counts if the first one is not `false`. -/
theorem count_of_bare (h : heap.Bare p) (lua : Lua N) :
    ∃ ks : List (LuaValue N),
      heap.count lua p = .ok (if heap.FalseFirst lua p then 0 else ks.length) ∧ ks.Nodup ∧
      ∀ k, k ∈ ks ↔ (heap.rawget p k).isSome := by
  obtain ⟨l, hl, hnodup, hmem⟩ := pairs_of_bare h lua
  have hkeys : ∀ k, k ∈ l.map Sigma.fst ↔ (heap.rawget p k).isSome := by
    intro k
    rw [List.mem_map, Option.isSome_iff_exists]
    constructor
    · rintro ⟨e, he, rfl⟩
      exact ⟨e.2, (hmem e.1 e.2).mp he⟩
    · rintro ⟨v, hv⟩
      exact ⟨⟨k, v⟩, (hmem k v).mpr hv, rfl⟩
  refine ⟨l.map Sigma.fst, ?_, hnodup, hkeys⟩
  rw [count, hl, List.length_map]
  cases htest : heap.testNext lua p with
  | false =>
    obtain hempty | hfirst := testNext_eq_false_iff.mp htest
    · have hnil : l = [] := by
        rw [List.eq_nil_iff_forall_not_mem]
        intro e he
        have hget := (hmem e.1 e.2).mp he
        rw [hempty] at hget
        cases hget
      simp [hnil]
    · simp [hfirst]
  | true =>
    have hfirst : ¬ heap.FalseFirst lua p := by
      intro hfirst
      simp [testNext_eq_false_iff.mpr (.inr hfirst)] at htest
    simp [hfirst, Except.map]

omit [LuaNumber N] in
/-- The first key of a table is one of its keys. -/
theorem FalseFirst.isSome (h : heap.FalseFirst lua p) :
    (heap.rawget p (.boolean false)).isSome :=
  isSome_of_next h

omit [LuaNumber N] in
/-- For two tables where the second has no key of its own, as many keys are counted exactly when
they have the same ones and `false` is first in both or none, or the keys are uncounted. -/
theorem count_eq_iff (hp : heap.Bare x.1) (hq : heap.Bare x.2)
    (hsub : ∀ k, (heap.rawget x.2 k).isSome → (heap.rawget x.1 k).isSome) :
    heap.count lua x.1 = heap.count lua x.2 ↔
      (heap.Uncounted lua x ∨ ∀ k, (heap.rawget x.1 k).isSome → (heap.rawget x.2 k).isSome) ∧
      ((heap.FalseFirst lua x.1 ↔ heap.FalseFirst lua x.2) ∨ ∀ k, heap.rawget x.2 k = none) := by
  obtain ⟨ks, hks, hnodup, hmem⟩ := count_of_bare hp lua
  obtain ⟨ks', hks', hnodup', hmem'⟩ := count_of_bare hq lua
  have hsubperm : ks'.Subperm ks :=
    hnodup'.subperm fun k hk => (hmem k).mpr (hsub k ((hmem' k).mp hk))
  have hlength : ks.length = ks'.length ↔
      ∀ k, (heap.rawget x.1 k).isSome → (heap.rawget x.2 k).isSome := by
    simp only [← hmem, ← hmem']
    constructor
    · intro h k
      exact (hsubperm.perm_of_length_le h.le).mem_iff.mpr
    · intro h
      exact le_antisymm (hnodup.subperm h).length_le hsubperm.length_le
  have hempty : ks'.length = 0 ↔ ∀ k, heap.rawget x.2 k = none := by
    simp [List.length_eq_zero_iff, List.eq_nil_iff_forall_not_mem, hmem']
  have hpos : heap.FalseFirst lua x.1 → 0 < ks.length := fun h =>
    List.length_pos_of_mem ((hmem _).mpr h.isSome)
  have hpos' : heap.FalseFirst lua x.2 → 0 < ks'.length := fun h =>
    List.length_pos_of_mem ((hmem' _).mpr h.isSome)
  have hle := hsubperm.length_le
  rw [hks, hks', Except.ok.injEq, Uncounted, ← hlength, ← hempty]
  by_cases h : heap.FalseFirst lua x.1 <;> by_cases h' : heap.FalseFirst lua x.2
  · simp [h, h']
  · have := hpos h
    simp only [h, h', if_true, if_false, true_and, false_or, true_iff]
    omega
  · have := hpos' h'
    simp only [h, h', if_true, if_false, false_and, false_or, iff_true]
    omega
  · simp [h, h']

omit [LuaNumber N] in
theorem equal_of_bare (hp : heap.Bare p) (hq : heap.Bare q) :
    heap.equal lua p q = decide (p = q) := by
  simp [equal, metafield_of_bare hp, metafield_of_bare hq]

/-! ## What the function decides -/

/-- One turn of the loop. -/
theorem decides_sameValues {same : Addr → Addr → Except LuaError Bool} {Q : Addr → Addr → Prop}
    (v : Option (LuaValue N)) (w : LuaValue N)
    (htables : ∀ p q, v = some (.table p) → w = .table q → Decides (same p q) (Q p q)) :
    Decides (sameValues same v (some w)) (∃ v', v = some v' ∧ v' ≠ .boolean false ∧
      (v'.table? = none → w.table? = none → v'.rawEqual w) ∧
      ∀ p q, v' = .table p → w = .table q → Q p q) := by
  cases v with
  | none => exact ⟨false, by cases w <;> rfl, by simp⟩
  | some v =>
    cases v with
    | table p =>
      cases w with
      | table q =>
        refine (htables p q rfl rfl).congr ?_
        simp [LuaValue.table?]
      | _ => exact ⟨true, rfl, by simp [LuaValue.table?]⟩
    | boolean b =>
      cases w with
      | table q => exact ⟨b, rfl, by simp [LuaValue.table?]⟩
      | _ =>
        refine (Decides.ok _).congr ?_
        simp [LuaValue.table?, LuaValue.truthy]
    | _ =>
      cases w with
      | table q => exact ⟨true, rfl, by simp [LuaValue.table?]⟩
      | _ =>
        refine (Decides.ok _).congr ?_
        simp [LuaValue.table?, LuaValue.truthy]

/-- All turns of the loop, for two different tables. -/
theorem forall_turns_iff (hne : x.1 ≠ x.2) {Q : Addr × Addr → Prop}
    {l : List (Σ _ : LuaValue N, LuaValue N)}
    (hmem : ∀ k w, ⟨k, w⟩ ∈ l ↔ heap.rawget x.2 k = some w) :
    (∀ e ∈ l, ∃ v, heap.rawget x.1 e.1 = some v ∧ v ≠ .boolean false ∧
      (v.table? = none → e.2.table? = none → v.rawEqual e.2) ∧
      ∀ p q, v = .table p → e.2 = .table q → Q (p, q)) ↔
    heap.Matched x ∧ ∀ k y, heap.pairAt x k = some y → Q y := by
  constructor
  · intro h
    refine ⟨?_, ?_⟩
    · intro k w hw
      obtain ⟨v, hv, hfalse, hequal, -⟩ := h ⟨k, w⟩ ((hmem k w).mpr hw)
      exact ⟨v, hv, hfalse, hequal⟩
    · intro k y hy
      obtain ⟨-, h₁, h₂⟩ := pairAt_eq_some_iff.mp hy
      have hw := child_eq_some_iff.mp h₂
      obtain ⟨v, hv, -, -, hQ⟩ := h ⟨k, .table y.2⟩ ((hmem k _).mpr hw)
      rw [child_eq_some_iff.mp h₁, Option.some_inj] at hv
      exact hQ y.1 y.2 hv.symm rfl
  · rintro ⟨hmatched, hQ⟩ ⟨k, w⟩ he
    have hw := (hmem k w).mp he
    obtain ⟨v, hv, hfalse, hequal⟩ := hmatched k w hw
    refine ⟨v, hv, hfalse, hequal, ?_⟩
    rintro p q rfl hq'
    rw [show w = .table q from hq'] at hw
    exact hQ k (p, q)
      (pairAt_eq_some_iff.mpr ⟨hne, child_eq_some_iff.mpr hv, child_eq_some_iff.mpr hw⟩)

/-- As many keys are counted and the values match: there is no difference that is seen, and none by
mistake. -/
theorem count_and_matched_iff (hne : x.1 ≠ x.2) (hp : heap.Bare x.1) (hq : heap.Bare x.2) :
    heap.count lua x.1 = heap.count lua x.2 ∧ heap.Matched x ↔
      ¬ heap.Seen lua x ∧ ¬ heap.Mistaken lua x := by
  constructor
  · rintro ⟨hcount, hmatched⟩
    have hsub : ∀ k, (heap.rawget x.2 k).isSome → (heap.rawget x.1 k).isSome := by
      intro k hk
      obtain ⟨w, hw⟩ := Option.isSome_iff_exists.mp hk
      obtain ⟨v, hv, -⟩ := hmatched k w hw
      rw [hv]
      rfl
    obtain ⟨hsurplus, hfirst⟩ := (count_eq_iff hp hq hsub).mp hcount
    refine ⟨?_, ?_⟩
    · rintro ⟨-, ⟨k, hnone, hk⟩ | ⟨k, v, w, hv, hw, hvt, hwt, hneq⟩ | ⟨hcounted, k, hk, hnone⟩⟩
      · rw [Option.isSome_iff_ne_none] at hk
        exact absurd hnone
          (Option.isSome_iff_ne_none.mp (hsub k (Option.isSome_iff_ne_none.mpr hk)))
      · obtain ⟨v', hv', -, hequal⟩ := hmatched k w hw
        rw [hv, Option.some_inj] at hv'
        exact hneq (hv' ▸ hequal (hv' ▸ hvt) hwt)
      · exact absurd hnone (Option.isSome_iff_ne_none.mp (hsurplus.resolve_left hcounted k hk))
    · rintro ⟨-, ⟨k, hk, hw⟩ | ⟨hone, k, hk⟩⟩
      · obtain ⟨w, hw⟩ := Option.isSome_iff_exists.mp hw
        obtain ⟨v, hv, hfalse, -⟩ := hmatched k w hw
        rw [hk, Option.some_inj] at hv
        exact hfalse hv.symm
      · exact absurd (hfirst.resolve_left hone k) (Option.isSome_iff_ne_none.mp hk)
  · rintro ⟨hseen, hmistaken⟩
    have hmatched : heap.Matched x := by
      intro k w hw
      have hk : (heap.rawget x.2 k).isSome := by rw [hw]; rfl
      cases hv : heap.rawget x.1 k with
      | none => exact absurd ⟨hne, .inl ⟨k, hv, hk⟩⟩ hseen
      | some v =>
        refine ⟨v, rfl, ?_, ?_⟩
        · rintro rfl
          exact hmistaken ⟨hne, .inl ⟨k, hv, hk⟩⟩
        · intro hvt hwt
          by_contra hneq
          exact hseen ⟨hne, .inr (.inl ⟨k, v, w, hv, hw, hvt, hwt, hneq⟩)⟩
    refine ⟨(count_eq_iff hp hq ?_).mpr ⟨?_, ?_⟩, hmatched⟩
    · intro k hk
      obtain ⟨w, hw⟩ := Option.isSome_iff_exists.mp hk
      obtain ⟨v, hv, -⟩ := hmatched k w hw
      rw [hv]
      rfl
    · rw [or_iff_not_imp_left]
      intro hcounted k hk
      by_contra hnone
      exact hseen ⟨hne, .inr (.inr ⟨hcounted, k, hk, Option.not_isSome_iff_eq_none.mp hnone⟩)⟩
    · rw [or_iff_not_imp_left]
      intro hone k
      by_contra hk
      exact hmistaken ⟨hne, .inr ⟨hone, k, Option.isSome_iff_ne_none.mpr hk⟩⟩

/-- One call: the two tables must show no difference, and none by mistake, and the sub-tables at
each key must be found equal. -/
theorem decides_call (hp : heap.Bare x.1) (hq : heap.Bare x.2) (depth : ℕ) {Q : Addr × Addr → Prop}
    (hQ : ∀ k y, heap.pairAt x k = some y →
      Decides (heap.arrayKeyAllSame lua depth y.1 y.2) (Q y)) :
    Decides (heap.arrayKeyAllSame lua (depth + 1) x.1 x.2)
      ((¬ heap.Seen lua x ∧ ¬ heap.Mistaken lua x) ∧ ∀ k y, heap.pairAt x k = some y → Q y) := by
  rw [arrayKeyAllSame, equal_of_bare hp hq]
  by_cases hne : x.1 = x.2
  · rw [if_pos (decide_eq_true hne)]
    refine ⟨true, rfl, ?_⟩
    simp [Seen, Mistaken, hne, pairAt]
  rw [if_neg (by simpa using hne), ← count_and_matched_iff hne hp hq]
  obtain ⟨n, hn⟩ : ∃ n, heap.count lua x.1 = .ok n := (count_of_bare hp lua).imp' _ fun _ h => h.1
  obtain ⟨n', hn'⟩ : ∃ n, heap.count lua x.2 = .ok n := (count_of_bare hq lua).imp' _ fun _ h => h.1
  obtain ⟨l, hl, -, hmem⟩ := pairs_of_bare hq lua
  simp only [hn, hn', hl, bind, Except.bind, index_of_bare hp, index_of_bare hq, Except.ok.injEq]
  split_ifs with hcount
  · exact ⟨false, rfl, by simp [hcount]⟩
  · rw [and_assoc, and_iff_right (not_not.mp hcount)]
    refine (Decides.allM l fun e he => ?_).congr (forall_turns_iff hne hmem)
    rw [(hmem e.1 e.2).mp he]
    refine decides_sameValues _ _ fun p' q' hp' hq' => hQ e.1 (p', q') ?_
    have hget := (hmem e.1 e.2).mp he
    rw [hq'] at hget
    exact pairAt_eq_some_iff.mpr ⟨hne, child_eq_some_iff.mpr hp', child_eq_some_iff.mpr hget⟩

omit [LuaNumber N] in
/-- The tables that are compared have no metatables. -/
theorem bare_of_mem_below (hp : heap.TreeShaped p) (hq : heap.TreeShaped q)
    (hy : y ∈ below heap.pairAt (p, q)) : heap.Bare y.1 ∧ heap.Bare y.2 :=
  ⟨hp.bare _ (sides_of_mem_below_pairAt hy).1, hq.bare _ (sides_of_mem_below_pairAt hy).2⟩

omit [LuaNumber N] in
/-- The first tables of the pairs become smaller. -/
theorem ncard_pairs (hclosed : heap.Closed) (hp : heap.TreeShaped p) (q : Addr) :
    ∀ x ∈ below heap.pairAt (p, q), 0 < (below heap.child x.1).ncard ∧
      ∀ k y, heap.pairAt x k = some y →
        (below heap.child y.1).ncard < (below heap.child x.1).ncard := by
  intro x hx
  obtain ⟨hpos, hlt⟩ := hp.ncard_below hclosed (sides_of_mem_below_pairAt hx).1
  exact ⟨hpos, fun k y hy => hlt k y.1 (pairAt_eq_some_iff.mp hy).2.1⟩

/-- **What `arrayKeyAllSame` decides**: no pair that is compared shows a difference that is seen,
and none is mistaken for a difference. -/
theorem decides_arrayKeyAllSame (lua : Lua N) (hclosed : heap.Closed) (hp : heap.TreeShaped p)
    (hq : heap.TreeShaped q) {depth : ℕ} (hdepth : heap.keys.length ≤ depth) :
    Decides (heap.arrayKeyAllSame lua depth p q)
      (∀ y ∈ below heap.pairAt (p, q), ¬ heap.Seen lua y ∧ ¬ heap.Mistaken lua y) := by
  have hstep : ∀ d, ∀ x ∈ below heap.pairAt (p, q), ∀ Q : Addr × Addr → Prop,
      (∀ k y, heap.pairAt x k = some y → Decides (heap.arrayKeyAllSame lua d y.1 y.2) (Q y)) →
      Decides (heap.arrayKeyAllSame lua (d + 1) x.1 x.2)
        ((¬ heap.Seen lua x ∧ ¬ heap.Mistaken lua x) ∧
          ∀ k y, heap.pairAt x k = some y → Q y) :=
    fun d x hx Q hQ =>
      decides_call (bare_of_mem_below hp hq hx).1 (bare_of_mem_below hp hq hx).2 d hQ
  exact decides_below (fun x => (below heap.child x.1).ncard) (ncard_pairs hclosed hp q) hstep
    ((finite_below hclosed hp.there).2.trans hdepth)

/-! ## Equality in depth -/

/-- The pairs of tables that are equal in depth show no difference. -/
theorem DeepEqual.not_differ (h : heap.DeepEqual p q) : ¬ heap.Differ (p, q) := by
  obtain ⟨_, _, keys, values, -⟩ := h
  rintro ⟨-, ⟨k, hk⟩ | ⟨k, v, w, hv, hw, hvt, -, hneq⟩⟩
  · exact hk (keys k)
  · exact hneq ((values k v w hv hw).2 hvt)

/-- A table that is equal in depth to itself has only values that are equal to themselves. -/
theorem deepEqual_below {r : Addr} (h : heap.DeepEqual p p) (hr : r ∈ below heap.child p) :
    heap.DeepEqual r r := by
  induction hr with
  | refl => exact h
  | tail _ hstep ih =>
    obtain ⟨k, hk⟩ := hstep
    obtain ⟨_, _, -, -, tables⟩ := ih
    exact tables k _ _ hk hk

theorem DeepEqual.not_overlooked (h : heap.DeepEqual p q) : ¬ heap.Overlooked (p, q) := by
  rintro (⟨-, k, v, w, hv, hw, hmixed⟩ | ⟨hpq, r, hr, k, v, hv, hvt, hneq⟩)
  · obtain ⟨_, _, -, values, -⟩ := h
    exact hmixed (values k v w hv hw).1
  · obtain rfl : p = q := hpq
    obtain ⟨_, _, -, values, -⟩ := deepEqual_below h hr
    exact hneq ((values k v v hv hv).2 hvt)

/-- A table is equal in depth to itself when all values in it and below it are equal to themselves.
-/
theorem deepEqual_self (hclosed : heap.Closed) (hp : heap.TreeShaped p) {r : Addr}
    (hr : r ∈ below heap.child p) {n : ℕ} (hn : (below heap.child r).ncard ≤ n)
    (h : ∀ r' ∈ below heap.child r, ∀ k v, heap.rawget r' k = some v → v.table? = none →
      v.rawEqual v) : heap.DeepEqual r r := by
  induction n generalizing r with
  | zero =>
    have hpos := (hp.ncard_below hclosed hr).1
    omega
  | succ n ih =>
    refine ⟨r, r, fun _ => Iff.rfl, ?_, ?_⟩
    · intro k v w hv hw
      rw [hv, Option.some_inj] at hw
      exact hw ▸ ⟨Iff.rfl, h r (mem_below_self r) k v hv⟩
    · intro k p' q' hp' hq'
      rw [hp', Option.some_inj] at hq'
      rw [← hq']
      have hlt := (hp.ncard_below hclosed hr).2 k p' hp'
      refine ih (mem_below_of_child hr hp') (by omega) fun r' hr' => ?_
      exact h r' (below_subset (mem_below_of_child (mem_below_self r) hp') hr')

/-- **Equality in depth**, one pair at a time: no pair that is compared shows a difference, and none
has a difference that is passed over. -/
theorem deepEqual_iff (hclosed : heap.Closed) (hp : heap.TreeShaped p) (q : Addr) :
    heap.DeepEqual p q ↔
      ∀ y ∈ below heap.pairAt (p, q), ¬ heap.Differ y ∧ ¬ heap.Overlooked y := by
  constructor
  · intro h
    have hbelow : ∀ y ∈ below heap.pairAt (p, q), heap.DeepEqual y.1 y.2 := by
      intro y hy
      induction hy with
      | refl => exact h
      | tail _ hstep ih =>
        obtain ⟨k, hk⟩ := hstep
        obtain ⟨-, h₁, h₂⟩ := pairAt_eq_some_iff.mp hk
        obtain ⟨_, _, -, -, tables⟩ := ih
        exact tables k _ _ h₁ h₂
    exact fun y hy => ⟨(hbelow y hy).not_differ, (hbelow y hy).not_overlooked⟩
  · suffices h : ∀ n, ∀ x ∈ below heap.pairAt (p, q), (below heap.child x.1).ncard ≤ n →
        (∀ y ∈ below heap.pairAt x, ¬ heap.Differ y ∧ ¬ heap.Overlooked y) →
        heap.DeepEqual x.1 x.2 from h _ (p, q) (mem_below_self _) le_rfl
    intro n
    induction n with
    | zero =>
      intro x hx hn
      have hpos := (ncard_pairs hclosed hp q x hx).1
      omega
    | succ n ih =>
      intro x hx hn h
      obtain ⟨hdiffer, hoverlooked⟩ := h x (mem_below_self x)
      by_cases hne : x.1 = x.2
      · -- one table twice
        rw [← hne]
        refine deepEqual_self hclosed hp (sides_of_mem_below_pairAt hx).1 le_rfl ?_
        intro r hr k v hv hvt
        by_contra hneq
        exact hoverlooked (.inr ⟨hne, r, hr, k, v, hv, hvt, hneq⟩)
      refine ⟨x.1, x.2, ?_, ?_, ?_⟩
      · intro k
        by_contra hk
        exact hdiffer ⟨hne, .inl ⟨k, hk⟩⟩
      · intro k v w hv hw
        have hkind : v.table?.isSome ↔ w.table?.isSome := by
          by_contra hmixed
          exact hoverlooked (.inl ⟨hne, k, v, w, hv, hw, hmixed⟩)
        refine ⟨hkind, fun hvt => ?_⟩
        by_contra hneq
        have hwt : w.table? = none := by simpa [hvt] using hkind
        exact hdiffer ⟨hne, .inr ⟨k, v, w, hv, hw, hvt, hwt, hneq⟩⟩
      · intro k p' q' hp' hq'
        have hplace : heap.pairAt x k = some (p', q') := pairAt_eq_some_iff.mpr ⟨hne, hp', hq'⟩
        have hlt := (ncard_pairs hclosed hp q x hx).2 k _ hplace
        have hle := Nat.le_of_lt_succ (hlt.trans_le hn)
        refine ih _ (mem_below_of_child hx hplace) hle fun y hy => h y ?_
        exact mem_below_iff.mpr (.inr ⟨k, _, hplace, hy⟩)

omit [DecidableEq N] in
theorem rawEqual_comm [DecidableEq N] (hsymm : ∀ a b : N, LuaNumber.eq a b = LuaNumber.eq b a)
    (v w : LuaValue N) : v.rawEqual w = w.rawEqual v := by
  cases v <;> cases w <;> simp [LuaValue.rawEqual, hsymm, eq_comm]

theorem DeepEqual.symm (hsymm : ∀ a b : N, LuaNumber.eq a b = LuaNumber.eq b a)
    (h : heap.DeepEqual p q) : heap.DeepEqual q p := by
  induction h with
  | mk p q keys values tables ih =>
    refine ⟨q, p, fun k => (keys k).symm, ?_, fun k p' q' hp' hq' => ih k q' p' hq' hp'⟩
    intro k v w hv hw
    obtain ⟨hkind, hequal⟩ := values k w v hw hv
    refine ⟨hkind.symm, fun hvt => ?_⟩
    rw [rawEqual_comm hsymm]
    exact hequal (by simpa [hvt] using hkind)

omit [DecidableEq N] in
/-- A difference is seen or missed. -/
theorem seen_or_missed_iff [DecidableEq N] (lua : Lua N) :
    heap.Seen lua x ∨ heap.Missed lua x ↔ heap.Differ x ∨ heap.Overlooked x := by
  have hkeys : (∃ k, ¬ ((heap.rawget x.1 k).isSome ↔ (heap.rawget x.2 k).isSome)) ↔
      (∃ k, heap.rawget x.1 k = none ∧ (heap.rawget x.2 k).isSome) ∨
        ∃ k, (heap.rawget x.1 k).isSome ∧ heap.rawget x.2 k = none := by
    rw [← exists_or]
    refine exists_congr fun k => ?_
    cases heap.rawget x.1 k <;> cases heap.rawget x.2 k <;> simp
  have hlogic : ∀ n A B C U O : Prop, n ∧ (A ∨ C ∨ ¬ U ∧ B) ∨ O ∨ n ∧ U ∧ B ↔
      n ∧ ((A ∨ B) ∨ C) ∨ O := by
    intro n A B C U O
    by_cases hU : U <;> simp only [hU, not_true, not_false_iff, false_and, true_and] <;> tauto
  rw [Seen, Missed, Differ, hkeys]
  exact hlogic _ _ _ _ _ _

/-- The condition on two tables: a pair that is compared shows a difference that is seen; or
differences that are missed, and pairs that are mistaken for different ones, are there both or not
at all. -/
def Comparable (lua : Lua N) (heap : LuaHeap N) (p q : Addr) : Prop :=
  (∃ x ∈ below heap.pairAt (p, q), heap.Seen lua x) ∨
    ((∃ x ∈ below heap.pairAt (p, q), heap.Missed lua x) ↔
      ∃ x ∈ below heap.pairAt (p, q), heap.Mistaken lua x)

end Compared

end LuaHeap

end CodeTest
