import CodeTest.LuaTable.DeepMerge

/-!
# When tables are merged

The tables that a call of `copyKeyValueRecursion` has written, followed along paths of keys: what
the call does at each pair of tables (`copyKeyValueRecursion_spec`) is a merge, except where a value
of `src` has no table to be written to, or its table is taken for an empty one.
-/

namespace CodeTest

open Places

namespace LuaHeap

variable {N : Type} [DecidableEq N] {lua : Lua N} {heap heap' : LuaHeap N} {p q t des src : Addr}
  {x y z : Addr × Addr} {k : LuaValue N} {path : List (LuaValue N)}
  {stringLibrary : LuaValue N → Option ℕ}

/-! ## Paths -/

theorem valueAt_append (heap : LuaHeap N) (v : LuaValue N) (path path' : List (LuaValue N)) :
    heap.valueAt v (path ++ path') = (heap.valueAt v path).bind fun w => heap.valueAt w path' := by
  induction path generalizing v with
  | nil => rfl
  | cons k path ih =>
    cases v with
    | table p =>
      rw [List.cons_append, valueAt, valueAt, Option.bind_assoc]
      exact congrArg _ (funext ih)
    | _ => rfl

/-- A value that is no table is the end of a path. -/
theorem valueAt_of_not_table {v w : LuaValue N} (hv : v.table? = none)
    (h : heap.valueAt v path = some w) : path = [] ∧ w = v := by
  cases path with
  | nil => exact ⟨rfl, (Option.some_inj.mp h).symm⟩
  | cons k path => cases v <;> first | cases h | cases hv

/-- A path to each table below. -/
theorem exists_path (hq : q ∈ below heap.child p) :
    ∃ path, heap.valueAt (.table p) path = some (.table q) := by
  induction hq with
  | refl => exact ⟨[], rfl⟩
  | tail _ hstep ih =>
    obtain ⟨k, hk⟩ := hstep
    obtain ⟨path, hpath⟩ := ih
    refine ⟨path ++ [k], ?_⟩
    rw [valueAt_append, hpath, Option.bind_some, valueAt, child_eq_some_iff.mp hk]
    rfl

/-- Paths below a table that is as it was. -/
theorem valueAt_congr (h : ∀ a ∈ below heap.child p, heap'.view a = heap.view a) :
    heap'.valueAt (.table p) path = heap.valueAt (.table p) path := by
  induction path generalizing p with
  | nil => rfl
  | cons k path ih =>
    have hget : heap'.rawget p = heap.rawget p := congrArg Prod.snd (h p (mem_below_self p))
    rw [valueAt, valueAt, hget]
    cases hv : heap.rawget p k with
    | none => rfl
    | some v =>
      rw [Option.bind_some, Option.bind_some]
      cases v with
      | table q =>
        have hq : heap.child p k = some q := child_eq_some_iff.mpr hv
        exact ih fun a ha => h a (mem_below_iff.mpr (.inr ⟨k, q, hq, ha⟩))
      | _ => cases path <;> rfl

/-- A table is without leaves when all its paths lead to tables. -/
theorem leafless_iff :
    heap.Leafless p ↔ ∀ path v, heap.valueAt (.table p) path = some v → v.table?.isSome := by
  constructor
  · intro h path
    induction path generalizing p with
    | nil =>
      intro v hv
      cases hv
      rfl
    | cons k path ih =>
      intro v hv
      obtain ⟨w, hw, hpath⟩ := Option.bind_eq_some_iff.mp hv
      obtain ⟨q, hq⟩ := Option.isSome_iff_exists.mp (h p (mem_below_self p) k w hw)
      obtain rfl := table_eq_of_table? hq
      have hchild : heap.child p k = some q := child_eq_some_iff.mpr hw
      refine ih (fun r hr => h r ?_) v hpath
      exact mem_below_iff.mpr (.inr ⟨k, q, hchild, hr⟩)
  · intro h q hq k v hv
    obtain ⟨path, hpath⟩ := exists_path hq
    refine h (path ++ [k]) v ?_
    rw [valueAt_append, hpath, Option.bind_some, valueAt, hv]
    rfl

/-! ## The tables that are not written -/

namespace Forest

variable (h : heap.Forest des src)
include h

theorem root_ne (hx : x ∈ below (heap.bothMet lua) (des, src)) : heap.child x.1 k ≠ some des :=
  h.des_tree.tree.root_not_child _ (sides_of_mem_below_bothMet hx).1 k

/-- A table of `des` is in one pair at most. -/
theorem eq_of_first_eq (hy : y ∈ below (heap.bothMet lua) (des, src))
    (hz : z ∈ below (heap.bothMet lua) (des, src)) (heq : y.1 = z.1) : y = z := by
  induction hy generalizing z with
  | refl =>
    rcases Relation.ReflTransGen.cases_tail hz with hz | ⟨z', hz', k, hk⟩
    · exact hz.symm
    · exact absurd (heq ▸ (bothMet_eq_some_iff.mp hk).1) (h.root_ne hz')
  | @tail y' y hy' hstep ih =>
    obtain ⟨k, hk⟩ := hstep
    have hk₁ := (bothMet_eq_some_iff.mp hk).1
    rcases Relation.ReflTransGen.cases_tail hz with rfl | ⟨z', hz', k', hk'⟩
    · exact absurd (heq ▸ hk₁) (h.root_ne hy')
    · obtain ⟨hfirst, rfl⟩ := h.des_tree.tree.place_unique _ (sides_of_mem_below_bothMet hy').1 _
        (sides_of_mem_below_bothMet hz').1 k k' _ hk₁ (heq ▸ (bothMet_eq_some_iff.mp hk').1)
      rw [ih hz' hfirst, hk'] at hk
      exact (Option.some_inj.mp hk).symm

/-- Below a sub-table of `des` that `src` has no table for, there is no table of a pair. -/
theorem not_first_below (hx : x ∈ below (heap.bothMet lua) (des, src))
    (hp : heap.child x.1 k = some p) (hnone : heap.metChild lua x.2 k = none)
    (hz : z ∈ below (heap.bothMet lua) (des, src)) : z.1 ∉ below heap.child p := by
  have hx₁ := (sides_of_mem_below_bothMet hx).1
  have hbelow := below_subset (mem_below_of_child hx₁ hp)
  induction hz with
  | refl =>
    intro hmem
    rcases Relation.ReflTransGen.cases_tail hmem with heq | ⟨b, hb, k', hk'⟩
    · exact absurd (heq ▸ hp) (h.root_ne hx)
    · exact h.des_tree.tree.root_not_child b (hbelow hb) k' hk'
  | @tail z' z hz' hstep ih =>
    intro hmem
    obtain ⟨k', hk'⟩ := hstep
    obtain ⟨hk₁, hk₂⟩ := bothMet_eq_some_iff.mp hk'
    have hz₁ := (sides_of_mem_below_bothMet hz').1
    rcases Relation.ReflTransGen.cases_tail hmem with heq | ⟨b, hb, k'', hk''⟩
    · obtain ⟨hfirst, rfl⟩ := h.des_tree.tree.place_unique _ hz₁ _ hx₁ k' k _ (heq ▸ hk₁) hp
      rw [h.eq_of_first_eq hz' hx hfirst, hnone] at hk₂
      cases hk₂
    · obtain ⟨hfirst, -⟩ := h.des_tree.tree.place_unique _ (hbelow hb) _ hz₁ k'' k' _ hk'' hk₁
      exact ih (hfirst ▸ hb)

end Forest

/-! ## The merge -/

namespace MergedBelow

variable (h : MergedBelow lua heap heap heap' (des, src))
include h

theorem rawget_first (hx : x ∈ below (heap.bothMet lua) (des, src)) (k : LuaValue N) :
    heap'.rawget x.1 k = (mergedView lua heap x).2 k :=
  congrFun (congrArg Prod.snd (h.inside x hx)) k

theorem rawget_of_child (hx : x ∈ below (heap.bothMet lua) (des, src))
    (ht : heap.metChild lua x.2 k = some t) : heap'.rawget x.1 k = heap.rawget x.1 k := by
  rw [h.rawget_first hx, mergedView_of_not_leaf]
  intro v hv
  rw [metChild_eq_some_iff.mp ht, Option.some_inj] at hv
  rw [← hv]
  rfl

/-- Where `src` has no sub-table that is met, the tables of `des` are as they were. -/
theorem view_below (hforest : heap.Forest des src) (hx : x ∈ below (heap.bothMet lua) (des, src))
    (hp : heap.child x.1 k = some p) (hnone : heap.metChild lua x.2 k = none) {a : Addr}
    (ha : a ∈ below heap.child p) : heap'.view a = heap.view a :=
  view_congr (h.outside a fun _ hz heq => hforest.not_first_below hx hp hnone hz (heq ▸ ha))

/-- Nothing of a table that is taken for an empty one is written. -/
theorem view_of_falseFirst (hforest : heap.Forest des src)
    (hx : x ∈ below (heap.bothMet lua) (des, src)) (hfirst : heap.FalseFirst lua x.2) {a : Addr}
    (ha : a ∈ below heap.child x.1) : heap'.view a = heap.view a := by
  have hmet : ∀ k, heap.met lua x.2 k = none := by
    apply met_of_not_testNext
    simp [testNext_eq_false_iff.mpr (.inr hfirst)]
  rcases mem_below_iff.mp ha with rfl | ⟨k, p, hp, ha⟩
  · rw [h.inside x hx]
    refine Prod.ext rfl (funext fun k => ?_)
    simp only [mergedView, hmet]
    rfl
  · exact h.view_below hforest hx hp (by rw [metChild, hmet, Option.bind_none]) ha

/-- The leaves of `src` are found in `des`. -/
theorem copied (hforest : heap.Forest des src)
    (hmergeable : Mergeable lua stringLibrary heap des src)
    (hx : x ∈ below (heap.bothMet lua) (des, src)) {v : LuaValue N}
    (hv : heap.LeafAt x.2 path v) : heap'.LeafAt x.1 path v := by
  induction path generalizing x with
  | nil =>
    obtain ⟨hv, hleaf⟩ := hv
    cases hv
    cases hleaf
  | cons k path ih =>
    by_cases hfirst : heap.FalseFirst lua x.2
    · obtain ⟨hfound, hleaf⟩ := hmergeable.present x hx hfirst _ v hv
      rw [LeafAt, valueAt_congr fun a ha => h.view_of_falseFirst hforest hx hfirst ha]
      exact ⟨hfound, hleaf⟩
    obtain ⟨hv, hleaf⟩ := hv
    obtain ⟨w, hw, hpath⟩ := Option.bind_eq_some_iff.mp hv
    have hmet : heap.met lua x.2 k = some w := by
      rw [met_of_not_falseFirst hfirst, hw]
    refine ⟨?_, hleaf⟩
    cases hwt : w.table? with
    | none =>
      obtain ⟨rfl, rfl⟩ := valueAt_of_not_table hwt hpath
      rw [valueAt, h.rawget_first hx, mergedView_of_leaf hmet hwt]
      rfl
    | some t =>
      obtain rfl := table_eq_of_table? hwt
      have ht : heap.metChild lua x.2 k = some t := metChild_eq_some_iff.mpr hmet
      rcases hmergeable.faced x hx k t ht with hp | ⟨hleafless, -⟩
      · obtain ⟨p, hp⟩ := Option.isSome_iff_exists.mp hp
        have hy : heap.bothMet lua x k = some (p, t) := bothMet_eq_some_iff.mpr ⟨hp, ht⟩
        rw [valueAt, h.rawget_of_child hx ht, child_eq_some_iff.mp hp, Option.bind_some]
        exact (ih (mem_below_of_child hx hy) ⟨hpath, hleaf⟩).1
      · have htable := leafless_iff.mp hleafless path v hpath
        rw [hleaf] at htable
        cases htable

/-- The leaves of `des` stay, when no leaf of `src` is on the path. -/
theorem kept (hforest : heap.Forest des src) (hx : x ∈ below (heap.bothMet lua) (des, src))
    {v : LuaValue N} (hv : heap.LeafAt x.1 path v)
    (hnot : ∀ path' w, path' <+: path → ¬ heap.LeafAt x.2 path' w) : heap'.LeafAt x.1 path v := by
  induction path generalizing x with
  | nil =>
    obtain ⟨hv, hleaf⟩ := hv
    cases hv
    cases hleaf
  | cons k path ih =>
    obtain ⟨hv, hleaf⟩ := hv
    obtain ⟨w, hw, hpath⟩ := Option.bind_eq_some_iff.mp hv
    have htable : ∀ u, heap.met lua x.2 k = some u → u.table?.isSome := by
      intro u hu
      rw [Option.isSome_iff_ne_none]
      intro hut
      refine hnot [k] u ⟨path, rfl⟩ ⟨?_, hut⟩
      rw [valueAt, rawget_of_met hu]
      rfl
    have hget : heap'.rawget x.1 k = some w := by
      rw [h.rawget_first hx, mergedView_of_not_leaf htable, hw]
    refine ⟨?_, hleaf⟩
    rw [valueAt, hget, Option.bind_some]
    cases hwt : w.table? with
    | none =>
      obtain ⟨rfl, rfl⟩ := valueAt_of_not_table hwt hpath
      rfl
    | some p =>
      obtain rfl := table_eq_of_table? hwt
      have hp : heap.child x.1 k = some p := child_eq_some_iff.mpr hw
      cases ht : heap.metChild lua x.2 k with
      | none =>
        rw [valueAt_congr fun a ha => h.view_below hforest hx hp ht ha]
        exact hpath
      | some t =>
        have hy : heap.bothMet lua x k = some (p, t) := bothMet_eq_some_iff.mpr ⟨hp, ht⟩
        refine (ih (mem_below_of_child hx hy) ⟨hpath, hleaf⟩ fun path' u hprefix hu => ?_).1
        refine hnot (k :: path') u (List.cons_prefix_cons.mpr ⟨rfl, hprefix⟩) ⟨?_, hu.2⟩
        rw [valueAt, child_eq_some_iff.mp (child_of_metChild ht)]
        exact hu.1

/-- A path that leads to both tables of a pair, before and after the call. -/
theorem exists_path_both (hx : x ∈ below (heap.bothMet lua) (des, src)) :
    ∃ path, heap.valueAt (.table src) path = some (.table x.2) ∧
      heap'.valueAt (.table des) path = some (.table x.1) := by
  induction hx with
  | refl => exact ⟨[], rfl, rfl⟩
  | @tail x y hx hstep ih =>
    obtain ⟨k, hk⟩ := hstep
    obtain ⟨hk₁, hk₂⟩ := bothMet_eq_some_iff.mp hk
    obtain ⟨path, hpath₂, hpath₁⟩ := ih
    refine ⟨path ++ [k], ?_, ?_⟩
    · rw [valueAt_append, hpath₂, Option.bind_some, valueAt,
        child_eq_some_iff.mp (child_of_metChild hk₂)]
      rfl
    · rw [valueAt_append, hpath₁, Option.bind_some, valueAt, h.rawget_of_child hx hk₂,
        child_eq_some_iff.mp hk₁]
      rfl

/-- When all leaves of `src` are found, those in a sub-table have a table to be found in. -/
theorem leafless_of_copied
    (hcopied : ∀ path v, heap.LeafAt src path v → heap'.LeafAt des path v)
    (hx : x ∈ below (heap.bothMet lua) (des, src)) 
    (ht : heap.metChild lua x.2 k = some t) (hnone : heap.child x.1 k = none) :
    heap.Leafless t := by
  rw [leafless_iff]
  intro path v hv
  rw [Option.isSome_iff_ne_none]
  intro hleaf
  obtain ⟨path', hsrc, hdes⟩ := h.exists_path_both hx
  have hleafAt : heap.LeafAt src (path' ++ k :: path) v := by
    refine ⟨?_, hleaf⟩
    rw [valueAt_append, hsrc, Option.bind_some, valueAt,
      child_eq_some_iff.mp (child_of_metChild ht)]
    exact hv
  obtain ⟨hfound, -⟩ := hcopied _ _ hleafAt
  rw [valueAt_append, hdes, Option.bind_some, valueAt, h.rawget_of_child hx ht,
    Option.bind_eq_some_iff] at hfound
  obtain ⟨w, hw, hpath⟩ := hfound
  cases hwt : w.table? with
  | none =>
    obtain ⟨rfl, -⟩ := valueAt_of_not_table hwt hpath
    cases hv
    cases hleaf
  | some p =>
    obtain rfl := table_eq_of_table? hwt
    rw [child_eq_some_iff.mpr hw] at hnone
    cases hnone

/-- When all leaves of `src` are found, those of a table that is taken for empty were there before.
-/
theorem present_of_copied (hforest : heap.Forest des src)
    (hcopied : ∀ path v, heap.LeafAt src path v → heap'.LeafAt des path v)
    (hx : x ∈ below (heap.bothMet lua) (des, src)) (hfirst : heap.FalseFirst lua x.2)
    {v : LuaValue N} (hv : heap.LeafAt x.2 path v) : heap.LeafAt x.1 path v := by
  obtain ⟨path', hsrc, hdes⟩ := h.exists_path_both hx
  have hleafAt : heap.LeafAt src (path' ++ path) v := by
    refine ⟨?_, hv.2⟩
    rw [valueAt_append, hsrc]
    exact hv.1
  obtain ⟨hfound, hleaf⟩ := hcopied _ _ hleafAt
  rw [valueAt_append, hdes, Option.bind_some,
    valueAt_congr fun a ha => h.view_of_falseFirst hforest hx hfirst ha] at hfound
  exact ⟨hfound, hleaf⟩

end MergedBelow

end LuaHeap

end CodeTest
