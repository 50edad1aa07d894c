import CodeTest.LuaTable.DeepCopy
import CodeTest.LuaTable.Mirrored
import CodeTest.LuaTable.TreeShaped

/-!
# The check for changes past the proxy

When the tables of a source form a tree without metatables, `genShadowTable` makes a shadow in which
`isEqual` finds no difference, and after any careful assignments it finds none either
(`isEqual_of_careful`). An assignment through the proxy that puts a string in the place of a number
is not written to the shadow, and `isEqual` reports it.
-/

namespace CodeTest

open Places

namespace Shadowed

variable {N : Type} [DecidableEq N] [LuaNumber N]

/-- A source of which a shadow can be made: its tables form a tree, none has a metatable, and no
number is NaN. -/
structure Regular (heap : LuaHeap N) (tSource : Addr) : Prop where
  there : (heap.lookup tSource).isSome
  bare : ∀ p ∈ heap.reachable (.table tSource), heap.Bare p
  tree : IsTree heap.child tSource
  number : ∀ p ∈ below heap.child tSource, ∀ k n, heap.rawget p k = some (.number n) →
    LuaNumber.eq n n

/-- The tables that a call of `genShadowTable` has made, without the proxy. -/
def hidden (heap : LuaHeap N) (s : Shadowed N) : Set Addr :=
  { p | heap.lookup p = none ∧ (s.heap.lookup p).isSome ∧ p ≠ s.tNew }

instance (heap : LuaHeap N) (s : Shadowed N) : DecidablePred (· ∈ hidden heap s) := fun p =>
  inferInstanceAs (Decidable (_ = none ∧ _ ∧ p ≠ s.tNew))

/-- The tables of a memory are in another one as they are, next to copies of the tables of the
source with the offset added: `f` gives the copy of a table. -/
structure Copied (heap heap' : LuaHeap N) (tSource : Addr) (nOffset : N) (f : Addr → Addr) :
    Prop where
  kept : ∀ p, (heap.lookup p).isSome → heap'.view p = heap.view p
  injOn : Set.InjOn f (heap.reachable (.table tSource))
  fresh : ∀ p ∈ heap.reachable (.table tSource), heap.lookup (f p) = none
  bare : ∀ p ∈ below heap.child tSource, (heap'.view (f p)).1 = some none
  copy : ∀ p ∈ below heap.child tSource, ∀ k w, heap'.rawget (f p) k = some w ↔
    ∃ k₀ v, heap.rawget p k₀ = some v ∧ k₀.map f = k ∧ LuaHeap.shifted nOffset (v.map f) = w

/-- What a call of `genShadowTable` has done: there are the copies, which the shadow is one of, a
proxy and its metatable. -/
structure Started (heap : LuaHeap N) (s : Shadowed N) (f : Addr → Addr) : Prop
    extends Copied heap s.heap s.tSource s.nOffset f where
  shadow : s.tShadow = f s.tSource
  proxy_new : heap.lookup s.tNew = none
  copy_ne_proxy : ∀ p ∈ heap.reachable (.table s.tSource), f p ≠ s.tNew
  proxy : ∃ mt, heap.lookup mt = none ∧ mt ≠ s.tNew ∧ mt ≠ s.tShadow ∧
    s.heap.view s.tNew = (some (some mt), fun _ => none) ∧
    s.heap.view mt = (some none, s.proxyFields.lookup)

section Start

variable {heap : LuaHeap N} {s : Shadowed N} {f : Addr → Addr} {p q : Addr} {k : LuaValue N}

omit [LuaNumber N] in
/-- A key or value of a table leads to the tables that the table leads to. -/
theorem mem_reachable_of_rawget {root r : Addr} (hp : p ∈ heap.reachable (.table root))
    {v : LuaValue N} (h : heap.rawget p k = some v) (hr : k = .table r ∨ v = .table r) :
    r ∈ heap.reachable (.table root) := by
  obtain ⟨t, ht, hv⟩ := Option.bind_eq_some_iff.mp h
  obtain ⟨root', hroot, hpath⟩ := hp
  exact ⟨root', hroot, hpath.tail ⟨t, ht, ⟨k, v⟩, AList.mem_lookup_iff.mp hv, hr⟩⟩

omit [LuaNumber N] in
theorem below_subset_reachable {root : Addr} :
    below heap.child root ⊆ heap.reachable (.table root) := by
  intro p hp
  induction hp with
  | refl => exact ⟨root, rfl, .refl⟩
  | tail _ hstep ih =>
    obtain ⟨k, hk⟩ := hstep
    exact mem_reachable_of_rawget ih (LuaHeap.child_eq_some_iff.mp hk) (.inr rfl)

omit [LuaNumber N] in
/-- The sub-tables of a table whose entries are those of another one, with keys and values changed
in such a way that only tables become tables. -/
theorem child_iff_of_rawget_iff {heap' : LuaHeap N} {change : LuaValue N → LuaValue N}
    (h : ∀ k w, heap'.rawget q k = some w ↔
      ∃ k₀ v, heap.rawget p k₀ = some v ∧ k₀.map f = k ∧ change v = w)
    (hchange : ∀ v r, change v = .table r ↔ ∃ r₀, v = .table r₀ ∧ f r₀ = r) (k' : LuaValue N)
    (q' : Addr) : heap'.child q k' = some q' ↔
      ∃ k r, heap.child p k = some r ∧ k.map f = k' ∧ f r = q' := by
  rw [LuaHeap.child_eq_some_iff, h]
  constructor
  · rintro ⟨k, v, hv, hk, hq'⟩
    obtain ⟨r, rfl, hr⟩ := (hchange v q').mp hq'
    exact ⟨k, r, LuaHeap.child_eq_some_iff.mpr hv, hk, hr⟩
  · rintro ⟨k, r, hr, hk, hq'⟩
    exact ⟨k, .table r, LuaHeap.child_eq_some_iff.mp hr, hk, (hchange _ q').mpr ⟨r, rfl, hq'⟩⟩

omit [DecidableEq N] in
theorem shifted_map_eq_table {nOffset : N} {v : LuaValue N} {r : Addr} :
    LuaHeap.shifted nOffset (v.map f) = .table r ↔ ∃ r₀, v = .table r₀ ∧ f r₀ = r := by
  cases v <;> simp [LuaValue.map, LuaHeap.shifted]

namespace Copied

variable {heap' : LuaHeap N} {tSource : Addr} {nOffset : N}

theorem lookup_kept (h : Copied heap heap' tSource nOffset f) (hp : (heap.lookup p).isSome) :
    (heap'.lookup p).isSome := by
  rw [LuaHeap.isSome_lookup_iff, h.kept p hp, ← LuaHeap.isSome_lookup_iff]
  exact hp

theorem lookup_copy (h : Copied heap heap' tSource nOffset f) (hp : p ∈ below heap.child tSource) :
    (heap'.lookup (f p)).isSome := by
  rw [LuaHeap.isSome_lookup_iff, h.bare p hp]
  rfl

end Copied

namespace Started

/-- The tables of the shadow correspond to those of the source. -/
theorem child_copy (h : Started heap s f) (hp : p ∈ below heap.child s.tSource) (k' : LuaValue N)
    (q' : Addr) : s.heap.child (f p) k' = some q' ↔
      ∃ k q, heap.child p k = some q ∧ k.map f = k' ∧ f q = q' :=
  child_iff_of_rawget_iff (h.copy p hp) (fun _ _ => shifted_map_eq_table) k' q'

/-- A key that a table of the source and its copy both have is the same key. -/
theorem value_copy (h : Started heap s f) (hclosed : heap.Closed)
    (hp : p ∈ below heap.child s.tSource) {v w : LuaValue N} (hv : heap.rawget p k = some v)
    (hw : s.heap.rawget (f p) k = some w) : w = LuaHeap.shifted s.nOffset (v.map f) := by
  obtain ⟨k₀, v₀, hv₀, hk, rfl⟩ := (h.copy p hp k w).mp hw
  have hsame : k₀ = k := by
    cases k₀ with
    | table r =>
      -- the copy of a key is a new table, which is no key of the source
      have hr := mem_reachable_of_rawget (below_subset_reachable hp) hv₀ (.inl rfl)
      have hvalid : heap.Valid (.table (f r)) := by
        rw [show LuaValue.table (f r) = k from hk]
        exact (LuaHeap.valid_of_rawget hclosed hv).2.1
      have hthere : (heap.lookup (f r)).isSome := hvalid
      rw [h.fresh r hr] at hthere
      cases hthere
    | _ => exact hk
  rw [hsame, hv, Option.some_inj] at hv₀
  rw [hv₀]

theorem rawget_kept (h : Started heap s f) (hp : (heap.lookup p).isSome) (k : LuaValue N) :
    s.heap.rawget p k = heap.rawget p k :=
  congrFun (congrArg Prod.snd (h.kept p hp)) k

/-- A table that is there is not the proxy. -/
theorem source_eq (h : Started heap s f) (hp : (heap.lookup p).isSome) : s.source p = p := by
  refine if_neg ?_
  rintro rfl
  rw [h.proxy_new] at hp
  cases hp

/-- At the start every table of the source is compared with its copy. -/
theorem eq_of_mem_compared (h : Started heap s f) (hclosed : heap.Closed)
    (hthere : (heap.lookup s.tSource).isSome) {y : Addr × Addr}
    (hy : y ∈ s.compared s.tSource s.tShadow) :
    y.1 ∈ below heap.child s.tSource ∧ y.2 = f y.1 := by
  induction hy with
  | refl => exact ⟨mem_below_self _, h.shadow⟩
  | @tail x y _ hstep ih =>
    obtain ⟨k, hk⟩ := hstep
    obtain ⟨hx, hfx⟩ := ih
    have hxthere := LuaHeap.isSome_of_mem_below hclosed hthere hx
    obtain ⟨h₁, h₂⟩ := places_eq_some_iff.mp hk
    rw [h.source_eq hxthere, LuaHeap.child_eq_some_iff, h.rawget_kept hxthere] at h₁
    rw [hfx, LuaHeap.child_eq_some_iff] at h₂
    refine ⟨mem_below_of_child hx (LuaHeap.child_eq_some_iff.mpr h₁), ?_⟩
    have hcopy : LuaValue.table y.2 = .table (f y.1) := h.value_copy hclosed hx h₁ h₂
    exact LuaValue.table.inj hcopy

/-- At the start the values of a key fit. -/
theorem fits_copy (h : Started heap s f) (hclosed : heap.Closed) (hregular : Regular heap s.tSource)
    (hoffset : ∃ n : ℤ, s.nOffset = LuaNumber.ofInt n) (hp : p ∈ below heap.child s.tSource)
    (k : LuaValue N) : fits s.nOffset (heap.rawget p k) (s.heap.rawget (f p) k) := by
  obtain ⟨offset, hoffset⟩ := hoffset
  cases hv : heap.rawget p k with
  | none => rfl
  | some v =>
    cases hw : s.heap.rawget (f p) k with
    | none => cases v <;> rfl
    | some w =>
      rw [h.value_copy hclosed hp hv hw]
      cases v with
      | number n =>
        rw [hoffset]
        exact LuaNumber.add_ofInt n offset (hregular.number p hp k n hv)
      | boolean b => cases b <;> simp [fits, LuaHeap.shifted, LuaValue.map, LuaValue.rawEqual]
      | _ => simp [fits, LuaHeap.shifted, LuaValue.map, LuaValue.rawEqual]

/-- The tables of the shadow: they are copies of the tables of the source, and a tree. -/
theorem below_copy (h : Started heap s f) :
    below s.heap.child s.tShadow = Set.image f (below heap.child s.tSource) := by
  rw [h.shadow]
  exact below_image fun p hp => h.child_copy hp

theorem shadow_hidden (h : Started heap s f) :
    below s.heap.child s.tShadow ⊆ hidden heap s := by
  rw [h.below_copy]
  rintro _ ⟨p, hp, rfl⟩
  have hmem := below_subset_reachable hp
  exact ⟨h.fresh p hmem, h.lookup_copy hp, h.copy_ne_proxy p hmem⟩

/-- The tables that were there do not refer to hidden ones. -/
theorem separate (h : Started heap s f) (hclosed : heap.Closed) :
    ∀ p ∉ hidden heap s, ∀ k q, s.heap.child p k = some q → q ∉ hidden heap s := by
  intro p hp k q hq hmem
  have hget := LuaHeap.child_eq_some_iff.mp hq
  have hne : p ≠ s.tNew := by
    rintro rfl
    obtain ⟨mt, -, -, -, hproxy, -⟩ := h.proxy
    have hnone : s.heap.rawget s.tNew k = none := congrFun (congrArg Prod.snd hproxy) k
    rw [hnone] at hget
    cases hget
  have hthere' : (s.heap.lookup p).isSome := by
    obtain ⟨t, ht, -⟩ := Option.bind_eq_some_iff.mp hget
    rw [ht]
    rfl
  have hthere : (heap.lookup p).isSome := by
    rw [Option.isSome_iff_ne_none]
    exact fun hfree => hp ⟨hfree, hthere', hne⟩
  rw [h.rawget_kept hthere] at hget
  have hqthere := LuaHeap.isSome_of_child hclosed (LuaHeap.child_eq_some_iff.mpr hget)
  rw [hmem.1] at hqthere
  cases hqthere

/-- The invariant holds at the start. -/
theorem mirrored (h : Started heap s f) (hclosed : heap.Closed) (hregular : Regular heap s.tSource)
    (hoffset : ∃ n : ℤ, s.nOffset = LuaNumber.ofInt n) {depth : ℕ}
    (hdepth : heap.keys.length ≤ depth) : s.Mirrored (hidden heap s) depth := by
  have hthere := hregular.there
  obtain ⟨hfinite, hcard⟩ := LuaHeap.finite_below hclosed hthere
  have hsource : ∀ p, (heap.lookup p).isSome → p ∉ hidden heap s := by
    intro p hp hmem
    rw [hmem.1] at hp
    cases hp
  obtain ⟨mt, hmtfree, hmtnew, hmtshadow, hproxy, hfields⟩ := h.proxy
  exact {
    offset := hoffset
    source_there := h.lookup_kept hthere
    source_ne := by
      intro heq
      rw [heq, h.proxy_new] at hthere
      cases hthere
    source_visible := hsource _ hthere
    proxy_visible := fun hmem => hmem.2.2 rfl
    proxy := by
      refine ⟨mt, ⟨hmtfree, ?_, hmtnew⟩, hmtshadow, hproxy, hfields⟩
      rw [LuaHeap.isSome_lookup_iff, hfields]
      rfl
    shadow_there := (h.shadow_hidden (mem_below_self _)).2.1
    shadow_hidden := h.shadow_hidden
    shadow_bare := by
      rw [h.below_copy]
      rintro _ ⟨p, hp, rfl⟩
      rw [LuaHeap.bare_iff, h.bare p hp]
      simp
    tree := by
      rw [h.shadow]
      exact hregular.tree.image (h.injOn.mono below_subset_reachable) fun p hp => h.child_copy hp
    finite := by
      rw [h.below_copy]
      exact hfinite.image f
    card_le := by
      rw [h.below_copy]
      exact (Set.ncard_image_le hfinite).trans (hcard.trans hdepth)
    separate := h.separate hclosed
    agrees := by
      intro y hy
      obtain ⟨hmem, hy₂⟩ := h.eq_of_mem_compared hclosed hthere hy
      have hythere := LuaHeap.isSome_of_mem_below hclosed hthere hmem
      refine ⟨?_, fun k => ?_⟩
      · rw [h.source_eq hythere, LuaHeap.bare_iff, h.kept _ hythere, ← LuaHeap.bare_iff]
        exact hregular.bare _ (below_subset_reachable hmem)
      · rw [h.source_eq hythere, h.rawget_kept hythere, hy₂]
        exact h.fits_copy hclosed hregular hoffset hmem k }

end Started

/-! ## The call -/

omit [LuaNumber N] in
/-- The entries of a copy. -/
theorem rawget_deepCopy {lua : Lua N} {heap' : LuaHeap N} {v v' : LuaValue N}
    (h : LuaHeap.DeepCopy lua heap heap' v v' f) (hp : p ∈ heap.reachable v) (k w : LuaValue N) :
    heap'.rawget (f p) k = some w ↔
      ∃ k₀ v₀, heap.rawget p k₀ = some v₀ ∧ k₀.map f = k ∧ v₀.map f = w := by
  obtain ⟨-, t, t', ht, ht', hperm, -⟩ := h.table p hp
  have hmem : ∀ {r : Addr} {heap : LuaHeap N} {t : LuaTable N} {k w : LuaValue N},
      heap.lookup r = some t → (heap.rawget r k = some w ↔ ⟨k, w⟩ ∈ t.entries.entries) := by
    intro r heap t k w hr
    rw [LuaHeap.rawget, hr]
    exact AList.mem_lookup_iff
  rw [hmem ht', hperm.mem_iff, List.mem_map]
  constructor
  · rintro ⟨e, he, heq⟩
    cases heq
    exact ⟨e.1, e.2, (hmem ht).mpr he, rfl, rfl⟩
  · rintro ⟨k₀, v₀, hv₀, rfl, rfl⟩
    exact ⟨⟨k₀, v₀⟩, (hmem ht).mp hv₀, rfl⟩

omit [LuaNumber N] in
theorem plain_of_bare {lua : Lua N} (h : heap.Bare p) : LuaHeap.Plain lua heap p := by
  intro t ht m hm
  rw [h t ht] at hm
  cases hm

omit [LuaNumber N] in
/-- The copies of the tables of a tree form a tree. -/
theorem isTree_deepCopy {lua : Lua N} {heap' : LuaHeap N} {tSource : Addr} {copy : LuaValue N}
    (h : LuaHeap.DeepCopy lua heap heap' (.table tSource) copy f)
    (htree : IsTree heap.child tSource) :
    below heap'.child (f tSource) = Set.image f (below heap.child tSource) ∧
      IsTree heap'.child (f tSource) := by
  have hchild := fun p (hp : p ∈ below heap.child tSource) =>
    child_iff_of_rawget_iff (rawget_deepCopy h (below_subset_reachable hp))
      fun _ _ => LuaHeap.map_eq_table
  exact ⟨below_image hchild, htree.image (h.bijOn.injOn.mono below_subset_reachable) hchild⟩

omit [LuaNumber N] in
/-- The copy of a table without metatable has none. -/
theorem view_deepCopy {lua : Lua N} {heap' : LuaHeap N} {v v' : LuaValue N}
    (h : LuaHeap.DeepCopy lua heap heap' v v' f) (hp : p ∈ heap.reachable v)
    (hbare : heap.Bare p) : (heap'.view (f p)).1 = some none := by
  obtain ⟨-, t, t', ht, ht', -, hmeta⟩ := h.table p hp
  rw [LuaHeap.view, ht', Option.map_some, hmeta, LuaHeap.copiedMetatable, hbare t ht]
  rfl

/-- The copy of a source with the offset added. -/
theorem exists_copied (lua : Lua N) (hclosed : heap.Closed) {tSource : Addr}
    (hregular : Regular heap tSource) (nOffset : N) {depth : ℕ}
    (hdepth : heap.keys.length ≤ depth) :
    ∃ (f : Addr → Addr) (heap₂ heap₃ : LuaHeap N),
      heap.clone lua depth (.table tSource) = .ok (.table (f tSource), heap₂) ∧
      heap₂.tableAddNumber lua nOffset depth (f tSource) = .ok heap₃ ∧
      Copied heap heap₃ tSource nOffset f := by
  have hobject : heap.Valid (.table tSource) := hregular.there
  obtain ⟨copy, heap₂, f, hclone, hkept, hcopy⟩ := LuaHeap.cloned_of_plain lua hclosed hobject
    (fun p hp => plain_of_bare (hregular.bare p hp)) hdepth
  obtain rfl : copy = .table (f tSource) := hcopy.value
  have hfresh : ∀ p ∈ heap.reachable (.table tSource), heap.lookup (f p) = none :=
    fun p hp => (hcopy.table p hp).1
  obtain ⟨hbelow₂, htree₂⟩ := isTree_deepCopy hcopy hregular.tree
  have hbare₂ : ∀ p ∈ below heap.child tSource, (heap₂.view (f p)).1 = some none := fun p hp =>
    view_deepCopy hcopy (below_subset_reachable hp) (hregular.bare p (below_subset_reachable hp))
  obtain ⟨hfinite, hcard⟩ := LuaHeap.finite_below hclosed hregular.there
  have hadds : LuaHeap.Adds nOffset heap₂ (LuaHeap.tableAddNumber lua nOffset depth)
      (f tSource) := by
    apply LuaHeap.tableAddNumber_spec htree₂
    · rw [hbelow₂]
      exact hfinite.image f
    · rw [hbelow₂]
      rintro _ ⟨p, hp, rfl⟩
      rw [LuaHeap.bare_iff, LuaHeap.isSome_lookup_iff, hbare₂ p hp]
      simp
    · exact mem_below_self _
    · rw [hbelow₂]
      exact (Set.ncard_image_le hfinite).trans (hcard.trans hdepth)
  obtain ⟨heap₃, hadd, hin, hout⟩ := hadds heap₂ fun _ _ => rfl
  have hview : ∀ p ∈ below heap.child tSource,
      heap₃.view (f p) = LuaHeap.shiftedView nOffset heap₂ (f p) := by
    intro p hp
    apply hin
    rw [hbelow₂]
    exact ⟨p, hp, rfl⟩
  refine ⟨f, heap₂, heap₃, hclone, hadd, ?_, hcopy.bijOn.injOn, hfresh, ?_, ?_⟩
  · intro p hp
    have hnot : p ∉ below heap₂.child (f tSource) := by
      rw [hbelow₂]
      rintro ⟨r, hr, rfl⟩
      rw [hfresh r (below_subset_reachable hr)] at hp
      cases hp
    rw [hout p hnot, LuaHeap.view, hkept.lookup hp, funext (LuaHeap.rawget_kept hkept hp),
      LuaHeap.view]
  · intro p hp
    rw [hview p hp]
    exact hbare₂ p hp
  · intro p hp k w
    have hget₃ : heap₃.rawget (f p) k = (heap₂.rawget (f p) k).map (LuaHeap.shifted nOffset) :=
      congrFun (congrArg Prod.snd (hview p hp)) k
    have hget₂ := rawget_deepCopy hcopy (below_subset_reachable hp) k
    rw [hget₃, Option.map_eq_some_iff]
    constructor
    · rintro ⟨w₀, hw₀, rfl⟩
      obtain ⟨k₀, v, hv, hk, rfl⟩ := (hget₂ w₀).mp hw₀
      exact ⟨k₀, v, hv, hk, rfl⟩
    · rintro ⟨k₀, v, hv, hk, hw⟩
      exact ⟨v.map f, (hget₂ _).mpr ⟨k₀, v, hv, hk, rfl⟩, hw⟩

omit [DecidableEq N] [LuaNumber N] in
/-- A new table without entries leads to no table, and no table leads to it. -/
theorem reachable_create (hp : heap.lookup p = none) (v : LuaValue N) :
    LuaHeap.reachable (heap.insert p ⟨∅, none⟩) v = heap.reachable v := by
  have hrefers : LuaHeap.Refers (heap.insert p ⟨∅, none⟩) = heap.Refers := by
    funext r q
    apply propext
    constructor
    · rintro ⟨t, ht, e, he, hq⟩
      rw [Table.lookup_insert_eq] at ht
      split_ifs at ht
      · cases ht
        cases he
      · exact ⟨t, ht, e, he, hq⟩
    · rintro ⟨t, ht, e, he, hq⟩
      exact ⟨t, Memory.kept_insert hp _ r t ht, e, he, hq⟩
  rw [LuaHeap.reachable, hrefers, LuaHeap.reachable]

omit [LuaNumber N] in
theorem closed_create (hclosed : heap.Closed) (hp : heap.lookup p = none) :
    LuaHeap.Closed (heap.insert p ⟨∅, none⟩) := by
  have hthere : ∀ q, (heap.lookup q).isSome →
      (AList.lookup q (heap.insert p ⟨∅, none⟩)).isSome := by
    intro q hq
    rw [(create_spec hp).2.1 q hq]
    exact hq
  have hvalid : ∀ v, heap.Valid v → LuaHeap.Valid (heap.insert p ⟨∅, none⟩) v := by
    intro v hv
    cases v with
    | table q => exact hthere q hv
    | _ => trivial
  intro e he
  have hlookup := AList.mem_lookup_iff.mpr he
  rw [Option.mem_def, Table.lookup_insert_eq] at hlookup
  split_ifs at hlookup
  · rw [← Option.some_inj.mp hlookup]
    simp
  · obtain ⟨hentries, hmetatable⟩ := hclosed.table hlookup
    exact ⟨fun e' he' => ⟨hvalid _ (hentries e' he').1, hvalid _ (hentries e' he').2⟩,
      fun m hm => hthere m (hmetatable m hm)⟩

/-- A source stays one of which a shadow can be made. -/
theorem Regular.create {tSource : Addr} (h : Regular heap tSource) (hp : heap.lookup p = none) :
    Regular (heap.insert p ⟨∅, none⟩) tSource := by
  obtain ⟨hget, hlookup, hbare⟩ := create_spec hp
  have hchild := child_create hp
  exact {
    there := by
      rw [hlookup _ h.there]
      exact h.there
    bare := by
      rw [reachable_create hp]
      exact fun q hq => hbare q (h.bare q hq)
    tree := by
      rw [hchild]
      exact h.tree
    number := by
      rw [hchild, hget]
      exact h.number }

omit [LuaNumber N] in
/-- The view of a memory with another table. -/
theorem view_insert (t : LuaTable N) (q : Addr) :
    LuaHeap.view (heap.insert p t) q =
      if q = p then (some t.metatable, t.entries.lookup) else heap.view q := by
  have hlookup := Table.lookup_insert_eq heap p q t
  split_ifs at hlookup ⊢
  · rw [LuaHeap.view, hlookup]
    refine Prod.ext rfl (funext fun k => ?_)
    show LuaHeap.rawget (heap.insert p t) q k = t.entries.lookup k
    rw [LuaHeap.rawget, hlookup, Option.bind_some]
  · rw [LuaHeap.view, hlookup, LuaHeap.view]
    refine Prod.ext rfl (funext fun k => ?_)
    show LuaHeap.rawget (heap.insert p t) q k = heap.rawget q k
    rw [LuaHeap.rawget, hlookup, LuaHeap.rawget]

omit [LuaNumber N] in
/-- `setmetatable` for a table without metatable. -/
theorem setmetatable_spec {m : Addr} (hview : (heap.view p).1 = some none) :
    ∃ heap' : LuaHeap N, heap.setmetatable p (some (.table m)) = .ok heap' ∧
      ∀ q, heap'.view q = if q = p then (some (some m), (heap.view p).2) else heap.view q := by
  have hbare : heap.Bare p := by
    rw [LuaHeap.bare_iff, hview]
    simp
  refine ⟨_, by rw [LuaHeap.setmetatable, LuaHeap.metafield_of_bare hbare]; rfl, fun q => ?_⟩
  obtain ⟨t, ht, -⟩ := Option.map_eq_some_iff.mp hview
  have hlookup := Memory.lookup_modify heap p q fun t => { t with metatable := some m }
  split_ifs at hlookup ⊢ with hq
  · rw [ht, Option.map_some] at hlookup
    refine Prod.ext ?_ (funext fun k => ?_)
    · rw [LuaHeap.view, hlookup]
      rfl
    · show LuaHeap.rawget (heap.modify p _) q k = heap.rawget p k
      rw [LuaHeap.rawget, hlookup, LuaHeap.rawget, ht]
      rfl
  · refine Prod.ext ?_ (funext fun k => ?_)
    · rw [LuaHeap.view, hlookup]
      rfl
    · show LuaHeap.rawget (heap.modify p _) q k = heap.rawget q k
      rw [LuaHeap.rawget, hlookup, LuaHeap.rawget]

omit [LuaNumber N] in
/-- The proxy gets its metatable. -/
theorem exists_proxy {m : Addr} (hm : heap.lookup m = none)
    (hp : heap.view p = (some none, fun _ => none)) (fields : Table (LuaValue N) (LuaValue N)) :
    ∃ heap', LuaHeap.setmetatable (heap.insert m ⟨fields, none⟩) p (some (.table m)) = .ok heap' ∧
      LuaHeap.view heap' p = (some (some m), fun _ => none) ∧
      LuaHeap.view heap' m = (some none, fields.lookup) ∧
      ∀ q, (heap.lookup q).isSome → q ≠ p → LuaHeap.view heap' q = heap.view q := by
  have hne : ∀ q, (heap.lookup q).isSome → q ≠ m := by
    rintro q hq rfl
    rw [hm] at hq
    cases hq
  have hpthere : (heap.lookup p).isSome := by
    rw [LuaHeap.isSome_lookup_iff, hp]
    rfl
  have hp' : LuaHeap.view (heap.insert m ⟨fields, none⟩) p = (some none, fun _ => none) := by
    rw [view_insert, if_neg (hne p hpthere), hp]
  obtain ⟨heap', hset, hview⟩ := @setmetatable_spec N _ (heap.insert m ⟨fields, none⟩) p m
    (by rw [hp'])
  refine ⟨heap', hset, ?_, ?_, ?_⟩
  · rw [hview, if_pos rfl, hp']
  · rw [hview, if_neg (hne p hpthere).symm, view_insert, if_pos rfl]
  · intro q hq hqp
    rw [hview, if_neg hqp, view_insert, if_neg (hne q hq)]

namespace Copied

variable {heap' heap'' : LuaHeap N} {tSource : Addr} {nOffset : N}

/-- A table that was made before the copies is left out. -/
theorem of_create (h : Copied (heap.insert p ⟨∅, none⟩) heap' tSource nOffset f)
    (hp : heap.lookup p = none) :
    Copied heap heap' tSource nOffset f ∧ (∀ q ∈ heap.reachable (.table tSource), f q ≠ p) ∧
      heap'.view p = (some none, fun _ => none) := by
  obtain ⟨hget, hlookup, -⟩ := create_spec hp
  have hchild := child_create hp
  have hfresh : ∀ q ∈ heap.reachable (.table tSource), f q ≠ p ∧ heap.lookup (f q) = none := by
    intro q hq
    have hfree := h.fresh q (by rw [reachable_create hp]; exact hq)
    rw [Table.lookup_insert_eq] at hfree
    split_ifs at hfree with heq
    exact ⟨heq, hfree⟩
  refine ⟨?_, fun q hq => (hfresh q hq).1, ?_⟩
  · exact {
      kept := by
        intro q hq
        rw [h.kept q (by rw [hlookup q hq]; exact hq), LuaHeap.view, hlookup q hq, hget,
          LuaHeap.view]
      injOn := by
        rw [← reachable_create hp]
        exact h.injOn
      fresh := fun q hq => (hfresh q hq).2
      bare := by
        rw [← hchild]
        exact h.bare
      copy := by
        rw [← hchild, ← hget]
        exact h.copy }
  · rw [h.kept p (by rw [Table.lookup_insert_eq, if_pos rfl]; rfl), view_insert, if_pos rfl]
    rfl

/-- A change of a table that is neither an old one nor a copy. -/
theorem of_view (h : Copied heap heap' tSource nOffset f) (hp : heap.lookup p = none)
    (hcopy : ∀ q ∈ heap.reachable (.table tSource), f q ≠ p)
    (hview : ∀ q, (heap'.lookup q).isSome → q ≠ p → heap''.view q = heap'.view q) :
    Copied heap heap'' tSource nOffset f := by
  have hsame : ∀ q ∈ below heap.child tSource, heap''.view (f q) = heap'.view (f q) :=
    fun q hq => hview (f q) (h.lookup_copy hq) (hcopy q (below_subset_reachable hq))
  exact {
    kept := by
      intro q hq
      have hne : q ≠ p := by
        rintro rfl
        rw [hp] at hq
        cases hq
      exact (hview q (h.lookup_kept hq) hne).trans (h.kept q hq)
    injOn := h.injOn
    fresh := h.fresh
    bare := by
      intro q hq
      rw [hsame q hq]
      exact h.bare q hq
    copy := by
      intro q hq k w
      have hget : heap''.rawget (f q) k = heap'.rawget (f q) k :=
        congrFun (congrArg Prod.snd (hsame q hq)) k
      rw [hget]
      exact h.copy q hq k w }

end Copied

/-- `genShadowTable` returns, for a source of which a shadow can be made. -/
theorem exists_started (lua : Lua N) (hclosed : heap.Closed) {tSource : Addr}
    (hregular : Regular heap tSource) (newindex : ℕ) (nOffset : ℤ) {depth : ℕ}
    (hdepth : heap.keys.length < depth) :
    ∃ s f, genShadowTable lua depth newindex heap tSource nOffset = .ok s ∧
      s.tSource = tSource ∧ s.nOffset = LuaNumber.ofInt nOffset ∧ Started heap s f := by
  have hnew := lua.alloc.fresh_free heap
  have hkeys : (AList.insert (lua.alloc.fresh heap) ⟨∅, none⟩ heap).keys.length ≤ depth := by
    rw [AList.keys_insert, List.length_cons]
    exact (Nat.succ_le_succ (List.length_erase_le ..)).trans hdepth
  -- the copy with the offset, next to the proxy
  obtain ⟨f, heap₂, heap₃, hclone, hadd, hcopied₁⟩ := exists_copied lua
    (closed_create hclosed hnew) (hregular.create hnew) (LuaNumber.ofInt nOffset) hkeys
  obtain ⟨hcopied, hcopy_ne, hproxy₃⟩ := hcopied₁.of_create hnew
  -- the metatable of the proxy
  have hmt := lua.alloc.fresh_free heap₃
  have hne_mt : ∀ q, (heap₃.lookup q).isSome → lua.alloc.fresh heap₃ ≠ q := by
    rintro q hq rfl
    rw [hmt] at hq
    cases hq
  obtain ⟨heap₅, hset, hproxy, hfields, hview⟩ := exists_proxy hmt hproxy₃
    ((AList.insert (.string "__index") (.table tSource) ∅).insert (.string "__newindex")
      (.function newindex))
  refine ⟨⟨heap₅, tSource, lua.alloc.fresh heap, f tSource, LuaNumber.ofInt nOffset, newindex⟩, f,
    ?_, rfl, rfl, hcopied.of_view hnew hcopy_ne hview, rfl, hnew, hcopy_ne, ?_⟩
  · simp only [genShadowTable, hclone, hadd, bind, Except.bind, hset]
    rfl
  · refine ⟨lua.alloc.fresh heap₃, ?_, ?_, ?_, hproxy, hfields⟩
    · rw [← Option.not_isSome_iff_eq_none]
      exact fun hp => hne_mt _ (hcopied.lookup_kept hp) rfl
    · apply hne_mt
      rw [LuaHeap.isSome_lookup_iff, hproxy₃]
      rfl
    · exact hne_mt _ (hcopied.lookup_copy (mem_below_self _))

end Start

/-! ## Whole runs -/

/-- **The check raises no false alarm.** For a source of which a shadow can be made,
`genShadowTable` returns, and in every state that is reached by careful steps, `isEqual` returns
`true` for the source and the shadow. -/
theorem isEqual_of_careful (lua : Lua N) (hloop : 0 < lua.maxTagLoop) {heap : LuaHeap N}
    (hclosed : heap.Closed) {tSource : Addr} (hregular : Regular heap tSource) (newindex : ℕ)
    (nOffset : ℤ) {depth : ℕ} (hdepth : heap.keys.length < depth) :
    ∃ s₀, genShadowTable lua depth newindex heap tSource nOffset = .ok s₀ ∧
      ∀ es, Machine.Along (step lua) (Careful (hidden heap s₀)) s₀ es →
        (Machine.run (step lua) s₀ es).heap.isEqual lua (LuaNumber.ofInt nOffset) depth tSource
          s₀.tShadow = .ok true := by
  obtain ⟨s₀, f, hgen, rfl, hoffset, hstarted⟩ :=
    exists_started lua hclosed hregular newindex nOffset hdepth
  refine ⟨s₀, hgen, fun es hes => ?_⟩
  have hmirrored := hstarted.mirrored hclosed hregular ⟨nOffset, hoffset⟩ hdepth.le
  have hstep : ∀ s a, (∃ heap', s = { s₀ with heap := heap' }) ∧ s.Mirrored (hidden heap s₀) depth →
      s.Careful (hidden heap s₀) a →
      (∃ heap', (step lua s a).2 = { s₀ with heap := heap' }) ∧
        (step lua s a).2.Mirrored (hidden heap s₀) depth := by
    rintro s a ⟨⟨heap', rfl⟩, hs⟩ ha
    obtain ⟨heap'', hnext, hinv⟩ := hs.step ha
    exact ⟨⟨heap'', hnext⟩, hinv⟩
  obtain ⟨⟨heap', hrun⟩, hinv⟩ := Machine.run_invariant hstep ⟨⟨s₀.heap, rfl⟩, hmirrored⟩ hes
  have hequal := hinv.isEqual hloop
  rw [hrun] at hequal ⊢
  rw [← hoffset]
  exact hequal

/-- When no value of the shadow is a table, an assignment is careful if its value fits the shadow.
-/
theorem careful_of_flat {hidden : Set Addr} {s : Shadowed N} {t : Addr} {k : LuaValue N}
    {v : Option (LuaValue N)}
    (hflat : ∀ table ∈ s.heap.lookup s.tShadow, ∀ e ∈ table.entries.entries, e.2.table? = none)
    (htable : t ∉ hidden ∧ (s.heap.lookup t).isSome ∧ (t = s.tNew ∨ s.heap.Bare t))
    (hv : (∀ p ∈ v.bind LuaValue.table?, p ∉ hidden) ∧ ∀ n ∈ s.mirrored t v, LuaNumber.eq n n)
    (hfits : s.source s.tSource = s.source t → (s.mirrored t v).isSome ∨
      fits s.nOffset v (s.heap.rawget s.tShadow k)) : s.Careful hidden (.assign t k v) := by
  have hchild : ∀ k, s.heap.child s.tShadow k = none := LuaHeap.child_eq_none hflat
  have hplaces : ∀ k, s.places (s.tSource, s.tShadow) k = none := by
    intro k
    rw [Option.eq_none_iff_forall_ne_some]
    intro y hy
    have hsub := (places_eq_some_iff.mp hy).2
    rw [hchild k] at hsub
    cases hsub
  refine ⟨htable.1, htable.2.1, htable.2.2, fun p hp => hv.1 p (by rw [hp]; rfl), hv.2, ?_⟩
  rw [compared, below_of_forall_none hplaces]
  rintro _ rfl hsource
  rcases hfits hsource with hsome | hfits
  · exact .inl ⟨rfl, hsome⟩
  · refine .inr ⟨hfits, fun p' q' _ hq' => ?_⟩
    have hsub := LuaHeap.child_eq_some_iff.mpr hq'
    rw [hchild k] at hsub
    cases hsub

/-- A number is changed through the proxy, a new table is stored in the source and changed, and the
number is removed. -/
theorem isEqual_changing_hp :
    ∃ s₀, genShadowTable (Lua.simple ℤ) 2 0
        (AList.insert 1 ⟨AList.insert (.string "hp") (.number 100) ∅, none⟩ ∅) 1 7 = .ok s₀ ∧
      (Machine.run (step (Lua.simple ℤ)) s₀
        [.assign 2 (.string "hp") (some (.number 80)), .create,
          .assign 2 (.string "pos") (some (.table 5)), .assign 5 (.string "x") (some (.number 1)),
          .assign 2 (.string "hp") none]).heap.isEqual (Lua.simple ℤ) 7 2 1 s₀.tShadow =
        .ok true := by
  have hregular : Regular
      (AList.insert 1 ⟨AList.insert (.string "hp") (.number 100) ∅, none⟩ ∅ : LuaHeap ℤ) 1 := {
    there := by decide +kernel
    bare := by
      intro p _ t ht
      rw [Option.mem_def, Table.lookup_insert_eq] at ht
      split_ifs at ht <;> cases ht
      rfl
    tree := isTree_of_forall_none (LuaHeap.child_eq_none (by decide +kernel))
    number := fun _ _ _ _ _ => decide_eq_true rfl }
  have hdepth : (AList.insert 1 ⟨AList.insert (.string "hp") (.number 100) ∅, none⟩ ∅ :
      LuaHeap ℤ).keys.length < 2 := by
    decide +kernel
  obtain ⟨s₀, hgen, hequal⟩ :=
    isEqual_of_careful (Lua.simple ℤ) (by decide) (by decide +kernel) hregular 0 7 hdepth
  refine ⟨s₀, hgen, hequal _ ?_⟩
  cases hgen
  refine ⟨?_, trivial, ?_, ?_, ?_, trivial⟩ <;>
    apply careful_of_flat <;> decide +kernel

/-- The number `hp` of the source is replaced by a string through the proxy: the shadow keeps the
number, and `isEqual` does not return `true`. -/
theorem exists_false_alarm : ¬ ∀ (lua : Lua ℤ) (heap : LuaHeap ℤ) (tSource : Addr) (nOffset : ℤ)
    (depth newindex : ℕ) (s₀ : Shadowed ℤ), heap.Closed → (heap.lookup tSource).isSome →
    genShadowTable lua depth newindex heap tSource nOffset = .ok s₀ →
    ∀ assignments : List (LuaValue ℤ × Option (LuaValue ℤ)), ∃ depth',
      (Machine.run (step lua) s₀ (assignments.map fun a => .assign s₀.tNew a.1 a.2)).heap.isEqual
        lua (LuaNumber.ofInt nOffset) depth' tSource s₀.tShadow = .ok true := by
  intro h
  obtain ⟨depth, hequal⟩ := h (Lua.simple ℤ)
    (AList.insert 1 ⟨AList.insert (.string "hp") (.number 100) ∅, none⟩ ∅) 1 7 2 0 _
    (by decide +kernel) (by decide +kernel) rfl [(.string "hp", some (.string "dead"))]
  cases depth <;> cases hequal

end Shadowed

end CodeTest
