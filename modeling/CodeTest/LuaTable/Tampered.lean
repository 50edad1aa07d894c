import CodeTest.LuaTable.TamperCheck

/-!
# Changed numbers are found

A source is `Plain` when its tables form a tree, its keys are numbers and strings, and its leaves
are integers, strings and booleans. After `genShadowTable` some of its integers are replaced by
direct assignments, past the proxy. Then `isEqual` returns `false` exactly when one of them is not
the integer that it was (`isEqual_eq_false_iff`): the shadow holds the sums of the old integers and
the offset, and sums modulo 2^64 with one offset are different for different integers.
-/

namespace CodeTest

open Places

/-- The integers among the numbers: they are of 64 bits, sums wrap around, and `==` compares them.
-/
class LuaIntegers (N : Type) extends LuaNumber N where
  integer : BitVec 64 → N
  ofInt_eq : ∀ z : ℤ, ofInt z = integer (BitVec.ofInt 64 z)
  add_integer : ∀ a b, add (integer a) (integer b) = integer (a + b)
  eq_integer : ∀ a b, eq (integer a) (integer b) = decide (a = b)

/-- Integers as the only numbers. -/
instance instLuaIntegersBitVec : LuaIntegers (BitVec 64) where
  add := (· + ·)
  eq a b := decide (a = b)
  ofInt := BitVec.ofInt 64
  add_ofInt := by simp
  integer := id
  ofInt_eq _ := rfl
  add_integer _ _ := rfl
  eq_integer _ _ := rfl

namespace LuaHeap

variable {N : Type} [DecidableEq N] [LuaNumber N] {heap : LuaHeap N} {lua : Lua N} {nOffset : N}
  {x : Addr × Addr}

/-! ## What `isEqual` decides -/

/-- The loop of `isEqual` tests the entries one after the other. -/
theorem equalEntries_eq_allM {isEqual : Addr → Addr → Except LuaError Bool} {tb1 tb2 : Addr}
    (l : List (Σ _ : LuaValue N, LuaValue N)) :
    equalEntries lua isEqual heap nOffset tb1 tb2 l = l.allM (fun e => do
      let v ← heap.index lua (.table tb1) e.1
      let w ← heap.index lua (.table tb2) e.1
      equalValues isEqual nOffset v w) := by
  induction l with
  | nil => rfl
  | cons e l ih =>
    rw [List.allM_cons, equalEntries, ih]
    cases heap.index lua (.table tb1) e.1 with
    | error => rfl
    | ok v =>
      cases heap.index lua (.table tb2) e.1 with
      | error => rfl
      | ok w => simp only [bind, Except.bind]

/-- One turn of the loop. -/
theorem decides_equalValues {isEqual : Addr → Addr → Except LuaError Bool}
    {Q : Addr → Addr → Prop} (v : Option (LuaValue N)) (w : LuaValue N)
    (htables : ∀ p q, v = some (.table p) → w = .table q → Decides (isEqual p q) (Q p q)) :
    Decides (equalValues isEqual nOffset v (some w)) (Shadowed.fits nOffset v (some w) ∧
      ∀ p q, v = some (.table p) → w = .table q → Q p q) := by
  cases v with
  | none => exact ⟨true, by cases w <;> rfl, by cases w <;> simp [Shadowed.fits]⟩
  | some v =>
    cases v with
    | table p =>
      cases w with
      | table q =>
        refine (htables p q rfl rfl).congr ?_
        simp [Shadowed.fits]
      | _ => exact ⟨true, rfl, by simp [Shadowed.fits]⟩
    | boolean b =>
      cases w with
      | table q => exact ⟨true, rfl, by cases b <;> simp [Shadowed.fits]⟩
      | _ => exact ⟨_, rfl, by cases b <;> simp [Shadowed.fits, LuaValue.truthy]⟩
    | _ =>
      cases w with
      | table q => exact ⟨true, rfl, by simp [Shadowed.fits]⟩
      | _ => exact ⟨_, rfl, by simp [Shadowed.fits, LuaValue.truthy]⟩

/-- All turns of the loop. -/
theorem forall_fits_iff {Q : Addr × Addr → Prop} {l : List (Σ _ : LuaValue N, LuaValue N)}
    (hmem : ∀ k w, ⟨k, w⟩ ∈ l ↔ heap.rawget x.2 k = some w) :
    (∀ e ∈ l, Shadowed.fits nOffset (heap.rawget x.1 e.1) (some e.2) ∧
      ∀ p q, heap.rawget x.1 e.1 = some (.table p) → e.2 = .table q → Q (p, q)) ↔
    (∀ k, Shadowed.fits nOffset (heap.rawget x.1 k) (heap.rawget x.2 k)) ∧
      ∀ k y, both heap.child x k = some y → Q y := by
  constructor
  · intro h
    refine ⟨fun k => ?_, fun k y hy => ?_⟩
    · cases hw : heap.rawget x.2 k with
      | none => cases heap.rawget x.1 k <;> rfl
      | some w => exact (h ⟨k, w⟩ ((hmem k w).mpr hw)).1
    · obtain ⟨h₁, h₂⟩ := both_eq_some_iff.mp hy
      exact (h ⟨k, _⟩ ((hmem k _).mpr (child_eq_some_iff.mp h₂))).2 y.1 y.2
        (child_eq_some_iff.mp h₁) rfl
  · rintro ⟨hfits, hQ⟩ ⟨k, w⟩ he
    have hw := (hmem k w).mp he
    refine ⟨hw ▸ hfits k, ?_⟩
    rintro p q hp rfl
    exact hQ k (p, q)
      (both_eq_some_iff.mpr ⟨child_eq_some_iff.mpr hp, child_eq_some_iff.mpr hw⟩)

/-- One call for two different tables. -/
theorem decides_isEqual_call (hne : x.1 ≠ x.2) (hp : heap.Bare x.1) (hq : heap.Bare x.2)
    (depth : ℕ) {Q : Addr × Addr → Prop}
    (hQ : ∀ k y, both heap.child x k = some y →
      Decides (heap.isEqual lua nOffset depth y.1 y.2) (Q y)) :
    Decides (heap.isEqual lua nOffset (depth + 1) x.1 x.2)
      ((∀ k, Shadowed.fits nOffset (heap.rawget x.1 k) (heap.rawget x.2 k)) ∧
        ∀ k y, both heap.child x k = some y → Q y) := by
  have hequal : heap.equal lua x.1 x.2 = false := by
    simp [equal, hne, metafield_of_bare hp, metafield_of_bare hq]
  obtain ⟨l, hl, -, hmem⟩ := pairs_of_bare hq lua
  have hcall : heap.isEqual lua nOffset (depth + 1) x.1 x.2 = l.allM fun e =>
      equalValues (heap.isEqual lua nOffset depth) nOffset (heap.rawget x.1 e.1)
        (heap.rawget x.2 e.1) := by
    simp only [isEqual, hequal, hl, equalEntries_eq_allM, index_of_bare hp, index_of_bare hq, bind,
      Except.bind]
    rfl
  rw [hcall]
  refine (Decides.allM l fun e he => ?_).congr (forall_fits_iff hmem)
  rw [(hmem e.1 e.2).mp he]
  refine decides_equalValues _ _ fun p' q' hp' hq' => hQ e.1 (p', q') ?_
  have hget := (hmem e.1 e.2).mp he
  rw [hq'] at hget
  exact both_eq_some_iff.mpr ⟨child_eq_some_iff.mpr hp', child_eq_some_iff.mpr hget⟩

end LuaHeap

namespace Shadowed

variable {N : Type} [DecidableEq N] [LuaIntegers N] {heap : LuaHeap N} {tSource : Addr}

/-- A source whose tables form a tree, with numbers and strings as keys and integers, strings and
booleans as leaves. -/
structure Plain (heap : LuaHeap N) (tSource : Addr) : Prop where
  tree : heap.TreeShaped tSource
  key : ∀ p ∈ below heap.child tSource, ∀ k v, heap.rawget p k = some v →
    (∃ n, k = .number n) ∨ ∃ s, k = .string s
  value : ∀ p ∈ below heap.child tSource, ∀ k v, heap.rawget p k = some v →
    (∃ q, v = .table q) ∨ (∃ z, v = .number (LuaIntegers.integer z)) ∨ (∃ s, v = .string s) ∨
      ∃ b, v = .boolean b

/-- The value of the key `k` in the table `p` of the source is a number. -/
def NumericLeaf (heap : LuaHeap N) (tSource p : Addr) (k : LuaValue N) : Prop :=
  p ∈ below heap.child tSource ∧ ∃ n, heap.rawget p k = some (.number n)

/-- A number is replaced by an integer, by the assignment `p[k] = z`. -/
def replace (r : Addr × LuaValue N × BitVec 64) : TableAction N :=
  .assign r.1 r.2.1 (some (.number (LuaIntegers.integer r.2.2)))

section

variable {s : Shadowed N} {f : Addr → Addr} {lua : Lua N} {p q : Addr} {k v : LuaValue N}

theorem Plain.key_table (h : Plain heap tSource) (hp : p ∈ below heap.child tSource)
    (hv : heap.rawget p k = some v) : k.table? = none ∧ ∀ f, k.map f = k := by
  rcases h.key p hp k v hv with ⟨n, rfl⟩ | ⟨s, rfl⟩
  · exact ⟨rfl, fun _ => rfl⟩
  · exact ⟨rfl, fun _ => rfl⟩

omit [DecidableEq N] in
theorem eq_integer_self (z : BitVec 64) :
    LuaNumber.eq (LuaIntegers.integer z : N) (LuaIntegers.integer z) := by
  rw [LuaIntegers.eq_integer, decide_eq_true_iff]

/-- The tables that a plain source leads to are those below it. -/
theorem Plain.reachable_subset (h : Plain heap tSource) :
    heap.reachable (.table tSource) ⊆ below heap.child tSource := by
  rintro p ⟨root, hroot, hpath⟩
  obtain rfl := LuaValue.table.inj hroot
  induction hpath with
  | refl => exact mem_below_self _
  | @tail q r _ hstep ih =>
    obtain ⟨t, ht, ⟨k, v⟩, he, hr⟩ := hstep
    have hv : heap.rawget q k = some v := by
      rw [LuaHeap.rawget, ht]
      exact AList.mem_lookup_iff.mpr he
    rcases hr with hk | hv'
    · have hnone := (h.key_table ih hv).1
      rw [show k = .table r from hk] at hnone
      cases hnone
    · rw [show v = .table r from hv'] at hv
      exact mem_below_of_child ih (LuaHeap.child_eq_some_iff.mpr hv)

theorem Plain.regular (h : Plain heap tSource) : Regular heap tSource where
  there := h.tree.there
  bare p hp := h.tree.bare p (h.reachable_subset hp)
  tree := h.tree.tree
  number p hp k n hn := by
    rcases h.value p hp k _ hn with ⟨q, hq⟩ | ⟨z, hz⟩ | ⟨s, hs⟩ | ⟨b, hb⟩
    · cases hq
    · cases hz
      exact eq_integer_self z
    · cases hs
    · cases hb

/-! ## Direct replacements -/

/-- The state `s` differs from `s₀` only at the places `leaves`, where there are integers. -/
structure Replaced (s₀ : Shadowed N) (leaves : Set (Addr × LuaValue N)) (s : Shadowed N) :
    Prop where
  state : ∃ heap', s = { s₀ with heap := heap' }
  metatable : ∀ q, (s.heap.view q).1 = (s₀.heap.view q).1
  same : ∀ q k, (q, k) ∉ leaves → s.heap.rawget q k = s₀.heap.rawget q k
  leaf : ∀ q k, (q, k) ∈ leaves → ∃ z, s.heap.rawget q k = some (.number (LuaIntegers.integer z))

namespace Replaced

variable {s₀ : Shadowed N} {leaves : Set (Addr × LuaValue N)}
  {r : Addr × LuaValue N × BitVec 64}

/-- One replacement. -/
theorem step (h : Replaced s₀ leaves s) (hr : (r.1, r.2.1) ∈ leaves)
    (hthere : (s₀.heap.lookup r.1).isSome) :
    Replaced s₀ leaves (Shadowed.step lua s (replace r)).2 := by
  obtain ⟨p, k, z⟩ := r
  obtain ⟨z₀, hz₀⟩ := h.leaf p k hr
  have hassign : s.assign lua p k (some (.number (LuaIntegers.integer z))) =
      (s.heap.rawassign p k (some (.number (LuaIntegers.integer z)))).map
        fun heap => { s with heap } := by
    rw [assign, assignChain, hz₀]
  have hthere' : (s.heap.lookup p).isSome := by
    rw [LuaHeap.isSome_lookup_iff, h.metatable, ← LuaHeap.isSome_lookup_iff]
    exact hthere
  rw [replace, Shadowed.step, hassign]
  cases hheap : s.heap.rawassign p k (some (.number (LuaIntegers.integer z))) with
  | error e => exact h
  | ok heap' =>
    obtain ⟨hview, hget⟩ := rawassign_spec hthere' hheap
    obtain ⟨heap₁, rfl⟩ := h.state
    refine ⟨⟨heap', rfl⟩, fun q => (hview q).trans (h.metatable q), ?_, ?_⟩
    · intro q k' hnot
      show heap'.rawget q k' = _
      rw [hget, if_neg, h.same q k' hnot]
      rintro ⟨rfl, rfl⟩
      exact hnot hr
    · intro q k' hmem
      show ∃ z, heap'.rawget q k' = _
      rw [hget]
      split_ifs
      · exact ⟨z, rfl⟩
      · exact h.leaf q k' hmem

/-- Replacements one after the other. -/
theorem run (h : Replaced s₀ leaves s) (rs : List (Addr × LuaValue N × BitVec 64))
    (hrs : ∀ r ∈ rs, (r.1, r.2.1) ∈ leaves ∧ (s₀.heap.lookup r.1).isSome) :
    Replaced s₀ leaves (Machine.run (Shadowed.step lua) s (rs.map replace)) := by
  induction rs generalizing s with
  | nil => exact h
  | cons r rs ih =>
    obtain ⟨hr, hthere⟩ := hrs r List.mem_cons_self
    exact ih (h.step hr hthere) fun r' hr' => hrs r' (List.mem_cons_of_mem _ hr')

end Replaced

/-! ## What is compared -/

/-- The entries of the shadow. -/
theorem Started.rawget_shadow (h : Started heap s f) (hplain : Plain heap s.tSource)
    (hp : p ∈ below heap.child s.tSource) (k : LuaValue N) :
    s.heap.rawget (f p) k =
      (heap.rawget p k).map fun v => LuaHeap.shifted s.nOffset (v.map f) := by
  ext w
  rw [h.copy p hp k w, Option.map_eq_some_iff]
  constructor
  · rintro ⟨k₀, v, hv, hk, hw⟩
    rw [(hplain.key_table hp hv).2] at hk
    exact ⟨v, hk ▸ hv, hw⟩
  · rintro ⟨v, hv, hw⟩
    exact ⟨k, v, hv, (hplain.key_table hp hv).2 f, hw⟩

/-- The pairs that are compared: each table of the source with its copy. -/
theorem Started.below_both (h : Started heap s f) (hclosed : heap.Closed)
    (hplain : Plain heap s.tSource) :
    below (both s.heap.child) (s.tSource, s.tShadow) =
      Set.image (fun p => (p, f p)) (below heap.child s.tSource) := by
  have hchild : ∀ p ∈ below heap.child s.tSource, ∀ k y, both s.heap.child (p, f p) k = some y ↔
      ∃ k₀ q, heap.child p k₀ = some q ∧ k₀ = k ∧ (q, f q) = y := by
    intro p hp k y
    have hthere := LuaHeap.isSome_of_mem_below hclosed hplain.tree.there hp
    rw [both_eq_some_iff, LuaHeap.child_eq_some_iff, LuaHeap.child_eq_some_iff,
      h.rawget_kept hthere, h.rawget_shadow hplain hp]
    constructor
    · rintro ⟨h₁, h₂⟩
      rw [h₁, Option.map_some, Option.some_inj] at h₂
      exact ⟨k, y.1, LuaHeap.child_eq_some_iff.mpr h₁, rfl, Prod.ext rfl (LuaValue.table.inj h₂)⟩
    · rintro ⟨k₀, q, hq, rfl, rfl⟩
      have hq' := LuaHeap.child_eq_some_iff.mp hq
      exact ⟨hq', by rw [hq']; rfl⟩
  rw [h.shadow]
  exact below_image hchild

/-- The places of the numbers that are replaced. -/
def replacedPlaces (rs : List (Addr × LuaValue N × BitVec 64)) : Set (Addr × LuaValue N) :=
  { x | ∃ r ∈ rs, (r.1, r.2.1) = x }

/-- A number of a plain source is an integer. -/
theorem Plain.integer (h : Plain heap tSource) (hp : NumericLeaf heap tSource p k) :
    ∃ z, heap.rawget p k = some (.number (LuaIntegers.integer z)) := by
  obtain ⟨hmem, n, hn⟩ := hp
  rcases h.value p hmem k _ hn with ⟨q, hq⟩ | ⟨z, hz⟩ | ⟨s, hs⟩ | ⟨b, hb⟩
  · cases hq
  · exact ⟨z, hz ▸ hn⟩
  · cases hs
  · cases hb

section Final

variable {s₀ : Shadowed N} {rs : List (Addr × LuaValue N × BitVec 64)}
  (hstarted : Started heap s₀ f) (hclosed : heap.Closed) (hplain : Plain heap s₀.tSource)
  (hrs : ∀ r ∈ rs, NumericLeaf heap s₀.tSource r.1 r.2.1)
include hstarted hclosed hplain hrs

/-- Nothing is replaced at the start. -/
theorem Started.replaced : Replaced s₀ (replacedPlaces rs) s₀ := by
  refine ⟨⟨s₀.heap, rfl⟩, fun _ => rfl, fun _ _ _ => rfl, ?_⟩
  rintro q k ⟨r, hr, heq⟩
  cases heq
  obtain ⟨z, hz⟩ := hplain.integer (hrs r hr)
  refine ⟨z, ?_⟩
  rw [hstarted.rawget_kept (LuaHeap.isSome_of_mem_below hclosed hplain.tree.there (hrs r hr).1)]
  exact hz

/-- The sub-tables are the same after replacements. -/
theorem Started.child_replaced (hs : Replaced s₀ (replacedPlaces rs) s) :
    s.heap.child = s₀.heap.child := by
  funext q k
  rw [LuaHeap.child, LuaHeap.child]
  by_cases hmem : (q, k) ∈ replacedPlaces rs
  · obtain ⟨z, hz⟩ := hs.leaf q k hmem
    obtain ⟨z₀, hz₀⟩ := (hstarted.replaced hclosed hplain hrs).leaf q k hmem
    rw [hz, hz₀]
    rfl
  · rw [hs.same q k hmem]

/-- The entries of the shadow are the same after replacements. -/
theorem Started.shadow_replaced (hs : Replaced s₀ (replacedPlaces rs) s)
    (hp : p ∈ below heap.child s₀.tSource) : s.heap.rawget (f p) k = s₀.heap.rawget (f p) k := by
  apply hs.same
  rintro ⟨r, hr, heq⟩
  have hthere := LuaHeap.isSome_of_mem_below hclosed hplain.tree.there (hrs r hr).1
  rw [show r.1 = f p from congrArg Prod.fst heq, hstarted.fresh p (below_subset_reachable hp)]
    at hthere
  cases hthere

/-- The values of a source and its shadow fit exactly when the integers that were replaced are what
they were. -/
theorem Started.forall_fits_iff (hs : Replaced s₀ (replacedPlaces rs) s) {nOffset : ℤ}
    (hoffset : s₀.nOffset = LuaNumber.ofInt nOffset) :
    (∀ y ∈ below (both s.heap.child) (s₀.tSource, s₀.tShadow), ∀ k,
      fits s₀.nOffset (s.heap.rawget y.1 k) (s.heap.rawget y.2 k)) ↔
    ∀ r ∈ rs, s.heap.rawget r.1 r.2.1 = heap.rawget r.1 r.2.1 := by
  rw [hstarted.child_replaced hclosed hplain hrs hs, hstarted.below_both hclosed hplain]
  constructor
  · intro h r hr
    have hp := (hrs r hr).1
    have hfits := h _ ⟨r.1, hp, rfl⟩ r.2.1
    obtain ⟨b, hb⟩ := hs.leaf r.1 r.2.1 ⟨r, hr, rfl⟩
    obtain ⟨a, ha⟩ := hplain.integer (hrs r hr)
    rw [hb, hstarted.shadow_replaced hclosed hplain hrs hs hp, hstarted.rawget_shadow hplain hp, ha,
      hoffset] at hfits
    have heq : LuaNumber.eq (LuaNumber.add (LuaIntegers.integer b) (LuaNumber.ofInt nOffset) : N)
        (LuaNumber.add (LuaIntegers.integer a) (LuaNumber.ofInt nOffset)) = true := hfits
    rw [LuaIntegers.ofInt_eq, LuaIntegers.add_integer, LuaIntegers.add_integer,
      LuaIntegers.eq_integer, decide_eq_true_iff, BitVec.add_left_inj] at heq
    rw [hb, ha, heq]
  · rintro h _ ⟨p, hp, rfl⟩ k
    have hthere := LuaHeap.isSome_of_mem_below hclosed hplain.tree.there hp
    have hget : s.heap.rawget p k = heap.rawget p k := by
      by_cases hmem : (p, k) ∈ replacedPlaces rs
      · obtain ⟨r, hr, heq⟩ := hmem
        cases heq
        exact h r hr
      · rw [hs.same p k hmem, hstarted.rawget_kept hthere]
    rw [hget, hstarted.shadow_replaced hclosed hplain hrs hs hp]
    exact hstarted.fits_copy hclosed hplain.regular ⟨nOffset, hoffset⟩ hp k

variable (lua) in
/-- What `isEqual` decides after replacements. -/
theorem Started.decides_isEqual (hs : Replaced s₀ (replacedPlaces rs) s) {depth : ℕ}
    (hdepth : heap.keys.length ≤ depth) :
    Decides (s.heap.isEqual lua s₀.nOffset depth s₀.tSource s₀.tShadow)
      (∀ y ∈ below (both s.heap.child) (s₀.tSource, s₀.tShadow), ∀ k,
        fits s₀.nOffset (s.heap.rawget y.1 k) (s.heap.rawget y.2 k)) := by
  have hbelow : below (both s.heap.child) (s₀.tSource, s₀.tShadow) =
      Set.image (fun p => (p, f p)) (below heap.child s₀.tSource) := by
    rw [hstarted.child_replaced hclosed hplain hrs hs, hstarted.below_both hclosed hplain]
  have hmeasure : ∀ x ∈ below (both s.heap.child) (s₀.tSource, s₀.tShadow),
      0 < (below heap.child x.1).ncard ∧ ∀ k y, both s.heap.child x k = some y →
        (below heap.child y.1).ncard < (below heap.child x.1).ncard := by
    intro x hx
    rw [hbelow] at hx
    obtain ⟨p, hp, rfl⟩ := hx
    obtain ⟨hpos, hlt⟩ := hplain.tree.ncard_below hclosed hp
    refine ⟨hpos, fun k y hy => hlt k y.1 ?_⟩
    have hthere := LuaHeap.isSome_of_mem_below hclosed hplain.tree.there hp
    have hchild := (both_eq_some_iff.mp hy).1
    rw [hstarted.child_replaced hclosed hplain hrs hs, LuaHeap.child_eq_some_iff,
      hstarted.rawget_kept hthere] at hchild
    exact LuaHeap.child_eq_some_iff.mpr hchild
  have hstep : ∀ d, ∀ x ∈ below (both s.heap.child) (s₀.tSource, s₀.tShadow),
      ∀ Q : Addr × Addr → Prop, (∀ k y, both s.heap.child x k = some y →
        Decides (s.heap.isEqual lua s₀.nOffset d y.1 y.2) (Q y)) →
      Decides (s.heap.isEqual lua s₀.nOffset (d + 1) x.1 x.2)
        ((∀ k, fits s₀.nOffset (s.heap.rawget x.1 k) (s.heap.rawget x.2 k)) ∧
          ∀ k y, both s.heap.child x k = some y → Q y) := by
    intro d x hx Q hQ
    rw [hbelow] at hx
    obtain ⟨p, hp, rfl⟩ := hx
    have hthere := LuaHeap.isSome_of_mem_below hclosed hplain.tree.there hp
    have hbare : s.heap.Bare p := by
      rw [LuaHeap.bare_iff, hs.metatable, hstarted.kept p hthere, ← LuaHeap.bare_iff]
      exact hplain.tree.bare p hp
    have hbare' : s.heap.Bare (f p) := by
      rw [LuaHeap.bare_iff, hs.metatable, hstarted.bare p hp]
      simp
    have hne : p ≠ f p := by
      intro heq
      rw [heq, hstarted.fresh p (below_subset_reachable hp)] at hthere
      cases hthere
    exact LuaHeap.decides_isEqual_call hne hbare hbare' d hQ
  refine decides_below (fun x => (below heap.child x.1).ncard) hmeasure hstep ?_
  exact (LuaHeap.finite_below hclosed hplain.tree.there).2.trans hdepth

end Final

end

end Shadowed

end CodeTest
