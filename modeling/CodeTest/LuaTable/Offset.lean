import CodeTest.Foundations.Tree
import CodeTest.LuaTable.Shadow
import Mathlib.Tactic

/-!
# The offset is added once

When the tables that a table leads to through its values form a tree, and have no metatables,
`_tableAddNumber` adds the offset to each number in them exactly once (`tableAddNumber_spec`). What
matters of a table is its `view`: whether it is there, its metatable, and its entries as a function.
-/

namespace CodeTest

open Places

/-- The table that a value is. -/
def LuaValue.table? {N : Type} : LuaValue N → Option Addr
  | .table p => some p
  | _ => none

namespace LuaHeap

variable {N : Type} [DecidableEq N]

/-- The table that is the value of a key. -/
def child (heap : LuaHeap N) (p : Addr) (k : LuaValue N) : Option Addr :=
  (heap.rawget p k).bind LuaValue.table?

/-- A table without metatable. -/
def Bare (heap : LuaHeap N) (p : Addr) : Prop := ∀ t ∈ heap.lookup p, t.metatable = none

instance (heap : LuaHeap N) (p : Addr) : Decidable (heap.Bare p) :=
  inferInstanceAs (Decidable (∀ t ∈ heap.lookup p, _ = _))

/-- What matters of the table at an address. -/
def view (heap : LuaHeap N) (p : Addr) :
    Option (Option Addr) × (LuaValue N → Option (LuaValue N)) :=
  ((heap.lookup p).map LuaTable.metatable, heap.rawget p)

section Views

variable {heap heap' : LuaHeap N} {p q : Addr} {k : LuaValue N}

theorem child_eq_some_iff : heap.child p k = some q ↔ heap.rawget p k = some (.table q) := by
  rw [child, Option.bind_eq_some_iff]
  constructor
  · rintro ⟨v, hv, hq⟩
    cases v <;> cases hq
    exact hv
  · intro h
    exact ⟨_, h, rfl⟩

/-- A table none of whose values is a table. -/
theorem child_eq_none (h : ∀ t ∈ heap.lookup p, ∀ e ∈ t.entries.entries, e.2.table? = none)
    (k : LuaValue N) : heap.child p k = none := by
  rw [child, Option.bind_eq_none_iff]
  intro v hv
  obtain ⟨t, ht, hlookup⟩ := Option.bind_eq_some_iff.mp hv
  exact h t ht ⟨k, v⟩ (AList.mem_lookup_iff.mp hlookup)

theorem bare_iff : heap.Bare p ↔ ∀ m ∈ (heap.view p).1, m = none := by
  simp only [Bare, view, Option.mem_def, Option.map_eq_some_iff]
  constructor
  · rintro h m ⟨t, ht, rfl⟩
    exact h t ht
  · intro h t ht
    exact h _ ⟨t, ht, rfl⟩

theorem metafield_of_bare (h : heap.Bare p) (field : String) : heap.metafield p field = none := by
  unfold metafield
  cases ht : heap.lookup p with
  | none => rfl
  | some t =>
    rw [Option.bind_some, h t ht]
    rfl

/-- The fields of a metatable. -/
theorem metafield_of_view {m : Addr} (h : (heap.view p).1 = some (some m)) (field : String) :
    heap.metafield p field = heap.rawget m (.string field) := by
  obtain ⟨t, ht, hm⟩ := Option.map_eq_some_iff.mp h
  rw [metafield, ht, Option.bind_some, hm, Option.bind_some]

theorem index_of_bare (h : heap.Bare p) (lua : Lua N) (k : LuaValue N) :
    heap.index lua (.table p) k = .ok (heap.rawget p k) := by
  rw [index, indexChain, metafield_of_bare h]
  cases heap.rawget p k <;> rfl

/-- A traversal of a table without metatable goes once through its entries. -/
theorem pairs_of_bare (h : heap.Bare p) (lua : Lua N) :
    ∃ l, heap.pairs lua p = .ok l ∧ (l.map Sigma.fst).Nodup ∧
      ∀ k v, ⟨k, v⟩ ∈ l ↔ heap.rawget p k = some v := by
  refine ⟨_, by rw [pairs, metafield_of_bare h]; rfl, ?_⟩
  cases ht : heap.lookup p with
  | none => simp [rawget, ht]
  | some t =>
    refine ⟨by simpa using lua.order.nodup_keys t.entries, ?_⟩
    intro k v
    simpa [rawget, ht] using Table.mem_pairs lua.order t.entries

/-- Writing an entry of a table that is there. -/
theorem view_modify (hp : (heap.lookup p).isSome) {write : LuaTable N → LuaTable N}
    {key : LuaValue N} {value : Option (LuaValue N)}
    (hwrite : ∀ t, (write t).metatable = t.metatable ∧
      ∀ k, (write t).entries.lookup k = if k = key then value else t.entries.lookup k) (q : Addr) :
    LuaHeap.view (heap.modify p write) q =
      if q = p then ((heap.view p).1, fun k => if k = key then value else heap.rawget p k)
      else heap.view q := by
  obtain ⟨t, ht⟩ := Option.isSome_iff_exists.mp hp
  split_ifs with hq
  · subst hq
    have hlookup : (heap.modify q write).lookup q = some (write t) := by
      rw [Memory.lookup_modify, if_pos rfl, ht]
      rfl
    refine Prod.ext ?_ (funext fun k => ?_)
    · simp [view, hlookup, ht, (hwrite t).1]
    · simp [view, rawget, hlookup, ht, (hwrite t).2]
  · have hlookup : (heap.modify p write).lookup q = heap.lookup q := by
      rw [Memory.lookup_modify, if_neg hq]
    refine Prod.ext ?_ (funext fun k => ?_)
    · simp [view, hlookup]
    · simp [view, rawget, hlookup]

theorem view_rawset (hp : (heap.lookup p).isSome) (key value : LuaValue N) (q : Addr) :
    (heap.rawset p key value).view q =
      if q = p then
        ((heap.view p).1, fun k => if k = key then some value else heap.rawget p k)
      else heap.view q := by
  apply view_modify hp
  exact fun t => ⟨rfl, fun k => Table.lookup_insert_eq t.entries key k value⟩

/-- `rawset` with a value that may be `nil`, when it raises no error. -/
theorem view_rawassign [LuaNumber N] (hp : (heap.lookup p).isSome) {key : LuaValue N}
    {value : Option (LuaValue N)} (hassign : heap.rawassign p key value = .ok heap') (q : Addr) :
    heap'.view q =
      if q = p then ((heap.view p).1, fun k => if k = key then value else heap.rawget p k)
      else heap.view q := by
  have hmodify : heap' =
      heap.modify p fun t => { t with entries := t.entries.assign key value } := by
    cases key with
    | number n =>
      simp only [rawassign] at hassign
      split_ifs at hassign
      exact (Except.ok.inj hassign).symm
    | _ => exact (Except.ok.inj hassign).symm
  rw [hmodify]
  apply view_modify hp
  exact fun t => ⟨rfl, fun k => Table.lookup_assign t.entries key k value⟩

end Views

/-! ## Adding the offset -/

section Offset

variable [LuaNumber N] {lua : Lua N} {heap heap₁ : LuaHeap N} {nOffset : N} {p root : Addr}

/-- What becomes of a value. -/
def shifted (nOffset : N) : LuaValue N → LuaValue N
  | .number n => .number (LuaNumber.add n nOffset)
  | v => v

/-- What becomes of the table at an address. -/
def shiftedView (nOffset : N) (heap : LuaHeap N) (p : Addr) :
    Option (Option Addr) × (LuaValue N → Option (LuaValue N)) :=
  ((heap.view p).1, fun k => (heap.rawget p k).map (shifted nOffset))

/-- The offset is added below a table: what the memory `heap₁` has there, which is as in `heap`, is
shifted, and nothing else changes. -/
def Adds (nOffset : N) (heap : LuaHeap N)
    (addNumber : LuaHeap N → Addr → Except LuaError (LuaHeap N)) (q : Addr) : Prop :=
  ∀ heap₁ : LuaHeap N, (∀ x ∈ below heap.child q, heap₁.view x = heap.view x) →
    ∃ heap₂, addNumber heap₁ q = .ok heap₂ ∧
      (∀ x ∈ below heap.child q, heap₂.view x = shiftedView nOffset heap x) ∧
      ∀ x ∉ below heap.child q, heap₂.view x = heap₁.view x

omit [LuaNumber N] in
theorem isSome_lookup_iff {heap : LuaHeap N} :
    (heap.lookup p).isSome ↔ (heap.view p).1.isSome := by
  rw [view, Option.isSome_map]

/-- The memory `heap₁` during the loop over the entries of `p`, which began in `base`: the offset is
added at the keys `keys`. -/
structure Added (nOffset : N) (heap base : LuaHeap N) (p : Addr) (keys : Set (LuaValue N))
    (heap₁ : LuaHeap N) : Prop where
  table : (heap₁.view p).1 = (heap.view p).1
  shifted : ∀ k ∈ keys, heap₁.rawget p k = (heap.rawget p k).map (shifted nOffset)
  same : ∀ k ∉ keys, heap₁.rawget p k = heap.rawget p k
  below : ∀ k ∈ keys, ∀ q, heap.child p k = some q → ∀ x ∈ below heap.child q,
    heap₁.view x = shiftedView nOffset heap x
  other : ∀ x ≠ p, (∀ k ∈ keys, ∀ q, heap.child p k = some q → x ∉ Places.below heap.child q) →
    heap₁.view x = base.view x

namespace Added

variable {base : LuaHeap N} {keys : Set (LuaValue N)} {key : LuaValue N}
  {addNumber : LuaHeap N → Addr → Except LuaError (LuaHeap N)}

/-- A value that is neither a number nor a table is left as it is. -/
theorem skip (h : Added nOffset heap base p keys heap₁) (hkey : key ∉ keys) {value : LuaValue N}
    (hvalue : heap.rawget p key = some value) (hshifted : LuaHeap.shifted nOffset value = value)
    (htable : value.table? = none) : Added nOffset heap base p (insert key keys) heap₁ := by
  have hchild : heap.child p key = none := by
    rw [child, hvalue, Option.bind_some, htable]
  constructor
  · exact h.table
  · rintro k (rfl | hk)
    · rw [h.same k hkey, hvalue, Option.map_some, hshifted]
    · exact h.shifted k hk
  · intro k hk
    exact h.same k fun hmem => hk (.inr hmem)
  · rintro k (rfl | hk) q hq
    · rw [hchild] at hq
      cases hq
    · exact h.below k hk q hq
  · intro x hx hnot
    exact h.other x hx fun k hk => hnot k (.inr hk)

/-- A number is written. -/
theorem number (htree : IsTree heap.child root) (hp : p ∈ Places.below heap.child root)
    (h : Added nOffset heap base p keys heap₁) (hthere : (heap₁.lookup p).isSome) {n : N}
    (hvalue : heap.rawget p key = some (.number n)) :
    Added nOffset heap base p (insert key keys)
      (heap₁.rawset p key (.number (LuaNumber.add n nOffset))) := by
  have hview : ∀ x ≠ p, (heap₁.rawset p key (.number (LuaNumber.add n nOffset))).view x =
      heap₁.view x := by
    intro x hx
    rw [view_rawset hthere, if_neg hx]
  have hself := view_rawset hthere key (.number (LuaNumber.add n nOffset)) p
  rw [if_pos rfl] at hself
  have hget : ∀ k, (heap₁.rawset p key (.number (LuaNumber.add n nOffset))).rawget p k =
      if k = key then some (.number (LuaNumber.add n nOffset)) else heap₁.rawget p k :=
    fun k => congrFun (congrArg Prod.snd hself) k
  constructor
  · rw [hself]
    exact h.table
  · intro k hk
    rw [hget]
    split_ifs with hkey
    · rw [hkey, hvalue]
      rfl
    · exact h.shifted k (hk.resolve_left hkey)
  · intro k hk
    rw [hget, if_neg fun hkey => hk (.inl hkey)]
    exact h.same k fun hmem => hk (.inr hmem)
  · rintro k (rfl | hk) q hq x hx
    · rw [child_eq_some_iff, hvalue] at hq
      cases hq
    · have hxp : x ≠ p := by
        rintro rfl
        exact htree.not_mem_below_child hp hq hx
      rw [hview x hxp]
      exact h.below k hk q hq x hx
  · intro x hx hnot
    rw [hview x hx]
    exact h.other x hx fun k hk => hnot k (.inr hk)

/-- The offset is added below a table. -/
theorem subtable (htree : IsTree heap.child root) (hp : p ∈ Places.below heap.child root)
    (hbase : ∀ x ∈ Places.below heap.child p, base.view x = heap.view x)
    (h : Added nOffset heap base p keys heap₁) (hkey : key ∉ keys) {q : Addr}
    (hq : heap.child p key = some q) (hadd : Adds nOffset heap addNumber q) :
    ∃ heap₂, addNumber heap₁ q = .ok heap₂ ∧
      Added nOffset heap base p (insert key keys) heap₂ := by
  -- the parts below different keys do not meet
  have hdisjoint : ∀ k ∈ keys, ∀ q', heap.child p k = some q' →
      ∀ x ∈ Places.below heap.child q', x ∉ Places.below heap.child q := by
    intro k hk q' hq' x hx' hx
    have hne : key ≠ k := by
      rintro rfl
      exact hkey hk
    exact htree.disjoint_below hp hq hq' hne x hx hx'
  have hbelow : ∀ x ∈ Places.below heap.child q, heap₁.view x = heap.view x := by
    intro x hx
    have hxp : x ≠ p := by
      rintro rfl
      exact htree.not_mem_below_child hp hq hx
    rw [h.other x hxp fun k hk q' hq' hx' => hdisjoint k hk q' hq' x hx' hx]
    exact hbase x (mem_below_iff.mpr (.inr ⟨key, q, hq, hx⟩))
  obtain ⟨heap₂, hheap₂, hin, hout⟩ := hadd heap₁ hbelow
  have hself := hout p (htree.not_mem_below_child hp hq)
  have hget : ∀ k, heap₂.rawget p k = heap₁.rawget p k :=
    fun k => congrFun (congrArg Prod.snd hself) k
  refine ⟨heap₂, hheap₂, ?_, ?_, ?_, ?_, ?_⟩
  · rw [hself]
    exact h.table
  · rintro k (rfl | hk)
    · rw [hget, h.same k hkey, child_eq_some_iff.mp hq]
      rfl
    · rw [hget]
      exact h.shifted k hk
  · intro k hk
    rw [hget]
    exact h.same k fun hmem => hk (.inr hmem)
  · rintro k (rfl | hk) q' hq' x hx
    · rw [hq, Option.some_inj] at hq'
      exact hin x (hq' ▸ hx)
    · rw [hout x (hdisjoint k hk q' hq' x hx)]
      exact h.below k hk q' hq' x hx
  · intro x hx hnot
    rw [hout x (hnot key (.inl rfl) q hq)]
    exact h.other x hx fun k hk => hnot k (.inr hk)

/-- The loop over entries of the table `p`, whose sub-tables are parts of a tree. -/
theorem addEntries (htree : IsTree heap.child root) (hp : p ∈ Places.below heap.child root)
    (hthere : (heap.lookup p).isSome)
    (hbase : ∀ x ∈ Places.below heap.child p, base.view x = heap.view x)
    (hadd : ∀ k q, heap.child p k = some q → Adds nOffset heap addNumber q)
    (l : List (Σ _ : LuaValue N, LuaValue N)) (hnodup : (l.map Sigma.fst).Nodup)
    (hl : ∀ e ∈ l, heap.rawget p e.1 = some e.2 ∧ e.1 ∉ keys)
    (h : Added nOffset heap base p keys heap₁) :
    ∃ heap₂, LuaHeap.addEntries addNumber nOffset p l heap₁ = .ok heap₂ ∧
      Added nOffset heap base p (keys ∪ { k | k ∈ l.map Sigma.fst }) heap₂ := by
  induction l generalizing keys heap₁ with
  | nil => exact ⟨heap₁, rfl, by simpa using h⟩
  | cons e l ih =>
    rw [List.map_cons, List.nodup_cons] at hnodup
    obtain ⟨he, hkey⟩ := hl e List.mem_cons_self
    -- one turn
    obtain ⟨heap₂, hturn, h₂⟩ : ∃ heap₂,
        LuaHeap.addEntries addNumber nOffset p (e :: l) heap₁ =
          LuaHeap.addEntries addNumber nOffset p l heap₂ ∧
        Added nOffset heap base p (insert e.1 keys) heap₂ := by
      obtain ⟨key, value⟩ := e
      cases value with
      | number n =>
        have hthere₁ : (heap₁.lookup p).isSome := by
          rw [isSome_lookup_iff, h.table, ← isSome_lookup_iff]
          exact hthere
        exact ⟨_, rfl, h.number htree hp hthere₁ he⟩
      | table q =>
        have hq : heap.child p key = some q := child_eq_some_iff.mpr he
        obtain ⟨heap₂, hheap₂, h₂⟩ := h.subtable htree hp hbase hkey hq (hadd key q hq)
        refine ⟨heap₂, ?_, h₂⟩
        simp only [LuaHeap.addEntries, hheap₂, bind, Except.bind]
      | _ => exact ⟨heap₁, rfl, h.skip hkey he rfl rfl⟩
    have hl₂ : ∀ e' ∈ l, heap.rawget p e'.1 = some e'.2 ∧ e'.1 ∉ insert e.1 keys := by
      intro e' he'
      obtain ⟨hget, hnot⟩ := hl e' (List.mem_cons_of_mem _ he')
      refine ⟨hget, ?_⟩
      rintro (heq | hmem)
      · exact hnodup.1 (heq ▸ List.mem_map_of_mem he')
      · exact hnot hmem
    obtain ⟨heap₃, hheap₃, h₃⟩ := ih hnodup.2 hl₂ h₂
    refine ⟨heap₃, hturn.trans hheap₃, ?_⟩
    have hkeys : keys ∪ { k | k ∈ (e :: l).map Sigma.fst } =
        insert e.1 keys ∪ { k | k ∈ l.map Sigma.fst } := by
      ext k
      simp only [List.map_cons, List.mem_cons, Set.mem_union, Set.mem_ofPred_eq, Set.mem_insert_iff]
      tauto
    rw [hkeys]
    exact h₃

end Added

/-- **The offset is added once** to every number below a table, when the tables form a tree without
metatables and the recursion may be as deep as there are tables. -/
theorem tableAddNumber_spec (htree : IsTree heap.child root)
    (hfinite : (below heap.child root).Finite)
    (hbare : ∀ p ∈ below heap.child root, heap.Bare p ∧ (heap.lookup p).isSome)
    (hp : p ∈ below heap.child root) {depth : ℕ} (hdepth : (below heap.child p).ncard ≤ depth) :
    Adds nOffset heap (tableAddNumber lua nOffset depth) p := by
  induction depth generalizing p with
  | zero =>
    have hpos := (Set.ncard_pos (hfinite.subset (below_subset hp))).mpr ⟨p, mem_below_self p⟩
    omega
  | succ depth ih =>
    intro heap₁ hbelow
    have hview := hbelow p (mem_below_self p)
    have hget : ∀ k, heap₁.rawget p k = heap.rawget p k :=
      fun k => congrFun (congrArg Prod.snd hview) k
    have hbare₁ : heap₁.Bare p := by
      rw [bare_iff, hview, ← bare_iff]
      exact (hbare p hp).1
    obtain ⟨l, hl, hnodup, hmem⟩ := pairs_of_bare hbare₁ lua
    have hadd : ∀ k q, heap.child p k = some q →
        Adds nOffset heap (tableAddNumber lua nOffset depth) q := by
      intro k q hq
      have hlt := htree.ncard_below_lt hfinite hp hq
      exact ih (mem_below_of_child hp hq) (by omega)
    have hstart : Added nOffset heap heap₁ p ∅ heap₁ :=
      ⟨by rw [hview], by simp, fun k _ => hget k, by simp, fun _ _ _ => rfl⟩
    obtain ⟨heap₂, hheap₂, hadded⟩ := hstart.addEntries htree hp (hbare p hp).2 hbelow hadd l hnodup
      fun e he => ⟨by rw [← hget]; exact (hmem e.1 e.2).mp he, Set.notMem_empty _⟩
    rw [Set.empty_union] at hadded
    -- all entries have had their turn
    have hkeys : ∀ k v, heap.rawget p k = some v → k ∈ l.map Sigma.fst := by
      intro k v hv
      exact List.mem_map_of_mem ((hmem k v).mpr ((hget k).trans hv))
    refine ⟨heap₂, ?_, ?_, ?_⟩
    · simp only [tableAddNumber, hl, bind, Except.bind, hheap₂]
    · intro x hx
      rcases mem_below_iff.mp hx with rfl | ⟨k, q, hq, hx⟩
      · refine Prod.ext hadded.table (funext fun k => ?_)
        show heap₂.rawget x k = (heap.rawget x k).map (shifted nOffset)
        cases hv : heap.rawget x k with
        | none =>
          by_cases hk : k ∈ l.map Sigma.fst
          · rw [hadded.shifted k hk, hv]
          · rw [hadded.same k hk, hv]
            rfl
        | some v => rw [hadded.shifted k (hkeys k v hv), hv]
      · exact hadded.below k (hkeys k _ (child_eq_some_iff.mp hq)) q hq x hx
    · intro x hx
      have hxp : x ≠ p := by
        rintro rfl
        exact hx (mem_below_self x)
      refine hadded.other x hxp fun k _ q hq hxq => hx ?_
      exact mem_below_iff.mpr (.inr ⟨k, q, hq, hxq⟩)

end Offset

end LuaHeap

end CodeTest
