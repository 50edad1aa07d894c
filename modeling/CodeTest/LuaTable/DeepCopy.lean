import CodeTest.LuaTable.Clone
import Mathlib.Tactic

/-!
# `clone` makes deep copies

The proof that `clone` returns a copy is about one call of `copyObj`: it leaves alone every table
that was there when it was called, also the copies that are not complete yet, and the copies that it
has made are complete when it returns (`copyObj_spec`). Each level of the recursion is for a table
that had no copy before, so the recursion is at most as deep as there are tables.

`getmetatable` does not return the metatable when that has a field `__metatable`. Such tables are
not copied with their metatables, and with most values of the field `clone` raises an error.
-/

namespace CodeTest

namespace LuaHeap

variable {N : Type} [DecidableEq N]

/-! ## Copies in the making -/

/-- A value that is no table, or a table that has a copy. -/
def Known (memo : Memory Addr) (v : LuaValue N) : Prop :=
  ∀ p, v = .table p → (memo.lookup p).isSome

/-- The copy of a value. -/
def copyOf (memo : Memory Addr) (v : LuaValue N) : LuaValue N :=
  v.map fun p => (memo.lookup p).getD 0

/-- Entries are the copies of other entries, in some order. -/
def CopiedEntries (memo : Memory Addr) (l l' : List (Σ _ : LuaValue N, LuaValue N)) : Prop :=
  (∀ e ∈ l, Known memo e.1 ∧ Known memo e.2) ∧
    l'.Perm (l.map fun e => ⟨copyOf memo e.1, copyOf memo e.2⟩)

/-- The copy of a table is complete. -/
def Complete (lua : Lua N) (heap : LuaHeap N) (s : CloneState N) (p : Addr) : Prop :=
  ∃ t q t', heap.lookup p = some t ∧ s.lookupTable.lookup p = some q ∧ s.heap.lookup q = some t' ∧
    CopiedEntries s.lookupTable t.entries.entries t'.entries.entries ∧
    t'.metatable = copiedMetatable lua heap t

/-- The memory before the call is as it was, and the copies are new tables, each of one table. -/
structure CloneInv (heap : LuaHeap N) (s : CloneState N) : Prop where
  kept : heap.Kept s.heap
  source : ∀ p q, s.lookupTable.lookup p = some q → (heap.lookup p).isSome
  fresh : ∀ p q, s.lookupTable.lookup p = some q → heap.lookup q = none
  there : ∀ p q, s.lookupTable.lookup p = some q → (s.heap.lookup q).isSome
  inj : ∀ p p' q, s.lookupTable.lookup p = some q → s.lookupTable.lookup p' = some q → p = p'

/-- What a part of a call does, which may write to the copy `own`: all other tables stay as they
are, and the copies made meanwhile are complete and of tables in `G`. -/
structure Progress (lua : Lua N) (heap : LuaHeap N) (G : Set Addr) (own : Option Addr)
    (s s' : CloneState N) : Prop where
  inv : CloneInv heap s'
  unchanged : ∀ q t, own ≠ some q → s.heap.lookup q = some t → s'.heap.lookup q = some t
  memo : s.lookupTable.Kept s'.lookupTable
  complete : ∀ p, s.lookupTable.lookup p = none → (s'.lookupTable.lookup p).isSome →
    p ∈ G ∧ Complete lua heap s' p

section

variable {lua : Lua N} {heap : LuaHeap N} {G : Set Addr} {own : Option Addr}
  {s s' s'' : CloneState N} {memo memo' : Memory Addr}

omit [DecidableEq N] in
theorem Known.kept (h : memo.Kept memo') {v : LuaValue N} (hv : Known memo v) :
    Known memo' v ∧ copyOf memo' v = copyOf memo v := by
  cases v with
  | table p =>
    have hp := hv p rfl
    refine ⟨?_, ?_⟩
    · rintro _ ⟨⟩
      rwa [h.lookup hp]
    · simp only [copyOf, LuaValue.map, h.lookup hp]
  | _ => exact ⟨fun _ => nofun, rfl⟩

omit [DecidableEq N] in
theorem CopiedEntries.kept (h : memo.Kept memo') {l l' : List (Σ _ : LuaValue N, LuaValue N)}
    (hl : CopiedEntries memo l l') : CopiedEntries memo' l l' := by
  obtain ⟨hknown, hperm⟩ := hl
  refine ⟨fun e he => ⟨((hknown e he).1.kept h).1, ((hknown e he).2.kept h).1⟩, ?_⟩
  have hmap : (l.map fun e => (⟨copyOf memo' e.1, copyOf memo' e.2⟩ : Σ _, _)) =
      l.map fun e => ⟨copyOf memo e.1, copyOf memo e.2⟩ := by
    apply List.map_congr_left
    intro e he
    rw [((hknown e he).1.kept h).2, ((hknown e he).2.kept h).2]
  rwa [hmap]

omit [DecidableEq N] in
theorem CopiedEntries.of_perm {l l₁ l' : List (Σ _ : LuaValue N, LuaValue N)}
    (hl : CopiedEntries memo l l') (hperm : l.Perm l₁) : CopiedEntries memo l₁ l' :=
  ⟨fun e he => hl.1 e (hperm.mem_iff.mpr he), hl.2.trans (hperm.map _)⟩

/-- A copy stays complete as long as it is not written to. -/
theorem Complete.kept {p : Addr} (hp : Complete lua heap s p)
    (hmemo : s.lookupTable.Kept s'.lookupTable)
    (hheap : ∀ q t, s.lookupTable.lookup p = some q → s.heap.lookup q = some t →
      s'.heap.lookup q = some t) : Complete lua heap s' p := by
  obtain ⟨t, q, t', ht, hq, ht', hentries, hmetatable⟩ := hp
  exact ⟨t, q, t', ht, hmemo p q hq, hheap q t' hq ht', hentries.kept hmemo, hmetatable⟩

namespace Progress

theorem refl (hinv : CloneInv heap s) : Progress lua heap G own s s where
  inv := hinv
  unchanged := fun _ _ _ h => h
  memo := .refl _
  complete := fun p hnone hsome => by simp [hnone] at hsome

theorem of_none (h : Progress lua heap G none s s') : Progress lua heap G own s s' :=
  ⟨h.inv, fun q t _ hq => h.unchanged q t (by simp) hq, h.memo, h.complete⟩

theorem trans (h : Progress lua heap G own s s') (h' : Progress lua heap G own s' s'')
    (hown : ∀ q, own = some q → ∃ p, s.lookupTable.lookup p = some q) :
    Progress lua heap G own s s'' := by
  refine ⟨h'.inv, fun q t hq hlookup => h'.unchanged q t hq (h.unchanged q t hq hlookup),
    h.memo.trans h'.memo, ?_⟩
  intro p hnone hsome
  cases hp : s'.lookupTable.lookup p with
  | none => exact h'.complete p hp hsome
  | some q =>
    obtain ⟨hG, hcomplete⟩ := h.complete p hnone (by rw [hp]; rfl)
    refine ⟨hG, hcomplete.kept h'.memo ?_⟩
    intro q' t hq' hlookup
    refine h'.unchanged q' t ?_ hlookup
    -- the copy that may be written to is that of another table
    rintro rfl
    obtain ⟨p₀, hp₀⟩ := hown q' rfl
    rw [h.inv.inj p p₀ q' hq' (h.memo p₀ q' hp₀), hp₀] at hnone
    cases hnone

/-- Writing to the copy that is being filled. -/
theorem modify (hinv : CloneInv heap s) {p q : Addr} (hq : s.lookupTable.lookup p = some q)
    (f : LuaTable N → LuaTable N) :
    Progress lua heap G (some q) s { s with heap := s.heap.modify q f } := by
  have hother : ∀ q' ≠ q, (s.heap.modify q f).lookup q' = s.heap.lookup q' := by
    intro q' hne
    rw [Memory.lookup_modify, if_neg hne]
  refine ⟨⟨?_, hinv.source, hinv.fresh, ?_, hinv.inj⟩, ?_, .refl _, ?_⟩
  · intro p' t ht
    have hne : p' ≠ q := by
      rintro rfl
      rw [hinv.fresh p p' hq] at ht
      cases ht
    exact (hother p' hne).trans (hinv.kept p' t ht)
  · intro p' q' hq'
    show ((s.heap.modify q f).lookup q').isSome
    rw [Memory.lookup_modify]
    split_ifs with heq
    · rw [Option.isSome_map]
      exact hinv.there p q hq
    · exact hinv.there p' q' hq'
  · intro q' t hne hq'
    exact (hother q' fun heq => hne (by rw [heq])).trans hq'
  · intro p' hnone hsome
    simp [hnone] at hsome

end Progress

/-- The tables that have no copy yet. -/
def unvisited (heap : LuaHeap N) (s : CloneState N) : Finset Addr :=
  heap.keys.toFinset.filter fun p => s.lookupTable.lookup p = none

omit [DecidableEq N] in
theorem unvisited_subset (heap : LuaHeap N) (h : s.lookupTable.Kept s'.lookupTable) :
    unvisited heap s' ⊆ unvisited heap s := by
  intro p hp
  rw [unvisited, Finset.mem_filter] at hp ⊢
  refine ⟨hp.1, ?_⟩
  by_contra hne
  obtain ⟨q, hq⟩ := Option.ne_none_iff_exists'.mp hne
  rw [h p q hq] at hp
  cases hp.2

omit [DecidableEq N] in
theorem CloneInv.copyOf_inj (hinv : CloneInv heap s) {v w : LuaValue N}
    (hv : Known s.lookupTable v) (hw : Known s.lookupTable w)
    (heq : copyOf s.lookupTable v = copyOf s.lookupTable w) : v = w := by
  cases v with
  | table p =>
    cases w with
    | table p' =>
      obtain ⟨q, hq⟩ := Option.isSome_iff_exists.mp (hv p rfl)
      obtain ⟨q', hq'⟩ := Option.isSome_iff_exists.mp (hw p' rfl)
      simp only [copyOf, LuaValue.map, hq, hq', Option.getD_some, LuaValue.table.injEq] at heq
      rw [hinv.inj p p' q hq (heq ▸ hq')]
    | _ => cases heq
  | _ =>
    cases w with
    | table p' => cases heq
    | _ => exact heq

/-- What is expected of `copyObj` when at most `n` tables have no copy. -/
def Copies (lua : Lua N) (heap : LuaHeap N) (G : Set Addr) (n : ℕ)
    (copy : CloneState N → LuaValue N → Except LuaError (LuaValue N × CloneState N)) : Prop :=
  ∀ s v, CloneInv heap s → (∀ p, v = .table p → p ∈ G) → (unvisited heap s).card ≤ n →
    ∃ s', copy s v = .ok (copyOf s'.lookupTable v, s') ∧ Progress lua heap G none s s' ∧
      Known s'.lookupTable v

/-- An entry with a new key. -/
theorem CopiedEntries.insert (hinv : CloneInv heap s) {l : List (Σ _ : LuaValue N, LuaValue N)}
    {entries : Table (LuaValue N) (LuaValue N)} (hl : CopiedEntries s.lookupTable l entries.entries)
    {e : Σ _ : LuaValue N, LuaValue N} (hnew : e.1 ∉ l.map Sigma.fst)
    (hkey : Known s.lookupTable e.1) (hvalue : Known s.lookupTable e.2) :
    CopiedEntries s.lookupTable (l ++ [e])
      (entries.insert (copyOf s.lookupTable e.1) (copyOf s.lookupTable e.2)).entries := by
  obtain ⟨hknown, hperm⟩ := hl
  have hfresh : copyOf s.lookupTable e.1 ∉ entries.keys := by
    intro hmem
    obtain ⟨e', he', heq'⟩ := List.mem_map.mp hmem
    obtain ⟨e₀, he₀, rfl⟩ := List.mem_map.mp (hperm.mem_iff.mp he')
    have heq := hinv.copyOf_inj (hknown e₀ he₀).1 hkey heq'
    exact hnew (heq ▸ List.mem_map_of_mem he₀)
  refine ⟨?_, ?_⟩
  · intro e' he'
    rcases List.mem_append.mp he' with he' | he'
    · exact hknown e' he'
    · obtain rfl := List.mem_singleton.mp he'
      exact ⟨hkey, hvalue⟩
  · rw [AList.entries_insert_of_notMem hfresh, List.map_append, List.map_singleton]
    exact ((List.Perm.cons _ hperm).trans (List.perm_append_singleton _ _).symm)

/-- The loop over the entries adds the copies of the entries to the copy of the table. -/
theorem copyEntries_spec {n : ℕ}
    {copy : CloneState N → LuaValue N → Except LuaError (LuaValue N × CloneState N)}
    (hcopy : Copies lua heap G n copy) {p q : Addr} (l : List (Σ _ : LuaValue N, LuaValue N))
    (hG : ∀ e ∈ l, ∀ r, e.1 = .table r ∨ e.2 = .table r → r ∈ G)
    (l₀ : List (Σ _ : LuaValue N, LuaValue N)) (hnodup : ((l₀ ++ l).map Sigma.fst).Nodup)
    {entries : Table (LuaValue N) (LuaValue N)} (hinv : CloneInv heap s)
    (hcard : (unvisited heap s).card ≤ n) (hmemo : s.lookupTable.lookup p = some q)
    (hq : s.heap.lookup q = some ⟨entries, none⟩)
    (hentries : CopiedEntries s.lookupTable l₀ entries.entries) :
    ∃ s' entries', copyEntries copy q l s = .ok s' ∧ Progress lua heap G (some q) s s' ∧
      s'.heap.lookup q = some ⟨entries', none⟩ ∧
      CopiedEntries s'.lookupTable (l₀ ++ l) entries'.entries := by
  induction l generalizing s l₀ entries with
  | nil => exact ⟨s, entries, rfl, .refl hinv, hq, by simpa using hentries⟩
  | cons e l ih =>
    have hown : ∀ q', some q = some q' → ∃ p, s.lookupTable.lookup p = some q' := by
      rintro _ ⟨⟩
      exact ⟨p, hmemo⟩
    -- the copies of the key and of the value
    obtain ⟨s₁, hs₁, h₁, hkey⟩ := hcopy s e.1 hinv
      (fun r hr => hG e List.mem_cons_self r (.inl hr)) hcard
    have hcard₁ := (Finset.card_le_card (unvisited_subset heap h₁.memo)).trans hcard
    obtain ⟨s₂, hs₂, h₂, hvalue⟩ := hcopy s₁ e.2 h₁.inv
      (fun r hr => hG e List.mem_cons_self r (.inr hr)) hcard₁
    have hcard₂ := (Finset.card_le_card (unvisited_subset heap h₂.memo)).trans hcard₁
    obtain ⟨hkey', hkeyEq⟩ := hkey.kept h₂.memo
    have h₀₂ : Progress lua heap G (some q) s s₂ := (h₁.trans h₂ (by simp)).of_none
    have hq₂ : s₂.heap.lookup q = some ⟨entries, none⟩ :=
      h₂.unchanged q _ (by simp) (h₁.unchanged q _ (by simp) hq)
    -- the new entry
    have h₃ : Progress lua heap G (some q) s₂ { s₂ with
        heap := s₂.heap.rawset q (copyOf s₂.lookupTable e.1) (copyOf s₂.lookupTable e.2) } :=
      .modify h₂.inv (h₀₂.memo p q hmemo) _
    have hnew : e.1 ∉ l₀.map Sigma.fst := by
      rw [List.map_append, List.map_cons] at hnodup
      exact fun hmem => List.disjoint_of_nodup_append hnodup hmem List.mem_cons_self
    have hentries₃ := (hentries.kept h₀₂.memo).insert h₂.inv hnew hkey' hvalue
    obtain ⟨s', entries', hs', h', hq', hentries'⟩ := ih
      (fun e' he' => hG e' (List.mem_cons_of_mem _ he')) (l₀ ++ [e]) (by simpa using hnodup)
      h₃.inv hcard₂ (h₀₂.memo p q hmemo) (by
        show (s₂.heap.modify q _).lookup q = _
        rw [Memory.lookup_modify, if_pos rfl, hq₂]
        rfl) hentries₃
    refine ⟨s', entries', ?_, ?_, hq', by simpa using hentries'⟩
    · simp only [copyEntries, hs₁, hs₂, bind, Except.bind]
      rw [← hkeyEq]
      exact hs'
    · exact (h₀₂.trans h₃ hown).trans h' hown

/-! ## One table -/

/-- What `getmetatable`, `pairs` and the test for `___sheetindex` say about a table, in any memory
that keeps the tables of the first one. -/
theorem Plain.metatable {heap' : LuaHeap N} {p : Addr} {t : LuaTable N} (hplain : Plain lua heap p)
    (hclosed : heap.Closed) (hkept : heap.Kept heap') (ht : heap.lookup p = some t) :
    heap'.getmetatable p = t.metatable.map .table ∧
      heap'.pairs lua p = .ok (lua.order.pairs t.entries) ∧
      ∃ b, hasSheetindex lua heap' (t.metatable.map .table) = .ok b ∧
        copiedMetatable lua heap t = if b then none else t.metatable := by
  have ht' := hkept p t ht
  cases hm : t.metatable with
  | none =>
    refine ⟨by simp [getmetatable, ht', hm], by simp [pairs, metafield, ht', hm], false, rfl, ?_⟩
    simp [copiedMetatable, hm]
  | some m =>
    have hthere := (hclosed.table ht).2 m hm
    obtain ⟨hmetatable, hpairs, hok⟩ := hplain t ht m hm
    obtain ⟨v, hv⟩ : ∃ v, heap.index lua (.table m) (.string "___sheetindex") = .ok v := by
      cases hv : heap.index lua (.table m) (.string "___sheetindex") with
      | error e =>
        rw [hv] at hok
        cases hok
      | ok v => exact ⟨v, rfl⟩
    have hindex : heap'.index lua (.table m) (.string "___sheetindex") = .ok v := by
      have hvalid : heap.Valid (.table m) := hthere
      rw [← hv]
      exact indexChain_kept hkept hclosed lua _ hvalid _
    refine ⟨?_, ?_, LuaValue.truthy v, ?_, ?_⟩
    · simp [getmetatable, ht', hm, rawget_kept hkept hthere, hmetatable]
    · simp [pairs, metafield, ht', hm, rawget_kept hkept hthere, hpairs]
    · simp [hasSheetindex, LuaValue.truthy, hindex, Except.map]
    · have hsheet : hasSheetindex lua heap (some (.table m)) = .ok (LuaValue.truthy v) := by
        simp [hasSheetindex, LuaValue.truthy, hv, Except.map]
      cases hb : LuaValue.truthy v <;> simp [copiedMetatable, hm, hsheet, hb]

omit [DecidableEq N] in
/-- The note in `lookup_table` that a table has a copy. -/
theorem CloneInv.alloc (hinv : CloneInv heap s) {p : Addr} (hp : (heap.lookup p).isSome)
    (t : LuaTable N) :
    CloneInv heap ⟨s.heap.insert (lua.alloc.fresh s.heap) t,
      s.lookupTable.insert p (lua.alloc.fresh s.heap)⟩ := by
  have hfree := lua.alloc.fresh_free s.heap
  have hkept := Memory.kept_insert hfree t
  refine ⟨hinv.kept.trans hkept, ?_, ?_, ?_, ?_⟩
  · intro p' q hq
    rw [Table.lookup_insert_eq] at hq
    split_ifs at hq with heq
    · exact heq ▸ hp
    · exact hinv.source p' q hq
  · intro p' q hq
    rw [Table.lookup_insert_eq] at hq
    split_ifs at hq with heq
    · cases hq
      cases hlookup : heap.lookup (lua.alloc.fresh s.heap) with
      | none => rfl
      | some t' =>
        rw [hinv.kept _ t' hlookup] at hfree
        cases hfree
    · exact hinv.fresh p' q hq
  · intro p' q hq
    rw [Table.lookup_insert_eq] at hq
    split_ifs at hq with heq
    · cases hq
      simp [AList.lookup_insert]
    · obtain ⟨t', ht'⟩ := Option.isSome_iff_exists.mp (hinv.there p' q hq)
      rw [hkept q t' ht']
      rfl
  · have hne : ∀ p', s.lookupTable.lookup p' ≠ some (lua.alloc.fresh s.heap) := by
      intro p' hp'
      have := hinv.there p' _ hp'
      rw [hfree] at this
      cases this
    intro p₁ p₂ q h₁ h₂
    rw [Table.lookup_insert_eq] at h₁ h₂
    split_ifs at h₁ h₂ with heq₁ heq₂ heq₂
    · rw [heq₁, heq₂]
    · cases h₁
      exact absurd h₂ (hne p₂)
    · cases h₂
      exact absurd h₁ (hne p₁)
    · exact hinv.inj p₁ p₂ q h₁ h₂

omit [DecidableEq N] in
/-- One table less has no copy. -/
theorem card_unvisited_lt {p q : Addr} (hp : (heap.lookup p).isSome)
    (hnone : s.lookupTable.lookup p = none) (hheap : LuaHeap N) :
    (unvisited heap ⟨hheap, s.lookupTable.insert p q⟩).card < (unvisited heap s).card := by
  have hkept : s.lookupTable.Kept (⟨hheap, s.lookupTable.insert p q⟩ : CloneState N).lookupTable :=
    Memory.kept_insert hnone q
  apply Finset.card_lt_card
  refine ⟨unvisited_subset heap hkept, fun hsub => ?_⟩
  have hmem : p ∈ unvisited heap s := by
    rw [unvisited, Finset.mem_filter, List.mem_toFinset, ← AList.mem_keys]
    exact ⟨AList.lookup_isSome.mp hp, hnone⟩
  have hlookup := (Finset.mem_filter.mp (hsub hmem)).2
  rw [AList.lookup_insert] at hlookup
  cases hlookup

/-- The copy of a table whose entries were copied gets its metatable. -/
theorem copyMetatable_spec {p q : Addr} {t : LuaTable N} (hplain : Plain lua heap p)
    (hclosed : heap.Closed) (ht : heap.lookup p = some t) (hinv : CloneInv heap s)
    (hmemo : s.lookupTable.lookup p = some q) {entries : Table (LuaValue N) (LuaValue N)}
    (hq : s.heap.lookup q = some ⟨entries, none⟩)
    (hentries : CopiedEntries s.lookupTable t.entries.entries entries.entries) :
    ∃ s', copyMetatable lua q (t.metatable.map .table) s = .ok s' ∧
      Progress lua heap G (some q) s s' ∧ Complete lua heap s' p := by
  obtain ⟨-, -, b, hb, hmetatable⟩ := hplain.metatable hclosed hinv.kept ht
  cases b with
  | true =>
    refine ⟨s, ?_, .refl hinv, t, q, _, ht, hmemo, hq, hentries, hmetatable.symm⟩
    simp [copyMetatable, hb, bind, Except.bind, pure, Except.pure]
  | false =>
    have hset : s.heap.setmetatable q (t.metatable.map .table) =
        .ok (s.heap.modify q fun t' => { t' with metatable := t.metatable }) := by
      cases hm : t.metatable <;> simp [setmetatable, metafield, hq]
    refine ⟨{ s with heap := s.heap.modify q fun t' => { t' with metatable := t.metatable } }, ?_,
      .modify hinv hmemo _, t, q, ⟨entries, t.metatable⟩, ht, hmemo, ?_, hentries, hmetatable.symm⟩
    · simp [copyMetatable, hb, hset, bind, Except.bind, pure, Except.pure]
    · rw [Memory.lookup_modify, if_pos rfl, hq]
      rfl

/-- The tables of `G` can be copied, and lead to no others. -/
def Copyable (lua : Lua N) (heap : LuaHeap N) (G : Set Addr) : Prop :=
  ∀ p ∈ G, (heap.lookup p).isSome ∧ Plain lua heap p ∧ ∀ q, heap.Refers p q → q ∈ G

/-- A table that has no copy yet gets one. -/
theorem copyTable_spec (hclosed : heap.Closed) (hG : Copyable lua heap G) {n : ℕ}
    {copy : CloneState N → LuaValue N → Except LuaError (LuaValue N × CloneState N)}
    (hcopy : Copies lua heap G n copy) (hinv : CloneInv heap s) {p : Addr} (hp : p ∈ G)
    (hnone : s.lookupTable.lookup p = none) (hcard : (unvisited heap s).card ≤ n + 1) :
    ∃ s' q, copyTable lua copy s p = .ok (.table q, s') ∧ s'.lookupTable.lookup p = some q ∧
      Progress lua heap G none s s' := by
  obtain ⟨hthere, hplain, hrefers⟩ := hG p hp
  obtain ⟨t, ht⟩ := Option.isSome_iff_exists.mp hthere
  set q := lua.alloc.fresh s.heap
  set s₁ : CloneState N := ⟨s.heap.insert q ⟨∅, none⟩, s.lookupTable.insert p q⟩
  have hfree : s.heap.lookup q = none := lua.alloc.fresh_free s.heap
  have hinv₁ : CloneInv heap s₁ := hinv.alloc hthere _
  have hmemo₁ : s₁.lookupTable.lookup p = some q := AList.lookup_insert _
  have hcard₁ : (unvisited heap s₁).card ≤ n := by
    have hlt : (unvisited heap s₁).card < (unvisited heap s).card :=
      card_unvisited_lt hthere hnone s₁.heap
    omega
  obtain ⟨hmt, hpairs, -⟩ := hplain.metatable hclosed hinv₁.kept ht
  obtain ⟨s₂, entries, hs₂, h₂, hq₂, hentries⟩ := copyEntries_spec hcopy
    (lua.order.pairs t.entries) (fun e he r hr => hrefers r
      ⟨t, ht, e, (lua.order.perm t.entries).mem_iff.mp he, hr⟩)
    [] (by simpa using lua.order.nodup_keys t.entries) hinv₁ hcard₁ hmemo₁
    (AList.lookup_insert _) ⟨by simp, by simp⟩
  obtain ⟨s', hs', h₃, hcomplete⟩ := copyMetatable_spec (G := G) hplain hclosed ht h₂.inv
    (h₂.memo p q hmemo₁) hq₂ (hentries.of_perm (lua.order.perm t.entries))
  have h' : Progress lua heap G (some q) s₁ s' := by
    apply h₂.trans h₃
    rintro _ ⟨⟩
    exact ⟨p, hmemo₁⟩
  refine ⟨s', q, ?_, h'.memo p q hmemo₁, h'.inv, ?_, ?_, ?_⟩
  · show (do
      let entries ← s₁.heap.pairs lua p
      let s ← copyEntries copy q entries s₁
      let s ← copyMetatable lua q (s₁.heap.getmetatable p) s
      return (LuaValue.table q, s)) = _
    simp only [hpairs, hmt, hs₂, hs', bind, Except.bind, pure, Except.pure]
  · intro q' t' _ hq'
    have hne : q' ≠ q := by
      rintro rfl
      rw [hfree] at hq'
      cases hq'
    refine h'.unchanged q' t' (fun heq => hne (Option.some_inj.mp heq).symm) ?_
    exact (AList.lookup_insert_ne hne).trans hq'
  · exact (Memory.kept_insert hnone q).trans h'.memo
  · intro p' hnone' hsome
    by_cases heq : p' = p
    · subst heq
      exact ⟨hp, hcomplete⟩
    · refine h'.complete p' ?_ hsome
      exact (AList.lookup_insert_ne heq).trans hnone'

/-- A table that has a copy already. -/
theorem copyObj_known (hinv : CloneInv heap s) {p q : Addr} (hq : s.lookupTable.lookup p = some q)
    {depth : ℕ} :
    ∃ s', copyObj lua depth s (.table p) = .ok (copyOf s'.lookupTable (.table p), s') ∧
      Progress lua heap G none s s' ∧ Known s'.lookupTable (.table p : LuaValue N) := by
  refine ⟨s, ?_, .refl hinv, ?_⟩
  · cases depth <;> simp [copyObj, hq, copyOf, LuaValue.map]
  · rintro _ ⟨⟩
    rw [hq]
    rfl

/-- **One call of `copyObj`.** When at most `depth` tables have no copy, it returns the copy of the
value, leaves all tables alone that were there, and completes the copies it makes. -/
theorem copyObj_spec (hclosed : heap.Closed) (hG : Copyable lua heap G) (depth : ℕ) :
    Copies lua heap G depth (copyObj lua depth) := by
  induction depth with
  | zero =>
    intro s v hinv hv hcard
    cases v with
    | table p =>
      have hthere := (hG p (hv p rfl)).1
      cases hlookup : s.lookupTable.lookup p with
      | some q => exact copyObj_known hinv hlookup
      | none =>
        have := card_unvisited_lt (q := 0) hthere hlookup heap
        omega
    | _ => exact ⟨s, rfl, .refl hinv, fun _ => nofun⟩
  | succ depth ih =>
    intro s v hinv hv hcard
    cases v with
    | table p =>
      cases hlookup : s.lookupTable.lookup p with
      | some q => exact copyObj_known hinv hlookup
      | none =>
        obtain ⟨s', q, hs', hq, h'⟩ := copyTable_spec hclosed hG ih hinv (hv p rfl) hlookup hcard
        refine ⟨s', ?_, h', ?_⟩
        · simp only [copyObj, hlookup, hs', copyOf, LuaValue.map, hq, Option.getD_some]
        · rintro _ ⟨⟩
          rw [hq]
          rfl
    | _ => exact ⟨s, rfl, .refl hinv, fun _ => nofun⟩

/-! ## The whole copy -/

omit [DecidableEq N] in
theorem mem_reachable {p q : Addr} :
    q ∈ heap.reachable (.table p) ↔ Relation.ReflTransGen heap.Refers p q := by
  simp [reachable]

omit [DecidableEq N] in
/-- The tables that a value leads to are there. -/
theorem Closed.isSome_of_mem_reachable (hclosed : heap.Closed) {v : LuaValue N} (hv : heap.Valid v)
    {q : Addr} (hq : q ∈ heap.reachable v) : (heap.lookup q).isSome := by
  obtain ⟨p, rfl, hpath⟩ := hq
  induction hpath with
  | refl => exact hv
  | tail _ hrefers _ =>
    obtain ⟨t, ht, e, he, hq⟩ := hrefers
    obtain ⟨hkey, hvalue⟩ := (hclosed.table ht).1 e he
    rcases hq with hq | hq
    · rw [hq] at hkey
      exact hkey
    · rw [hq] at hvalue
      exact hvalue

omit [DecidableEq N] in
theorem map_eq_table {f : Addr → Addr} {v : LuaValue N} {r : Addr} :
    v.map f = .table r ↔ ∃ p, v = .table p ∧ f p = r := by
  cases v <;> simp [LuaValue.map]

omit [DecidableEq N] in
/-- The copy of a table refers to the copies of what the table refers to. -/
theorem refers_iff {heap' : LuaHeap N} {f : Addr → Addr} {p : Addr} {t t' : LuaTable N}
    (ht : heap.lookup p = some t) (ht' : heap'.lookup (f p) = some t')
    (hperm : t'.entries.entries.Perm (t.entries.entries.map fun e => ⟨e.1.map f, e.2.map f⟩))
    {r : Addr} : heap'.Refers (f p) r ↔ ∃ p', heap.Refers p p' ∧ f p' = r := by
  constructor
  · rintro ⟨t₁, ht₁, e', he', hr⟩
    rw [ht', Option.some_inj] at ht₁
    subst ht₁
    obtain ⟨e, he, rfl⟩ := List.mem_map.mp (hperm.mem_iff.mp he')
    rcases hr with hr | hr
    · obtain ⟨p', hp', hfp'⟩ := map_eq_table.mp hr
      exact ⟨p', ⟨t, ht, e, he, .inl hp'⟩, hfp'⟩
    · obtain ⟨p', hp', hfp'⟩ := map_eq_table.mp hr
      exact ⟨p', ⟨t, ht, e, he, .inr hp'⟩, hfp'⟩
  · rintro ⟨p', ⟨t₁, ht₁, e, he, hp'⟩, hfp'⟩
    rw [ht, Option.some_inj] at ht₁
    subst ht₁
    refine ⟨t', ht', ⟨e.1.map f, e.2.map f⟩, hperm.mem_iff.mpr (List.mem_map_of_mem he), ?_⟩
    rcases hp' with hp' | hp'
    · exact .inl (map_eq_table.mpr ⟨p', hp', hfp'⟩)
    · exact .inr (map_eq_table.mpr ⟨p', hp', hfp'⟩)

omit [DecidableEq N] in
/-- If copies refer to the copies of what the tables refer to, then they lead to the copies of what
the tables lead to. -/
theorem reachable_map {heap' : LuaHeap N} {f : Addr → Addr} {v : LuaValue N}
    (hrefers : ∀ p ∈ heap.reachable v, ∀ r,
      heap'.Refers (f p) r ↔ ∃ p', heap.Refers p p' ∧ f p' = r) :
    heap'.reachable (v.map f) = Set.image f (heap.reachable v) := by
  ext r
  constructor
  · rintro ⟨q, hq, hpath⟩
    obtain ⟨p, rfl, rfl⟩ := map_eq_table.mp hq
    induction hpath with
    | refl => exact ⟨p, mem_reachable.mpr .refl, rfl⟩
    | tail _ hstep ih =>
      obtain ⟨p₁, hp₁, rfl⟩ := ih
      obtain ⟨p₂, hp₂, rfl⟩ := (hrefers p₁ hp₁ _).mp hstep
      exact ⟨p₂, mem_reachable.mpr ((mem_reachable.mp hp₁).tail hp₂), rfl⟩
  · rintro ⟨q, ⟨p, rfl, hpath⟩, rfl⟩
    refine ⟨f p, rfl, ?_⟩
    induction hpath with
    | refl => exact .refl
    | tail hbefore hstep ih =>
      exact ih.tail ((hrefers _ (mem_reachable.mpr hbefore) _).mpr ⟨_, hstep, rfl⟩)

/-- The copies that are complete make up a deep copy. -/
theorem deepCopy_of_complete {object : LuaValue N} (hinv : CloneInv heap s)
    (hobject : Known s.lookupTable object)
    (hcomplete : ∀ p, (s.lookupTable.lookup p).isSome →
      p ∈ heap.reachable object ∧ Complete lua heap s p) :
    DeepCopy lua heap s.heap object (copyOf s.lookupTable object)
      fun p => (s.lookupTable.lookup p).getD 0 := by
  have hdomain : ∀ p ∈ heap.reachable object, (s.lookupTable.lookup p).isSome := by
    rintro q ⟨p, rfl, hpath⟩
    induction hpath with
    | refl => exact hobject p rfl
    | tail _ hstep ih =>
      obtain ⟨t, -, -, ht, -, -, ⟨hknown, -⟩, -⟩ := (hcomplete _ ih).2
      obtain ⟨t₁, ht₁, e, he, hr⟩ := hstep
      rw [ht, Option.some_inj] at ht₁
      subst ht₁
      rcases hr with hr | hr
      · exact (hknown e he).1 _ hr
      · exact (hknown e he).2 _ hr
  have htable : ∀ p ∈ heap.reachable object, ∃ t t', heap.lookup p = some t ∧
      s.heap.lookup ((s.lookupTable.lookup p).getD 0) = some t' ∧
      t'.entries.entries.Perm (t.entries.entries.map fun e =>
        ⟨copyOf s.lookupTable e.1, copyOf s.lookupTable e.2⟩) ∧
      t'.metatable = copiedMetatable lua heap t := by
    intro p hp
    obtain ⟨t, q, t', ht, hq, ht', hentries, hmetatable⟩ := (hcomplete p (hdomain p hp)).2
    exact ⟨t, t', ht, by rw [hq, Option.getD_some, ht'], hentries.2, hmetatable⟩
  refine ⟨rfl, ?_, ?_⟩
  · have himage : s.heap.reachable (copyOf s.lookupTable object) =
        Set.image (fun p => (s.lookupTable.lookup p).getD 0) (heap.reachable object) := by
      apply reachable_map
      intro p hp r
      obtain ⟨t, t', ht, ht', hperm, -⟩ := htable p hp
      exact refers_iff ht ht' hperm
    rw [himage]
    refine Set.InjOn.bijOn_image ?_
    intro p hp p' hp' heq
    obtain ⟨q, hq⟩ := Option.isSome_iff_exists.mp (hdomain p hp)
    obtain ⟨q', hq'⟩ := Option.isSome_iff_exists.mp (hdomain p' hp')
    simp only [hq, hq', Option.getD_some] at heq
    exact hinv.inj p p' q hq (heq ▸ hq')
  · intro p hp
    obtain ⟨q, hq⟩ := Option.isSome_iff_exists.mp (hdomain p hp)
    refine ⟨?_, htable p hp⟩
    rw [hq, Option.getD_some]
    exact hinv.fresh p q hq

/-- **`clone` makes a deep copy.** In a memory without dangling references, where the metatables of
the tables that the object leads to can be copied and read, `clone` returns when the recursion may
be as deep as there are tables, leaves all tables as they are, and what it returns is a copy. -/
theorem cloned_of_plain (lua : Lua N) {heap : LuaHeap N} (hclosed : heap.Closed)
    {object : LuaValue N} (hobject : heap.Valid object)
    (hplain : ∀ p ∈ heap.reachable object, Plain lua heap p) {depth : ℕ}
    (hdepth : heap.keys.length ≤ depth) : Cloned lua heap object depth := by
  have hG : Copyable lua heap (heap.reachable object) := by
    intro p hp
    refine ⟨hclosed.isSome_of_mem_reachable hobject hp, hplain p hp, ?_⟩
    intro q hq
    obtain ⟨p₀, rfl, hpath⟩ := hp
    exact ⟨p₀, rfl, hpath.tail hq⟩
  have hinv : CloneInv heap (⟨heap, ∅⟩ : CloneState N) :=
    ⟨.refl _, by simp, by simp, by simp, by simp⟩
  have hcard : (unvisited heap ⟨heap, ∅⟩).card ≤ depth :=
    (Finset.card_filter_le _ _).trans ((List.toFinset_card_le _).trans hdepth)
  obtain ⟨s, hs, h, hknown⟩ := copyObj_spec hclosed hG depth ⟨heap, ∅⟩ object hinv
    (fun p hp => ⟨p, hp, .refl⟩) hcard
  refine ⟨_, s.heap, _, ?_, h.inv.kept, deepCopy_of_complete h.inv hknown ?_⟩
  · rw [clone, hs]
    rfl
  · intro p hp
    exact h.complete p (AList.lookup_empty p) hp

end

theorem plain_of_forall_mem {lua : Lua N} {heap : LuaHeap N}
    (h : ∀ p ∈ heap.keys, Plain lua heap p) (p : Addr) : Plain lua heap p := by
  intro t ht
  exact h p (AList.mem_keys.mpr (AList.lookup_isSome.mp (by rw [ht]; rfl))) t ht

/-- A table that has itself as a value and as a key, with a metatable. -/
theorem cloned_cycle :
    Cloned (Lua.simple ℕ)
      ((AList.insert 1 ⟨(AList.insert (.string "self") (.table 1) ∅).insert (.table 1) (.number 5),
        some 2⟩ ∅).insert 2 ⟨∅, none⟩) (.table 1) 2 :=
  cloned_of_plain _ (by decide +kernel) (by decide +kernel)
    (fun p _ => plain_of_forall_mem (by decide +kernel) p) (by decide +kernel)

/-- A table whose metatable has a field `__metatable`, and one whose metatable is its own metatable
and its own `__index`: `clone` raises an error. -/
theorem exists_not_cloned :
    (¬ ∀ (lua : Lua ℕ) (heap : LuaHeap ℕ) (object : LuaValue ℕ), heap.Closed → heap.Valid object →
      (∀ p ∈ heap.keys, heap.metafield p "__pairs" = none) →
      ∃ depth, Cloned lua heap object depth) ∧
    ¬ ∀ (lua : Lua ℕ) (heap : LuaHeap ℕ) (object : LuaValue ℕ), heap.Closed → heap.Valid object →
      (∀ p ∈ heap.keys, heap.metafield p "__pairs" = none ∧ heap.metafield p "__metatable" = none) →
      ∃ depth, Cloned lua heap object depth := by
  constructor
  · intro h
    obtain ⟨depth, object', heap', f, hclone, -⟩ := h (Lua.simple ℕ)
      ((AList.insert 1 ⟨∅, some 2⟩ ∅).insert 2
        ⟨AList.insert (.string "__metatable") (.string "locked") ∅, none⟩)
      (.table 1) (by decide +kernel) (by decide +kernel) (by decide +kernel)
    cases depth <;> cases hclone
  · intro h
    obtain ⟨depth, object', heap', f, hclone, -⟩ := h (Lua.simple ℕ)
      ((AList.insert 1 ⟨∅, some 2⟩ ∅).insert 2
        ⟨AList.insert (.string "__index") (.table 2) ∅, some 2⟩)
      (.table 1) (by decide +kernel) (by decide +kernel) (by decide +kernel)
    cases depth <;> cases hclone

end LuaHeap

end CodeTest
