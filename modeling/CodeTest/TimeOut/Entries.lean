import CodeTest.TimeOut.Live

/-!
# The entries of the slots

A task that is pushed stands in the slot of its deadline, under its flag, until it is popped, even
if its flag is given to another task with another deadline. `entry m (d, f)` is the task at such a
place; the lemmas say what each operation does to the entries, of any manager.

`expired m order now` are the entries that a check takes out, in the order in which it goes through
them.
-/

namespace CodeTest.TimeOutManager

variable {N F T : Type*} [DecidableEq N] [DecidableEq F] {m : TimeOutManager N F T}

/-- The task with a deadline and a flag. -/
def entry (m : TimeOutManager N F T) (p : N × F) : Option T :=
  ((m.tTimeSlot.lookup p.1).getD ∅).lookup p.2

/-- The entries of the slots of the seconds `is`, each slot being gone through once. -/
def expiredIn [IntCast N] (order : PairsOrder F T) :
    Table N (Table F T) → List ℤ → List ((N × F) × T)
  | _, [] => []
  | slots, i :: is =>
    ((order.pairs ((slots.lookup (i : N)).getD ∅)).map fun e => (((i : N), e.1), e.2)) ++
      expiredIn order (slots.erase (i : N)) is

/-- The entries that expire in a check. -/
def expired [IntCast N] (m : TimeOutManager N F T) (order : PairsOrder F T) (now : ℤ) :
    List ((N × F) × T) :=
  expiredIn order m.tTimeSlot (seconds m.nPreTime now)

theorem entry_ctor (now : ℤ) (p : N × F) : (ctor now : TimeOutManager N F T).entry p = none := by
  rw [entry, ctor, AList.lookup_empty]
  rfl

theorem get_eq_some_iff {flag : F} {task : T} : m.get flag = some task ↔
    ∃ d, m.tFlag2TS.lookup flag = some d ∧ m.entry (d, flag) = some task := by
  rw [get]
  cases m.tFlag2TS.lookup flag with
  | none => simp
  | some d => simp [entry]

theorem entry_push [IntCast N] [Add N] [One N] [LE N] [DecidableLE N] (m : TimeOutManager N F T)
    (flag : F) (time : N) (task : T) (now : ℤ) (p : N × F) :
    (m.push flag time task now).entry p =
      if p = (ddl time now, flag) then some task else m.entry p := by
  obtain ⟨d, f⟩ := p
  simp only [entry, push, Table.lookup_insert_eq, Prod.mk.injEq]
  by_cases hd : d = ddl time now
  · rw [if_pos hd, Option.getD_some, Table.lookup_insert_eq, hd]
    simp only [true_and]
  · rw [if_neg hd, if_neg fun h => hd h.1]

theorem entry_of_entry_pop [LuaKey F] {order : PairsOrder F T} {flag : F} {p : N × F} {task : T}
    (h : (m.pop flag order).2.entry p = some task) : m.entry p = some task := by
  obtain ⟨d, f⟩ := p
  unfold pop at h
  cases hflag : m.tFlag2TS.lookup flag with
  | none => rwa [hflag] at h
  | some nDDL =>
    rw [hflag] at h
    simp only at h
    cases hslot : m.tTimeSlot.lookup nDDL with
    | none => rwa [hslot] at h
    | some tSlot =>
      rw [hslot] at h
      simp only at h
      split_ifs at h
      · simp only [entry, Table.lookup_insert_eq] at h
        split_ifs at h with hd
        · rw [Option.getD_some, Table.lookup_erase_eq] at h
          split_ifs at h
          rw [entry, hd, hslot, Option.getD_some]
          exact h
        · exact h
      · simp only [entry, Table.lookup_erase_eq] at h
        split_ifs at h
        · cases h
        · exact h

/-! ## popTimeOut -/

section PopTimeOut

variable [IntCast N] (order : PairsOrder F T)

omit [DecidableEq F] in
theorem mem_places_expiredIn {slots : Table N (Table F T)} {is : List ℤ} {p : N × F}
    (h : p ∈ (expiredIn order slots is).map Prod.fst) : ∃ i ∈ is, (i : N) = p.1 := by
  induction is generalizing slots with
  | nil => cases h
  | cons i is ih =>
    rw [expiredIn, List.map_append, List.mem_append, List.map_map] at h
    rcases h with h | h
    · obtain ⟨e, -, rfl⟩ := List.mem_map.mp h
      exact ⟨i, List.mem_cons_self, rfl⟩
    · obtain ⟨j, hj, hp⟩ := ih h
      exact ⟨j, List.mem_cons_of_mem i hj, hp⟩

theorem lookup_of_mem_expiredIn {slots : Table N (Table F T)} {is : List ℤ} {e : (N × F) × T}
    (h : e ∈ expiredIn order slots is) :
    ((slots.lookup e.1.1).getD ∅).lookup e.1.2 = some e.2 := by
  induction is generalizing slots with
  | nil => cases h
  | cons i is ih =>
    rcases List.mem_append.mp h with h | h
    · obtain ⟨⟨f, t⟩, hft, rfl⟩ := List.mem_map.mp h
      exact (Table.mem_pairs order _).mp hft
    · have hlookup := ih h
      rw [Table.lookup_erase_eq] at hlookup
      split_ifs at hlookup
      · cases hlookup
      · exact hlookup

theorem nodup_places_expiredIn (slots : Table N (Table F T)) (is : List ℤ) :
    ((expiredIn order slots is).map Prod.fst).Nodup := by
  induction is generalizing slots with
  | nil => exact List.nodup_nil
  | cons i is ih =>
    rw [expiredIn, List.map_append, List.nodup_append']
    refine ⟨?_, ih _, ?_⟩
    · have hnodup := (order.nodup_keys ((slots.lookup (i : N)).getD ∅)).map
        (Prod.mk_right_injective (i : N))
      rwa [List.map_map] at hnodup ⊢
    · intro p hp hrest
      obtain ⟨e, he, rfl⟩ := List.mem_map.mp hrest
      rw [List.map_map] at hp
      obtain ⟨e', -, heq⟩ := List.mem_map.mp hp
      -- the slot of the second `i` is taken out
      have hlookup := lookup_of_mem_expiredIn order he
      have hi : e.1.1 = (i : N) := by
        rw [← heq]
        rfl
      rw [Table.lookup_erase_eq, if_pos hi] at hlookup
      cases hlookup

/-- What the loop of `popTimeOut` pops, and the slots that it leaves. -/
theorem foldl_popSecond_eq (is : List ℤ) (r : TimeOutManager N F T × List T) :
    (is.foldl (popSecond order) r).2 =
        r.2 ++ (expiredIn order r.1.tTimeSlot is).map Prod.snd ∧
      ∀ d, (is.foldl (popSecond order) r).1.tTimeSlot.lookup d =
        if ∃ i ∈ is, (i : N) = d then none else r.1.tTimeSlot.lookup d := by
  induction is generalizing r with
  | nil => exact ⟨(List.append_nil _).symm, fun d => (if_neg (by simp)).symm⟩
  | cons i is ih =>
    have hsecond : (popSecond order r i).2 =
          r.2 ++ (order.pairs ((r.1.tTimeSlot.lookup (i : N)).getD ∅)).map Sigma.snd ∧
        (popSecond order r i).1.tTimeSlot = r.1.tTimeSlot.erase (i : N) := by
      cases hslot : r.1.tTimeSlot.lookup (i : N) with
      | none =>
        rw [popSecond_of_none order hslot, Option.getD_none, order.pairs_empty]
        exact ⟨(List.append_nil _).symm, (Table.erase_of_lookup_eq_none hslot).symm⟩
      | some tSlot =>
        rw [popSecond_of_some order hslot]
        exact ⟨rfl, rfl⟩
    obtain ⟨hout, hslots⟩ := ih (popSecond order r i)
    rw [List.foldl_cons, hout, hsecond.1, hsecond.2]
    refine ⟨?_, fun d => ?_⟩
    · rw [expiredIn, List.map_append, List.map_map, List.append_assoc]
      rfl
    · rw [hslots, hsecond.2, Table.lookup_erase_eq]
      by_cases hd : d = i
      · rw [hd, if_pos rfl, ite_self, if_pos ⟨i, List.mem_cons_self, rfl⟩]
      · rw [if_neg hd]
        refine if_congr ?_ rfl rfl
        simp only [List.mem_cons, exists_eq_or_imp, Ne.symm hd, false_or]

theorem popTimeOut_fst (m : TimeOutManager N F T) (now : ℤ) :
    (m.popTimeOut order now).1 = (m.expired order now).map Prod.snd :=
  (foldl_popSecond_eq order (seconds m.nPreTime now) (m, [])).1

theorem nodup_expired (m : TimeOutManager N F T) (now : ℤ) :
    ((m.expired order now).map Prod.fst).Nodup :=
  nodup_places_expiredIn order _ _

theorem entry_of_mem_expired {now : ℤ} {e : (N × F) × T} (he : e ∈ m.expired order now) :
    m.entry e.1 = some e.2 :=
  lookup_of_mem_expiredIn order he

/-- What is left was there, and has not expired. -/
theorem entry_of_entry_popTimeOut {now : ℤ} {p : N × F} {task : T}
    (h : (m.popTimeOut order now).2.entry p = some task) :
    m.entry p = some task ∧ p ∉ (m.expired order now).map Prod.fst := by
  rw [entry, popTimeOut] at h
  simp only [(foldl_popSecond_eq order (seconds m.nPreTime now) (m, [])).2] at h
  split_ifs at h with hp
  · cases h
  · exact ⟨h, fun hmem => hp (mem_places_expiredIn order hmem)⟩

end PopTimeOut

end CodeTest.TimeOutManager
