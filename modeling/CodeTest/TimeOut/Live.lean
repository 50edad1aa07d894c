import CodeTest.TimeOut.Manager

/-!
# The live tasks after each operation

`live` after `push`, `pop` and `popTimeOut`, and that the operations keep a manager linked. `push`
and `pop` act on `live` at one flag, whether or not the manager is linked, `pop` if no flag is
`false`. `popTimeOut` removes, from a linked manager, exactly the tasks whose deadline is one of the
seconds it goes through, and hands each of them out once (`Linked.popTimeOut`).
-/

namespace CodeTest.TimeOutManager

variable {N F T : Type*} [DecidableEq N] [DecidableEq F] {m : TimeOutManager N F T} {f : F}

/-! ## push -/

section Push

variable [IntCast N] [Add N] [One N] [LE N] [DecidableLE N]

theorem live_push (m : TimeOutManager N F T) (flag : F) (time : N) (task : T) (now : ℤ) (f : F) :
    (m.push flag time task now).live f =
      if f = flag then some (ddl time now, task) else m.live f := by
  unfold live push
  simp only [Table.lookup_insert_eq]
  split_ifs with h
  · subst h
    simp
  · cases m.tFlag2TS.lookup f with
    | none => rfl
    | some d =>
      simp only [Option.bind_some]
      split_ifs with hd
      · subst hd
        rw [Option.getD_some, Table.lookup_insert_eq, if_neg h]
      · rfl

theorem Linked.push (h : m.Linked) {flag : F} (hflag : m.live flag = none) (time : N) (task : T)
    (now : ℤ) : (m.push flag time task now).Linked := by
  have hfree := h.lookup_flag_eq_none_iff.mpr hflag
  constructor
  · intro f d
    simp only [TimeOutManager.push, Table.lookup_insert_eq]
    by_cases hf : f = flag
    · subst hf
      rw [if_pos rfl, Option.some_inj]
      constructor
      · rintro rfl
        exact ⟨_, if_pos rfl, by simp⟩
      · rintro ⟨tSlot, hslot, hmem⟩
        by_contra hne
        rw [if_neg (Ne.symm hne)] at hslot
        have := (h.flag_iff f d).mpr ⟨tSlot, hslot, hmem⟩
        rw [hfree] at this
        exact absurd this (by simp)
    · rw [if_neg hf, h.flag_iff]
      by_cases hd : d = ddl time now
      · subst hd
        simp only [if_true, Option.some_inj, exists_eq_left', AList.mem_insert, hf, false_or]
        cases hslot : m.tTimeSlot.lookup (ddl time now) with
        | none => simp
        | some tSlot => simp
      · simp only [if_neg hd]
  · intro d tSlot
    simp only [TimeOutManager.push, Table.lookup_insert_eq]
    split_ifs with hd
    · intro heq hnil
      rw [← Option.some_inj.mp heq, Table.entries_eq_nil_iff] at hnil
      have := hnil flag
      rw [Table.lookup_insert_eq, if_pos rfl] at this
      exact absurd this (by simp)
    · exact h.slot_ne d tSlot

end Push

/-! ## pop -/

section Pop

variable [LuaKey F] (order : PairsOrder F T)

/-- In a manager without the flag `false`, what is left of a slot is taken out if nothing is. -/
theorem Truthy.testNext_erase (h : m.Truthy) {nDDL : N} {tSlot : Table F T}
    (hslot : m.tTimeSlot.lookup nDDL = some tSlot) (flag : F) :
    order.testNext (tSlot.erase flag) = false ↔ (tSlot.erase flag).entries = [] :=
  order.testNext_eq_false_iff fun f hf => h.slot nDDL tSlot hslot f (AList.mem_erase.mp hf).2

theorem pop_fst (m : TimeOutManager N F T) (flag : F) :
    (m.pop flag order).1 = (m.live flag).map Prod.snd := by
  unfold pop live
  cases m.tFlag2TS.lookup flag with
  | none => rfl
  | some d =>
    simp only [Option.bind_some, Option.map_map, Function.comp_def, Option.map_id']
    cases m.tTimeSlot.lookup d with
    | none => rfl
    | some tSlot =>
      simp only
      split_ifs <;> rfl

theorem Truthy.live_pop (h : m.Truthy) (flag f : F) :
    (m.pop flag order).2.live f = if f = flag then none else m.live f := by
  unfold TimeOutManager.pop
  cases hflag : m.tFlag2TS.lookup flag with
  | none =>
    simp only
    split_ifs with h
    · rw [h, live, hflag, Option.bind_none]
    · rfl
  | some nDDL =>
    simp only
    cases hslot : m.tTimeSlot.lookup nDDL with
    | none =>
      simp only [live, Table.lookup_erase_eq]
      split_ifs with hf <;> rfl
    | some tSlot =>
      simp only [Bool.not_eq_true, h.testNext_erase order hslot]
      by_cases h : f = flag
      · subst h
        rw [if_pos rfl]
        split_ifs with hnil <;> simp [live]
      · rw [if_neg h]
        split_ifs with hnil
        · simp only [live, Table.lookup_erase_eq, if_neg h]
          refine Option.bind_congr fun d _ => ?_
          split_ifs with hd
          · subst hd
            have := (Table.entries_eq_nil_iff _).mp hnil f
            rw [Table.lookup_erase_eq, if_neg h] at this
            rw [hslot, Option.getD_some, this]
            simp
          · rfl
        · simp only [live, Table.lookup_erase_eq, if_neg h, Table.lookup_insert_eq]
          refine Option.bind_congr fun d _ => ?_
          split_ifs with hd
          · subst hd
            rw [Option.getD_some, Table.lookup_erase_eq, if_neg h, hslot, Option.getD_some]
          · rfl

theorem nPreTime_pop (m : TimeOutManager N F T) (flag : F) :
    (m.pop flag order).2.nPreTime = m.nPreTime := by
  unfold pop
  cases m.tFlag2TS.lookup flag with
  | none => rfl
  | some nDDL =>
    simp only
    cases m.tTimeSlot.lookup nDDL with
    | none => rfl
    | some tSlot =>
      simp only
      split_ifs <;> rfl

end Pop

/-- A slot is taken out, and the flags in it lose their deadline. -/
theorem Linked.eraseSlot (h : m.Linked) {nDDL : N} {tSlot : Table F T}
    (hslot : m.tTimeSlot.lookup nDDL = some tSlot) {tFlag2TS : Table F N}
    (hflag : ∀ f, tFlag2TS.lookup f = if f ∈ tSlot then none else m.tFlag2TS.lookup f) :
    ({ m with tTimeSlot := m.tTimeSlot.erase nDDL, tFlag2TS } :
      TimeOutManager N F T).Linked := by
  constructor
  · intro f d
    simp only [hflag, Table.lookup_erase_eq]
    by_cases hd : d = nDDL
    · subst hd
      by_cases hf : f ∈ tSlot
      · simp [hf]
      · have hother := (h.flag_iff f d).not.mpr (by simpa [hslot] using hf)
        simpa [hf] using hother
    · by_cases hf : f ∈ tSlot
      · have hown := (h.flag_iff f nDDL).mpr ⟨tSlot, hslot, hf⟩
        have hother := (h.flag_iff f d).not.mp (by rw [hown, Option.some_inj]; exact Ne.symm hd)
        simpa [hf, hd] using hother
      · simp [hf, hd, h.flag_iff]
  · intro d s
    simp only [Table.lookup_erase_eq]
    split_ifs with hd
    · simp
    · exact h.slot_ne d s

theorem Linked.pop [LuaKey F] (h : m.Linked) (htruthy : m.Truthy) (flag : F)
    (order : PairsOrder F T) : (m.pop flag order).2.Linked := by
  unfold TimeOutManager.pop
  cases hflag : m.tFlag2TS.lookup flag with
  | none => exact h
  | some nDDL =>
    obtain ⟨tSlot, task, hslot, htask⟩ := h.exists_slot hflag
    simp only [hslot, Bool.not_eq_true, htruthy.testNext_erase order hslot]
    split_ifs with hnil
    · -- the flag is the only one in its slot
      apply h.eraseSlot hslot
      intro f
      rw [Table.lookup_erase_eq]
      refine if_congr ?_ rfl rfl
      have hempty := (Table.entries_eq_nil_iff _).mp hnil f
      rw [Table.lookup_erase_eq] at hempty
      rw [← AList.lookup_isSome]
      by_cases hf : f = flag
      · subst hf
        simp [htask]
      · rw [if_neg hf] at hempty
        simp [hf, hempty]
    · constructor
      · intro f d
        simp only [Table.lookup_erase_eq, Table.lookup_insert_eq]
        by_cases hf : f = flag
        · subst hf
          by_cases hd : d = nDDL
          · simp [hd]
          · -- the flag was in its own slot only
            have hother := (h.flag_iff f d).not.mp (by
              rw [hflag, Option.some_inj]
              exact Ne.symm hd)
            simpa [hd] using hother
        · rw [if_neg hf, h.flag_iff]
          by_cases hd : d = nDDL
          · subst hd
            simp [hslot, hf]
          · simp [hd]
      · intro d s
        simp only [Table.lookup_insert_eq]
        split_ifs with hd
        · intro heq
          rwa [← Option.some_inj.mp heq]
        · exact h.slot_ne d s

/-! ## popTimeOut -/

section PopTimeOut

variable [IntCast N] (order : PairsOrder F T)

/-- The slot of a second is taken out, the flags in it lose their deadline, and its tasks are handed
out. -/
theorem popSecond_of_some {r : TimeOutManager N F T × List T} {i : ℤ} {tSlot : Table F T}
    (h : r.1.tTimeSlot.lookup (i : N) = some tSlot) :
    popSecond order r i =
      ({ r.1 with
          tTimeSlot := r.1.tTimeSlot.erase (i : N)
          tFlag2TS := ((order.pairs tSlot).map Sigma.fst).foldl (fun t k => t.erase k)
            r.1.tFlag2TS },
        r.2 ++ (order.pairs tSlot).map Sigma.snd) := by
  have hfold : ∀ (es : List (Σ _ : F, T)) (m : TimeOutManager N F T) (acc : List T),
      es.foldl (fun r e => ({ r.1 with tFlag2TS := r.1.tFlag2TS.erase e.1 }, r.2 ++ [e.2]))
          (m, acc) =
        ({ m with tFlag2TS := (es.map Sigma.fst).foldl (fun t k => t.erase k) m.tFlag2TS },
          acc ++ es.map Sigma.snd) := by
    intro es
    induction es with
    | nil => simp
    | cons e es ih =>
      intro m acc
      rw [List.foldl_cons, ih]
      simp
  rw [popSecond, h]
  exact hfold _ _ _

theorem popSecond_of_none {r : TimeOutManager N F T × List T} {i : ℤ}
    (h : r.1.tTimeSlot.lookup (i : N) = none) : popSecond order r i = r := by
  rw [popSecond, h]

/-- A second makes no task live and moves none. -/
theorem live_of_live_popSecond {r : TimeOutManager N F T × List T} {i : ℤ} {x : N × T}
    (hx : (popSecond order r i).1.live f = some x) : r.1.live f = some x := by
  cases hslot : r.1.tTimeSlot.lookup (i : N) with
  | none => rwa [popSecond_of_none order hslot] at hx
  | some tSlot =>
    obtain ⟨d, t⟩ := x
    rw [popSecond_of_some order hslot, live_eq_some_iff] at hx
    simp only [Table.lookup_foldl_erase, Table.lookup_erase_eq] at hx
    split_ifs at hx with h₁ h₂
    · simp at hx
    · simp at hx
    · simp at hx
    · exact live_eq_some_iff.mpr hx

/-- What one second does to a linked manager. -/
theorem Linked.popSecond {r : TimeOutManager N F T × List T} (h : r.1.Linked) (i : ℤ) :
    ∃ es : List (Σ _ : F, T),
      (popSecond order r i).2 = r.2 ++ es.map Sigma.snd ∧
      (es.map Sigma.fst).Nodup ∧
      (∀ f t, ⟨f, t⟩ ∈ es ↔ r.1.live f = some ((i : N), t)) ∧
      (∀ f, (popSecond order r i).1.live f =
        if f ∈ es.map Sigma.fst then none else r.1.live f) ∧
      (popSecond order r i).1.Linked := by
  cases hslot : r.1.tTimeSlot.lookup (i : N) with
  | none =>
    rw [popSecond_of_none order hslot]
    refine ⟨[], by simp, by simp, fun f t => ?_, by simp, h⟩
    rw [h.live_eq_some_iff, hslot]
    simp
  | some tSlot =>
    rw [popSecond_of_some order hslot]
    refine ⟨order.pairs tSlot, rfl, order.nodup_keys tSlot, fun f t => ?_, fun f => ?_, ?_⟩
    · rw [Table.mem_pairs, h.live_eq_some_iff, hslot]
      simp
    · simp only [live, Table.lookup_foldl_erase]
      by_cases hf : f ∈ (order.pairs tSlot).map Sigma.fst
      · rw [if_pos hf, if_pos hf, Option.bind_none]
      · rw [if_neg hf, if_neg hf]
        refine Option.bind_congr fun d hd => ?_
        rw [Table.lookup_erase_eq, if_neg]
        rintro rfl
        obtain ⟨s, hs, hfs⟩ := (h.flag_iff f (i : N)).mp hd
        rw [hslot, Option.some_inj] at hs
        exact hf ((Table.mem_keys_pairs order tSlot).mpr (hs ▸ hfs))
    · apply h.eraseSlot hslot
      intro f
      rw [Table.lookup_foldl_erase]
      exact if_congr (Table.mem_keys_pairs order tSlot) rfl rfl

/-- What the loop of `popTimeOut` does to a linked manager. -/
theorem Linked.foldl_popSecond (is : List ℤ) {r : TimeOutManager N F T × List T}
    (h : r.1.Linked) :
    ∃ es : List (Σ _ : F, T),
      (is.foldl (TimeOutManager.popSecond order) r).2 = r.2 ++ es.map Sigma.snd ∧
      (es.map Sigma.fst).Nodup ∧
      (∀ f t, ⟨f, t⟩ ∈ es ↔ ∃ i ∈ is, r.1.live f = some ((i : N), t)) ∧
      (∀ f, (is.foldl (TimeOutManager.popSecond order) r).1.live f =
        if f ∈ es.map Sigma.fst then none else r.1.live f) ∧
      (is.foldl (TimeOutManager.popSecond order) r).1.Linked := by
  induction is generalizing r with
  | nil => exact ⟨[], by simp, by simp, by simp, by simp, h⟩
  | cons i is ih =>
    obtain ⟨es₁, hout₁, hnd₁, hmem₁, hlive₁, hlinked₁⟩ := h.popSecond order i
    obtain ⟨es₂, hout₂, hnd₂, hmem₂, hlive₂, hlinked₂⟩ := ih hlinked₁
    -- what is popped later is not among what was popped at `i`
    have hmem₂' : ∀ f t, ⟨f, t⟩ ∈ es₂ → f ∉ es₁.map Sigma.fst ∧
        ∃ i ∈ is, r.1.live f = some ((i : N), t) := by
      intro f t hft
      obtain ⟨j, hj, hlive⟩ := (hmem₂ f t).mp hft
      rw [hlive₁] at hlive
      split_ifs at hlive with hf
      exact ⟨hf, j, hj, hlive⟩
    refine ⟨es₁ ++ es₂, ?_, ?_, fun f t => ?_, fun f => ?_, hlinked₂⟩
    · rw [List.foldl_cons, hout₂, hout₁, List.map_append, List.append_assoc]
    · rw [List.map_append, List.nodup_append']
      refine ⟨hnd₁, hnd₂, fun f hf₁ hf₂ => ?_⟩
      obtain ⟨⟨f', t⟩, hft, rfl⟩ := List.mem_map.mp hf₂
      exact (hmem₂' f' t hft).1 hf₁
    · rw [List.mem_append]
      constructor
      · rintro (hft | hft)
        · exact ⟨i, by simp, (hmem₁ f t).mp hft⟩
        · obtain ⟨-, j, hj, hlive⟩ := hmem₂' f t hft
          exact ⟨j, by simp [hj], hlive⟩
      · rintro ⟨j, hj, hlive⟩
        by_cases hf : f ∈ es₁.map Sigma.fst
        · left
          obtain ⟨⟨f', t'⟩, hft, rfl⟩ := List.mem_map.mp hf
          have := (hmem₁ f' t').mp hft
          rw [this, Option.some_inj, Prod.mk.injEq] at hlive
          obtain ⟨-, rfl⟩ := hlive
          exact hft
        · right
          rcases List.mem_cons.mp hj with rfl | hj
          · exact absurd (List.mem_map_of_mem ((hmem₁ f t).mpr hlive)) hf
          · exact (hmem₂ f t).mpr ⟨j, hj, by rw [hlive₁, if_neg hf]; exact hlive⟩
    · rw [List.foldl_cons, hlive₂, hlive₁, List.map_append]
      by_cases hf₁ : f ∈ es₁.map Sigma.fst <;> by_cases hf₂ : f ∈ es₂.map Sigma.fst <;>
        simp only [List.mem_append, hf₁, hf₂, or_true, true_or, or_self, if_true, if_false]

theorem mem_seconds {a b i : ℤ} : i ∈ seconds a b ↔ a ≤ i ∧ i ≤ b := by
  simp only [seconds, List.mem_map, List.mem_range]
  constructor
  · rintro ⟨k, hk, rfl⟩
    omega
  · rintro ⟨h₁, h₂⟩
    exact ⟨(i - a).toNat, by omega, by omega⟩

/-- **What `popTimeOut` does to a linked manager**: the tasks handed out are those of the entries
`es`, each flag once; the entries are the live tasks whose deadline is a second from `nPreTime` to
now; and they are live no more. -/
theorem Linked.popTimeOut (h : m.Linked) (now : ℤ) :
    ∃ es : List (Σ _ : F, T),
      (m.popTimeOut order now).1 = es.map Sigma.snd ∧
      (es.map Sigma.fst).Nodup ∧
      (∀ f t, ⟨f, t⟩ ∈ es ↔
        ∃ i : ℤ, m.nPreTime ≤ i ∧ i ≤ now ∧ m.live f = some ((i : N), t)) ∧
      (∀ f, (m.popTimeOut order now).2.live f =
        if f ∈ es.map Sigma.fst then none else m.live f) ∧
      (m.popTimeOut order now).2.Linked := by
  obtain ⟨es, hout, hnd, hmem, hlive, hlinked⟩ :=
    h.foldl_popSecond order (seconds m.nPreTime now) (r := (m, []))
  refine ⟨es, by simpa [TimeOutManager.popTimeOut] using hout, hnd, fun f t => ?_, hlive, ?_⟩
  · rw [hmem]
    simp only [mem_seconds, and_assoc]
  · exact ⟨hlinked.flag_iff, hlinked.slot_ne⟩

/-- `popTimeOut` makes no task live and moves none. -/
theorem live_of_live_popTimeOut {now : ℤ} {x : N × T}
    (hx : (m.popTimeOut order now).2.live f = some x) : m.live f = some x := by
  have hfold : ∀ (is : List ℤ) (r : TimeOutManager N F T × List T),
      (is.foldl (TimeOutManager.popSecond order) r).1.live f = some x → r.1.live f = some x := by
    intro is
    induction is with
    | nil => exact fun r hr => hr
    | cons i is ih => exact fun r hr => live_of_live_popSecond order (ih _ hr)
  exact hfold _ _ hx

end PopTimeOut

/-! ## Slots that are not missing -/

theorem slotted_ctor (now : ℤ) : (ctor now : TimeOutManager N F T).Slotted :=
  (linked_ctor now).slotted

/-- Also when the flag is in use. -/
theorem Slotted.push [IntCast N] [Add N] [One N] [LE N] [DecidableLE N] (h : m.Slotted) (flag : F)
    (time : N) (task : T) (now : ℤ) : (m.push flag time task now).Slotted := by
  intro f d
  simp only [TimeOutManager.push, Table.lookup_insert_eq]
  by_cases hf : f = flag
  · subst hf
    rw [if_pos rfl, Option.some_inj]
    rintro rfl
    exact ⟨_, if_pos rfl, by simp⟩
  · rw [if_neg hf]
    intro hd
    obtain ⟨tSlot, hslot, hmem⟩ := h f d hd
    by_cases hddl : d = ddl time now
    · subst hddl
      exact ⟨_, if_pos rfl, by simp [hslot, hmem]⟩
    · exact ⟨tSlot, by rw [if_neg hddl, hslot], hmem⟩

theorem Slotted.pop [LuaKey F] (h : m.Slotted) (htruthy : m.Truthy) (flag : F)
    (order : PairsOrder F T) : (m.pop flag order).2.Slotted := by
  unfold TimeOutManager.pop
  cases hflag : m.tFlag2TS.lookup flag with
  | none => exact h
  | some nDDL =>
    obtain ⟨tSlot, hslot, -⟩ := h flag nDDL hflag
    -- another flag of the slot is left in it, so that the slot is not taken out
    have hother : ∀ f d, (m.tFlag2TS.erase flag).lookup f = some d → f ≠ flag ∧
        ∃ tSlot', m.tTimeSlot.lookup d = some tSlot' ∧ f ∈ tSlot' := by
      intro f d hd
      rw [Table.lookup_erase_eq] at hd
      split_ifs at hd with hf
      exact ⟨hf, h f d hd⟩
    simp only [hslot, Bool.not_eq_true, htruthy.testNext_erase order hslot]
    split_ifs with hnil
    · intro f d hd
      obtain ⟨hf, tSlot', hslot', hmem⟩ := hother f d hd
      refine ⟨tSlot', ?_, hmem⟩
      simp only [Table.lookup_erase_eq]
      rw [if_neg, hslot']
      rintro rfl
      obtain rfl : tSlot = tSlot' := Option.some_inj.mp (hslot.symm.trans hslot')
      have hgone := (Table.entries_eq_nil_iff _).mp hnil f
      exact AList.lookup_eq_none.mp hgone (AList.mem_erase.mpr ⟨hf, hmem⟩)
    · intro f d hd
      obtain ⟨hf, tSlot', hslot', hmem⟩ := hother f d hd
      simp only [Table.lookup_insert_eq]
      by_cases hddl : d = nDDL
      · subst hddl
        obtain rfl : tSlot = tSlot' := Option.some_inj.mp (hslot.symm.trans hslot')
        exact ⟨_, if_pos rfl, AList.mem_erase.mpr ⟨hf, hmem⟩⟩
      · exact ⟨tSlot', by rw [if_neg hddl, hslot'], hmem⟩

theorem Slotted.popTimeOut [IntCast N] (h : m.Slotted) (order : PairsOrder F T) (now : ℤ) :
    (m.popTimeOut order now).2.Slotted := by
  have hsecond : ∀ (r : TimeOutManager N F T × List T) (i : ℤ), r.1.Slotted →
      (popSecond order r i).1.Slotted := by
    intro r i hr
    cases hslot : r.1.tTimeSlot.lookup (i : N) with
    | none => rwa [popSecond_of_none order hslot]
    | some tSlot =>
      rw [popSecond_of_some order hslot]
      intro f d hd
      simp only [Table.lookup_foldl_erase] at hd
      split_ifs at hd with hf
      obtain ⟨tSlot', hslot', hmem⟩ := hr f d hd
      refine ⟨tSlot', ?_, hmem⟩
      simp only [Table.lookup_erase_eq]
      rw [if_neg, hslot']
      rintro rfl
      obtain rfl : tSlot = tSlot' := Option.some_inj.mp (hslot.symm.trans hslot')
      exact hf ((Table.mem_keys_pairs order tSlot).mpr hmem)
  have hfold : ∀ (is : List ℤ) (r : TimeOutManager N F T × List T), r.1.Slotted →
      (is.foldl (popSecond order) r).1.Slotted := by
    intro is
    induction is with
    | nil => exact fun r hr => hr
    | cons i is ih => exact fun r hr => ih _ (hsecond r i hr)
  exact hfold _ _ h

end CodeTest.TimeOutManager
