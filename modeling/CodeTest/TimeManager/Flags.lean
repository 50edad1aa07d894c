import CodeTest.TimeManager.CTimerManager

/-!
# Timers that are scheduled under one flag

The map always leads to timers that are pending. To schedule a timer under a flag does not cancel
the timer that may be pending under it, which is then no longer in the map, and when it fires it
cancels the later one. As long as no timer is scheduled under a flag with a pending one, the map has
all pending timers and the flags are apart from each other.
-/

namespace CodeTest.CTimerManager

variable {Flag F : Type*} [DecidableEq Flag] {m : CTimerManager Flag F} {op : Op Flag F}
  {id id' : ℕ} {sFlag sFlag' : Flag}

/-! ## The map -/

/-- The map leads to pending timers of the flag. -/
def Registered (m : CTimerManager Flag F) : Prop :=
  ∀ sFlag id, m.m_Map.lookup sFlag = some id → m.pendingFlag id = some sFlag

/-- No flag has two pending timers, and the map leads to the one that it has. -/
structure Separate (m : CTimerManager Flag F) : Prop where
  unique : ∀ sFlag id id', m.pendingFlag id = some sFlag → m.pendingFlag id' = some sFlag → id = id'
  mapped : ∀ sFlag id, m.pendingFlag id = some sFlag → m.m_Map.lookup sFlag = some id

/-- What the operation `op` does to the timers of other flags, and the firing of a timer to other
timers: it does not cancel a pending timer unless it is on its flag, and a firing takes no other
timer out of the map. -/
structure Undisturbed (m : CTimerManager Flag F) (op : Op Flag F) : Prop where
  cancelled : ∀ id sFlag, m.pendingFlag id = some sFlag →
    (step m op).2.statusAt id = some .cancelled →
      op = .removeCallOut sFlag ∨ ∃ iTime oFunc, op = .callOut iTime sFlag oFunc
  fired : ∀ id', op = .fire id' → ∀ sFlag id, id ≠ id' → m.m_Map.lookup sFlag = some id →
    (step m op).2.m_Map.lookup sFlag = some id ∧ (step m op).2.statusAt id = m.statusAt id

/-- A timer is scheduled only under a flag with no pending one. -/
def FlagFree (m : CTimerManager Flag F) : Op Flag F → Prop
  | .callOut _ sFlag _ => ∀ t ∈ m.timers, t.status = .pending → t.sFlag ≠ sFlag
  | _ => True

instance (m : CTimerManager Flag F) : ∀ op, Decidable (m.FlagFree op)
  | .callOut _ sFlag _ =>
    inferInstanceAs (Decidable (∀ t ∈ m.timers, t.status = .pending → t.sFlag ≠ sFlag))
  | .removeCallOut _ => inferInstanceAs (Decidable True)
  | .fire _ => inferInstanceAs (Decidable True)

omit [DecidableEq Flag] in
theorem flagFree_callOut_iff (iTime : ℕ) (oFunc : F) :
    m.FlagFree (.callOut iTime sFlag oFunc) ↔ ∀ id, m.pendingFlag id ≠ some sFlag := by
  constructor
  · intro h id hid
    obtain ⟨t, ht, hstatus, hflag⟩ := pendingFlag_eq_some_iff.mp hid
    exact h t (List.mem_of_getElem? ht) hstatus hflag
  · intro h t ht hstatus hflag
    obtain ⟨id, hid⟩ := List.mem_iff_getElem?.mp ht
    exact h id (pendingFlag_eq_some_iff.mpr ⟨t, hid, hstatus, hflag⟩)

theorem registered_init : (init : CTimerManager Flag F).Registered := by
  intro sFlag id h
  rw [init, AList.lookup_empty] at h
  cases h

theorem separate_init : (init : CTimerManager Flag F).Separate where
  unique sFlag id id' h := by cases h
  mapped sFlag id h := by cases h

/-- Two flags do not lead to one timer. -/
theorem Registered.inj (h : m.Registered) (hid : m.m_Map.lookup sFlag = some id)
    (hid' : m.m_Map.lookup sFlag' = some id) : sFlag = sFlag' :=
  Option.some_inj.mp ((h sFlag id hid).symm.trans (h sFlag' id hid'))

theorem Registered.removeCallOut (h : m.Registered) (sFlag : Flag) :
    (m.removeCallOut sFlag).Registered := by
  intro sFlag' id hid
  rw [removeCallOut_map] at hid
  split_ifs at hid with hne
  rw [removeCallOut_pendingFlag, if_neg, h sFlag' id hid]
  intro hid'
  exact hne (h.inj hid hid')

theorem Registered.callOut (h : m.Registered) (iTime : ℕ) (sFlag : Flag) (oFunc : F) :
    (m.callOut iTime sFlag oFunc).Registered := by
  intro sFlag' id hid
  rw [callOut_pendingFlag]
  rw [CTimerManager.callOut, Table.lookup_insert_eq] at hid
  split_ifs at hid with hflag
  · obtain rfl := Option.some_inj.mp hid
    rw [if_pos rfl, hflag]
  · have hpending := h sFlag' id hid
    rw [if_neg (Nat.ne_of_lt (lt_of_pendingFlag hpending)), hpending]

/-- What the map has for other flags than that of a timer that fires. -/
theorem Registered.fire (h : m.Registered) (id : ℕ) : (m.fire id).2.Registered := by
  rcases m.fire_cases id with ⟨t, ht, hstatus, hfire⟩ | ⟨-, hfire⟩
  · rw [hfire]
    have hflag := pendingFlag_eq_some_iff.mpr ⟨t, ht, hstatus, rfl⟩
    intro sFlag id' hid'
    rw [removeCallOut_map] at hid'
    split_ifs at hid' with hne
    rw [removeCallOut_pendingFlag, if_neg, fired_pendingFlag ht, if_neg]
    · exact h sFlag id' hid'
    · rintro rfl
      exact hne (Option.some_inj.mp ((h sFlag id' hid').symm.trans hflag))
    · intro hid
      exact hne (h.inj hid' hid)
  · rw [hfire]
    exact h

/-- **The map leads to pending timers** after every operation. -/
theorem Registered.step (h : m.Registered) (op : Op Flag F) : (step m op).2.Registered := by
  cases op with
  | callOut iTime sFlag oFunc => exact h.callOut iTime sFlag oFunc
  | removeCallOut sFlag => exact h.removeCallOut sFlag
  | fire id => exact h.fire id

/-! ## One operation -/

theorem separate_of_mapped
    (hmapped : ∀ sFlag id, m.pendingFlag id = some sFlag → m.m_Map.lookup sFlag = some id) :
    m.Separate where
  unique sFlag id id' hid hid' :=
    Option.some_inj.mp ((hmapped sFlag id hid).symm.trans (hmapped sFlag id' hid'))
  mapped := hmapped

theorem Separate.removeCallOut (h : m.Separate) (sFlag : Flag) :
    (m.removeCallOut sFlag).Separate := by
  apply separate_of_mapped
  intro sFlag' id hid
  rw [removeCallOut_pendingFlag] at hid
  split_ifs at hid with hne
  rw [removeCallOut_map, if_neg, h.mapped sFlag' id hid]
  rintro rfl
  exact hne (h.mapped _ id hid)

theorem Separate.callOut (h : m.Separate) (iTime : ℕ) (oFunc : F)
    (hfree : ∀ id, m.pendingFlag id ≠ some sFlag) : (m.callOut iTime sFlag oFunc).Separate := by
  apply separate_of_mapped
  intro sFlag' id hid
  rw [callOut_pendingFlag] at hid
  rw [CTimerManager.callOut, Table.lookup_insert_eq]
  split_ifs at hid with hlength
  · obtain rfl := Option.some_inj.mp hid
    rw [if_pos rfl, hlength]
  · have hne : sFlag' ≠ sFlag := by
      rintro rfl
      exact hfree id hid
    rw [if_neg hne, h.mapped sFlag' id hid]

/-- A timer that is scheduled next to a pending one of its flag: there are two then. -/
theorem not_separate_callOut {iTime : ℕ} {oFunc : F} (hid : m.pendingFlag id = some sFlag) :
    ¬ (m.callOut iTime sFlag oFunc).Separate := by
  intro h
  have hlt := lt_of_pendingFlag hid
  have hold : (m.callOut iTime sFlag oFunc).pendingFlag id = some sFlag := by
    rw [callOut_pendingFlag, if_neg hlt.ne, hid]
  have hnew : (m.callOut iTime sFlag oFunc).pendingFlag m.timers.length = some sFlag := by
    rw [callOut_pendingFlag, if_pos rfl]
  exact hlt.ne (h.unique sFlag _ _ hold hnew)

/-- The timer that fires is the one that the map has, so that it removes itself. -/
theorem Separate.fire_timers (h : m.Separate) {t : ThreadingTimer Flag F}
    (ht : m.timers[id]? = some t) (hstatus : t.status = .pending) (id' : ℕ) :
    ((m.fired id t).removeCallOut t.sFlag).timers[id']? =
      if id' = id then some { t with status := .fired } else m.timers[id']? := by
  have hmap : (m.fired id t).m_Map.lookup t.sFlag = some id :=
    h.mapped _ _ (pendingFlag_eq_some_iff.mpr ⟨t, ht, hstatus, rfl⟩)
  rw [removeCallOut_timers, fired_timers ht, hmap]
  by_cases hid : id' = id
  · simp [hid, ThreadingTimer.cancel]
  · rw [if_neg hid, if_neg fun heq => hid (Option.some_inj.mp heq).symm]

theorem Separate.fire (h : m.Separate) (id : ℕ) : (m.fire id).2.Separate := by
  rcases m.fire_cases id with ⟨t, ht, hstatus, hfire⟩ | ⟨-, hfire⟩
  · rw [hfire]
    apply separate_of_mapped
    intro sFlag id' hid'
    rw [pendingFlag, h.fire_timers ht hstatus] at hid'
    split_ifs at hid' with hid
    · simp at hid'
    · have hmap' := h.mapped sFlag id' hid'
      have hmap := h.mapped _ _ (pendingFlag_eq_some_iff.mpr ⟨t, ht, hstatus, rfl⟩)
      rw [removeCallOut_map, if_neg]
      · exact hmap'
      · rintro rfl
        exact hid (Option.some_inj.mp (hmap'.symm.trans hmap))
  · rw [hfire]
    exact h

/-- **One operation** keeps the flags separate exactly if it does not schedule a timer under a flag
with a pending one. -/
theorem Separate.step_iff (h : m.Separate) (op : Op Flag F) :
    (step m op).2.Separate ↔ m.FlagFree op := by
  cases op with
  | callOut iTime sFlag oFunc =>
    rw [flagFree_callOut_iff]
    constructor
    · intro hsep id hid
      exact not_separate_callOut hid hsep
    · exact h.callOut iTime oFunc
  | removeCallOut sFlag => exact iff_of_true (h.removeCallOut sFlag) trivial
  | fire id => exact iff_of_true (h.fire id) trivial

/-- A firing leaves the other timers as they are. -/
theorem Separate.statusAt_fire (h : m.Separate) (hid : id' ≠ id) :
    (m.fire id).2.statusAt id' = m.statusAt id' := by
  rcases m.fire_cases id with ⟨t, ht, hstatus, hfire⟩ | ⟨-, hfire⟩
  · rw [hfire, statusAt, h.fire_timers ht hstatus, if_neg hid, statusAt]
  · rw [hfire]

/-- A firing leaves the other timers in the map. -/
theorem Separate.map_fire (h : m.Separate) (hid : id' ≠ id)
    (hmap : m.m_Map.lookup sFlag = some id') : (m.fire id).2.m_Map.lookup sFlag = some id' := by
  rcases m.fire_cases id with ⟨t, ht, hstatus, hfire⟩ | ⟨-, hfire⟩
  · have hmap' := h.mapped _ _ (pendingFlag_eq_some_iff.mpr ⟨t, ht, hstatus, rfl⟩)
    rw [hfire, removeCallOut_map, if_neg]
    · exact hmap
    · rintro rfl
      exact hid (Option.some_inj.mp (hmap.symm.trans hmap'))
  · rw [hfire]
    exact hmap

/-- A timer is only disturbed by an operation on its flag. -/
theorem Separate.undisturbed (h : m.Separate) (hreg : m.Registered) (op : Op Flag F) :
    m.Undisturbed op := by
  constructor
  · intro id sFlag hid hcancelled
    cases op with
    | callOut iTime sFlag' oFunc =>
      have hstatus : (step m (.callOut iTime sFlag' oFunc)).2.statusAt id = m.statusAt id := by
        rw [statusAt, statusAt, step, callOut_timers, if_neg (lt_of_pendingFlag hid).ne]
      rw [hstatus, statusAt_of_pendingFlag hid] at hcancelled
      cases hcancelled
    | removeCallOut sFlag' =>
      left
      by_cases hmap : m.m_Map.lookup sFlag' = some id
      · rw [Option.some_inj.mp ((hreg sFlag' id hmap).symm.trans hid)]
      · have hstatus : (m.removeCallOut sFlag').statusAt id = m.statusAt id := by
          rw [statusAt, statusAt, removeCallOut_timers, if_neg hmap]
        rw [step, hstatus, statusAt_of_pendingFlag hid] at hcancelled
        cases hcancelled
    | fire id' =>
      rw [step] at hcancelled
      by_cases hne : id = id'
      · subst hne
        obtain ⟨t, ht, hstatus, -⟩ := pendingFlag_eq_some_iff.mp hid
        rcases m.fire_cases id with ⟨t', ht', hstatus', hfire⟩ | ⟨hnone, -⟩
        · rw [hfire, statusAt, h.fire_timers ht' hstatus', if_pos rfl] at hcancelled
          cases hcancelled
        · rw [hid] at hnone
          cases hnone
      · rw [h.statusAt_fire hne, statusAt_of_pendingFlag hid] at hcancelled
        cases hcancelled
  · rintro id' rfl sFlag id hne hmap
    exact ⟨h.map_fire hne hmap, h.statusAt_fire hne⟩

/-! ## Runs -/

/-- What is expected of the flags at an operation: they are separate after it, and no timer is
disturbed by an operation that is not on its flag. -/
structure Apart (m : CTimerManager Flag F) (op : Op Flag F) : Prop where
  separate : (step m op).2.Separate
  undisturbed : m.Undisturbed op

/-- **When flagged timers do not interfere**: along a run the flags are separate after every
operation, and no operation disturbs a timer that is not on its flag, exactly if no timer is ever
scheduled under a flag with a pending one. -/
theorem apart_run_iff (ops : List (Op Flag F)) :
    Machine.Along step Apart init ops ↔ Machine.Along step FlagFree init ops := by
  have hiff : ∀ (m : CTimerManager Flag F) op, m.Separate ∧ m.Registered →
      (m.Apart op ↔ m.FlagFree op) := by
    rintro m op ⟨h, hreg⟩
    rw [← h.step_iff op]
    exact ⟨Apart.separate, fun hsep => ⟨hsep, h.undisturbed hreg op⟩⟩
  have hstep : ∀ (m : CTimerManager Flag F) op, m.Separate ∧ m.Registered → m.FlagFree op →
      (step m op).2.Separate ∧ (step m op).2.Registered := by
    rintro m op ⟨h, hreg⟩ hfree
    exact ⟨(h.step_iff op).mpr hfree, hreg.step op⟩
  exact Machine.along_iff_along hiff hstep ⟨separate_init, registered_init⟩

/-- A second timer is scheduled under a flag before the first one fires: the firing cancels it. -/
theorem apart_overwritten :
    ¬ ∀ ops : List (Op String ℕ), Machine.Along step Apart init ops := by
  intro hall
  have hrun := hall [.callOut 1 "ProjReload" 0, .callOut 2 "ProjReload" 0, .fire 0]
  have hcancelled := hrun.2.2.1.undisturbed.cancelled 1 "ProjReload" (by decide +kernel)
    (by decide +kernel)
  simp at hcancelled

/-! ## The reloading of modules -/

/-- The functions that `myreload.py` schedules. -/
inductive ReloadFunc
  | myReload

/-- The `Init` of `myreload.py`. -/
def reloadInit (m : CTimerManager String ReloadFunc) : CTimerManager String ReloadFunc :=
  m.callOut 1 "ProjReload" .myReload

/-- `MyReload`, which schedules itself again. -/
def myReload (m : CTimerManager String ReloadFunc) : CTimerManager String ReloadFunc :=
  m.callOut 1 "ProjReload" .myReload

/-- The time of a timer is up, and what its function does. -/
def fireReload (m : CTimerManager String ReloadFunc) (id : ℕ) : CTimerManager String ReloadFunc :=
  match m.fire id with
  | (some .myReload, m) => m.myReload
  | (none, m) => m

/-- The timer `id` is the only one that is pending, and the map has it. -/
structure OnlyReload (m : CTimerManager String ReloadFunc) (id : ℕ) : Prop where
  separate : m.Separate
  pending_iff : ∀ id' sFlag, m.pendingFlag id' = some sFlag ↔ id' = id ∧ sFlag = "ProjReload"

/-- A timer that is scheduled while none is pending. -/
theorem Separate.onlyReload {m : CTimerManager String ReloadFunc} (h : m.Separate)
    (hnone : ∀ id, m.pendingFlag id = none) : m.myReload.OnlyReload m.timers.length where
  separate := by
    apply h.callOut
    intro id
    rw [hnone]
    simp
  pending_iff id sFlag := by
    rw [myReload, callOut_pendingFlag, hnone]
    by_cases hid : id = m.timers.length
    · simp [hid, eq_comm]
    · simp [hid]

theorem OnlyReload.fireReload {m : CTimerManager String ReloadFunc} {id : ℕ}
    (h : m.OnlyReload id) (id' : ℕ) : ∃ id'', (m.fireReload id').OnlyReload id'' := by
  rw [CTimerManager.fireReload]
  rcases m.fire_cases id' with ⟨t, ht, hstatus, hfire⟩ | ⟨-, hfire⟩
  · have hsep := h.separate.fire id'
    rw [hfire] at hsep ⊢
    refine ⟨_, hsep.onlyReload ?_⟩
    intro k
    have hid' := (h.pending_iff _ _).mp (pendingFlag_eq_some_iff.mpr ⟨t, ht, hstatus, rfl⟩)
    rw [pendingFlag, h.separate.fire_timers ht hstatus]
    split_ifs with hk
    · rfl
    · apply Option.eq_none_iff_forall_ne_some.mpr
      intro sFlag hpending
      exact hk (((h.pending_iff k sFlag).mp hpending).1.trans hid'.1.symm)
  · rw [hfire]
    exact ⟨id, h⟩

/-- After `Init`, and whichever timers fire, one reload is pending. -/
theorem exists_onlyReload (ids : List ℕ) :
    ∃ id, (ids.foldl fireReload (reloadInit init)).OnlyReload id := by
  have hinit : ∃ id, (reloadInit init).OnlyReload id := ⟨_, separate_init.onlyReload fun _ => rfl⟩
  generalize reloadInit init = m at hinit ⊢
  induction ids generalizing m with
  | nil => exact hinit
  | cons id ids ih =>
    obtain ⟨id', h⟩ := hinit
    exact ih _ (h.fireReload id)

end CodeTest.CTimerManager
