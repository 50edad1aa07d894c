import CodeTest.MultiTask.CoMultiTask
import CodeTest.TimeOut.Entries

/-!
# The packs that are alive

`pack s id` is what the manager has stored for an id. The state is `WellFormed` when the tables of
the manager belong together, every pack is stored under its own id, and the timer that the module
knows is the only one that is registered, and is while there are packs. Every operation keeps this,
and the lemmas say what it does to `pack`.
-/

namespace CodeTest

namespace TimeOutManager

variable {N F T : Type*} [DecidableEq N] [DecidableEq F] {m : TimeOutManager N F T}

theorem live_write (m : TimeOutManager N F T) (flag : F) (task : T) (f : F) :
    (m.write flag task).live f =
      if f = flag then (m.tFlag2TS.lookup flag).map fun nDDL => (nDDL, task) else m.live f := by
  unfold write
  cases hflag : m.tFlag2TS.lookup flag with
  | none =>
    split_ifs with hf
    · subst hf
      rw [live, hflag]
      rfl
    · rfl
  | some nDDL =>
    simp only [live, Table.lookup_insert_eq]
    split_ifs with hf
    · subst hf
      simp [hflag]
    · refine Option.bind_congr fun d hd => ?_
      by_cases hdd : d = nDDL
      · subst hdd
        rw [if_pos rfl, Option.getD_some, Table.lookup_insert_eq, if_neg hf]
      · rw [if_neg hdd]

theorem entry_write {flag : F} {nDDL : N} (hflag : m.tFlag2TS.lookup flag = some nDDL) (task : T)
    (p : N × F) :
    (m.write flag task).entry p = if p = (nDDL, flag) then some task else m.entry p := by
  obtain ⟨d, f⟩ := p
  simp only [entry, write, hflag, Table.lookup_insert_eq, Prod.mk.injEq]
  by_cases hd : d = nDDL
  · rw [if_pos hd, Option.getD_some, Table.lookup_insert_eq, hd]
    simp only [true_and]
  · rw [if_neg hd, if_neg fun h => hd h.1]

theorem Linked.write (h : m.Linked) (flag : F) (task : T) : (m.write flag task).Linked := by
  unfold TimeOutManager.write
  cases hflag : m.tFlag2TS.lookup flag with
  | none => exact h
  | some nDDL =>
    obtain ⟨tSlot, task', hslot, htask⟩ := h.exists_slot hflag
    have hmem : flag ∈ tSlot := AList.lookup_isSome.mp (by rw [htask]; rfl)
    simp only [hslot, Option.getD_some]
    constructor
    · intro f d
      rw [h.flag_iff, Table.lookup_insert_eq]
      by_cases hd : d = nDDL
      · subst hd
        rw [if_pos rfl, hslot]
        simp only [Option.some_inj, exists_eq_left', AList.mem_insert]
        exact ⟨.inr, fun hf => hf.elim (fun hf => hf ▸ hmem) id⟩
      · rw [if_neg hd]
    · intro d tSlot' hlookup
      simp only [Table.lookup_insert_eq] at hlookup
      split_ifs at hlookup with hd
      · obtain rfl := Option.some_inj.mp hlookup
        rw [AList.entries_insert]
        exact List.cons_ne_nil _ _
      · exact h.slot_ne d tSlot' hlookup

end TimeOutManager

namespace CoMultiTask

open TimeOutManager

variable {N Cb Args V : Type} [DecidableEq N] {s : CoMultiTask N Cb Args V}

/-- The pack that is alive under an id. -/
def pack (s : CoMultiTask N Cb Args V) (nPackId : Double) : Option (TaskPack Cb Args V) :=
  s.lg_TimeOutMgr.get nPackId

/-- The id that the next pack gets. -/
def nextId (s : CoMultiTask N Cb Args V) : Double := (genIdx s.lg_nIDRecord).1

structure WellFormed (s : CoMultiTask N Cb Args V) : Prop where
  linked : s.lg_TimeOutMgr.Linked
  nPackId_eq : ∀ id tPack, s.pack id = some tPack → tPack.nPackId = id
  registered_iff : ∀ t, s.timers.lookup t = some () ↔ s.lg_nTimerId = some t
  timer_iff : s.lg_nTimerId = none ↔ s.lg_TimeOutMgr.isEmpty = true

theorem wellFormed_init (now : ℤ) : (init now : CoMultiTask N Cb Args V).WellFormed where
  linked := linked_ctor now
  nPackId_eq id tPack h := by simp [pack, init, get_eq] at h
  registered_iff t := by simp [init]
  timer_iff := ⟨fun _ => rfl, fun _ => rfl⟩

/-- There is a timer exactly while a pack is alive. -/
theorem WellFormed.isSome_timer_iff (h : s.WellFormed) :
    s.lg_nTimerId.isSome ↔ ∃ id tPack, s.pack id = some tPack := by
  rw [Option.isSome_iff_ne_none, Ne, h.timer_iff, h.linked.isEmpty_iff (truthy_nat _), not_forall]
  refine exists_congr fun id => ?_
  rw [pack, get_eq, ← Ne, Option.ne_none_iff_exists']
  constructor
  · intro ⟨x, hx⟩
    exact ⟨x.2, by rw [hx]; rfl⟩
  · intro ⟨tPack, hp⟩
    obtain ⟨x, hx, -⟩ := Option.map_eq_some_iff.mp hp
    exact ⟨x, hx⟩

/-- Stopping the timer when the last pack is gone. -/
theorem WellFormed.stopTimer (h : s.WellFormed)
    {mgr : TimeOutManager N Double (TaskPack Cb Args V)} (hlinked : mgr.Linked)
    (hold : ∀ id tPack, mgr.get id = some tPack → s.pack id = some tPack) :
    ({ s with lg_TimeOutMgr := mgr } : CoMultiTask N Cb Args V).stopTimer.WellFormed ∧
      ∀ id, ({ s with lg_TimeOutMgr := mgr } : CoMultiTask N Cb Args V).stopTimer.pack id =
        mgr.get id := by
  have hid : ∀ id tPack, mgr.get id = some tPack → tPack.nPackId = id := fun id tPack hp =>
    h.nPackId_eq id tPack (hold id tPack hp)
  by_cases hempty : mgr.isEmpty = true
  · have hstop : ({ s with lg_TimeOutMgr := mgr } : CoMultiTask N Cb Args V).stopTimer =
        { s with
          lg_TimeOutMgr := mgr, timers := SvrTimer.remove s.timers s.lg_nTimerId
          lg_nTimerId := none } := if_pos hempty
    rw [hstop]
    refine ⟨⟨hlinked, hid, fun t => ?_, ⟨fun _ => hempty, fun _ => rfl⟩⟩, fun id => rfl⟩
    have hreg := h.registered_iff t
    cases htimer : s.lg_nTimerId with
    | none =>
      rw [htimer] at hreg
      exact hreg
    | some t' =>
      rw [htimer, Option.some_inj] at hreg
      rw [SvrTimer.remove, Table.lookup_erase_eq]
      split_ifs with ht
      · simp
      · rw [hreg]
        simp [Ne.symm ht]
  · have hstop : ({ s with lg_TimeOutMgr := mgr } : CoMultiTask N Cb Args V).stopTimer =
        { s with lg_TimeOutMgr := mgr } := if_neg hempty
    rw [hstop]
    refine ⟨⟨hlinked, hid, h.registered_iff, fun hnone => ?_, fun hgone => absurd hgone hempty⟩,
      fun id => rfl⟩
    -- without a timer there were no packs before, so there are none now
    rw [hlinked.isEmpty_iff (truthy_nat mgr)]
    intro id
    cases hlive : mgr.live id with
    | none => rfl
    | some x =>
      have hp := hold id x.2 (by rw [get_eq, hlive]; rfl)
      rw [pack, get_eq, (truthy_nat _).live_eq_none_of_isEmpty (h.timer_iff.mp hnone)] at hp
      exact absurd hp (by simp)

/-- **`startMultiTask`** makes a pack alive under the next id. -/
theorem WellFormed.startMultiTask [IntCast N] [Add N] [One N] [LE N] [DecidableLE N]
    (h : s.WellFormed) (newTimer : Allocator Unit) (now : ℤ) (nTasks : ℕ)
    (fFinish fTimeout : Option Cb) (nTimeout : Option N) (tArgs : Args)
    (hfree : s.pack s.nextId = none) :
    (s.startMultiTask newTimer now nTasks fFinish fTimeout nTimeout tArgs).2.WellFormed ∧
      ∀ id, (s.startMultiTask newTimer now nTasks fFinish fTimeout nTimeout tArgs).2.pack id =
        if id = s.nextId then some ⟨s.nextId, nTasks, tArgs, fFinish, fTimeout, ∅⟩
        else s.pack id := by
  let mgr := s.lg_TimeOutMgr.push s.nextId (nTimeout.getD (keepAliveTime : N))
    ⟨s.nextId, nTasks, tArgs, fFinish, fTimeout, ∅⟩ now
  have hlinked : mgr.Linked := by
    rw [pack, get_eq, Option.map_eq_none_iff] at hfree
    exact h.linked.push hfree _ _ _
  have hpack : ∀ id, mgr.get id =
      if id = s.nextId then some ⟨s.nextId, nTasks, tArgs, fFinish, fTimeout, ∅⟩
      else s.pack id := by
    intro id
    rw [get_eq, live_push, pack, get_eq]
    split_ifs <;> rfl
  have hid : ∀ id tPack, mgr.get id = some tPack → tPack.nPackId = id := by
    intro id tPack hp
    rw [hpack] at hp
    split_ifs at hp with hid
    · rw [← Option.some_inj.mp hp, hid]
    · exact h.nPackId_eq id tPack hp
  have hne : ¬ mgr.isEmpty = true := by
    rw [hlinked.isEmpty_iff (truthy_nat mgr)]
    intro hall
    have := hpack s.nextId
    rw [get_eq, hall, if_pos rfl] at this
    exact absurd this (by simp)
  cases htimer : s.lg_nTimerId with
  | some t =>
    have hstart : (s.startMultiTask newTimer now nTasks fFinish fTimeout nTimeout tArgs).2 =
        { s with lg_nIDRecord := (genIdx s.lg_nIDRecord).2, lg_TimeOutMgr := mgr } := by
      simp only [CoMultiTask.startMultiTask, htimer]
      rfl
    rw [hstart]
    refine ⟨⟨hlinked, hid, h.registered_iff, fun hnone => ?_, fun hempty => absurd hempty hne⟩,
      hpack⟩
    exact absurd (htimer.symm.trans hnone) (by simp)
  | none =>
    have hstart : (s.startMultiTask newTimer now nTasks fFinish fTimeout nTimeout tArgs).2 =
        { lg_nIDRecord := (genIdx s.lg_nIDRecord).2, lg_TimeOutMgr := mgr
          lg_nTimerId := some (newTimer.fresh s.timers)
          timers := s.timers.insert (newTimer.fresh s.timers) () } := by
      simp only [CoMultiTask.startMultiTask, htimer]
      rfl
    rw [hstart]
    refine ⟨⟨hlinked, hid, fun t' => ?_, fun hnone => absurd hnone (by simp),
      fun hempty => absurd hempty hne⟩, hpack⟩
    rw [Table.lookup_insert_eq]
    split_ifs with ht
    · simp [ht]
    · rw [h.registered_iff, htimer]
      simp [Ne.symm ht]

/-- **`checkTimoutPack`** takes out packs that are alive, each id once. -/
theorem WellFormed.checkTimoutPack [IntCast N] (h : s.WellFormed)
    (order : PairsOrder Double (TaskPack Cb Args V)) (now : ℤ) :
    ∃ (es : List (Σ _ : Double, TaskPack Cb Args V)) (s' : CoMultiTask N Cb Args V),
      (s.lg_TimeOutMgr.popTimeOut order now).1 = es.map Sigma.snd ∧
      s.checkTimoutPack order now = ((es.map Sigma.snd).filterMap fun tPack =>
        tPack.fTimeout.map fun fTimeout => .fTimeout fTimeout tPack.tResult, s') ∧ s'.WellFormed ∧
      (es.map Sigma.fst).Nodup ∧ (∀ id tPack, ⟨id, tPack⟩ ∈ es → s.pack id = some tPack) ∧
      ∀ id, s'.pack id = if id ∈ es.map Sigma.fst then none else s.pack id := by
  obtain ⟨es, hout, hnodup, hmem, hlive, hlinked⟩ := h.linked.popTimeOut order now
  have hget : ∀ id, (s.lg_TimeOutMgr.popTimeOut order now).2.get id =
      if id ∈ es.map Sigma.fst then none else s.pack id := by
    intro id
    rw [get_eq, hlive, pack, get_eq]
    split_ifs <;> rfl
  obtain ⟨hwf, hpack⟩ := h.stopTimer hlinked fun id tPack hp => by
    rw [hget] at hp
    split_ifs at hp
    exact hp
  refine ⟨es, _, hout, by rw [← hout]; rfl, hwf, hnodup, fun id tPack he => ?_,
    fun id => (hpack id).trans (hget id)⟩
  obtain ⟨i, -, -, hi⟩ := (hmem id tPack).mp he
  rw [pack, get_eq, hi]
  rfl

/-- A report for an id under which no pack is alive. -/
theorem onPartTaskFinish_of_none {nPackId : Double} (hp : s.pack nPackId = none) (nTaskId : ℕ)
    (tData : Value V) : s.onPartTaskFinish nPackId nTaskId tData = ([], s) := by
  rw [pack] at hp
  rw [onPartTaskFinish, hp]

theorem pack_write {nPackId : Double} {tPack : TaskPack Cb Args V}
    (hp : s.pack nPackId = some tPack) (tPack' : TaskPack Cb Args V) (id : Double) :
    (s.lg_TimeOutMgr.write nPackId tPack').get id =
      if id = nPackId then some tPack' else s.pack id := by
  rw [get_eq, live_write, pack, get_eq]
  split_ifs with hid
  · rw [pack, TimeOutManager.get] at hp
    cases hflag : s.lg_TimeOutMgr.tFlag2TS.lookup nPackId with
    | none =>
      rw [hflag] at hp
      exact absurd hp (by simp)
    | some nDDL => rfl
  · rfl

/-- **`onPartTaskFinish`** writes the result to a pack that is alive. If the results are as many as
the tasks, the pack is taken out and its callback is run. -/
theorem WellFormed.onPartTaskFinish (h : s.WellFormed) {nPackId : Double}
    {tPack : TaskPack Cb Args V} (hp : s.pack nPackId = some tPack) (nTaskId : ℕ)
    (tData : Value V) :
    let tPack' := { tPack with tResult := tPack.tResult.insert nTaskId (tData.or .emptyTable) }
    let finished := TableUtil.count tPack'.tResult = tPack.nTasks
    ∃ s', s.onPartTaskFinish nPackId nTaskId tData =
        (if finished then (tPack.fFinish.map fun fFinish =>
          .fFinish fFinish tPack'.tResult tPack.tArgs).toList else [], s') ∧ s'.WellFormed ∧
      ∀ id, s'.pack id = if id = nPackId then if finished then none else some tPack'
        else s.pack id := by
  intro tPack' finished
  have hid := h.nPackId_eq nPackId tPack hp
  have hget := pack_write hp tPack'
  have hlinked := h.linked.write nPackId tPack'
  have hwrite : ({ s with lg_TimeOutMgr := s.lg_TimeOutMgr.write nPackId tPack' } :
      CoMultiTask N Cb Args V).WellFormed := by
    refine ⟨hlinked, fun id tPack₁ hp₁ => ?_, h.registered_iff, ?_⟩
    · rw [pack, hget] at hp₁
      split_ifs at hp₁ with heq
      · rw [← Option.some_inj.mp hp₁, heq]
        exact hid
      · exact h.nPackId_eq id tPack₁ hp₁
    · -- there is a pack before and after
      have hsome := h.isSome_timer_iff.mpr ⟨nPackId, tPack, hp⟩
      refine ⟨fun hnone => absurd hnone (Option.isSome_iff_ne_none.mp hsome), fun hempty => ?_⟩
      have := hget nPackId
      rw [get_eq, (truthy_nat _).live_eq_none_of_isEmpty hempty, if_pos rfl] at this
      exact absurd this (by simp)
  have heq : s.onPartTaskFinish nPackId nTaskId tData =
      if finished then
        ({ s with lg_TimeOutMgr := s.lg_TimeOutMgr.write nPackId tPack' } :
          CoMultiTask N Cb Args V).onAllTaskFinish tPack'
      else ([], { s with lg_TimeOutMgr := s.lg_TimeOutMgr.write nPackId tPack' }) := by
    rw [pack] at hp
    rw [CoMultiTask.onPartTaskFinish, hp]
  by_cases hfin : finished
  · have hpop : ∀ id, ((s.lg_TimeOutMgr.write nPackId tPack').pop tPack'.nPackId).2.get id =
        if id = nPackId then none else s.pack id := by
      intro id
      have hnId : tPack'.nPackId = nPackId := hid
      rw [get_eq, (truthy_nat _).live_pop, hnId]
      split_ifs with heq
      · rfl
      · rw [← get_eq, hget, if_neg heq]
    obtain ⟨hwf, hpack⟩ := hwrite.stopTimer
        (hlinked.pop (truthy_nat _) tPack'.nPackId (.entries _ _)) fun id tPack₁ hp₁ => by
      rw [hpop] at hp₁
      rw [pack, hget]
      split_ifs at hp₁ with heq
      rw [if_neg heq, hp₁]
    refine ⟨_, by rw [heq, if_pos hfin, if_pos hfin]; rfl, hwf, fun id => ?_⟩
    rw [if_pos hfin]
    exact (hpack id).trans (hpop id)
  · refine ⟨_, by rw [heq, if_neg hfin, if_neg hfin], hwrite, fun id => ?_⟩
    rw [if_neg hfin]
    exact hget id

end CoMultiTask

end CodeTest
