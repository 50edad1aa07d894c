import CodeTest.Foundations.Dispatch
import CodeTest.MultiTask.Completion
import CodeTest.TimeOut.Entries

/-!
# Packs that expire together

`checkTimoutPack` takes all packs that have expired out of the manager and then calls their
`fTimeout` one after the other. When one of them raises, the error leaves the function, and the
packs that come after it are neither called nor stored. Packs are numbered in the order in which
they are started, whatever ids they get, and a callback is marked with the number of its pack.
-/

namespace CodeTest.MultiTask

variable {N Cb Args V : Type}

/-- The module, and how many packs were started. -/
structure Packs (N Cb Args V : Type) where
  tasks : CoMultiTask N (ℕ × Cb) (ℕ × Args) V
  started : ℕ

/-- What may happen next; the callbacks of a check are run by the check itself. -/
inductive PackEvent (N Cb Args V : Type)
  | startMultiTask (now : ℤ) (p : Started Cb Args) (nTimeout : Option N)
  | onPartTaskFinish (nPackId : Double) (nTaskId : ℕ) (tData : Value V)
  | tick (now : ℤ) (t : Addr) (order : PairsOrder Double (TaskPack (ℕ × Cb) (ℕ × Args) V))

/-- What is called when a pack expires. -/
def timeoutCall (tPack : TaskPack (ℕ × Cb) (ℕ × Args) V) :
    Option (PackInvocation (ℕ × Cb) (ℕ × Args) V) :=
  tPack.fTimeout.map fun fTimeout => .fTimeout fTimeout tPack.tResult

namespace Packs

variable [DecidableEq N]

def init (now : ℤ) : Packs N Cb Args V := { tasks := .init now, started := 0 }

/-- One step, with the callbacks that a check has to call, in order. -/
def step [IntCast N] [Add N] [One N] [LE N] [DecidableLE N] (newTimer : Allocator Unit) :
    Packs N Cb Args V → PackEvent N Cb Args V →
      Option (List (PackInvocation (ℕ × Cb) (ℕ × Args) V) × Packs N Cb Args V)
  | s, .startMultiTask now p nTimeout =>
    let (_, tasks) := s.tasks.startMultiTask newTimer now p.nTasks
      (p.fFinish.map fun f => (s.started, f)) (p.fTimeout.map fun f => (s.started, f))
      nTimeout (s.started, p.tArgs)
    some ([], { tasks, started := s.started + 1 })
  | s, .onPartTaskFinish nPackId nTaskId tData =>
    some ([], { s with tasks := (s.tasks.onPartTaskFinish nPackId nTaskId tData).2 })
  | s, .tick now t order =>
    match s.tasks.timers.lookup t with
    | none => some ([], s)
    | some () =>
      let (invocations, tasks) := s.tasks.checkTimoutPack order now
      some (invocations, { s with tasks })

/-- In a check, of the packs that expire, in the order in which they are gone through, none whose
`fTimeout` raises comes before one whose `fTimeout` does not. -/
def Orderly [IntCast N] (raises : PackInvocation (ℕ × Cb) (ℕ × Args) V → Bool)
    (s : Packs N Cb Args V) : PackEvent N Cb Args V → Prop
  | .tick now t order => (s.tasks.timers.lookup t).isSome →
      (s.tasks.lg_TimeOutMgr.expired order now).Pairwise fun x y =>
        ∀ i ∈ timeoutCall x.2, ∀ j ∈ timeoutCall y.2, raises i → raises j
  | _ => True

instance decidableOrderly [IntCast N] (raises : PackInvocation (ℕ × Cb) (ℕ × Args) V → Bool)
    (s : Packs N Cb Args V) : ∀ e, Decidable (s.Orderly raises e)
  | .tick now t order =>
    inferInstanceAs (Decidable ((s.tasks.timers.lookup t).isSome →
      (s.tasks.lg_TimeOutMgr.expired order now).Pairwise fun x y =>
        ∀ i ∈ timeoutCall x.2, ∀ j ∈ timeoutCall y.2, raises i → raises j))
  | .startMultiTask _ _ _ => isTrue trivial
  | .onPartTaskFinish _ _ _ => isTrue trivial

/-! ## The entries -/

/-- The number of the pack at a place. -/
def owner (s : Packs N Cb Args V) (p : N × Double) : Option ℕ :=
  (s.tasks.lg_TimeOutMgr.entry p).map fun tPack => tPack.tArgs.1

/-- The packs that are stored are numbered, and their callbacks have their numbers. -/
structure Counted (s : Packs N Cb Args V) : Prop where
  numbered : Numbered s.owner s.started
  marked : ∀ p tPack, s.tasks.lg_TimeOutMgr.entry p = some tPack →
    ∀ f ∈ tPack.fTimeout, f.1 = tPack.tArgs.1

variable {s : Packs N Cb Args V}

omit [DecidableEq N] in
theorem num_timeoutCall {tPack : TaskPack (ℕ × Cb) (ℕ × Args) V}
    (hmarked : ∀ f ∈ tPack.fTimeout, f.1 = tPack.tArgs.1)
    {i : PackInvocation (ℕ × Cb) (ℕ × Args) V} (hi : timeoutCall tPack = some i) :
    num i = tPack.tArgs.1 := by
  obtain ⟨f, hf, rfl⟩ := Option.map_eq_some_iff.mp hi
  exact hmarked f hf

omit [DecidableEq N] in
theorem stopTimer_mgr {Cb Args : Type} (tasks : CoMultiTask N Cb Args V) :
    tasks.stopTimer.lg_TimeOutMgr = tasks.lg_TimeOutMgr := by
  unfold CoMultiTask.stopTimer
  split <;> rfl

theorem counted_init (now : ℤ) : (init now : Packs N Cb Args V).Counted := by
  have hnone : ∀ p, (init now : Packs N Cb Args V).tasks.lg_TimeOutMgr.entry p = none :=
    TimeOutManager.entry_ctor now
  refine ⟨⟨fun p c hp => ?_, fun p q c hp => ?_⟩, fun p tPack hp => ?_⟩
  · rw [owner, hnone] at hp
    cases hp
  · rw [owner, hnone] at hp
    cases hp
  · rw [hnone] at hp
    cases hp

/-- Packs that are written or removed: each that is stored afterwards was stored at its place. -/
theorem Counted.mono (h : s.Counted) {tasks : CoMultiTask N (ℕ × Cb) (ℕ × Args) V}
    (hold : ∀ p tPack, tasks.lg_TimeOutMgr.entry p = some tPack →
      ∃ tPack', s.tasks.lg_TimeOutMgr.entry p = some tPack' ∧ tPack.tArgs = tPack'.tArgs ∧
        tPack.fTimeout = tPack'.fTimeout) :
    ({ s with tasks } : Packs N Cb Args V).Counted ∧
      ∀ p c, ({ s with tasks } : Packs N Cb Args V).owner p = some c → s.owner p = some c := by
  have howner : ∀ p c, ({ s with tasks } : Packs N Cb Args V).owner p = some c →
      s.owner p = some c := by
    intro p c hp
    obtain ⟨tPack, htPack, rfl⟩ := Option.map_eq_some_iff.mp hp
    obtain ⟨tPack', htPack', hargs, -⟩ := hold p tPack htPack
    rw [owner, htPack', hargs]
    rfl
  refine ⟨⟨h.numbered.mono howner, fun p tPack hp f hf => ?_⟩, howner⟩
  obtain ⟨tPack', htPack', hargs, htimeout⟩ := hold p tPack hp
  rw [htimeout] at hf
  rw [hargs]
  exact h.marked p tPack' htPack' f hf

/-- What a report leaves was there, with the same callbacks. -/
theorem entry_onPartTaskFinish {tasks : CoMultiTask N (ℕ × Cb) (ℕ × Args) V} {nPackId : Double}
    {nTaskId : ℕ} {tData : Value V} {p : N × Double} {tPack : TaskPack (ℕ × Cb) (ℕ × Args) V}
    (h : (tasks.onPartTaskFinish nPackId nTaskId tData).2.lg_TimeOutMgr.entry p = some tPack) :
    ∃ tPack', tasks.lg_TimeOutMgr.entry p = some tPack' ∧ tPack.tArgs = tPack'.tArgs ∧
      tPack.fTimeout = tPack'.fTimeout := by
  unfold CoMultiTask.onPartTaskFinish at h
  cases hget : tasks.lg_TimeOutMgr.get nPackId with
  | none =>
    rw [hget] at h
    exact ⟨tPack, h, rfl, rfl⟩
  | some tPack₀ =>
    rw [hget] at h
    have hwrite : (tasks.lg_TimeOutMgr.write nPackId
        { tPack₀ with
          tResult := tPack₀.tResult.insert nTaskId (tData.or .emptyTable) }).entry p =
            some tPack := by
      simp only at h
      split at h
      · rw [CoMultiTask.onAllTaskFinish] at h
        simp only [stopTimer_mgr] at h
        exact TimeOutManager.entry_of_entry_pop h
      · exact h
    obtain ⟨d, hd, hentry⟩ := TimeOutManager.get_eq_some_iff.mp hget
    rw [TimeOutManager.entry_write hd] at hwrite
    split_ifs at hwrite with hp
    · obtain rfl := Option.some_inj.mp hwrite
      exact ⟨tPack₀, hp ▸ hentry, rfl, rfl⟩
    · exact ⟨tPack, hwrite, rfl, rfl⟩

variable [IntCast N]

/-- A check calls for the packs that expire, which are stored no more. -/
theorem Counted.check (h : s.Counted)
    (order : PairsOrder Double (TaskPack (ℕ × Cb) (ℕ × Args) V)) (now : ℤ) :
    ∃ tasks, s.tasks.checkTimoutPack order now =
        ((s.tasks.lg_TimeOutMgr.expired order now).filterMap fun x => timeoutCall x.2, tasks) ∧
      ({ s with tasks } : Packs N Cb Args V).Counted ∧
      DispatchStep num s.owner ({ s with tasks } : Packs N Cb Args V).owner s.started s.started
        ((s.tasks.lg_TimeOutMgr.expired order now).filterMap fun x => timeoutCall x.2) := by
  have hleft : ∀ p tPack, (s.tasks.checkTimoutPack order now).2.lg_TimeOutMgr.entry p =
      some tPack → s.tasks.lg_TimeOutMgr.entry p = some tPack ∧
        p ∉ (s.tasks.lg_TimeOutMgr.expired order now).map Prod.fst := by
    intro p tPack hp
    rw [CoMultiTask.checkTimoutPack] at hp
    simp only [stopTimer_mgr] at hp
    exact TimeOutManager.entry_of_entry_popTimeOut order hp
  obtain ⟨hcounted, -⟩ := h.mono fun p tPack hp => ⟨tPack, (hleft p tPack hp).1, rfl, rfl⟩
  refine ⟨_, ?_, hcounted, .take (fun tPack => tPack.tArgs.1) h.numbered
    (TimeOutManager.nodup_expired order _ now) (fun x hx => ?_) (fun x hx i hi => ?_)
    fun p c hp => ?_⟩
  · rw [CoMultiTask.checkTimoutPack]
    simp only [TimeOutManager.popTimeOut_fst, List.filterMap_map]
    rfl
  · rw [owner, TimeOutManager.entry_of_mem_expired order hx]
    rfl
  · exact num_timeoutCall (h.marked x.1 x.2 (TimeOutManager.entry_of_mem_expired order hx)) hi
  · obtain ⟨tPack, htPack, rfl⟩ := Option.map_eq_some_iff.mp hp
    obtain ⟨hold, hnot⟩ := hleft p tPack htPack
    refine ⟨?_, hnot⟩
    rw [owner, hold]
    rfl

variable [Add N] [One N] [LE N] [DecidableLE N]

/-- A new pack gets the next number. -/
theorem Counted.startMultiTask (h : s.Counted) (newTimer : Allocator Unit) (now : ℤ)
    (p : Started Cb Args) (nTimeout : Option N) :
    ∃ batch s', s.step newTimer (.startMultiTask now p nTimeout) = some (batch, s') ∧
      s'.Counted ∧ DispatchStep num s.owner s'.owner s.started s'.started batch := by
  let time := nTimeout.getD ((keepAliveTime : ℤ) : N)
  let place := (TimeOutManager.ddl time now, (genIdx s.tasks.lg_nIDRecord).1)
  let tPack : TaskPack (ℕ × Cb) (ℕ × Args) V := p.tPack s.started place.2 ∅
  obtain ⟨tasks, hstep, hmgr⟩ : ∃ tasks,
      s.step newTimer (.startMultiTask now p nTimeout) =
        some ([], { tasks, started := s.started + 1 }) ∧
      tasks.lg_TimeOutMgr = s.tasks.lg_TimeOutMgr.push place.2 time tPack now := by
    refine ⟨_, rfl, ?_⟩
    cases s.tasks.lg_nTimerId <;> rfl
  have hentry : ∀ q, tasks.lg_TimeOutMgr.entry q =
      if q = place then some tPack else s.tasks.lg_TimeOutMgr.entry q := fun q => by
    rw [hmgr, TimeOutManager.entry_push]
  have hnew : ∀ q c,
      ({ tasks, started := s.started + 1 } : Packs N Cb Args V).owner q = some c →
        q = place ∧ c = s.started ∨ s.owner q = some c := by
    intro q c hq
    rw [owner, hentry] at hq
    split_ifs at hq with hplace
    · exact .inl ⟨hplace, (Option.some_inj.mp hq).symm⟩
    · exact .inr hq
  refine ⟨[], _, hstep, ⟨h.numbered.put place hnew, fun q tPack' hq f hf => ?_⟩, .put hnew⟩
  rw [hentry] at hq
  split_ifs at hq with hplace
  · obtain rfl := Option.some_inj.mp hq
    obtain ⟨f', -, rfl⟩ := Option.map_eq_some_iff.mp hf
    rfl
  · exact h.marked q tPack' hq f hf

/-- Every step keeps the packs numbered, and dispatches. -/
theorem dispatches (newTimer : Allocator Unit) :
    Dispatches (Packs.step newTimer : Packs N Cb Args V → _) num Counted owner started where
  lt s p c h hp := h.numbered.lt p c hp
  step s e h := by
    cases e with
    | startMultiTask now p nTimeout => exact h.startMultiTask newTimer now p nTimeout
    | onPartTaskFinish nPackId nTaskId tData =>
      obtain ⟨hcounted, howner⟩ := h.mono fun p tPack hp => entry_onPartTaskFinish hp
      exact ⟨[], _, rfl, hcounted, .mono howner⟩
    | tick now t order =>
      rw [Packs.step]
      cases s.tasks.timers.lookup t with
      | none => exact ⟨[], s, rfl, h, .mono fun _ _ hp => hp⟩
      | some u =>
        obtain ⟨tasks, hcheck, hcounted, hdispatch⟩ := h.check order now
        simp only [hcheck]
        exact ⟨_, _, rfl, hcounted, hdispatch⟩

/-- A batch is orderly if the packs that expire are. -/
theorem orderly_iff (newTimer : Allocator Unit)
    (raises : PackInvocation (ℕ × Cb) (ℕ × Args) V → Bool)
    (s : Logged (Packs N Cb Args V) (PackInvocation (ℕ × Cb) (ℕ × Args) V))
    (e : PackEvent N Cb Args V) :
    Logged.Orderly (Packs.step newTimer) raises s e ↔ s.state.Orderly raises e := by
  rw [Logged.Orderly]
  cases e with
  | startMultiTask now p nTimeout => simp [Packs.step, Orderly]
  | onPartTaskFinish nPackId nTaskId tData => simp [Packs.step, Orderly]
  | tick now t order =>
    rw [Packs.step, Orderly]
    cases s.state.tasks.timers.lookup t with
    | none => simp
    | some u =>
      simp only [CoMultiTask.checkTimoutPack, TimeOutManager.popTimeOut_fst, List.filterMap_map,
        Option.mem_some_iff, forall_eq', Option.isSome_some, forall_const]
      exact List.pairwise_filterMap

end Packs

/-- **Packs that expire together.** In every run of starts, reports and checks: while in each check,
of the packs that expire, none whose `fTimeout` raises comes before one whose `fTimeout` does not,
every `fTimeout` that does not raise is called in the check in which its pack expires; and only
then is each of them called in that check or a later one. -/
theorem packs_called_iff [DecidableEq N] [IntCast N] [Add N] [One N] [LE N] [DecidableLE N]
    (newTimer : Allocator Unit) (raises : PackInvocation (ℕ × Cb) (ℕ × Args) V → Bool) (now : ℤ)
    (es : List (PackEvent N Cb Args V)) :
    ∃ s, es.foldlM (Logged.step (Packs.step newTimer) raises) (.init (.init now)) = some s ∧
      (PartialMachine.Meets (Logged.step (Packs.step newTimer) raises)
          (fun s e => s.state.Orderly raises e) (.init (.init now)) es →
        ∀ i ∈ s.due, i ∈ s.called) ∧
      (s.Kept (Packs.step newTimer) raises ↔
        PartialMachine.Meets (Logged.step (Packs.step newTimer) raises)
          (fun s e => s.state.Orderly raises e) (.init (.init now)) es) := by
  have horderly : Logged.Orderly (Packs.step newTimer) raises =
      fun (s : Logged (Packs N Cb Args V) _) e => s.state.Orderly raises e := by
    funext s e
    exact propext (Packs.orderly_iff newTimer raises s e)
  rw [← horderly]
  exact (Packs.dispatches newTimer).called_iff raises (Packs.counted_init now) es

end CodeTest.MultiTask
