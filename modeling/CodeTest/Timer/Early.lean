import CodeTest.Timer.Clock

/-!
# Timers that are fired early

A timer is fired by a later call of `ExpireTimer` only when the clock, modulo 2³², has reached its
deadline (`Guarded`). So it is never fired early if the sum of the clock and `expire` does not wrap;
if it wraps, the deadline lies before the time at which the timer was added, and an `ExpireTimer`
called at once fires it. `neverEarly_iff` puts the two together.
-/

namespace CodeTest

open MinHeapTimer

/-! ## What an event does to the timers and the log -/

namespace TimerRun

variable {Cb : Type} {alloc : Allocator (TimerNode Cb)} {s s' : TimerRun Cb} {p : Addr}
  {now : UInt32}

/-- The time at which the running `ExpireTimer` was called. -/
def time (s : TimerRun Cb) : Option UInt32 :=
  match s.control with
  | .idle => none
  | .loop now => some now
  | .callback _ now => some now

/-- From `s` to `s'` no timer is added and no `ExpireTimer` called, and what is fired is due at the
time of the running one. -/
structure Continues (s s' : TimerRun Cb) : Prop where
  timers : s'.timer.timers ⊆ s.timer.timers
  count : s'.timer._count = s.timer._count
  time : ∀ now, s'.time = some now → s.time = some now
  log : ∃ l, s'.log = s.log ++ l ∧ ∀ id, .fired id ∈ l →
    ∃ tm ∈ s.timer.timers, tm.id = id ∧ ∃ now, s.time = some now ∧ tm.expire ≤ now

theorem Continues.refl (s : TimerRun Cb) : s.Continues s where
  timers := List.Subset.refl _
  count := rfl
  time _ h := h
  log := ⟨[], by simp, by simp⟩

/-- A node is deleted. -/
theorem Intact.continues_delNode (h : s.Intact) (hdel : s.timer.delNode p = some s'.timer)
    (htime : ∀ now, s'.time = some now → s.time = some now) {l : List TimerAction}
    (hlog : s'.log = s.log ++ l)
    (hl : ∀ id, .fired id ∈ l →
      ∃ tm ∈ s.timer.timers, tm.id = id ∧ ∃ now, s.time = some now ∧ tm.expire ≤ now) :
    s.Continues s' := by
  obtain ⟨-, hcount, tm, hperm⟩ := h.delNode hdel
  refine ⟨fun x hx => hperm.mem_iff.mpr (List.mem_cons_of_mem _ hx), hcount, htime, l, hlog, hl⟩

theorem Intact.continues_tick (h : s.Intact) (hcontrol : s.control = .loop now)
    (hs : s.tick now = some s') : s.Continues s' := by
  have htime : s.time = some now := by simp [TimerRun.time, hcontrol]
  obtain rfl | ⟨p, rest, e, hheap, he, hdue, hs⟩ := tick_cases hs
  · exact ⟨List.Subset.refl _, rfl, by simp [TimerRun.time], [], by simp, by simp⟩
  have hfired : ∀ id, .fired id ∈ [TimerAction.fired e.id] →
      ∃ tm ∈ s.timer.timers, tm.id = id ∧ ∃ now, s.time = some now ∧ tm.expire ≤ now := by
    rintro id hid
    obtain rfl : id = e.id := by simpa using hid
    refine ⟨.ofNode e, List.mem_filterMap.mpr ⟨p, by simp [hheap], ?_⟩, rfl, now, htime, hdue⟩
    rw [timerAt, he]
    rfl
  obtain rfl | hs := hs
  · exact ⟨List.Subset.refl _, rfl, fun _ h => htime.trans h, _, rfl, hfired⟩
  · obtain ⟨hdel, hloop, hlog⟩ := finish_cases hs
    refine h.continues_delNode hdel (fun _ h => htime.trans ?_) hlog hfired
    rw [← h, TimerRun.time, hloop]

/-- **What an event can do**: a timer is added, `ExpireTimer` is called, or what there is goes
on. -/
theorem Intact.step_cases (h : s.Intact) {e : TimerEvent Cb} (hs : s.step alloc e = some s') :
    (∃ now expire cb, e = .addTimer now expire cb ∧
        s' = { s with timer := (s.timer.addTimer alloc now expire cb).2 }) ∨
      (∃ now, e = .expireTimer now ∧ s.control = .idle ∧ s' = { s with control := .loop now }) ∨
      ((∀ now, e = .expireTimer now → s.control ≠ .idle) ∧ s.Continues s') := by
  cases e with
  | addTimer now expire cb =>
    cases hs
    exact .inl ⟨now, expire, cb, rfl, rfl⟩
  | delTimer id =>
    refine .inr (.inr ⟨by simp, ?_⟩)
    obtain rfl | ⟨p, hdel, hcontrol, hlog⟩ := delTimer_cases hs
    · exact .refl _
    · refine h.continues_delNode hdel (fun now htime => ?_) hlog (by simp)
      rwa [TimerRun.time, hcontrol] at htime
  | expireTimer now =>
    cases hcontrol : s.control with
    | idle =>
      simp only [TimerRun.step, hcontrol, Option.some_inj] at hs
      exact .inr (.inl ⟨now, rfl, rfl, hs.symm⟩)
    | _ =>
      simp only [TimerRun.step, hcontrol, Option.some_inj] at hs
      exact .inr (.inr ⟨by simp, hs ▸ .refl s⟩)
  | tick =>
    refine .inr (.inr ⟨by simp, ?_⟩)
    cases hcontrol : s.control with
    | loop now =>
      simp only [TimerRun.step, hcontrol] at hs
      exact h.continues_tick hcontrol hs
    | _ =>
      simp only [TimerRun.step, hcontrol, Option.some_inj] at hs
      exact hs ▸ .refl s
  | ret =>
    refine .inr (.inr ⟨by simp, ?_⟩)
    cases hcontrol : s.control with
    | callback p now =>
      simp only [TimerRun.step, hcontrol] at hs
      obtain ⟨hdel, hloop, hlog⟩ := finish_cases hs
      refine h.continues_delNode (l := []) hdel (fun now' htime => ?_) (by simp [hlog]) (by simp)
      rw [TimerRun.time, hloop] at htime
      rw [TimerRun.time, hcontrol]
      exact htime
    | _ =>
      simp only [TimerRun.step, hcontrol, Option.some_inj] at hs
      exact hs ▸ .refl s

end TimerRun

theorem TimerAction.firedId_eq_some {a : TimerAction} {id : ℤ} :
    a.firedId = some id ↔ a = .fired id := by
  cases a <;> simp [firedId]

namespace ClockedRun

variable {Cb : Type} {alloc : Allocator (TimerNode Cb)} {s s' : ClockedRun Cb}
  {e : Timespec × TimerCall Cb}

/-- What a step says about the log of what was fired. -/
theorem mem_fired_step (hs : s.step alloc e = some s') (f : Firing) :
    f ∈ s'.fired ↔ f ∈ s.fired ∨ .fired f.id ∈ s'.run.log.drop s.run.log.length ∧
      f.call = s'.calls ∧ f.time = s'.clock := by
  obtain ⟨run, -, rfl⟩ := Option.map_eq_some_iff.mp hs
  obtain ⟨id, call, time⟩ := f
  simp only [List.mem_append, List.mem_map, List.mem_filterMap, TimerAction.firedId_eq_some,
    exists_eq_right, Firing.mk.injEq]
  grind

theorem mem_fired_of_log_eq (hs : s.step alloc e = some s') (hlog : s'.run.log = s.run.log)
    {f : Firing} (hf : f ∈ s'.fired) : f ∈ s.fired := by
  refine ((mem_fired_step hs f).mp hf).resolve_right fun hnew => ?_
  rw [hlog, List.drop_length] at hnew
  cases hnew.1

theorem Allowed.intact (hallowed : s.Allowed e) (h : s.run.Intact)
    (hs : s.step alloc e = some s') : s'.run.Intact := by
  obtain ⟨run, hrun, rfl⟩ := Option.map_eq_some_iff.mp hs
  exact h.step hallowed.bounded hrun

/-- A step goes as it does without the clock. -/
theorem exists_step (alloc : Allocator (TimerNode Cb)) {run : TimerRun Cb}
    (hrun : s.run.step alloc (e.2.event e.1) = some run) :
    ∃ s', s.step alloc e = some s' ∧ s'.run = run ∧ s'.calls = s.callsAfter e.2 ∧
      s'.clock = e.1.millis :=
  ⟨_, by rw [step, hrun]; rfl, rfl, rfl, rfl⟩

/-- The three ways in which a step can go. -/
theorem step_cases (h : s.run.Intact) (hs : s.step alloc e = some s') :
    (∃ expire cb, e.2 = .addTimer expire cb ∧ s'.calls = s.calls ∧ s'.run = { s.run with
        timer := (s.run.timer.addTimer alloc (currentTime e.1) expire cb).2 }) ∨
      (s'.calls = s.calls + 1 ∧ s'.run = { s.run with control := .loop (currentTime e.1) }) ∨
      (s'.calls = s.calls ∧ s.run.Continues s'.run) := by
  obtain ⟨run, hrun, rfl⟩ := Option.map_eq_some_iff.mp hs
  obtain ⟨ti, call⟩ := e
  rcases h.step_cases hrun with ⟨now, expire, cb, he, rfl⟩ | ⟨now, he, hidle, rfl⟩ | ⟨hne, hcont⟩
  · cases call <;> simp only [TimerCall.event, reduceCtorEq] at he
    cases he
    exact .inl ⟨expire, cb, rfl, rfl, rfl⟩
  · cases call <;> simp only [TimerCall.event, reduceCtorEq] at he
    cases he
    exact .inr (.inl ⟨by simp [callsAfter, hidle], rfl⟩)
  · refine .inr (.inr ⟨?_, hcont⟩)
    cases call with
    | expireTimer =>
      have hcontrol := hne _ rfl
      unfold callsAfter
      split
      · contradiction
      · rfl
    | _ => rfl

/-! ## The deadline of a timer -/

/-- The invariant after the timer `id` was added at the time `start`, when `ExpireTimer` had been
called `calls` times: the timer has its deadline, and a later call was made at a later time. -/
structure Guarded (id : ℤ) (calls start wait : ℕ) (s : ClockedRun Cb) : Prop where
  intact : s.run.Intact
  started : start ≤ s.clock
  id_le : id ≤ s.run.timer._count
  deadline : ∀ tm ∈ s.run.timer.timers, tm.id = id → tm.expire.toNat = start % 2 ^ 32 + wait
  called : calls < s.calls → ∀ now, s.run.time = some now →
    ∃ time, start ≤ time ∧ time ≤ s.clock ∧ now.toNat = time % 2 ^ 32
  fired : ∀ f ∈ s.fired, f.id = id → calls < f.call → start + wait ≤ f.time

/-- What goes on fires the timer only when its time has come. -/
theorem Guarded.fired_continues {id : ℤ} {calls start wait : ℕ} (h : s.Guarded id calls start wait)
    {run : TimerRun Cb} (hcont : s.run.Continues run)
    (hfired : .fired id ∈ run.log.drop s.run.log.length) (hcalls : calls < s.calls) :
    start + wait ≤ s.clock := by
  obtain ⟨l, hl, hdue⟩ := hcont.log
  rw [hl, List.drop_left] at hfired
  obtain ⟨tm, htm, hid, now, hnow, hexpire⟩ := hdue id hfired
  obtain ⟨time, hstart, hclock, hmod⟩ := h.called hcalls now hnow
  rw [UInt32.le_iff_toNat_le, h.deadline tm htm hid, hmod] at hexpire
  exact (add_le_of_le_mod hstart hexpire).trans hclock

/-- A timer is added, with a larger id. -/
theorem Guarded.addTimer {id : ℤ} {calls start wait : ℕ} (h : s.Guarded id calls start wait)
    (hs : s.step alloc e = some s') (hintact : s'.run.Intact) (hle : s.clock ≤ s'.clock)
    {now expire : UInt32} {cb : Option Cb} (hbounded : s.run.timer._count + 1 < 2 ^ 31)
    (hcalls : s'.calls = s.calls)
    (hrun : s'.run = { s.run with timer := (s.run.timer.addTimer alloc now expire cb).2 }) :
    s'.Guarded id calls start wait := by
  obtain ⟨-, hcount, -, hperm⟩ :=
    h.intact.valid.addTimer h.intact.count_nonneg hbounded alloc now expire cb
  have hcount' : s'.run.timer._count = s.run.timer._count + 1 := hrun ▸ hcount
  refine ⟨hintact, h.started.trans hle, ?_, fun tm htm hid => ?_, fun hlt now hnow => ?_,
    fun f hf hid hlt => h.fired f (mem_fired_of_log_eq hs (by rw [hrun]) hf) hid hlt⟩
  · have := h.id_le
    omega
  · rw [hrun] at htm
    rcases List.mem_cons.mp (hperm.mem_iff.mp htm) with rfl | htm
    · have := h.id_le
      simp only at hid
      omega
    · exact h.deadline tm htm hid
  · rw [hrun] at hnow
    obtain ⟨time, hstart, htime, hmod⟩ := h.called (hcalls ▸ hlt) now hnow
    exact ⟨time, hstart, htime.trans hle, hmod⟩

/-- `ExpireTimer` is called, at a time that is not before the addition. -/
theorem Guarded.expireTimer {id : ℤ} {calls start wait : ℕ} (h : s.Guarded id calls start wait)
    (hs : s.step alloc e = some s') (hintact : s'.run.Intact) (hle : s.clock ≤ s'.clock)
    (hclock : s'.clock = e.1.millis)
    (hrun : s'.run = { s.run with control := .loop (currentTime e.1) }) :
    s'.Guarded id calls start wait := by
  refine ⟨hintact, h.started.trans hle, hrun ▸ h.id_le, hrun ▸ h.deadline, fun _ now hnow => ?_,
    fun f hf hid hlt => h.fired f (mem_fired_of_log_eq hs (by rw [hrun]) hf) hid hlt⟩
  rw [hrun] at hnow
  cases hnow
  exact ⟨s'.clock, h.started.trans hle, le_rfl, hclock ▸ currentTime_toNat e.1⟩

/-- What there is goes on. -/
theorem Guarded.continues {id : ℤ} {calls start wait : ℕ} (h : s.Guarded id calls start wait)
    (hs : s.step alloc e = some s') (hintact : s'.run.Intact) (hle : s.clock ≤ s'.clock)
    (hcalls : s'.calls = s.calls) (hcont : s.run.Continues s'.run) :
    s'.Guarded id calls start wait := by
  refine ⟨hintact, h.started.trans hle, hcont.count ▸ h.id_le,
    fun tm htm hid => h.deadline tm (hcont.timers htm) hid, fun hlt now hnow => ?_,
    fun f hf hid hlt => ?_⟩
  · obtain ⟨time, hstart, htime, hmod⟩ := h.called (hcalls ▸ hlt) now (hcont.time now hnow)
    exact ⟨time, hstart, htime.trans hle, hmod⟩
  · rcases (mem_fired_step hs f).mp hf with hf | ⟨hf, hcall, htime⟩
    · exact h.fired f hf hid hlt
    · rw [hid] at hf
      rw [hcall, hcalls] at hlt
      rw [htime]
      exact (h.fired_continues hcont hf hlt).trans hle

theorem Guarded.step {id : ℤ} {calls start wait : ℕ} (h : s.Guarded id calls start wait)
    (hallowed : s.Allowed e) (hs : s.step alloc e = some s') :
    s'.Guarded id calls start wait := by
  have hclock : s'.clock = e.1.millis := by
    obtain ⟨run, -, rfl⟩ := Option.map_eq_some_iff.mp hs
    rfl
  have hle : s.clock ≤ s'.clock := hclock ▸ hallowed.monotonic
  have hintact := hallowed.intact h.intact hs
  rcases step_cases h.intact hs with ⟨expire, cb, he, hcalls, hrun⟩ | ⟨-, hrun⟩ | ⟨hcalls, hcont⟩
  · have hbounded := hallowed.bounded
    rw [he] at hbounded
    exact h.addTimer hs hintact hle hbounded hcalls hrun
  · exact h.expireTimer hs hintact hle hclock hrun
  · exact h.continues hs hintact hle hcalls hcont

/-- In a state that is reached the timer is intact, and nothing was fired by a later call. -/
structure Sane (s : ClockedRun Cb) : Prop where
  intact : s.run.Intact
  call_le : ∀ f ∈ s.fired, f.call ≤ s.calls

theorem Sane.step (h : s.Sane) (hallowed : s.Allowed e) (hs : s.step alloc e = some s') :
    s'.Sane := by
  refine ⟨hallowed.intact h.intact hs, fun f hf => ?_⟩
  rcases (mem_fired_step hs f).mp hf with hf | ⟨-, hcall, -⟩
  · have := h.call_le f hf
    rcases step_cases h.intact hs with ⟨-, -, -, hcalls, -⟩ | ⟨hcalls, -⟩ | ⟨hcalls, -⟩ <;> omega
  · exact hcall.le

theorem Reached.sane (h : s.Reached alloc) : s.Sane := by
  obtain ⟨es, hallowed, hs⟩ := h
  have hinit : (init : ClockedRun Cb).Sane := ⟨TimerRun.intact_init, by simp [init]⟩
  exact PartialMachine.run_invariant (fun _ _ _ h he hs => h.step he hs) hinit hallowed hs

/-! ## When the sum does not wrap -/

/-- Right after it was added, a timer has its deadline. -/
theorem Sane.guarded_addTimer (h : s.Sane) {ti : Timespec} {expire : UInt32} {cb : Option Cb}
    (hallowed : s.Allowed (ti, .addTimer expire cb))
    (hwrap : ti.millis % 2 ^ 32 + expire.toNat < 2 ^ 32)
    (hs : s.step alloc (ti, .addTimer expire cb) = some s') :
    s'.Guarded (s.run.timer.addTimer alloc (currentTime ti) expire cb).1 s.calls ti.millis
      expire.toNat := by
  obtain ⟨hid, hcount, hvalid, hperm⟩ := h.intact.valid.addTimer h.intact.count_nonneg
    hallowed.bounded alloc (currentTime ti) expire cb
  have hsane := h.step hallowed hs
  cases hs
  refine ⟨hsane.intact, le_rfl, (hid.trans hcount.symm).le, ?_, ?_, ?_⟩
  · intro tm htm hidtm
    rcases List.mem_cons.mp (hperm.mem_iff.mp htm) with rfl | htm
    · show (currentTime ti + expire).toNat = _
      rw [UInt32.toNat_add, currentTime_toNat, Nat.mod_eq_of_lt hwrap]
    · -- the timers before have smaller ids
      have := h.intact.valid.timer_id_le htm
      omega
  · intro hlt
    exact absurd hlt (lt_irrefl _)
  · intro f hf _ hlt
    have := hsane.call_le f hf
    exact absurd hlt this.not_gt

/-- **A deadline that does not wrap is never met early.** -/
theorem Sane.neverEarly (h : s.Sane) {ti : Timespec} {expire : UInt32} (cb : Option Cb)
    (hwrap : ti.millis % 2 ^ 32 + expire.toNat < 2 ^ 32) : s.NeverEarly alloc ti expire cb := by
  intro es s' hallowed hrun
  rw [List.foldlM_cons] at hrun
  obtain ⟨s₁, hs₁, hrun⟩ := Option.bind_eq_some_iff.mp hrun
  have h₁ := h.guarded_addTimer hallowed.1 hwrap hs₁
  exact (PartialMachine.run_invariant (fun _ _ _ h he hs => Guarded.step h he hs) h₁
    (hallowed.2 s₁ hs₁) hrun).fired

/-! ## When it wraps -/

/-- What goes on at one time goes on as it does without the clock, and what is fired is fired
then. -/
theorem exists_lift {ti : Timespec} {calls : List (TimerCall Cb)}
    (hcalls : ∀ c ∈ calls, c = .tick ∨ c = .ret) (h : s.run.Intact) (hclock : s.clock = ti.millis)
    {run : TimerRun Cb}
    (hrun : (calls.map (TimerCall.event ti)).foldlM (TimerRun.step alloc) s.run = some run) :
    PartialMachine.Meets (step alloc) Allowed s (calls.map fun c => (ti, c)) ∧
      ∃ s' l, (calls.map fun c => (ti, c)).foldlM (step alloc) s = some s' ∧
        s.fired ⊆ s'.fired ∧ run.log = s.run.log ++ l ∧
        ∀ id, .fired id ∈ l → ⟨id, s.calls, ti.millis⟩ ∈ s'.fired := by
  induction calls generalizing s with
  | nil =>
    cases hrun
    exact ⟨trivial, s, [], rfl, List.Subset.refl _, by simp, by simp⟩
  | cons c calls ih =>
    obtain ⟨hc, hcalls⟩ := List.forall_mem_cons.mp hcalls
    rw [List.map_cons, List.foldlM_cons] at hrun
    obtain ⟨run₁, hrun₁, hrun⟩ := Option.bind_eq_some_iff.mp hrun
    obtain ⟨s₁, hs₁, rfl, hcalls₁, hclock₁⟩ := exists_step alloc (e := (ti, c)) hrun₁
    replace hcalls₁ : s₁.calls = s.calls := by
      rw [hcalls₁]
      rcases hc with rfl | rfl <;> rfl
    have hallowed : s.Allowed (ti, c) := by
      refine ⟨hclock.le, ?_⟩
      rcases hc with rfl | rfl <;> trivial
    obtain ⟨l₁, hl₁⟩ : ∃ l, s₁.run.log = s.run.log ++ l := by
      rcases h.step_cases hrun₁ with ⟨_, _, _, he, -⟩ | ⟨_, he, -⟩ | ⟨-, hcont⟩
      · rcases hc with rfl | rfl <;> cases he
      · rcases hc with rfl | rfl <;> cases he
      · obtain ⟨l, hl, -⟩ := hcont.log
        exact ⟨l, hl⟩
    obtain ⟨hmeets, s', l, hs', hsub, hl, hfired⟩ :=
      ih hcalls (h.step hallowed.bounded hrun₁) hclock₁ hrun
    have hsub₁ : s.fired ⊆ s₁.fired := fun f hf => (mem_fired_step hs₁ f).mpr (.inl hf)
    refine ⟨⟨hallowed, fun s₂ hs₂ => ?_⟩, s', l₁ ++ l, ?_, List.Subset.trans hsub₁ hsub, ?_,
      fun id hid => ?_⟩
    · cases hs₁.symm.trans hs₂
      exact hmeets
    · rw [List.map_cons, List.foldlM_cons, hs₁]
      exact hs'
    · rw [hl, hl₁, List.append_assoc]
    · rcases List.mem_append.mp hid with hid | hid
      · refine hsub ((mem_fired_step hs₁ _).mpr (.inr ⟨?_, hcalls₁.symm, hclock₁.symm⟩))
        rwa [hl₁, List.drop_left]
      · exact hcalls₁ ▸ hfired id hid

/-- The rest of an `ExpireTimer` whose callbacks return at once, in `n` rounds. -/
def quiet (n : ℕ) : List (TimerCall Cb) := (List.replicate n [.tick, .ret]).flatten

theorem mem_quiet {n : ℕ} {c : TimerCall Cb} (hc : c ∈ quiet n) : c = .tick ∨ c = .ret := by
  obtain ⟨round, hround, hc⟩ := List.mem_flatten.mp hc
  rw [List.eq_of_mem_replicate hround] at hc
  simpa using hc

theorem event_quiet (ti : Timespec) (n : ℕ) :
    (quiet n : List (TimerCall Cb)).map (TimerCall.event ti) = TimerRun.quiet n := by
  simp [quiet, TimerRun.quiet, TimerCall.event]

/-- A timer that is due, modulo 2³², is fired by an `ExpireTimer` that is called then. -/
theorem Sane.exists_firing (h : s.Sane) (alloc : Allocator (TimerNode Cb))
    (hidle : s.run.control = .idle) {ti : Timespec} (hclock : s.clock ≤ ti.millis) {tm : Timer Cb}
    (htm : tm ∈ s.run.timer.timers) (hdue : tm.expire ≤ currentTime ti) :
    ∃ es s', PartialMachine.Meets (ClockedRun.step alloc) Allowed s es ∧
      es.foldlM (ClockedRun.step alloc) s = some s' ∧
      ⟨tm.id, s.calls + 1, ti.millis⟩ ∈ s'.fired := by
  have hcall : s.run.step alloc (.expireTimer (currentTime ti)) =
      some { s.run with control := .loop (currentTime ti) } := by
    simp [TimerRun.step, hidle]
  obtain ⟨s₁, hs₁, hrun₁, hcalls₁, hclock₁⟩ := exists_step alloc (e := (ti, .expireTimer)) hcall
  have h₁ : s₁.run.Intact := h.intact.of_timer_eq (hrun₁ ▸ rfl)
  have hcalls : s₁.calls = s.calls + 1 := by
    rw [hcalls₁]
    simp [callsAfter, hidle]
  -- the rounds of this call fire what is due, among it this timer
  obtain ⟨n, hn⟩ : ∃ n, s₁.run.timer.timers.length < n := ⟨_, Nat.lt_succ_self _⟩
  have hloop : s₁.run.control = .loop (currentTime ti) := hrun₁ ▸ rfl
  obtain ⟨run, fired, hrun, -, -, hlog, hperm, -, hlater, -⟩ := h₁.loop alloc hloop hn
  have hmem : tm ∈ fired := by
    have htimers : tm ∈ s₁.run.timer.timers := hrun₁ ▸ htm
    refine (List.mem_append.mp (hperm.mem_iff.mp htimers)).resolve_right fun hleft => ?_
    exact UInt32.not_lt.mpr hdue (hlater _ hleft)
  rw [← event_quiet ti] at hrun
  obtain ⟨hmeets, s', l, hs', -, hl, hlift⟩ :=
    exists_lift (fun c hc => mem_quiet hc) h₁ hclock₁ hrun
  refine ⟨(ti, .expireTimer) :: (quiet n).map fun c => (ti, c), s',
    ⟨⟨hclock, trivial⟩, fun s₂ hs₂ => ?_⟩, ?_, ?_⟩
  · cases hs₁.symm.trans hs₂
    exact hmeets
  · rw [List.foldlM_cons, hs₁]
    exact hs'
  · rw [← hcalls]
    apply hlift
    rw [hlog, List.append_cancel_left_eq] at hl
    rw [← hl]
    exact List.mem_map.mpr ⟨tm, hmem, rfl⟩

/-- **A deadline that wraps is met at once**: the timer is fired by an `ExpireTimer` that is called
when it was added. -/
theorem Sane.exists_early (h : s.Sane) (hidle : s.run.control = .idle) {ti : Timespec}
    {expire : UInt32} {cb : Option Cb} (hallowed : s.Allowed (ti, .addTimer expire cb))
    (hwrap : 2 ^ 32 ≤ ti.millis % 2 ^ 32 + expire.toNat) : ¬ s.NeverEarly alloc ti expire cb := by
  obtain ⟨hid, -, -, hperm⟩ := h.intact.valid.addTimer h.intact.count_nonneg hallowed.bounded
    alloc (currentTime ti) expire cb
  obtain ⟨s₁, hs₁, hrun₁, hcalls₁, hclock₁⟩ :=
    exists_step alloc (s := s) (e := (ti, .addTimer expire cb)) rfl
  have hdue : currentTime ti + expire ≤ currentTime ti := by
    have hlt := expire.toNat_lt
    rw [UInt32.le_iff_toNat_le, UInt32.toNat_add, currentTime_toNat]
    omega
  have hadded : ⟨s.run.timer._count + 1, currentTime ti + expire, cb⟩ ∈ s₁.run.timer.timers := by
    rw [hrun₁]
    exact hperm.mem_iff.mpr List.mem_cons_self
  obtain ⟨es, s', hmeets, hs', hfired⟩ := (h.step hallowed hs₁).exists_firing alloc
    (hrun₁ ▸ hidle) hclock₁.le hadded hdue
  intro hnever
  have hearly := hnever es s' ⟨hallowed, fun s₂ hs₂ => ?_⟩ ?_ _ hfired hid.symm ?_
  · have hlt := Nat.mod_lt ti.millis (Nat.two_pow_pos 32)
    simp only at hearly
    omega
  · cases hs₁.symm.trans hs₂
    exact hmeets
  · rw [List.foldlM_cons, hs₁]
    exact hs'
  · exact hcalls₁ ▸ Nat.lt_succ_self _

/-- **When no timer is fired early.** For every time at which a timer is added and every `expire`:
in every state that can be reached by that time, with any callback, and whatever is done afterwards,
the timer is not fired by a later `ExpireTimer` before `expire` milliseconds have passed, if and
only if the sum of the clock, modulo 2³², and `expire` is less than 2³². If it is not, this fails in
each such state in which `ExpireTimer` does not run. -/
theorem neverEarly_iff (alloc : Allocator (TimerNode Cb)) (ti : Timespec) (expire : UInt32) :
    ((∀ s cb, Reached alloc s → s.Allowed (ti, .addTimer expire cb) →
        s.NeverEarly alloc ti expire cb) ↔ ti.millis % 2 ^ 32 + expire.toNat < 2 ^ 32) ∧
      ∀ s cb, Reached alloc s → s.Allowed (ti, .addTimer expire cb) → s.run.control = .idle →
        (s.NeverEarly alloc ti expire cb ↔ ti.millis % 2 ^ 32 + expire.toNat < 2 ^ 32) := by
  have hiff : ∀ s cb, Reached alloc s → s.Allowed (ti, .addTimer expire cb) →
      s.run.control = .idle →
      (s.NeverEarly alloc ti expire cb ↔ ti.millis % 2 ^ 32 + expire.toNat < 2 ^ 32) := by
    intro s cb hs hallowed hidle
    refine ⟨fun hnever => ?_, hs.sane.neverEarly cb⟩
    by_contra hwrap
    exact hs.sane.exists_early hidle hallowed (not_lt.mp hwrap) hnever
  refine ⟨⟨fun hall => ?_, fun hwrap s cb hs _ => hs.sane.neverEarly cb hwrap⟩, hiff⟩
  have hinit : Reached alloc init := ⟨[], trivial, rfl⟩
  have hallowed : (init : ClockedRun Cb).Allowed (ti, .addTimer expire none) :=
    ⟨Nat.zero_le _, show (0 : ℤ) + 1 < 2 ^ 31 by decide⟩
  exact (hiff init none hinit hallowed rfl).mp (hall init none hinit hallowed)

/-- After 49.7 days, one millisecond before the clock wraps, a timer is added that is due in a
second; it is fired at once. -/
theorem exists_fired_early :
    ¬ ∀ (Cb : Type) (alloc : Allocator (TimerNode Cb)) (s : ClockedRun Cb) (ti : Timespec)
      (expire : UInt32) (cb : Option Cb), Reached alloc s → s.Allowed (ti, .addTimer expire cb) →
      s.NeverEarly alloc ti expire cb := by
  intro hall
  have hinit : Reached (.above _) (init : ClockedRun Unit) := ⟨[], trivial, rfl⟩
  have hallowed : (init : ClockedRun Unit).Allowed
      (⟨4294967, 295000000, by decide⟩, .addTimer 1000 (some ())) :=
    ⟨Nat.zero_le _, by decide⟩
  exact hinit.sane.exists_early rfl hallowed (by decide)
    (hall Unit (.above _) init _ 1000 (some ()) hinit hallowed)

end ClockedRun

end CodeTest
