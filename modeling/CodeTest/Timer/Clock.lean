import CodeTest.Timer.Due
import Mathlib.Tactic

/-!
# The heap timer and the clock

`current_time` is the monotonic clock in milliseconds, modulo 2³², and a deadline is the sum of such
a time and `expire`, modulo 2³² as well. A `ClockedRun` is a timer in use with the time at which
everything happens: `AddTimer` and `ExpireTimer` read the clock, and the log of what was fired says
by which call of `ExpireTimer` and when.

`NeverEarly` says that a timer is not fired before its time has come.
-/

namespace CodeTest

open MinHeapTimer

/-! ## The clock -/

/-- `struct timespec`, as the monotonic clock fills it in. -/
structure Timespec where
  tv_sec : ℕ
  tv_nsec : ℕ
  tv_nsec_lt : tv_nsec < 10 ^ 9

/-- The time in milliseconds. -/
def Timespec.millis (ti : Timespec) : ℕ := ti.tv_sec * 1000 + ti.tv_nsec / 1000000

/-- `current_time`, on a `uint32_t`. -/
def currentTime (ti : Timespec) : UInt32 :=
  let t := UInt32.ofNat ti.tv_sec * 1000
  t + UInt32.ofNat (ti.tv_nsec / 1000000)

theorem currentTime_toNat (ti : Timespec) : (currentTime ti).toNat = ti.millis % 2 ^ 32 := by
  simp [currentTime, Timespec.millis, UInt32.toNat_add, UInt32.toNat_mul]

/-- Two times on a clock that wraps at `m`: if a deadline that did not wrap is reached, the time up
to it has passed. -/
theorem add_le_of_le_mod {m start wait time : ℕ} (hle : start ≤ time)
    (hdue : start % m + wait ≤ time % m) : start + wait ≤ time := by
  have hdiv : m * (start / m) ≤ m * (time / m) := Nat.mul_le_mul_left m (Nat.div_le_div_right hle)
  have hstart := Nat.div_add_mod start m
  have htime := Nat.div_add_mod time m
  omega

/-! ## A timer in use, with the time -/

/-- What is done with the timer. -/
inductive TimerCall (Cb : Type)
  | addTimer (expire : UInt32) (cb : Option Cb)
  | delTimer (id : ℤ)
  | expireTimer
  /-- The loop of `ExpireTimer` goes on. -/
  | tick
  /-- The callback returns. -/
  | ret

/-- A call at the time `ti`. -/
def TimerCall.event {Cb : Type} (ti : Timespec) : TimerCall Cb → TimerEvent Cb
  | addTimer expire cb => .addTimer (currentTime ti) expire cb
  | delTimer id => .delTimer id
  | expireTimer => .expireTimer (currentTime ti)
  | tick => .tick
  | ret => .ret

/-- A timer was fired, by which call of `ExpireTimer` and when. -/
structure Firing where
  id : ℤ
  call : ℕ
  time : ℕ

/-- The id of a timer that was fired. -/
def TimerAction.firedId : TimerAction → Option ℤ
  | fired id => some id
  | deleted _ => none

structure ClockedRun (Cb : Type) where
  run : TimerRun Cb
  /-- The time of the last event in milliseconds. -/
  clock : ℕ
  /-- How often `ExpireTimer` was called. -/
  calls : ℕ
  fired : List Firing

namespace ClockedRun

variable {Cb : Type} {alloc : Allocator (TimerNode Cb)}

def init : ClockedRun Cb := { run := .init, clock := 0, calls := 0, fired := [] }

/-- The number of calls of `ExpireTimer`, after one more call of something. -/
def callsAfter (s : ClockedRun Cb) (call : TimerCall Cb) : ℕ :=
  match call, s.run.control with
  | .expireTimer, .idle => s.calls + 1
  | _, _ => s.calls

/-- A call at a time. What it adds to the log of the timer is fired then. -/
def step (alloc : Allocator (TimerNode Cb)) (s : ClockedRun Cb) (e : Timespec × TimerCall Cb) :
    Option (ClockedRun Cb) :=
  (s.run.step alloc (e.2.event e.1)).map fun run =>
    { run
      clock := e.1.millis
      calls := s.callsAfter e.2
      fired := s.fired ++ ((run.log.drop s.run.log.length).filterMap TimerAction.firedId).map
        fun id => ⟨id, s.callsAfter e.2, e.1.millis⟩ }

/-- The clock does not go back, and an addition does not make the count overflow. -/
structure Allowed (s : ClockedRun Cb) (e : Timespec × TimerCall Cb) : Prop where
  monotonic : s.clock ≤ e.1.millis
  bounded : s.run.Bounded (e.2.event e.1)

/-- The states that are reached. -/
def Reached (alloc : Allocator (TimerNode Cb)) (s : ClockedRun Cb) : Prop :=
  ∃ es, PartialMachine.Meets (step alloc) Allowed init es ∧ es.foldlM (step alloc) init = some s

/-- Whatever happens after a timer is added at the time `ti`, it is not fired by a later call of
`ExpireTimer` before `expire` milliseconds have passed. -/
def NeverEarly (alloc : Allocator (TimerNode Cb)) (s : ClockedRun Cb) (ti : Timespec)
    (expire : UInt32) (cb : Option Cb) : Prop :=
  ∀ es s', PartialMachine.Meets (step alloc) Allowed s ((ti, .addTimer expire cb) :: es) →
    ((ti, .addTimer expire cb) :: es).foldlM (step alloc) s = some s' →
    ∀ f ∈ s'.fired, f.id = (s.run.timer.addTimer alloc (currentTime ti) expire cb).1 →
      s.calls < f.call → ti.millis + expire.toNat ≤ f.time

end ClockedRun

end CodeTest
