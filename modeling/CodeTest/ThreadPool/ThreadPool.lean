import CodeTest.Foundations.Machine
import Mathlib.Tactic

/-!
# The pool of coroutines

`threadpool.lua`. The threads of the pool are coroutines that all run the same loop: take a task
from the waiting queue and resume it, or, if there is none, count themselves as idle and yield. The
main loop makes passes over the pool in which it resumes every thread that is suspended.

Tasks are coroutines of the code that uses the pool. While a task runs it can add tasks, as the main
program can between two passes, and `addTask` may in turn resume a thread of the pool. So the state
holds, besides the variables of the file, a stack with the coroutines that wait for one they have
resumed, and what runs now. The steps that the pool makes by itself are the event `tick`; what a
task, or the main program, does next is an event of its own. An event that is not possible in a
state has no next state.
-/

namespace CodeTest

/-- `maxThreadCount` when the file is loaded. -/
def maxThreadCount : ℕ := 5

namespace ThreadPool

/-- A place at which something waits for a thread or a task that it has resumed. -/
inductive Frame
  /-- The main loop, at the index `i` of its pass. -/
  | pass (i : ℕ)
  /-- The thread `c`, which has resumed a task. -/
  | thread (c : ℕ)
  /-- A call of `addTask`, which has resumed a thread. -/
  | addTask
deriving DecidableEq

/-- What runs now. -/
inductive Control
  /-- The code that uses the pool: a task if something waits for it, else the main program. -/
  | user
  /-- The main loop in a pass, before it looks at the index `i`. -/
  | scan (i : ℕ)
  /-- The thread `c`, at the start of the body of its loop. -/
  | loop (c : ℕ)
  /-- The main loop has ended, by `break` or by an error. -/
  | done
deriving DecidableEq

inductive Event (Task : Type)
  | addTask (task : Task)
  /-- The task that runs yields or ends. -/
  | finish
  /-- The main program begins a pass. -/
  | pass
  /-- The main loop, or a thread of the pool, goes on. -/
  | tick

end ThreadPool

/-- The variables of the file, the coroutines that are active, and the tasks that the threads of
the pool have resumed. The threads are numbered. -/
structure ThreadPool (Task : Type) where
  threadPool : List ℕ
  waitingQueue : List Task
  idleThreadCount : ℤ
  control : ThreadPool.Control
  stack : List ThreadPool.Frame
  resumed : List Task

namespace ThreadPool

variable {Task : Type}

/-- `threadPool.init`, in the file as it is loaded. -/
def init (maxCount : Option ℕ) : ThreadPool Task where
  threadPool := List.range (maxCount.getD maxThreadCount)
  waitingQueue := []
  idleThreadCount := 0
  control := .user
  stack := []
  resumed := []

/-- `coroutine.status` of a thread is `suspended`: the threads never end, since the tasks that they
resume are coroutines. -/
def Suspended (s : ThreadPool Task) (c : ℕ) : Prop :=
  s.control ≠ .loop c ∧ .thread c ∉ s.stack

instance (s : ThreadPool Task) (c : ℕ) : Decidable (s.Suspended c) :=
  inferInstanceAs (Decidable (_ ∧ _))

/-- The task that runs yields, ends or fails: the thread that has resumed it goes on. Without a task
there is only the main program. -/
def finish (s : ThreadPool Task) : Option (ThreadPool Task) :=
  match s.stack with
  | .thread c :: stack => some { s with control := .loop c, stack }
  | _ => none

/-- `threadPool.addTask`. The thread that is resumed gets the task as the result of the `yield` it
comes back from. If there is no thread, `coroutine.resume` raises an error, which ends the task that
made the call, or the main program; if the thread is not suspended it returns `false`. -/
def addTask (s : ThreadPool Task) (task : Task) : Option (ThreadPool Task) :=
  if 0 < s.idleThreadCount then
    match s.threadPool with
    | [] => if s.stack = [] then some { s with control := .done } else s.finish
    | thread :: threadPool =>
      if s.Suspended thread then
        some { s with threadPool, control := .loop thread, stack := .addTask :: s.stack }
      else some { s with threadPool, idleThreadCount := s.idleThreadCount - 1 }
  else some { s with waitingQueue := s.waitingQueue ++ [task] }

/-- The body of the loop of the thread `c`. Having yielded, it goes on at the start of the body. -/
def threadLoop (s : ThreadPool Task) (c : ℕ) : Option (ThreadPool Task) :=
  match s.waitingQueue with
  | task :: waitingQueue =>
    some { s with
      waitingQueue, control := .user, stack := .thread c :: s.stack,
      resumed := s.resumed ++ [task] }
  | [] =>
    let idleThreadCount := s.idleThreadCount + 1
    match s.stack with
    | .pass i :: stack => some { s with idleThreadCount, control := .scan (i - 1), stack }
    | .addTask :: stack =>
      some { s with idleThreadCount := idleThreadCount - 1, control := .user, stack }
    | _ => none

/-- The main loop at the index `i`. Below the index 1 the pass is over. `coroutine.status` raises an
error if there is no thread at the index. -/
def mainLoop (s : ThreadPool Task) (i : ℕ) : ThreadPool Task :=
  if i = 0 then
    if s.threadPool = [] ∧ s.waitingQueue = [] then { s with control := .done }
    else { s with control := .user }
  else
    match s.threadPool[i - 1]? with
    | none => { s with control := .done }
    | some thread =>
      if s.Suspended thread then { s with control := .loop thread, stack := .pass i :: s.stack }
      else { s with control := .scan (i - 1) }

/-- What an event leads to. -/
def step (s : ThreadPool Task) : Event Task → Option (ThreadPool Task)
  | .addTask task => if s.control = .user then s.addTask task else none
  | .finish => if s.control = .user then s.finish else none
  | .pass =>
    if s.control = .user ∧ s.stack = [] then
      some { s with control := .scan s.threadPool.length }
    else none
  | .tick =>
    match s.control with
    | .loop c => s.threadLoop c
    | .scan i => some (s.mainLoop i)
    | .user => none
    | .done => none

end ThreadPool

end CodeTest
