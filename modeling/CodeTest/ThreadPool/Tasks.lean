import CodeTest.ThreadPool.ThreadPool

/-!
# The tasks of the pool

A task that is put into the waiting queue stays there until a thread takes it from the front and
resumes it, so the tasks resumed and the tasks waiting are, in this order, the tasks that went
through the queue. A task added while the counter of idle threads is positive does not go through
the queue. It is passed to a thread as the result of `coroutine.yield`, which the loop of the thread
throws away, and is never resumed.
-/

namespace CodeTest.ThreadPool

variable {Task : Type} {s s' : ThreadPool Task}

/-- The task that an event adds. -/
def Event.task? : Event Task → Option Task
  | .addTask task => some task
  | _ => none

/-- The tasks that are added in the course of a list of events. -/
def added (es : List (Event Task)) : List Task := es.filterMap Event.task?

/-- Each task of the list is waiting, or has been resumed once, and the tasks were resumed in the
order of the list. -/
structure KeepsTasks (tasks : List Task) (s : ThreadPool Task) : Prop where
  accounted : (s.resumed ++ s.waitingQueue).Perm tasks
  inOrder : s.resumed.Sublist tasks

/-- If the event adds a task, then no thread counts as idle. -/
def Accepted (s : ThreadPool Task) : Event Task → Prop
  | .addTask _ => s.idleThreadCount ≤ 0
  | _ => True

instance (s : ThreadPool Task) : ∀ e, Decidable (s.Accepted e)
  | .addTask _ => inferInstanceAs (Decidable (_ ≤ _))
  | .finish => isTrue trivial
  | .pass => isTrue trivial
  | .tick => isTrue trivial

/-- The tasks that have gone through the waiting queue, or are in it. -/
def queued (s : ThreadPool Task) : List Task := s.resumed ++ s.waitingQueue

theorem queued_finish (h : s.finish = some s') : s'.queued = s.queued := by
  unfold finish at h
  split at h
  · cases h
    rfl
  · cases h

theorem queued_addTask (task : Task) (h : s.addTask task = some s') :
    s'.queued = s.queued ++ if s.idleThreadCount ≤ 0 then [task] else [] := by
  unfold addTask at h
  by_cases hidle : 0 < s.idleThreadCount
  · rw [if_pos hidle] at h
    rw [if_neg (not_le.mpr hidle), List.append_nil]
    split at h
    · split_ifs at h
      · cases h
        rfl
      · exact queued_finish h
    · split_ifs at h
      · cases h
        rfl
      · cases h
        rfl
  · rw [if_neg hidle] at h
    rw [if_pos (not_lt.mp hidle)]
    cases h
    exact (List.append_assoc _ _ _).symm

/-- The thread takes the task at the front of the queue. -/
theorem queued_threadLoop (c : ℕ) (h : s.threadLoop c = some s') : s'.queued = s.queued := by
  unfold threadLoop at h
  split at h
  · next task waitingQueue hqueue =>
    cases h
    show (s.resumed ++ [task]) ++ waitingQueue = s.resumed ++ s.waitingQueue
    rw [hqueue, List.append_assoc, List.singleton_append]
  · split at h
    · cases h
      rfl
    · cases h
      rfl
    · cases h

theorem queued_mainLoop (s : ThreadPool Task) (i : ℕ) : (s.mainLoop i).queued = s.queued := by
  unfold mainLoop
  split_ifs
  · rfl
  · rfl
  · split
    · rfl
    · split_ifs
      · rfl
      · rfl

/-- What one event adds to the tasks that go through the queue. -/
theorem queued_step (e : Event Task) (h : s.step e = some s') :
    s'.queued = s.queued ++ if s.Accepted e then e.task?.toList else [] := by
  cases e with
  | addTask task =>
    obtain ⟨-, h⟩ := Option.ite_none_right_eq_some.mp h
    exact queued_addTask task h
  | finish =>
    obtain ⟨-, h⟩ := Option.ite_none_right_eq_some.mp h
    simpa [Accepted, Event.task?] using queued_finish h
  | pass =>
    obtain ⟨-, h⟩ := Option.ite_none_right_eq_some.mp h
    cases h
    simp [Accepted, Event.task?, queued]
  | tick =>
    suffices s'.queued = s.queued by simpa [Accepted, Event.task?] using this
    simp only [step] at h
    split at h
    · exact queued_threadLoop _ h
    · cases h
      exact queued_mainLoop s _
    · cases h
    · cases h

/-- A run puts some of its tasks through the queue, and all of them exactly if it adds none while a
thread counts as idle. -/
theorem queued_run (es : List (Event Task)) (h : es.foldlM step s = some s') :
    ∃ kept, s'.queued = s.queued ++ kept ∧ kept.Sublist (added es) ∧
      (kept.length = (added es).length ↔ PartialMachine.Meets step Accepted s es) := by
  induction es generalizing s with
  | nil =>
    cases h
    exact ⟨[], by simp, by simp [added], by simp [added, PartialMachine.Meets]⟩
  | cons e es ih =>
    rw [List.foldlM_cons] at h
    obtain ⟨s₁, hs₁, h⟩ := Option.bind_eq_some_iff.mp h
    obtain ⟨kept, hkept, hsub, hiff⟩ := ih h
    have hadded : added (e :: es) = e.task?.toList ++ added es := by
      unfold added
      cases he : e.task? <;> simp [he]
    have hmeets : PartialMachine.Meets step Accepted s (e :: es) ↔
        s.Accepted e ∧ PartialMachine.Meets step Accepted s₁ es := by
      simp [PartialMachine.Meets, hs₁]
    refine ⟨(if s.Accepted e then e.task?.toList else []) ++ kept, ?_, ?_, ?_⟩
    · rw [hkept, queued_step e hs₁, List.append_assoc]
    · rw [hadded]
      refine List.Sublist.append ?_ hsub
      split_ifs
      · exact List.Sublist.refl _
      · exact List.nil_sublist _
    · rw [hmeets, ← hiff, hadded, List.length_append, List.length_append]
      by_cases hacc : s.Accepted e
      · simp [hacc]
      · -- the task of `e` is not among those that are kept
        have hlen : e.task?.toList.length = 1 := by
          cases e with
          | addTask task => rfl
          | _ => exact absurd trivial hacc
        have hle := hsub.length_le
        simp only [hacc, if_false, hlen, List.length_nil, false_and, iff_false]
        omega

/-- **The pool loses no task exactly if none is added while a thread counts as idle**: in every
state that a run from `threadPool.init` reaches, each task that was added is waiting or has been
resumed once, in the order of the additions, if and only if no call of `addTask` in the run found
the counter of idle threads positive. -/
theorem keepsTasks_iff (maxCount : Option ℕ) (es : List (Event Task)) (s : ThreadPool Task)
    (h : es.foldlM step (init maxCount) = some s) :
    s.KeepsTasks (added es) ↔ PartialMachine.Meets step Accepted (init maxCount) es := by
  obtain ⟨kept, hkept, hsub, hiff⟩ := queued_run es h
  have hqueued : s.resumed ++ s.waitingQueue = kept := hkept
  rw [← hiff]
  constructor
  · intro hkeeps
    rw [← hqueued]
    exact hkeeps.accounted.length_eq
  · intro hlen
    obtain rfl := hsub.eq_of_length hlen
    constructor
    · rw [hqueued]
    · rw [← hqueued]
      exact List.sublist_append_left _ _

/-- One task waits for the first pass, and adds another one when it is resumed. -/
theorem keepsTasks_adding_task :
    PartialMachine.Meets step Accepted (init (some 1) : ThreadPool ℕ)
        [.addTask 1, .pass, .tick, .tick, .addTask 2, .finish, .tick] ∧
      (⟨[0], [], 0, .user, [.thread 0, .pass 1], [1, 2]⟩ : ThreadPool ℕ).KeepsTasks [1, 2] := by
  have hmeets : PartialMachine.Meets step Accepted (init (some 1) : ThreadPool ℕ)
      [.addTask 1, .pass, .tick, .tick, .addTask 2, .finish, .tick] := by
    decide +kernel
  exact ⟨hmeets, (keepsTasks_iff (some 1) _ _ rfl).mpr hmeets⟩

/-- With three threads, as in the file: all of them are idle after a pass without tasks, and the
next task is lost. -/
theorem exists_lost_task :
    ¬ ∀ (maxCount : Option ℕ) (es : List (Event ℕ)) (s : ThreadPool ℕ),
      es.foldlM step (init maxCount) = some s → s.KeepsTasks (added es) := by
  intro h
  have := (h (some 3) [.pass, .tick, .tick, .tick, .tick, .tick, .tick, .tick, .addTask 7, .tick] _
    rfl).accounted
  exact absurd this.length_eq (by decide)

end CodeTest.ThreadPool
