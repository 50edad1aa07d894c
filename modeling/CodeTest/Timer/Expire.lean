import CodeTest.Foundations.Machine
import CodeTest.Timer.Registry

/-!
# Expiry with callbacks that use the timer

`ExpireTimer` runs the callbacks of the timers that are due. A callback can add and delete timers
while it runs, and its own node is deleted only afterwards. So the state of a run has besides the
timer the point at which `ExpireTimer` stands, and the end of a callback is an event of its own. The
log records which timers were fired, and which were deleted by a call of `DelTimer` that returned
`true`.

A run has no next state where a node is used that was freed. As long as no callback deletes the
timer that is being fired, this does not happen, and a timer leaves the heap once, fired or deleted.
-/

namespace CodeTest

open MinHeapTimer

/-- The point at which `ExpireTimer` stands; `now` is the time at which it was called. -/
inductive ExpireTimer
  /-- It does not run. -/
  | idle
  /-- At the start of its loop. -/
  | loop (now : UInt32)
  /-- In the callback of a node. -/
  | callback (node : Addr) (now : UInt32)

/-- What has happened to the timer with an id. -/
inductive TimerAction
  | fired (id : ℤ)
  | deleted (id : ℤ)
deriving DecidableEq

def TimerAction.id : TimerAction → ℤ
  | .fired id => id
  | .deleted id => id

inductive TimerEvent (Cb : Type)
  | addTimer (now expire : UInt32) (cb : Option Cb)
  | delTimer (id : ℤ)
  | expireTimer (now : UInt32)
  /-- The loop of `ExpireTimer` goes on. -/
  | tick
  /-- The callback returns. -/
  | ret

/-- A timer in use. -/
structure TimerRun (Cb : Type) where
  timer : MinHeapTimer Cb
  control : ExpireTimer
  log : List TimerAction

namespace TimerRun

variable {Cb : Type}

def init : TimerRun Cb := { timer := new, control := .idle, log := [] }

/-- The end of an iteration of `ExpireTimer`: the node that was fired is deleted. -/
def finish (s : TimerRun Cb) (node : Addr) (now : UInt32) : Option (TimerRun Cb) :=
  (s.timer.delNode node).map fun timer => { s with timer, control := .loop now }

/-- The iteration of `ExpireTimer` up to the callback. The nodes of the heap are printed before it
is run. -/
def tick (s : TimerRun Cb) (now : UInt32) : Option (TimerRun Cb) :=
  match s.timer._heap with
  | [] => some { s with control := .idle }
  | node :: _ => do
    let e ← s.timer.nodes.lookup node
    if now < e.expire then return { s with control := .idle }
    if s.timer._heap.any fun p => (s.timer.nodes.lookup p).isNone then none
    let s := { s with log := s.log ++ [TimerAction.fired e.id] }
    match e.cb with
    | some _ => return { s with control := .callback node now }
    | none => s.finish node now

section Tick

variable {s : TimerRun Cb} {p : Addr} {rest : List Addr} {e : TimerNode Cb} {now : UInt32}

/-- The loop ends at an empty heap. -/
theorem tick_nil (hheap : s.timer._heap = []) : s.tick now = some { s with control := .idle } := by
  simp [tick, hheap]

/-- The loop ends at a timer that is not due. -/
theorem tick_of_lt (hheap : s.timer._heap = p :: rest) (he : s.timer.nodes.lookup p = some e)
    (hnow : now < e.expire) : s.tick now = some { s with control := .idle } := by
  simp [tick, hheap, he, hnow]

/-- A timer that is due is fired. -/
theorem tick_due (hvalid : s.timer.Valid) (hheap : s.timer._heap = p :: rest)
    (he : s.timer.nodes.lookup p = some e) (hnow : ¬ now < e.expire) :
    s.tick now =
      match e.cb with
      | some _ => some { s with control := .callback p now, log := s.log ++ [.fired e.id] }
      | none => ({ s with log := s.log ++ [.fired e.id] } : TimerRun Cb).finish p now := by
  have hall := hvalid.any_isNone
  rw [hheap] at hall
  simp only [tick, hheap, he, hall, Option.bind_eq_bind, Option.bind_some, if_neg hnow]
  cases e.cb <;> rfl

end Tick

/-- What an event leads to. The loop goes on when it is at its start, a callback returns when it
runs, `ExpireTimer` is called when it does not run; events at other times have no effect. -/
def step (alloc : Allocator (TimerNode Cb)) (s : TimerRun Cb) :
    TimerEvent Cb → Option (TimerRun Cb)
  | .addTimer now expire cb => some { s with timer := (s.timer.addTimer alloc now expire cb).2 }
  | .delTimer id => do
    let (deleted, timer) ← s.timer.delTimer id
    return { s with timer, log := if deleted then s.log ++ [.deleted id] else s.log }
  | .expireTimer now =>
    match s.control with
    | .idle => some { s with control := .loop now }
    | _ => some s
  | .tick =>
    match s.control with
    | .loop now => s.tick now
    | _ => some s
  | .ret =>
    match s.control with
    | .callback node now => s.finish node now
    | _ => some s

/-- An addition does not make the count overflow, and a callback does not delete the timer that is
being fired. -/
def Careful (s : TimerRun Cb) : TimerEvent Cb → Prop
  | .addTimer .. => s.timer._count + 1 < 2 ^ 31
  | .delTimer id =>
    match s.control with
    | .callback node _ => (s.timer.timerAt node).map Timer.id ≠ some id
    | _ => True
  | _ => True

instance (s : TimerRun Cb) : ∀ e, Decidable (s.Careful e)
  | .addTimer .. => inferInstanceAs (Decidable (_ < _))
  | .delTimer id =>
    match h : s.control with
    | .callback node _ =>
      decidable_of_iff ((s.timer.timerAt node).map Timer.id ≠ some id) (by simp [Careful, h])
    | .idle => isTrue (by simp [Careful, h])
    | .loop _ => isTrue (by simp [Careful, h])
  | .expireTimer _ => isTrue trivial
  | .tick => isTrue trivial
  | .ret => isTrue trivial

/-- The invariant of a run: the log has at most one entry for a timer, and a timer in the heap has
none, unless it is being fired. -/
structure Inv (s : TimerRun Cb) : Prop where
  valid : s.timer.Valid
  count_nonneg : 0 ≤ s.timer._count
  nodup : (s.log.map TimerAction.id).Nodup
  log_le : ∀ id ∈ s.log.map TimerAction.id, id ≤ s.timer._count
  live : ∀ p ∈ s.timer._heap, ∀ tm ∈ s.timer.timerAt p, tm.id ∈ s.log.map TimerAction.id →
    ∃ now, s.control = .callback p now
  firing : ∀ p now, s.control = .callback p now → p ∈ s.timer._heap ∧
    ∃ tm, s.timer.timerAt p = some tm ∧ .fired tm.id ∈ s.log

theorem inv_init : (init : TimerRun Cb).Inv where
  valid := valid_new
  count_nonneg := le_rfl
  nodup := List.nodup_nil
  log_le := by simp [init]
  live := by simp [init, new]
  firing := by simp [init]

namespace Inv

variable {alloc : Allocator (TimerNode Cb)} {s s' : TimerRun Cb} {p q : Addr} {tm : Timer Cb}

/-- The node of an id. -/
theorem eq_of_id (h : s.Inv) {tm' : Timer Cb} (hp : p ∈ s.timer._heap) (hq : q ∈ s.timer._heap)
    (htm : s.timer.timerAt p = some tm) (htm' : s.timer.timerAt q = some tm')
    (hid : tm.id = tm'.id) : p = q := by
  have hmap := (h.valid.map_iff tm.id p).mpr ⟨hp, by rw [htm]; rfl⟩
  rw [(h.valid.map_iff tm.id q).mpr ⟨hq, by rw [htm', hid]; rfl⟩, Option.some_inj] at hmap
  exact hmap.symm

/-- The ids of the timers in the heap have been given out. -/
theorem id_le (h : s.Inv) (hp : p ∈ s.timer._heap) (htm : s.timer.timerAt p = some tm) :
    tm.id ≤ s.timer._count :=
  h.valid.timer_id_le (List.mem_filterMap.mpr ⟨p, hp, htm⟩)

/-- A timer in the heap that is not being fired is not in the log. -/
theorem not_mem_log (h : s.Inv) (hp : p ∈ s.timer._heap) (htm : s.timer.timerAt p = some tm)
    (hcontrol : ∀ now, s.control ≠ .callback p now) : tm.id ∉ s.log.map TimerAction.id := by
  intro hmem
  obtain ⟨now, hnow⟩ := h.live p hp tm htm hmem
  exact hcontrol now hnow

/-! ## One event -/

theorem addTimer (h : s.Inv) (alloc : Allocator (TimerNode Cb)) (now expire : UInt32)
    (cb : Option Cb) (hcount : s.timer._count + 1 < 2 ^ 31) :
    ({ s with timer := (s.timer.addTimer alloc now expire cb).2 } : TimerRun Cb).Inv := by
  obtain ⟨-, hcount', hvalid, hheap, htimer⟩ :=
    h.valid.addTimer_nodes h.count_nonneg hcount alloc now expire cb
  have hold : ∀ p ∈ s.timer._heap, p ≠ alloc.fresh s.timer.nodes := by
    rintro p hp rfl
    exact AList.lookup_eq_none.mp (alloc.fresh_free _) (h.valid.seated.mem_nodes hp)
  refine ⟨hvalid, ?_, h.nodup, ?_, ?_, ?_⟩
  · show 0 ≤ (s.timer.addTimer alloc now expire cb).2._count
    rw [hcount']
    have := h.count_nonneg
    omega
  · intro id hid
    show id ≤ (s.timer.addTimer alloc now expire cb).2._count
    rw [hcount']
    have := h.log_le id hid
    omega
  · intro p hp tm htm hmem
    change tm ∈ (s.timer.addTimer alloc now expire cb).2.timerAt p at htm
    rw [htimer, Option.mem_def] at htm
    split_ifs at htm with hnew
    · -- the new id is larger than those in the log
      cases htm
      have := h.log_le _ hmem
      simp only at this
      omega
    · have hp' : p ∈ s.timer._heap :=
        (List.mem_cons.mp (hheap.mem_iff.mp hp)).resolve_left hnew
      exact h.live p hp' tm htm hmem
  · intro p now' hcontrol
    obtain ⟨hp, tm, htm, hfired⟩ := h.firing p now' hcontrol
    refine ⟨hheap.mem_iff.mpr (List.mem_cons_of_mem _ hp), tm, ?_, hfired⟩
    show (s.timer.addTimer alloc now expire cb).2.timerAt p = some tm
    rw [htimer, if_neg (hold p hp), htm]

/-- A node is removed from the heap after its timer was put into the log. -/
theorem of_removed (h : s.Inv) {timer' : MinHeapTimer Cb} {control' : ExpireTimer}
    {log' : List TimerAction} (hvalid : timer'.Valid) (hcount : timer'._count = s.timer._count)
    (hheap : s.timer._heap.Perm (p :: timer'._heap))
    (htimer : ∀ q, timer'.timerAt q = if q = p then none else s.timer.timerAt q)
    (htm : s.timer.timerAt p = some tm)
    (hnodup : (log'.map TimerAction.id).Nodup)
    (hlog : ∀ id ∈ log'.map TimerAction.id, id ∈ s.log.map TimerAction.id ∨ id = tm.id)
    (hfired : ∀ a ∈ s.log, a ∈ log')
    (hcontrol : ∀ q ≠ p, ∀ now, s.control = .callback q now ↔ control' = .callback q now)
    (hnot : ∀ now, control' ≠ .callback p now) :
    (⟨timer', control', log'⟩ : TimerRun Cb).Inv := by
  have hp : p ∈ s.timer._heap := hheap.mem_iff.mpr List.mem_cons_self
  have hmem : ∀ q ∈ timer'._heap, q ≠ p ∧ q ∈ s.timer._heap := by
    intro q hq
    refine ⟨?_, hheap.mem_iff.mpr (List.mem_cons_of_mem _ hq)⟩
    rintro rfl
    exact (List.nodup_cons.mp (hheap.nodup_iff.mp h.valid.seated.nodup)).1 hq
  refine ⟨hvalid, hcount ▸ h.count_nonneg, hnodup, ?_, ?_, ?_⟩
  · intro id hid
    show id ≤ timer'._count
    rw [hcount]
    rcases hlog id hid with hid | rfl
    · exact h.log_le id hid
    · exact h.id_le hp htm
  · intro q hq tm' htm' hid
    obtain ⟨hqp, hq'⟩ := hmem q hq
    rw [htimer, if_neg hqp] at htm'
    rcases hlog _ hid with hid | hid
    · obtain ⟨now, hnow⟩ := h.live q hq' tm' htm' hid
      exact ⟨now, (hcontrol q hqp now).mp hnow⟩
    · exact absurd (h.eq_of_id hq' hp htm' htm hid) hqp
  · intro q now hnow
    have hqp : q ≠ p := by
      rintro rfl
      exact hnot now hnow
    obtain ⟨hq, tm', htm', hmem'⟩ := h.firing q now ((hcontrol q hqp now).mpr hnow)
    refine ⟨(List.mem_cons.mp (hheap.mem_iff.mp hq)).resolve_left hqp, tm', ?_, hfired _ hmem'⟩
    rw [htimer, if_neg hqp, htm']

theorem nodup_concat (h : s.Inv) {a : TimerAction} (ha : a.id ∉ s.log.map TimerAction.id) :
    ((s.log ++ [a]).map TimerAction.id).Nodup := by
  rw [List.map_append, List.map_singleton, List.nodup_append']
  exact ⟨h.nodup, List.nodup_singleton _, List.disjoint_singleton.mpr ha⟩

theorem delTimer (h : s.Inv) {id : ℤ} (hcareful : s.Careful (.delTimer id)) :
    ∃ s', s.step alloc (.delTimer id) = some s' ∧ s'.Inv := by
  obtain ⟨hlive, hdead⟩ := h.valid.delTimer id
  by_cases hid : ∃ p tm, p ∈ s.timer._heap ∧ s.timer.timerAt p = some tm ∧ tm.id = id
  · obtain ⟨p, tm, hp, htm, rfl⟩ := hid
    obtain ⟨timer', hdel, hvalid, hcount, hheap, htimer⟩ := hlive p tm hp htm rfl
    have hcontrol : ∀ now, s.control ≠ .callback p now := by
      intro now hnow
      simp only [Careful, hnow, htm] at hcareful
      exact hcareful rfl
    have hlog := h.not_mem_log hp htm hcontrol
    refine ⟨⟨timer', s.control, s.log ++ [.deleted tm.id]⟩, by simp [step, hdel], ?_⟩
    refine h.of_removed hvalid hcount hheap htimer htm (h.nodup_concat hlog) ?_ ?_ ?_ hcontrol
    · intro id hid
      simpa [TimerAction.id, eq_comm, or_comm] using hid
    · intro a ha
      exact List.mem_append_left _ ha
    · intro q _ now
      rfl
  · have hfalse : s.timer.delTimer id = some (false, s.timer) := by
      apply hdead
      intro p hp tm htm heq
      exact hid ⟨p, tm, hp, htm, heq⟩
    exact ⟨s, by simp [step, hfalse], h⟩

/-- **The firing step removes the fired timer and no other.** -/
theorem finish (h : s.Inv) {now : UInt32} (hcontrol : s.control = .callback p now) :
    ∃ s' tm, s.finish p now = some s' ∧ s'.Inv ∧ s.timer.timerAt p = some tm ∧
      .fired tm.id ∈ s.log ∧ s.timer.timers.Perm (tm :: s'.timer.timers) := by
  obtain ⟨hp, tm, htm, hfired⟩ := h.firing p now hcontrol
  obtain ⟨timer', hdel, hvalid, hcount, hheap, htimer⟩ := h.valid.delNode hp
  refine ⟨⟨timer', .loop now, s.log⟩, tm, by simp [TimerRun.finish, hdel], ?_, htm, hfired,
    timers_perm_of_removed h.valid.seated.nodup htm hheap htimer⟩
  refine h.of_removed hvalid hcount hheap htimer htm h.nodup (fun id hid => .inl hid)
    (fun a ha => ha) ?_ (fun _ => by simp)
  intro q hq now'
  simp [hcontrol, Ne.symm hq]

/-- The control moves on while no callback runs. -/
theorem of_control (h : s.Inv) (hold : ∀ p now, s.control ≠ .callback p now)
    {control' : ExpireTimer}
    (hnew : ∀ p now, control' ≠ .callback p now) :
    ({ s with control := control' } : TimerRun Cb).Inv := by
  refine ⟨h.valid, h.count_nonneg, h.nodup, h.log_le, ?_, ?_⟩
  · intro p hp tm htm hmem
    obtain ⟨now, hnow⟩ := h.live p hp tm htm hmem
    exact absurd hnow (hold p now)
  · intro p now hnow
    exact absurd hnow (hnew p now)

/-- The callback of a node begins. -/
theorem fire (h : s.Inv) (hcontrol : ∀ p now, s.control ≠ .callback p now)
    (hp : p ∈ s.timer._heap) (htm : s.timer.timerAt p = some tm) (now : UInt32) :
    ({ s with control := .callback p now, log := s.log ++ [.fired tm.id] } : TimerRun Cb).Inv := by
  have hlog := h.not_mem_log hp htm (hcontrol p)
  refine ⟨h.valid, h.count_nonneg, h.nodup_concat hlog, ?_, ?_, ?_⟩
  · intro id hid
    rw [List.map_append, List.map_singleton, List.mem_append, List.mem_singleton] at hid
    rcases hid with hid | rfl
    · exact h.log_le id hid
    · exact h.id_le hp htm
  · intro q hq tm' htm' hid
    rw [List.map_append, List.map_singleton, List.mem_append, List.mem_singleton] at hid
    rcases hid with hid | hid
    · obtain ⟨now', hnow'⟩ := h.live q hq tm' htm' hid
      exact absurd hnow' (hcontrol q now')
    · obtain rfl := h.eq_of_id hq hp htm' htm hid
      exact ⟨now, rfl⟩
  · intro q now' hnow'
    cases hnow'
    exact ⟨hp, tm, htm, by simp⟩

theorem tick (h : s.Inv) {now : UInt32} (hcontrol : s.control = .loop now) :
    ∃ s', s.tick now = some s' ∧ s'.Inv ∧ (s'.timer = s.timer ∨
      ∃ tm, .fired tm.id ∈ s'.log ∧ s.timer.timers.Perm (tm :: s'.timer.timers)) := by
  have hold : ∀ p now, s.control ≠ .callback p now := by simp [hcontrol]
  have hidle : ({ s with control := .idle } : TimerRun Cb).Inv := h.of_control hold (by simp)
  cases hheap : s.timer._heap with
  | nil => exact ⟨_, tick_nil hheap, hidle, .inl rfl⟩
  | cons p rest =>
    have hp : p ∈ s.timer._heap := by simp [hheap]
    obtain ⟨tm, htm⟩ := h.valid.exists_timerAt hp
    obtain ⟨e, he, rfl⟩ := Option.map_eq_some_iff.mp htm
    by_cases hnow : now < e.expire
    · exact ⟨_, tick_of_lt hheap he hnow, hidle, .inl rfl⟩
    cases hcb : e.cb with
    | some cb =>
      refine ⟨_, ?_, h.fire hold hp htm now, .inl rfl⟩
      rw [tick_due h.valid hheap he hnow, hcb]
      rfl
    | none =>
      obtain ⟨timer', hdel, hvalid, hcount, hheap', htimer⟩ := h.valid.delNode hp
      refine ⟨⟨timer', .loop now, s.log ++ [.fired e.id]⟩, ?_, ?_, .inr ⟨.ofNode e, ?_, ?_⟩⟩
      · rw [tick_due h.valid hheap he hnow, hcb]
        simp only [TimerRun.finish, hdel]
        rfl
      · refine h.of_removed hvalid hcount hheap' htimer htm
          (h.nodup_concat (h.not_mem_log hp htm (hold p))) ?_ ?_ ?_ (by simp)
        · intro id hid
          simpa [TimerAction.id, Timer.ofNode, eq_comm, or_comm] using hid
        · intro a ha
          exact List.mem_append_left _ ha
        · intro q _ now'
          simp [hcontrol]
      · simp [Timer.ofNode]
      · exact timers_perm_of_removed h.valid.seated.nodup htm hheap' htimer

theorem step (h : s.Inv) {e : TimerEvent Cb} (hcareful : s.Careful e) :
    ∃ s', s.step alloc e = some s' ∧ s'.Inv := by
  cases e with
  | addTimer now expire cb => exact ⟨_, rfl, h.addTimer alloc now expire cb hcareful⟩
  | delTimer id => exact h.delTimer hcareful
  | expireTimer now =>
    cases hcontrol : s.control with
    | idle =>
      refine ⟨{ s with control := .loop now }, by simp [TimerRun.step, hcontrol], ?_⟩
      exact h.of_control (by simp [hcontrol]) (by simp)
    | _ => exact ⟨s, by simp [TimerRun.step, hcontrol], h⟩
  | tick =>
    cases hcontrol : s.control with
    | loop now =>
      obtain ⟨s', hs', h', -⟩ := h.tick hcontrol
      exact ⟨s', by simp [TimerRun.step, hcontrol, hs'], h'⟩
    | _ => exact ⟨s, by simp [TimerRun.step, hcontrol], h⟩
  | ret =>
    cases hcontrol : s.control with
    | callback p now =>
      obtain ⟨s', -, hs', h', -⟩ := h.finish hcontrol
      exact ⟨s', by simp [TimerRun.step, hcontrol, hs'], h'⟩
    | _ => exact ⟨s, by simp [TimerRun.step, hcontrol], h⟩

end Inv

/-! ## Whole runs -/

variable {s : TimerRun Cb}

/-- What is expected of a state of a run: the heap, the positions and the map belong together, a
timer was fired at most once, and not after it was deleted, and the steps of `ExpireTimer` remove no
timer but one that was fired. -/
structure Sound (alloc : Allocator (TimerNode Cb)) (s : TimerRun Cb) : Prop where
  heap : ∀ i, 0 < i → i < s.timer._heap.length →
    s.timer.expireAt ((i - 1) / 2) ≤ s.timer.expireAt i
  idx : ∀ i p, s.timer._heap[i]? = some p →
    ∃ node, s.timer.nodes.lookup p = some node ∧ node.idx = i
  map : ∀ id p, s.timer._map.lookup id = some p ↔
    p ∈ s.timer._heap ∧ ∃ node, s.timer.nodes.lookup p = some node ∧ node.id = id
  once : ∀ id, s.log.count (.fired id) ≤ 1
  not_deleted : ∀ id l₁ l₂, s.log = l₁ ++ .deleted id :: l₂ → .fired id ∉ l₂
  others : ∀ e s', e = .tick ∨ e = .ret → s.step alloc e = some s' → s'.timer = s.timer ∨
    ∃ tm, .fired tm.id ∈ s'.log ∧ s.timer.timers.Perm (tm :: s'.timer.timers)

theorem Inv.sound (h : s.Inv) (alloc : Allocator (TimerNode Cb)) : s.Sound alloc := by
  obtain ⟨hheap, hidx, hmap⟩ := h.valid.heap_idx_map
  refine ⟨hheap, hidx, hmap, ?_, ?_, ?_⟩
  · intro id
    exact List.nodup_iff_count_le_one.mp h.nodup.of_map _
  · intro id l₁ l₂ hlog hmem
    have hnodup := h.nodup
    rw [hlog, List.map_append, List.map_cons, List.nodup_append'] at hnodup
    exact (List.nodup_cons.mp hnodup.2.1).1 (List.mem_map.mpr ⟨_, hmem, rfl⟩)
  · rintro e s' (rfl | rfl) hstep
    · cases hcontrol : s.control with
      | loop now =>
        obtain ⟨s₁, hs₁, -, hremoved⟩ := h.tick hcontrol
        simp only [TimerRun.step, hcontrol, hs₁, Option.some_inj] at hstep
        exact hstep ▸ hremoved
      | _ =>
        simp only [TimerRun.step, hcontrol, Option.some_inj] at hstep
        exact .inl (hstep ▸ rfl)
    · cases hcontrol : s.control with
      | callback p now =>
        obtain ⟨s₁, tm, hs₁, -, -, hfired, hperm⟩ := h.finish hcontrol
        obtain ⟨timer', -, hs₁'⟩ := Option.map_eq_some_iff.mp hs₁
        simp only [TimerRun.step, hcontrol, hs₁, Option.some_inj] at hstep
        subst hstep
        refine .inr ⟨tm, ?_, hperm⟩
        rw [← hs₁']
        exact hfired
      | _ =>
        simp only [TimerRun.step, hcontrol, Option.some_inj] at hstep
        exact .inl (hstep ▸ rfl)

/-- **Callbacks that use the timer.** In every run of `AddTimer`, `DelTimer` and `ExpireTimer`, with
fewer than 2³¹ additions, in which no callback deletes the timer that is being fired, no freed node
is used, and every state is as expected. -/
theorem sound_of_careful (alloc : Allocator (TimerNode Cb)) (es : List (TimerEvent Cb))
    (hcareful : PartialMachine.Meets (step alloc) Careful init es) :
    ∃ s, es.foldlM (step alloc) init = some s ∧ s.Sound alloc := by
  have hstep : ∀ (s : TimerRun Cb) (e : TimerEvent Cb), s.Inv → s.Careful e →
      ∃ s', s.step alloc e = some s' ∧ s'.Inv := fun s e h he => h.step he
  obtain ⟨s, hs, h⟩ := PartialMachine.exists_run hstep inv_init hcareful
  exact ⟨s, hs, h.sound alloc⟩

/-- A callback deletes another timer and adds one that is due at once, which is fired next. -/
theorem sound_adding_callback :
    ∃ s, [TimerEvent.addTimer 0 0 (some ()), .addTimer 0 5 (some ()), .expireTimer 3, .tick,
        .delTimer 2, .addTimer 3 0 none, .ret, .tick, .tick].foldlM (step (.above _)) init =
        some s ∧ s.Sound (.above _) :=
  sound_of_careful (.above _) _ (by decide +kernel)

/-- A callback deletes its own timer and adds another one, whose node gets the address of the node
that was freed. When the callback returns, the new timer is removed. -/
theorem exists_removed_timer :
    ¬ ∀ (alloc : Allocator (TimerNode Unit)) (es : List (TimerEvent Unit)),
      ∃ s, es.foldlM (step alloc) init = some s ∧ s.Sound alloc := by
  intro h
  obtain ⟨s, hs, hsound⟩ := h (.above _) [.addTimer 0 0 (some ()), .expireTimer 0, .tick,
    .delTimer 1, .addTimer 0 100 (some ())]
  have hbefore : ([TimerEvent.addTimer 0 0 (some ()), .expireTimer 0, .tick, .delTimer 1,
      .addTimer 0 100 (some ())].foldlM (step (.above _)) init).map
        (fun s => s.timer.timers.map Timer.id) = some [2] := by
    decide +kernel
  have hafter : (([TimerEvent.addTimer 0 0 (some ()), .expireTimer 0, .tick, .delTimer 1,
      .addTimer 0 100 (some ())].foldlM (step (.above _)) init).bind
        fun s => s.step (.above _) .ret).map (fun s => (s.timer.timers.map Timer.id, s.log)) =
      some ([], [.fired 1, .deleted 1]) := by
    decide +kernel
  rw [hs, Option.map_some, Option.some_inj] at hbefore
  rw [hs, Option.bind_some] at hafter
  obtain ⟨s', hs', hs''⟩ := Option.map_eq_some_iff.mp hafter
  obtain ⟨htimers, hlog⟩ := Prod.mk.inj hs''
  rcases hsound.others .ret s' (.inr rfl) hs' with hsame | ⟨tm, hfired, hperm⟩
  · rw [hsame, hbefore] at htimers
    cases htimers
  · have hid := hperm.map Timer.id
    rw [List.map_cons, hbefore, htimers, List.perm_singleton] at hid
    rw [hlog] at hfired
    simp_all

end TimerRun

end CodeTest
