import CodeTest.Foundations.Ledger
import CodeTest.Foundations.Machine
import CodeTest.MultiTask.Packs

/-!
# Every pack is decided once

Packs are started, tasks report, the timer ticks and callbacks are run, in any order. Besides what
the code keeps, the state has the packs started so far, in order, a log of the reports that met a
pack that was alive, and a log of how packs ended. The callbacks and the arguments of a pack are
marked with its number.

A pack counts the tasks that have a result; since a task reports with an id of the pack, the count
is full when every task has reported (`count_results`). So a pack ends with the report that
completes it, or with a tick before that, and only one of its callbacks is run, once
(`decided_once`).
-/

namespace CodeTest.MultiTask

variable {N Cb Args V : Type}

/-! ## Reports -/

/-- Every task has reported. -/
def Complete (nTasks : ℕ) (reports : List (ℕ × Value V)) : Prop :=
  ∀ i, 1 ≤ i → i ≤ nTasks → i ∈ reports.map Prod.fst

/-- The data of the last report of a task. -/
def lastData (reports : List (ℕ × Value V)) (i : ℕ) : Option (Value V) :=
  (reports.filter fun r => r.1 = i).getLast?.map Prod.snd

/-- The table that is left by reports. -/
def results (reports : List (ℕ × Value V)) : Table ℕ (Value V) :=
  reports.foldl (fun tResult r => tResult.insert r.1 (r.2.or .emptyTable)) ∅

theorem results_append_singleton (reports : List (ℕ × Value V)) (r : ℕ × Value V) :
    results (reports ++ [r]) = (results reports).insert r.1 (r.2.or .emptyTable) := by
  rw [results, List.foldl_append]
  rfl

/-- **The table has for every task the data of its last report**, or `{}` for `nil` and `false`. -/
theorem lookup_results (reports : List (ℕ × Value V)) (i : ℕ) :
    (results reports).lookup i = (lastData reports i).map fun tData => tData.or .emptyTable := by
  induction reports using List.reverseRecOn with
  | nil => rfl
  | append_singleton reports r ih =>
    rw [results_append_singleton, Table.lookup_insert_eq, lastData, List.filter_append]
    by_cases hi : r.1 = i
    · rw [if_pos hi.symm, List.filter_cons_of_pos (by simpa using hi), List.filter_nil,
        List.getLast?_concat]
      rfl
    · rw [if_neg (Ne.symm hi), List.filter_cons_of_neg (by simpa using hi), List.filter_nil,
        List.append_nil, ih]
      rfl

theorem mem_results {reports : List (ℕ × Value V)} {i : ℕ} :
    i ∈ results reports ↔ i ∈ reports.map Prod.fst := by
  induction reports using List.reverseRecOn with
  | nil => exact Iff.rfl
  | append_singleton reports r ih =>
    rw [results_append_singleton, AList.mem_insert, ih, List.map_append, List.mem_append, or_comm]
    exact Iff.rfl.or List.mem_singleton.symm

/-- **Counting the results tells whether every task has reported**, as long as only they report. -/
theorem count_results {nTasks : ℕ} {reports : List (ℕ × Value V)}
    (hrange : ∀ r ∈ reports, 1 ≤ r.1 ∧ r.1 ≤ nTasks) :
    TableUtil.count (results reports) = nTasks ↔ Complete nTasks reports := by
  have hkeys : ∀ i, i ∈ (results reports).keys.toFinset ↔ i ∈ reports.map Prod.fst := by
    intro i
    rw [List.mem_toFinset, ← AList.mem_keys, mem_results]
  have hsub : (results reports).keys.toFinset ⊆ Finset.Icc 1 nTasks := by
    intro i hi
    obtain ⟨r, hr, rfl⟩ := List.mem_map.mp ((hkeys i).mp hi)
    exact Finset.mem_Icc.mpr (hrange r hr)
  have hcard : (results reports).keys.toFinset.card = TableUtil.count (results reports) := by
    rw [TableUtil.count_eq]
    exact List.toFinset_card_of_nodup (results reports).keys_nodup
  rw [← hcard]
  constructor
  · intro hfull i h₁ h₂
    rw [← hkeys, Finset.eq_of_subset_of_card_le hsub (by rw [Nat.card_Icc, hfull]; omega)]
    exact Finset.mem_Icc.mpr ⟨h₁, h₂⟩
  · intro hall
    have heq : (results reports).keys.toFinset = Finset.Icc 1 nTasks := by
      apply hsub.antisymm
      intro i hi
      obtain ⟨h₁, h₂⟩ := Finset.mem_Icc.mp hi
      exact (hkeys i).mpr (hall i h₁ h₂)
    rw [heq, Nat.card_Icc]
    omega

/-! ## The system -/

/-- What a pack is started with. -/
structure Started (Cb Args : Type) where
  nTasks : ℕ
  fFinish : Option Cb
  fTimeout : Option Cb
  tArgs : Args

/-- The pack with the number `c`, as it is stored. -/
def Started.tPack (p : Started Cb Args) (c : ℕ) (nPackId : Double) (tResult : Table ℕ (Value V)) :
    TaskPack (ℕ × Cb) (ℕ × Args) V where
  nPackId := nPackId
  nTasks := p.nTasks
  tArgs := (c, p.tArgs)
  fFinish := p.fFinish.map fun f => (c, f)
  fTimeout := p.fTimeout.map fun f => (c, f)
  tResult := tResult

/-- How a pack ends. -/
inductive PackEnd
  | finish
  | timeout
deriving DecidableEq

/-- What is run when the pack with the number `c` ends: the callback for it, if there is one. -/
def Started.callback (p : Started Cb Args) (c : ℕ) (tResult : Table ℕ (Value V)) :
    PackEnd → Option (PackInvocation (ℕ × Cb) (ℕ × Args) V)
  | .finish => p.fFinish.map fun f => .fFinish (c, f) tResult (c, p.tArgs)
  | .timeout => p.fTimeout.map fun f => .fTimeout (c, f) tResult

/-- The number of the pack of a callback. -/
def num : PackInvocation (ℕ × Cb) (ℕ × Args) V → ℕ
  | .fFinish f _ _ => f.1
  | .fTimeout f _ => f.1

theorem Started.num_callback {p : Started Cb Args} {c : ℕ} {tResult : Table ℕ (Value V)}
    {o : PackEnd} {i : PackInvocation (ℕ × Cb) (ℕ × Args) V}
    (h : p.callback c tResult o = some i) : num i = c := by
  cases o <;> obtain ⟨f, -, rfl⟩ := Option.map_eq_some_iff.mp h <;> rfl

/-- The module, the packs started so far, the reports that met a pack that was alive, with its
number, how the packs that ended did, and the callbacks that are still to be run and those that have
been. -/
structure Board (N Cb Args V : Type) where
  tasks : CoMultiTask N (ℕ × Cb) (ℕ × Args) V
  packs : List (Started Cb Args)
  reports : List (ℕ × ℕ × Value V)
  ended : List (ℕ × PackEnd)
  queue : List (PackInvocation (ℕ × Cb) (ℕ × Args) V)
  executed : List (PackInvocation (ℕ × Cb) (ℕ × Args) V)

/-- What may happen next. -/
inductive Event (N Cb Args V : Type)
  | startMultiTask (now : ℤ) (p : Started Cb Args) (nTimeout : Option N)
  | onPartTaskFinish (nPackId : Double) (nTaskId : ℕ) (tData : Value V)
  | tick (now : ℤ) (t : Addr) (order : PairsOrder Double (TaskPack (ℕ × Cb) (ℕ × Args) V))
  | run

namespace Board

variable [DecidableEq N]

def init (now : ℤ) : Board N Cb Args V :=
  { tasks := .init now, packs := [], reports := [], ended := [], queue := [], executed := [] }

/-- The reports that the pack with the number `c` got while it was alive. -/
def reportsOf (b : Board N Cb Args V) (c : ℕ) : List (ℕ × Value V) :=
  (b.reports.filter fun r => r.1 = c).map Prod.snd

/-- One step, with what the caller gets back. A report that met a pack goes to the log, and so does
the end of the pack if it is no longer alive then; a callback may start packs between this callback
and the next. -/
def step [IntCast N] [Add N] [One N] [LE N] [DecidableLE N] (newTimer : Allocator Unit) :
    Machine (Board N Cb Args V) (Event N Cb Args V) (Option (Double × List ℕ))
  | b, .startMultiTask now p nTimeout =>
    let (ids, tasks) := b.tasks.startMultiTask newTimer now p.nTasks
      (p.fFinish.map fun f => (b.packs.length, f)) (p.fTimeout.map fun f => (b.packs.length, f))
      nTimeout (b.packs.length, p.tArgs)
    (some ids, { b with tasks, packs := b.packs ++ [p] })
  | b, .onPartTaskFinish nPackId nTaskId tData =>
    let (invocations, tasks) := b.tasks.onPartTaskFinish nPackId nTaskId tData
    let met := (b.tasks.pack nPackId).toList.map fun tPack => tPack.tArgs.1
    (none,
      { b with
        tasks, reports := b.reports ++ met.map fun c => (c, nTaskId, tData)
        ended := if (tasks.pack nPackId).isSome then b.ended
          else b.ended ++ met.map fun c => (c, .finish)
        queue := b.queue ++ invocations })
  | b, .tick now t order =>
    match b.tasks.timers.lookup t with
    | none => (none, b)
    | some () =>
      let (tPacks, _) := b.tasks.lg_TimeOutMgr.popTimeOut order now
      let (invocations, tasks) := b.tasks.checkTimoutPack order now
      (none,
        { b with
          tasks, ended := b.ended ++ tPacks.map fun tPack => (tPack.tArgs.1, .timeout)
          queue := b.queue ++ invocations })
  | b, .run =>
    (none, { b with queue := b.queue.tail, executed := b.executed ++ b.queue.head?.toList })

/-- A pack has at least one task and does not get the id of one that is alive, and a task reports
with an id of its pack. -/
def Allowed (b : Board N Cb Args V) : Event N Cb Args V → Prop
  | .startMultiTask _ p _ => 1 ≤ p.nTasks ∧ b.tasks.pack b.tasks.nextId = none
  | .onPartTaskFinish nPackId nTaskId _ =>
    ∀ tPack ∈ b.tasks.pack nPackId, 1 ≤ nTaskId ∧ nTaskId ≤ tPack.nTasks
  | _ => True

instance decidableAllowed (b : Board N Cb Args V) : ∀ e, Decidable (Allowed b e)
  | .startMultiTask _ p _ =>
    inferInstanceAs (Decidable (1 ≤ p.nTasks ∧ b.tasks.pack b.tasks.nextId = none))
  | .onPartTaskFinish nPackId nTaskId _ =>
    inferInstanceAs
      (Decidable (∀ tPack ∈ b.tasks.pack nPackId, 1 ≤ nTaskId ∧ nTaskId ≤ tPack.nTasks))
  | .tick _ _ _ => isTrue trivial
  | .run => isTrue trivial

/-- The pack with the number `c` is stored in the manager. -/
def Alive (b : Board N Cb Args V) (c : ℕ) : Prop :=
  ∃ nPackId tPack, b.tasks.pack nPackId = some tPack ∧ tPack.tArgs.1 = c

/-- The entries of the log for the pack with the number `c`. -/
def endings (b : Board N Cb Args V) (c : ℕ) : List (ℕ × PackEnd) := b.ended.filter fun x => x.1 = c

/-- The callbacks of the pack with the number `c` that were run or wait to be run. -/
def invocations (b : Board N Cb Args V) (c : ℕ) : List (PackInvocation (ℕ × Cb) (ℕ × Args) V) :=
  (b.executed ++ b.queue).filter fun i => num i = c

/-! ## The invariant -/

/-- What an entry of the log lets run. -/
def effect (b : Board N Cb Args V) (x : ℕ × PackEnd) :
    Option (PackInvocation (ℕ × Cb) (ℕ × Args) V) :=
  b.packs[x.1]?.bind fun p => p.callback x.1 (results (b.reportsOf x.1)) x.2

/-- The number of the pack under an id. -/
def owner (tasks : CoMultiTask N (ℕ × Cb) (ℕ × Args) V) (nPackId : Double) : Option ℕ :=
  (tasks.pack nPackId).map fun tPack => tPack.tArgs.1

/-- A pack that is alive has the results of its reports, which are from its tasks and not complete.
-/
structure Waiting (p : Started Cb Args) (c : ℕ) (reports : List (ℕ × Value V)) (nPackId : Double)
    (tPack : TaskPack (ℕ × Cb) (ℕ × Args) V) : Prop where
  stored : tPack = p.tPack c nPackId (results reports)
  range : ∀ r ∈ reports, 1 ≤ r.1 ∧ r.1 ≤ p.nTasks
  incomplete : ¬ Complete p.nTasks reports

/-- A pack that is finished was completed by its last report; one that has timed out is not
complete. -/
structure Decided (p : Started Cb Args) (reports : List (ℕ × Value V)) (o : PackEnd) : Prop where
  finish_iff : o = .finish ↔ Complete p.nTasks reports
  last : o = .finish → ¬ Complete p.nTasks reports.dropLast

/-- The packs form a ledger, those that are alive wait and the others are decided, and what was
queued is what the log lets run. -/
structure Accounted (b : Board N Cb Args V) : Prop where
  wellFormed : b.tasks.WellFormed
  waiting : ∀ nPackId tPack, b.tasks.pack nPackId = some tPack → ∃ p,
    b.packs[tPack.tArgs.1]? = some p ∧
      Waiting p tPack.tArgs.1 (b.reportsOf tPack.tArgs.1) nPackId tPack
  reports_lt : ∀ r ∈ b.reports, r.1 < b.packs.length
  balanced : Ledger.Balanced (owner b.tasks) b.packs.length b.ended
  decided : ∀ x ∈ b.ended, ∀ p, b.packs[x.1]? = some p → Decided p (b.reportsOf x.1) x.2
  ran : b.executed ++ b.queue = b.ended.filterMap b.effect

variable {b : Board N Cb Args V}

theorem accounted_init (now : ℤ) : (init now : Board N Cb Args V).Accounted where
  wellFormed := CoMultiTask.wellFormed_init now
  waiting nPackId tPack h := by
    simp [init, CoMultiTask.pack, CoMultiTask.init, TimeOutManager.get_eq] at h
  reports_lt r h := absurd h (by simp [init])
  balanced := by
    have : owner (init now : Board N Cb Args V).tasks = fun _ => none := by
      funext nPackId
      simp [owner, init, CoMultiTask.pack, CoMultiTask.init, TimeOutManager.get_eq]
    rw [this]
    exact Ledger.balanced_empty
  decided x h := absurd h (by simp [init])
  ran := rfl

omit [DecidableEq N] in
theorem effect_num (b : Board N Cb Args V) (x : ℕ × PackEnd)
    (i : PackInvocation (ℕ × Cb) (ℕ × Args) V) (h : b.effect x = some i) : num i = x.1 := by
  obtain ⟨p, -, hi⟩ := Option.bind_eq_some_iff.mp h
  exact Started.num_callback hi

/-- **What the accounts say about a pack.** -/
theorem Accounted.alive_or_ended (h : b.Accounted) {c : ℕ} {p : Started Cb Args}
    (hc : b.packs[c]? = some p) :
    (b.Alive c ∧ b.endings c = [] ∧ b.invocations c = [] ∧ ¬ Complete p.nTasks (b.reportsOf c)) ∨
      (¬ b.Alive c ∧ ∃ o, b.endings c = [(c, o)] ∧ Decided p (b.reportsOf c) o ∧
        b.invocations c = (p.callback c (results (b.reportsOf c)) o).toList) := by
  have hran : b.invocations c = (b.endings c).filterMap b.effect := by
    rw [invocations, h.ran, endings]
    exact Ledger.filter_filterMap_effect b.ended b.effect_num c
  rcases h.balanced.open_or_closed (List.getElem?_eq_some_iff.mp hc).1 with
    ⟨⟨nPackId, howner⟩, hnone⟩ | ⟨hnot, o, ho⟩
  · left
    obtain ⟨tPack, hp, rfl⟩ := Option.map_eq_some_iff.mp howner
    obtain ⟨p', hp', hwaiting⟩ := h.waiting nPackId tPack hp
    obtain rfl := Option.some_inj.mp (hp'.symm.trans hc)
    refine ⟨⟨nPackId, tPack, hp, rfl⟩, hnone, ?_, hwaiting.incomplete⟩
    rw [hran, endings, hnone]
    rfl
  · right
    have hmem : (c, o) ∈ b.ended := by
      apply List.mem_of_mem_filter (p := fun x => x.1 = c)
      rw [ho]
      exact List.mem_singleton_self _
    refine ⟨?_, o, ho, h.decided (c, o) hmem p hc, ?_⟩
    · intro ⟨nPackId, tPack, hp, hnum⟩
      apply hnot
      refine ⟨nPackId, ?_⟩
      rw [owner, hp, Option.map_some, hnum]
    · rw [hran, endings, ho]
      simp only [effect, List.filterMap_cons, hc, Option.bind_some, List.filterMap_nil]
      cases p.callback c (results (b.reportsOf c)) o <;> rfl

omit [DecidableEq N] in
theorem effect_congr {b' : Board N Cb Args V} {x : ℕ × PackEnd}
    (hpacks : b'.packs[x.1]? = b.packs[x.1]?)
    (hreports : b'.reportsOf x.1 = b.reportsOf x.1) : b'.effect x = b.effect x := by
  rw [effect, effect, hpacks, hreports]

/-! ## A pack that waits -/

namespace Waiting

variable {p : Started Cb Args} {c : ℕ} {reports : List (ℕ × Value V)} {nPackId : Double}
  {tPack : TaskPack (ℕ × Cb) (ℕ × Args) V} {nTaskId : ℕ} {tData : Value V}

theorem results_report (h : Waiting p c reports nPackId tPack) :
    tPack.tResult.insert nTaskId (tData.or .emptyTable) =
      results (reports ++ [(nTaskId, tData)]) := by
  rw [results_append_singleton, h.stored]
  rfl

theorem range_report (h : Waiting p c reports nPackId tPack)
    (hrange : 1 ≤ nTaskId ∧ nTaskId ≤ tPack.nTasks) :
    ∀ r ∈ reports ++ [(nTaskId, tData)], 1 ≤ r.1 ∧ r.1 ≤ p.nTasks := by
  intro r hr
  rcases List.mem_append.mp hr with hr | hr
  · exact h.range r hr
  · rw [List.mem_singleton.mp hr]
    rw [h.stored] at hrange
    exact hrange

/-- The count is full when the report completes the pack. -/
theorem count_report (h : Waiting p c reports nPackId tPack) (tData : Value V)
    (hrange : 1 ≤ nTaskId ∧ nTaskId ≤ tPack.nTasks) :
    TableUtil.count (tPack.tResult.insert nTaskId (tData.or .emptyTable)) = tPack.nTasks ↔
      Complete p.nTasks (reports ++ [(nTaskId, tData)]) := by
  rw [h.results_report, ← count_results (h.range_report hrange), h.stored]
  rfl

/-- A report that does not complete the pack. -/
theorem report (h : Waiting p c reports nPackId tPack)
    (hrange : 1 ≤ nTaskId ∧ nTaskId ≤ tPack.nTasks)
    (hnot : ¬ Complete p.nTasks (reports ++ [(nTaskId, tData)])) :
    Waiting p c (reports ++ [(nTaskId, tData)]) nPackId
      { tPack with tResult := tPack.tResult.insert nTaskId (tData.or .emptyTable) } := by
  refine ⟨?_, h.range_report hrange, hnot⟩
  rw [h.results_report, h.stored]
  rfl

theorem callback_finish (h : Waiting p c reports nPackId tPack) (tResult : Table ℕ (Value V)) :
    (tPack.fFinish.map fun f => .fFinish f tResult tPack.tArgs) = p.callback c tResult .finish := by
  rw [h.stored]
  exact Option.map_map _ _ _

theorem callback_timeout (h : Waiting p c reports nPackId tPack) :
    (tPack.fTimeout.map fun f => .fTimeout f tPack.tResult) =
      p.callback c (results reports) .timeout := by
  rw [h.stored]
  exact Option.map_map _ _ _

end Waiting

/-! ## Steps -/

/-- A pack is started. -/
theorem Accounted.startMultiTask [IntCast N] [Add N] [One N] [LE N] [DecidableLE N]
    (h : b.Accounted) (newTimer : Allocator Unit) (now : ℤ) (p : Started Cb Args)
    (nTimeout : Option N)
    (hpos : 1 ≤ p.nTasks) (hfree : b.tasks.pack b.tasks.nextId = none) :
    (b.step newTimer (.startMultiTask now p nTimeout)).2.Accounted := by
  obtain ⟨hwf, hpack⟩ := h.wellFormed.startMultiTask newTimer now p.nTasks
    (p.fFinish.map fun f => (b.packs.length, f)) (p.fTimeout.map fun f => (b.packs.length, f))
    nTimeout (b.packs.length, p.tArgs) hfree
  have hold : ∀ c < b.packs.length, (b.packs ++ [p])[c]? = b.packs[c]? := fun c hc =>
    List.getElem?_append_left hc
  have hnew : b.reportsOf b.packs.length = [] := by
    rw [reportsOf, List.map_eq_nil_iff, List.filter_eq_nil_iff]
    intro r hr heq
    exact absurd (h.reports_lt r hr) (by rw [decide_eq_true_eq.mp heq]; exact lt_irrefl _)
  refine ⟨hwf, fun nPackId tPack hp => ?_, fun r hr => ?_, ?_, fun x hx p' hp' => ?_, ?_⟩
  · rw [step, hpack] at hp
    split_ifs at hp with hid
    · obtain rfl := Option.some_inj.mp hp
      refine ⟨p, List.getElem?_concat_length, ?_⟩
      have hnone : (b.step newTimer (.startMultiTask now p nTimeout)).2.reportsOf
          b.packs.length = [] := hnew
      rw [hnone]
      refine ⟨by rw [hid]; rfl, fun r hr => absurd hr (by simp), fun hall => ?_⟩
      exact absurd (hall 1 le_rfl hpos) (by simp)
    · obtain ⟨p', hp', hwaiting⟩ := h.waiting nPackId tPack hp
      exact ⟨p', (hold _ (List.getElem?_eq_some_iff.mp hp').1).trans hp', hwaiting⟩
  · rw [step, List.length_append]
    exact (h.reports_lt r hr).trans_le (Nat.le_add_right _ _)
  · rw [step, List.length_append, List.length_singleton]
    refine h.balanced.openAt b.tasks.nextId (by rw [owner, hfree]; rfl) fun nPackId => ?_
    rw [owner, hpack]
    split_ifs <;> rfl
  · have hlt := h.balanced.closed_lt x.1 (List.mem_map_of_mem hx)
    exact h.decided x hx p' ((hold x.1 hlt).symm.trans hp')
  · rw [step, h.ran]
    refine List.filterMap_congr fun x hx => ?_
    have hlt := h.balanced.closed_lt x.1 (List.mem_map_of_mem hx)
    symm
    apply effect_congr
    · exact hold x.1 hlt
    · rfl

/-- A tick. -/
theorem Accounted.tick [IntCast N] [Add N] [One N] [LE N] [DecidableLE N] (h : b.Accounted)
    (newTimer : Allocator Unit) (now : ℤ) (t : Addr)
    (order : PairsOrder Double (TaskPack (ℕ × Cb) (ℕ × Args) V)) :
    (b.step newTimer (.tick now t order)).2.Accounted := by
  rw [step]
  cases ht : b.tasks.timers.lookup t with
  | none => exact h
  | some u =>
    obtain ⟨es, tasks, hpop, hcheck, hwf, hnodup, hmem, hpack⟩ :=
      h.wellFormed.checkTimoutPack order now
    simp only [hpop, hcheck]
    -- the pack of an entry, with what it was started with
    have hentry : ∀ e ∈ es, ∃ p, b.packs[e.2.tArgs.1]? = some p ∧
        Waiting p e.2.tArgs.1 (b.reportsOf e.2.tArgs.1) e.1 e.2 := fun e he =>
      h.waiting e.1 e.2 (hmem e.1 e.2 he)
    refine ⟨hwf, fun nPackId tPack hp => ?_, h.reports_lt, ?_, fun x hx p hp => ?_, ?_⟩
    · rw [hpack] at hp
      split_ifs at hp
      exact h.waiting nPackId tPack hp
    · refine h.balanced.close Function.injective_id (fun tPack => tPack.tArgs.1) es hnodup ?_ ?_ _
      · intro nPackId tPack he
        rw [id, owner, hmem nPackId tPack he]
        rfl
      · intro nPackId
        rw [owner, hpack]
        show _ = if nPackId ∈ es.map Sigma.fst then none else owner b.tasks nPackId
        split_ifs <;> rfl
    · rcases List.mem_append.mp hx with hx | hx
      · exact h.decided x hx p hp
      · obtain ⟨tPack, htPack, rfl⟩ := List.mem_map.mp hx
        obtain ⟨e, he, rfl⟩ := List.mem_map.mp htPack
        obtain ⟨p', hp', hwaiting⟩ := hentry e he
        obtain rfl := Option.some_inj.mp (hp'.symm.trans hp)
        exact ⟨⟨fun heq => absurd heq (by simp), fun hall => absurd hall hwaiting.incomplete⟩,
          fun heq => absurd heq (by simp)⟩
    · rw [← List.append_assoc, h.ran, List.filterMap_append, List.filterMap_map, List.filterMap_map,
        List.map_map, List.filterMap_map]
      congr 1
      refine List.filterMap_congr fun e he => ?_
      obtain ⟨p, hp, hwaiting⟩ := hentry e he
      show (e.2.fTimeout.map fun f => PackInvocation.fTimeout f e.2.tResult) =
        b.effect (e.2.tArgs.1, .timeout)
      rw [hwaiting.callback_timeout, effect, hp]
      rfl

omit [DecidableEq N] in
/-- A report for the pack with the number `c` goes to its reports. -/
theorem reportsOf_append {b' : Board N Cb Args V} {c i : ℕ} {tData : Value V}
    (hreports : b'.reports = b.reports ++ [(c, i, tData)]) (c' : ℕ) :
    b'.reportsOf c' = if c' = c then b.reportsOf c ++ [(i, tData)] else b.reportsOf c' := by
  rw [reportsOf, hreports, List.filter_append, List.map_append]
  split_ifs with hc
  · subst hc
    rw [List.filter_cons_of_pos (by simp)]
    rfl
  · rw [List.filter_cons_of_neg (by simpa using Ne.symm hc)]
    exact List.append_nil _

/-- A report for a pack that is alive goes to the log, and other packs stay as they are. -/
structure Reported (b b' : Board N Cb Args V) (nPackId : Double)
    (tPack : TaskPack (ℕ × Cb) (ℕ × Args) V) (nTaskId : ℕ) (tData : Value V) : Prop where
  alive : b.tasks.pack nPackId = some tPack
  wellFormed : b'.tasks.WellFormed
  packs : b'.packs = b.packs
  reports : b'.reports = b.reports ++ [(tPack.tArgs.1, nTaskId, tData)]
  other : ∀ id, id ≠ nPackId → b'.tasks.pack id = b.tasks.pack id
  executed : b'.executed = b.executed

namespace Reported

variable {b' : Board N Cb Args V} {nPackId : Double} {tPack : TaskPack (ℕ × Cb) (ℕ × Args) V}
  {nTaskId : ℕ} {tData : Value V}

theorem reportsOf_same (hr : Reported b b' nPackId tPack nTaskId tData) :
    b'.reportsOf tPack.tArgs.1 = b.reportsOf tPack.tArgs.1 ++ [(nTaskId, tData)] := by
  rw [reportsOf_append hr.reports, if_pos rfl]

theorem owner_eq (hr : Reported b b' nPackId tPack nTaskId tData) :
    owner b.tasks nPackId = some tPack.tArgs.1 := by
  rw [owner, hr.alive]
  rfl

/-- Packs that have ended get no reports. -/
theorem reportsOf_ended (hr : Reported b b' nPackId tPack nTaskId tData) (h : b.Accounted)
    {x : ℕ × PackEnd} (hx : x ∈ b.ended) : b'.reportsOf x.1 = b.reportsOf x.1 := by
  rw [reportsOf_append hr.reports, if_neg]
  intro heq
  exact h.balanced.not_mem_closed hr.owner_eq (heq ▸ List.mem_map_of_mem hx)

theorem effect_ended (hr : Reported b b' nPackId tPack nTaskId tData) (h : b.Accounted) :
    ∀ x ∈ b.ended, b.effect x = b'.effect x := by
  intro x hx
  symm
  apply effect_congr
  · rw [hr.packs]
  · exact hr.reportsOf_ended h hx

theorem decided_ended (hr : Reported b b' nPackId tPack nTaskId tData) (h : b.Accounted) :
    ∀ x ∈ b.ended, ∀ p, b'.packs[x.1]? = some p → Decided p (b'.reportsOf x.1) x.2 := by
  intro x hx p hp
  rw [hr.packs] at hp
  rw [hr.reportsOf_ended h hx]
  exact h.decided x hx p hp

theorem waiting_other (hr : Reported b b' nPackId tPack nTaskId tData) (h : b.Accounted)
    {id : Double} {tPack' : TaskPack (ℕ × Cb) (ℕ × Args) V} (hne : id ≠ nPackId)
    (hp : b'.tasks.pack id = some tPack') : ∃ p, b'.packs[tPack'.tArgs.1]? = some p ∧
      Waiting p tPack'.tArgs.1 (b'.reportsOf tPack'.tArgs.1) id tPack' := by
  rw [hr.other id hne] at hp
  rw [hr.packs, reportsOf_append hr.reports, if_neg]
  · exact h.waiting id tPack' hp
  · intro heq
    apply hne
    apply h.balanced.unique id nPackId tPack.tArgs.1 _ hr.owner_eq
    rw [owner, hp, ← heq]
    rfl

theorem reports_lt (hr : Reported b b' nPackId tPack nTaskId tData) (h : b.Accounted) :
    ∀ r ∈ b'.reports, r.1 < b'.packs.length := by
  intro r hmem
  rw [hr.packs]
  rw [hr.reports, List.mem_append, List.mem_singleton] at hmem
  rcases hmem with hmem | rfl
  · exact h.reports_lt r hmem
  · exact h.balanced.owner_lt nPackId _ hr.owner_eq

end Reported

section Report

variable {b' : Board N Cb Args V} {nPackId : Double} {tPack : TaskPack (ℕ × Cb) (ℕ × Args) V}
  {nTaskId : ℕ} {tData : Value V} {p : Started Cb Args}

/-- The report completes the pack. -/
theorem Accounted.finishReport (h : b.Accounted) (hr : Reported b b' nPackId tPack nTaskId tData)
    (hp : b.packs[tPack.tArgs.1]? = some p)
    (hwaiting : Waiting p tPack.tArgs.1 (b.reportsOf tPack.tArgs.1) nPackId tPack)
    (hall : Complete p.nTasks (b.reportsOf tPack.tArgs.1 ++ [(nTaskId, tData)]))
    (hgone : b'.tasks.pack nPackId = none)
    (hended : b'.ended = b.ended ++ [(tPack.tArgs.1, .finish)])
    (hqueue : b'.queue = b.queue ++ (tPack.fFinish.map fun f =>
      .fFinish f (tPack.tResult.insert nTaskId (tData.or .emptyTable)) tPack.tArgs).toList) :
    b'.Accounted := by
  have hpack : ∀ id, b'.tasks.pack id = if id = nPackId then none else b.tasks.pack id := by
    intro id
    split_ifs with hid
    · rw [hid, hgone]
    · exact hr.other id hid
  refine ⟨hr.wellFormed, fun id tPack' hp' => ?_, hr.reports_lt h, ?_, fun x hx p' hp' => ?_, ?_⟩
  · apply hr.waiting_other h _ hp'
    intro heq
    rw [heq, hgone] at hp'
    exact absurd hp' (by simp)
  · rw [hended, hr.packs]
    refine h.balanced.close Function.injective_id (fun tPack => tPack.tArgs.1) [⟨nPackId, tPack⟩]
      (by simp) ?_ ?_ .finish
    · intro id tPack' hmem
      obtain ⟨rfl, rfl⟩ : id = nPackId ∧ tPack' = tPack := by simpa using hmem
      exact hr.owner_eq
    · intro id
      rw [owner, hpack]
      show _ = if id ∈ [nPackId] then none else owner b.tasks id
      simp only [List.mem_singleton]
      split_ifs <;> rfl
  · rw [hended] at hx
    rcases List.mem_append.mp hx with hx | hx
    · exact hr.decided_ended h x hx p' hp'
    · obtain rfl := List.mem_singleton.mp hx
      rw [hr.packs, hp, Option.some_inj] at hp'
      subst hp'
      rw [hr.reportsOf_same]
      refine ⟨⟨fun _ => hall, fun _ => rfl⟩, fun _ => ?_⟩
      rw [List.dropLast_concat]
      exact hwaiting.incomplete
  · rw [hr.executed, hqueue, ← List.append_assoc, h.ran, hended, List.filterMap_append,
      List.filterMap_congr (hr.effect_ended h), hwaiting.callback_finish, hwaiting.results_report,
      ← hr.reportsOf_same]
    congr 1
    simp only [List.filterMap_cons, effect, hr.packs, hp, Option.bind_some, List.filterMap_nil]
    cases p.callback _ _ _ <;> rfl

/-- The report does not complete the pack. -/
theorem Accounted.waitReport (h : b.Accounted) (hr : Reported b b' nPackId tPack nTaskId tData)
    (hp : b.packs[tPack.tArgs.1]? = some p) {tPack' : TaskPack (ℕ × Cb) (ℕ × Args) V}
    (hpack : b'.tasks.pack nPackId = some tPack') (htArgs : tPack'.tArgs = tPack.tArgs)
    (hwaiting : Waiting p tPack.tArgs.1 (b.reportsOf tPack.tArgs.1 ++ [(nTaskId, tData)]) nPackId
      tPack')
    (hended : b'.ended = b.ended) (hqueue : b'.queue = b.queue) : b'.Accounted := by
  refine ⟨hr.wellFormed, fun id tPack₁ hp₁ => ?_, hr.reports_lt h, ?_, ?_, ?_⟩
  · rcases eq_or_ne id nPackId with rfl | hne
    · obtain rfl := Option.some_inj.mp (hpack.symm.trans hp₁)
      rw [htArgs, hr.packs, hr.reportsOf_same]
      exact ⟨p, hp, hwaiting⟩
    · exact hr.waiting_other h hne hp₁
  · have howner : owner b'.tasks = owner b.tasks := by
      funext id
      rcases eq_or_ne id nPackId with rfl | hne
      · rw [hr.owner_eq, owner, hpack, ← htArgs]
        rfl
      · rw [owner, hr.other id hne]
        rfl
    rw [hended, hr.packs, howner]
    exact h.balanced
  · rw [hended]
    exact hr.decided_ended h
  · rw [hr.executed, hqueue, h.ran, hended]
    exact List.filterMap_congr (hr.effect_ended h)

end Report

variable [IntCast N] [Add N] [One N] [LE N] [DecidableLE N]

/-- A task reports. -/
theorem Accounted.onPartTaskFinish (h : b.Accounted) (newTimer : Allocator Unit) (nPackId : Double)
    (nTaskId : ℕ) (tData : Value V)
    (hrange : ∀ tPack ∈ b.tasks.pack nPackId, 1 ≤ nTaskId ∧ nTaskId ≤ tPack.nTasks) :
    (b.step newTimer (.onPartTaskFinish nPackId nTaskId tData)).2.Accounted := by
  rw [step]
  cases halive : b.tasks.pack nPackId with
  | none =>
    simp only [CoMultiTask.onPartTaskFinish_of_none halive, halive, Option.isSome_none,
      Option.toList_none, List.map_nil, List.append_nil, Bool.false_eq_true, if_false]
    exact h
  | some tPack =>
    obtain ⟨p, hp, hwaiting⟩ := h.waiting nPackId tPack halive
    obtain ⟨tasks, hfinish, hwf, hpack⟩ := h.wellFormed.onPartTaskFinish halive nTaskId tData
    have hother : ∀ id, id ≠ nPackId → tasks.pack id = b.tasks.pack id := by
      intro id hne
      rw [hpack, if_neg hne]
    have hown := hpack nPackId
    have hcount := hwaiting.count_report tData (hrange tPack halive)
    rw [if_pos rfl] at hown
    simp only [hfinish]
    by_cases hfull : TableUtil.count (tPack.tResult.insert nTaskId (tData.or .emptyTable)) =
        tPack.nTasks
    · rw [if_pos hfull] at hown
      simp only [if_pos hfull, hown]
      exact h.finishReport ⟨halive, hwf, rfl, rfl, hother, rfl⟩ hp hwaiting (hcount.mp hfull) hown
        rfl rfl
    · rw [if_neg hfull] at hown
      simp only [if_neg hfull, hown]
      exact h.waitReport ⟨halive, hwf, rfl, rfl, hother, rfl⟩ hp hown rfl
        (hwaiting.report (hrange tPack halive) (mt hcount.mpr hfull)) rfl (List.append_nil _)

/-- Every step that is allowed keeps the accounts. -/
theorem Accounted.step (newTimer : Allocator Unit) (b : Board N Cb Args V) (e : Event N Cb Args V)
    (h : b.Accounted) (hallowed : Allowed b e) : (b.step newTimer e).2.Accounted := by
  cases e with
  | startMultiTask now p nTimeout =>
    exact h.startMultiTask newTimer now p nTimeout hallowed.1 hallowed.2
  | onPartTaskFinish nPackId nTaskId tData =>
    exact h.onPartTaskFinish newTimer nPackId nTaskId tData hallowed
  | tick now t order => exact h.tick newTimer now t order
  | run =>
    refine ⟨h.wellFormed, h.waiting, h.reports_lt, h.balanced, h.decided, ?_⟩
    show (b.executed ++ b.queue.head?.toList) ++ b.queue.tail = b.ended.filterMap b.effect
    rw [← h.ran]
    cases b.queue <;> simp

end Board

open Board

/-- **Every pack is decided once.** In every run of starts, reports, ticks and callbacks, in any
order, in which packs have tasks and ids that are not those of packs that are alive, and tasks
report with ids of their packs: a pack that is alive has not got reports from all its tasks, and
none of its callbacks was queued; a pack that is not alive has ended once, and what was queued of
its callbacks is the one for how it ended, if it has that, and once, with the data of the last
report of each task. It has finished if all its tasks reported while it was alive, and then not
before the last report; otherwise it has timed out. The timer is registered, and is the only one,
exactly while a pack is alive. -/
theorem decided_once {N Cb Args V : Type} [DecidableEq N] [IntCast N] [Add N] [One N] [LE N]
    [DecidableLE N] (newTimer : Allocator Unit) (now : ℤ) (es : List (Event N Cb Args V))
    (hallowed : Machine.Along (Board.step newTimer) Allowed (Board.init now) es) :
    let b := Machine.run (Board.step newTimer) (Board.init now) es
    (∀ c p, b.packs[c]? = some p →
      (b.Alive c ∧ b.endings c = [] ∧ b.invocations c = [] ∧ ¬ Complete p.nTasks (b.reportsOf c)) ∨
      (¬ b.Alive c ∧ ∃ o tResult, b.endings c = [(c, o)] ∧
        b.invocations c = (p.callback c tResult o).toList ∧
        (∀ i, tResult.lookup i =
          (lastData (b.reportsOf c) i).map fun tData => tData.or .emptyTable) ∧
        (o = .finish ↔ Complete p.nTasks (b.reportsOf c)) ∧
        (o = .finish → ¬ Complete p.nTasks (b.reportsOf c).dropLast))) ∧
    (∀ t, b.tasks.timers.lookup t = some () ↔ b.tasks.lg_nTimerId = some t) ∧
    (b.tasks.lg_nTimerId.isSome ↔ ∃ nPackId tPack, b.tasks.pack nPackId = some tPack) := by
  intro b
  have h : b.Accounted :=
    Machine.run_invariant (Accounted.step newTimer) (accounted_init now) hallowed
  refine ⟨fun c p hc => ?_, h.wellFormed.registered_iff, h.wellFormed.isSome_timer_iff⟩
  rcases h.alive_or_ended hc with halive | ⟨hnot, o, ho, hdecided, hran⟩
  · exact .inl halive
  · exact .inr ⟨hnot, o, _, ho, hran, lookup_results _, hdecided.finish_iff, hdecided.last⟩

/-- Two packs: one of two tasks that both report, one of them twice, and one that times out. -/
theorem decided_once_mixed :
    let es : List (Event ℤ ℕ ℕ ℕ) :=
      [.startMultiTask 100 ⟨2, some 1, some 2, 11⟩ (some 1),
        .startMultiTask 100 ⟨1, none, some 2, 12⟩ none,
        .onPartTaskFinish (2 ^ 32 + 1) 2 (.other 5), .onPartTaskFinish (2 ^ 32 + 1) 2 .nil,
        .onPartTaskFinish (2 ^ 32 + 1) 1 (.other 6), .run, .tick 400 1 (.entries _ _), .run]
    let b := Machine.run (Board.step (.above _)) (Board.init 100) es
    (∀ c p, b.packs[c]? = some p →
      (b.Alive c ∧ b.endings c = [] ∧ b.invocations c = [] ∧ ¬ Complete p.nTasks (b.reportsOf c)) ∨
      (¬ b.Alive c ∧ ∃ o tResult, b.endings c = [(c, o)] ∧
        b.invocations c = (p.callback c tResult o).toList ∧
        (∀ i, tResult.lookup i =
          (lastData (b.reportsOf c) i).map fun tData => tData.or .emptyTable) ∧
        (o = .finish ↔ Complete p.nTasks (b.reportsOf c)) ∧
        (o = .finish → ¬ Complete p.nTasks (b.reportsOf c).dropLast))) ∧
    (∀ t, b.tasks.timers.lookup t = some () ↔ b.tasks.lg_nTimerId = some t) ∧
    (b.tasks.lg_nTimerId.isSome ↔ ∃ nPackId tPack, b.tasks.pack nPackId = some tPack) :=
  decided_once _ 100 _ (by decide +kernel)

/-- The only task of a pack reports `false`: the callback gets `{}` for it. -/
theorem false_becomes_empty_table : ¬ ∀ es : List (Event ℤ ℕ ℕ ℕ),
    Machine.Along (Board.step (.above _)) Allowed (Board.init 100) es →
    ∀ c f tResult tArgs,
      .fFinish f tResult tArgs ∈
        (Machine.run (Board.step (.above _)) (Board.init 100) es).invocations c →
      ∀ i tData,
        lastData ((Machine.run (Board.step (.above _)) (Board.init 100) es).reportsOf c) i =
          some tData →
        tResult.lookup i = some (if tData = .nil then .emptyTable else tData) := by
  intro hall
  let es : List (Event ℤ ℕ ℕ ℕ) :=
    [.startMultiTask 100 ⟨1, some 1, none, 11⟩ none, .onPartTaskFinish (2 ^ 32 + 1) 1 (.bool false)]
  let got : PackInvocation (ℕ × ℕ) (ℕ × ℕ) ℕ → Option (Value ℕ)
    | .fFinish _ tResult _ => tResult.lookup 1
    | .fTimeout _ _ => none
  have hran : ((Machine.run (Board.step (.above _)) (Board.init 100) es).invocations 0).filterMap
      got = [.emptyTable] := by
    decide +kernel
  have hlast : lastData
      ((Machine.run (Board.step (.above _)) (Board.init 100) es).reportsOf 0) 1 =
        some (.bool false) := by
    decide +kernel
  obtain ⟨i, hi, hgot⟩ := List.mem_filterMap.mp (hran ▸ List.mem_singleton_self _)
  cases i with
  | fTimeout f tResult => exact absurd hgot (by simp [got])
  | fFinish f tResult tArgs =>
    have hfalse := hall es (by decide +kernel) 0 f tResult tArgs hi 1 (.bool false) hlast
    exact absurd (hgot.symm.trans hfalse) (by decide)

end CodeTest.MultiTask
