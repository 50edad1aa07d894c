import CodeTest.FrameExcutor.FrameExcutor

/-!
# Every element once

`Inv` says where an execution stands: for which elements the function has been called, what the
index of the next batch is, and whether the timer is registered. It is kept by every event as long
as the sum of the index and `nExcutionCount` is an integer of Lua (`Fits`). Then the function is
called for the indices 1, 2, … one after the other, `fOver` comes after the last of them, and the
timer is gone by then. While the list does not change every event brings the execution nearer to its
end (`remaining`).
-/

namespace CodeTest.FrameExcutor

variable {Elem Param : Type}

/-- The calls of the function for the elements `vs`, at the indices from 1 on. -/
def excuted (param : Param) (vs : List Elem) : List (Call Elem Param) :=
  vs.mapIdx fun i v => .fExcute (i + 1) (some v) param

theorem excuted_concat (param : Param) (vs : List Elem) (v : Elem) :
    excuted param (vs ++ [v]) =
      excuted param vs ++ [.fExcute (vs.length + 1) (some v) param] := by
  simp [excuted, List.mapIdx_append]

def Event.isChange : Event Elem → Bool
  | .change _ => true
  | _ => false

namespace Running

variable {A : Prop} {timers₀ : Memory (ℤ × String)} {r r' : Running Elem Param} {vs : List Elem}

/-- The last index of a batch begun at a tick is an integer of Lua. -/
def Fits (r : Running Elem Param) : Event Elem → Prop
  | .tick => r.self.nIndex + r.self.nExcutionCount - 1 < 2 ^ 63
  | _ => True

/-- A change of the list leaves the elements that it has where they are. -/
def Appends (r : Running Elem Param) : Event Elem → Prop
  | .change tList => r.self.tExcutionList <+: tList
  | _ => True

instance (r : Running Elem Param) : ∀ e, Decidable (r.Fits e)
  | .start => isTrue trivial
  | .tick => inferInstanceAs (Decidable (_ < _))
  | .ret _ => isTrue trivial
  | .change _ => isTrue trivial

instance [DecidableEq Elem] (r : Running Elem Param) : ∀ e, Decidable (r.Appends e)
  | .start => isTrue trivial
  | .tick => isTrue trivial
  | .ret _ => isTrue trivial
  | .change _ => inferInstanceAs (Decidable (_ <+: _))

/-! ## The invariant -/

/-- The timers are those that were there before. -/
def NoTimer (timers₀ : Memory (ℤ × String)) (r : Running Elem Param) : Prop :=
  ∀ t, r.timers.lookup t = timers₀.lookup t

/-- The timer of the object is registered, besides those that were there before. -/
structure OwnTimer (timers₀ : Memory (ℤ × String)) (r : Running Elem Param) : Prop where
  ne_zero : r.self.nTimerId ≠ 0
  fresh : timers₀.lookup r.self.nTimerId = none
  isSome : (r.timers.lookup r.self.nTimerId).isSome
  others : ∀ t ≠ r.self.nTimerId, r.timers.lookup t = timers₀.lookup t

/-- While `start` runs there is no timer yet. -/
def Timed (timers₀ : Memory (ℤ × String)) (r : Running Elem Param) (fromStart : Bool) : Prop :=
  if fromStart then r.self.nTimerId = 0 ∧ r.NoTimer timers₀ else r.OwnTimer timers₀

theorem Timed.of_eq {fromStart : Bool} (h : r.Timed timers₀ fromStart)
    (hid : r'.self.nTimerId = r.self.nTimerId) (htimers : r'.timers = r.timers) :
    r'.Timed timers₀ fromStart := by
  cases fromStart with
  | true =>
    obtain ⟨hzero, hno⟩ := h
    refine ⟨hid.trans hzero, ?_⟩
    intro t
    rw [htimers]
    exact hno t
  | false =>
    replace h : r.OwnTimer timers₀ := h
    constructor <;> rw [hid]
    · exact h.ne_zero
    · exact h.fresh
    · rw [htimers]
      exact h.isSome
    · rw [htimers]
      exact h.others

/-- The execution has called the function for the elements `vs` and has ended after the last. If `A`
holds, then these are the elements of the list. -/
structure Ended (A : Prop) (timers₀ : Memory (ℤ × String)) (r : Running Elem Param)
    (vs : List Elem) : Prop where
  bEnd : r.self.bEnd = true
  log : ∃ tList : List Elem, tList.length = vs.length ∧ (A → tList = vs) ∧
    r.log = excuted r.self.tFuncParam vs ++ if r.self.fOver then [.fOver tList] else []
  noTimer : r.NoTimer timers₀
  stopped : r.self.nTimerId = 0 ∨ r.timers.lookup r.self.nTimerId = none

/-- The execution has called the function for the elements `vs` and goes on. -/
structure Underway (A : Prop) (r : Running Elem Param) (vs : List Elem) : Prop where
  bEnd : r.self.bEnd = false
  log : r.log = excuted r.self.tFuncParam vs
  length_le : vs.length ≤ r.self.tExcutionList.length
  elems : A → vs <+: r.self.tExcutionList

/-- Where an execution stands that has called the function for the elements `vs`. -/
def At (A : Prop) (timers₀ : Memory (ℤ × String)) (r : Running Elem Param) (vs : List Elem) :
    Control → Prop
  | .new => r.Underway A vs ∧ vs = [] ∧ r.NoTimer timers₀
  | .idle => r.Underway A vs ∧ r.self.nIndex = vs.length + 1 ∧ r.OwnTimer timers₀ ∨
      r.Ended A timers₀ vs
  | .call fromStart i nMax =>
    r.Underway A vs ∧ i = vs.length ∧ vs ≠ [] ∧ i ≤ nMax ∧ nMax ≤ r.self.tExcutionList.length ∧
      r.Timed timers₀ fromStart

/-- The fields that are never assigned. -/
def config (r : Running Elem Param) : ℤ × Bool × Param :=
  (r.self.nExcutionCount, r.self.fOver, r.self.tFuncParam)

/-- The invariant of an execution. -/
structure Inv (A : Prop) (timers₀ : Memory (ℤ × String)) (config : ℤ × Bool × Param)
    (r : Running Elem Param) : Prop where
  config_eq : r.config = config
  count_pos : 1 ≤ r.self.nExcutionCount
  count_lt : r.self.nExcutionCount < 2 ^ 63
  stands : ∃ vs : List Elem, r.At A timers₀ vs r.control

/-! ## The end of a batch -/

@[simp] theorem endBatch_tExcutionList (r : Running Elem Param) (nMax : ℤ) :
    (r.endBatch nMax).self.tExcutionList = r.self.tExcutionList := by
  unfold Running.endBatch
  split_ifs <;> rfl

@[simp] theorem endBatch_config (r : Running Elem Param) (nMax : ℤ) :
    (r.endBatch nMax).config = r.config := by
  unfold Running.endBatch
  split_ifs <;> rfl

@[simp] theorem addTimer_tExcutionList (newTimer : Allocator (ℤ × String))
    (r : Running Elem Param) :
    (r.addTimer newTimer).self.tExcutionList = r.self.tExcutionList := by
  unfold Running.addTimer
  split_ifs <;> rfl

@[simp] theorem addTimer_config (newTimer : Allocator (ℤ × String)) (r : Running Elem Param) :
    (r.addTimer newTimer).config = r.config := by
  unfold Running.addTimer
  split_ifs <;> rfl

@[simp] theorem loop_config (newTimer : Allocator (ℤ × String)) (r : Running Elem Param)
    (fromStart : Bool) (i nMax : ℤ) : (r.loop newTimer fromStart i nMax).config = r.config := by
  unfold Running.loop
  split_ifs
  · rfl
  · rw [addTimer_config, endBatch_config]
  · exact endBatch_config r nMax

theorem Underway.onOver {fromStart : Bool} (h : r.Underway A vs)
    (htimed : r.Timed timers₀ fromStart)
    (hlen : r.self.tExcutionList.length = vs.length) : r.onOver.Ended A timers₀ vs := by
  refine ⟨rfl, ⟨r.self.tExcutionList, hlen, ?_, ?_⟩, ?_, ?_⟩
  · intro hA
    exact ((h.elems hA).eq_of_length hlen.symm).symm
  · show r.log ++ _ = _
    rw [h.log]
    rfl
  · intro t
    show AList.lookup t (if r.self.nTimerId ≠ 0 then _ else _) = _
    cases fromStart with
    | true =>
      obtain ⟨hzero, hno⟩ := htimed
      rw [if_neg (not_not.mpr hzero)]
      exact hno t
    | false =>
      replace htimed : r.OwnTimer timers₀ := htimed
      rw [if_pos htimed.ne_zero, Table.lookup_erase_eq]
      split_ifs with ht
      · rw [ht, htimed.fresh]
      · exact htimed.others t ht
  · by_cases hzero : r.self.nTimerId = 0
    · exact .inl hzero
    · right
      show AList.lookup r.self.nTimerId (if _ then _ else _) = none
      rw [if_pos hzero, Table.lookup_erase_eq, if_pos rfl]

/-- After the last index of a batch: either the whole list is done, or there is more to do. -/
theorem Underway.endBatch {fromStart : Bool} (h : r.Underway A vs)
    (htimed : r.Timed timers₀ fromStart) :
    (r.endBatch vs.length).Ended A timers₀ vs ∨
      ((r.endBatch vs.length).Underway A vs ∧ (r.endBatch vs.length).self.nIndex = vs.length + 1 ∧
        (r.endBatch vs.length).Timed timers₀ fromStart) := by
  have hindexed : (r.setIndex (vs.length + 1)).Underway A vs :=
    ⟨h.bEnd, h.log, h.length_le, h.elems⟩
  unfold Running.endBatch
  split_ifs with hlen
  · left
    apply hindexed.onOver (htimed.of_eq rfl rfl)
    have := h.length_le
    show r.self.tExcutionList.length = vs.length
    omega
  · exact .inr ⟨hindexed, rfl, htimed.of_eq rfl rfl⟩

variable {newTimer : Allocator (ℤ × String)}

theorem Ended.control (h : r.Ended A timers₀ vs) (c : Control) :
    ({ r with control := c } : Running Elem Param).Ended A timers₀ vs :=
  ⟨h.bEnd, h.log, h.noTimer, h.stopped⟩

theorem Underway.control (h : r.Underway A vs) (c : Control) :
    ({ r with control := c } : Running Elem Param).Underway A vs :=
  ⟨h.bEnd, h.log, h.length_le, h.elems⟩

theorem Ended.addTimer (h : r.Ended A timers₀ vs) :
    (r.addTimer newTimer).At A timers₀ vs (r.addTimer newTimer).control := by
  unfold Running.addTimer
  rw [if_pos h.bEnd]
  exact .inr (h.control .idle)

/-- The end of `start`. -/
theorem Underway.addTimer (hfresh : ∀ timers, newTimer.fresh timers ≠ 0) (h : r.Underway A vs)
    (hindex : r.self.nIndex = vs.length + 1) (hno : r.NoTimer timers₀) :
    (r.addTimer newTimer).At A timers₀ vs (r.addTimer newTimer).control := by
  unfold Running.addTimer
  rw [if_neg (by simp [h.bEnd])]
  refine .inl ⟨⟨h.bEnd, h.log, h.length_le, h.elems⟩, hindex, ?_⟩
  constructor
  · exact hfresh r.timers
  · show timers₀.lookup (newTimer.fresh r.timers) = none
    rw [← hno]
    exact newTimer.fresh_free r.timers
  · show (AList.lookup (newTimer.fresh r.timers) _).isSome
    rw [Table.lookup_insert_eq, if_pos rfl]
    rfl
  · intro t ht
    show AList.lookup t _ = _
    rw [Table.lookup_insert_eq, if_neg ht]
    exact hno t

/-! ## One event -/

/-- The loop of a batch, after the function has been called for the elements `vs`. -/
theorem Underway.loop (hfresh : ∀ timers, newTimer.fresh timers ≠ 0) {fromStart : Bool} {nMax : ℤ}
    (h : r.Underway A vs) (htimed : r.Timed timers₀ fromStart) (hle : vs.length ≤ nMax)
    (hmax : nMax ≤ r.self.tExcutionList.length) :
    ∃ vs' : List Elem, (r.loop newTimer fromStart (vs.length + 1) nMax).At A timers₀ vs'
      (r.loop newTimer fromStart (vs.length + 1) nMax).control := by
  unfold Running.loop
  by_cases hnext : (vs.length + 1 : ℤ) ≤ nMax
  · -- the function is called for the next element
    have hlt : vs.length < r.self.tExcutionList.length := by omega
    have helem : r.self.elem (vs.length + 1) = some r.self.tExcutionList[vs.length] := by
      simp [FrameExcutor.elem, hlt]
    rw [if_pos hnext]
    refine ⟨vs ++ [r.self.tExcutionList[vs.length]], ⟨h.bEnd, ?_, ?_, ?_⟩, ?_, ?_, hnext, hmax, ?_⟩
    · rw [excuted_concat, ← helem, ← h.log]
    · simpa using hlt
    · intro hA
      exact List.concat_get_prefix (h.elems hA) hlt
    · simp
    · simp
    · exact htimed.of_eq rfl rfl
  · -- the batch is over
    obtain rfl : nMax = vs.length := by omega
    rw [if_neg hnext]
    refine ⟨vs, ?_⟩
    cases fromStart with
    | true =>
      rw [if_pos rfl]
      rcases h.endBatch htimed with hended | ⟨hunder, hindex, htimed'⟩
      · exact hended.addTimer
      · exact hunder.addTimer hfresh hindex htimed'.2
    | false =>
      rw [if_neg Bool.false_ne_true]
      rcases h.endBatch htimed with hended | ⟨hunder, hindex, htimed'⟩
      · exact .inr (hended.control .idle)
      · exact .inl ⟨hunder.control .idle, hindex, htimed'.of_eq rfl rfl⟩

/-- The last index of a batch that begins after the elements `vs`. -/
theorem excute_eq (fromStart : Bool) (hindex : r.self.nIndex = vs.length + 1)
    (hpos : 1 ≤ r.self.nExcutionCount)
    (hfits : r.self.nIndex + r.self.nExcutionCount - 1 < 2 ^ 63) :
    r.excute newTimer fromStart = r.loop newTimer fromStart (vs.length + 1)
      (min r.self.tExcutionList.length (vs.length + r.self.nExcutionCount)) := by
  have hsum : luaInt (luaInt (r.self.nIndex + r.self.nExcutionCount) - 1) =
      vs.length + r.self.nExcutionCount := by
    rw [luaInt, luaInt, Int.bmod_sub_bmod, ← luaInt, luaInt_eq] <;> omega
  unfold Running.excute
  rw [hsum, hindex]

/-- A batch that begins after the elements `vs`. -/
theorem Underway.excute (hfresh : ∀ timers, newTimer.fresh timers ≠ 0) {fromStart : Bool}
    (h : r.Underway A vs) (htimed : r.Timed timers₀ fromStart)
    (hindex : r.self.nIndex = vs.length + 1) (hpos : 1 ≤ r.self.nExcutionCount)
    (hfits : r.self.nIndex + r.self.nExcutionCount - 1 < 2 ^ 63) :
    ∃ vs' : List Elem,
      (r.excute newTimer fromStart).At A timers₀ vs' (r.excute newTimer fromStart).control := by
  have hlen := h.length_le
  rw [excute_eq fromStart hindex hpos hfits]
  exact h.loop hfresh htimed (by omega) (by omega)

variable {config : ℤ × Bool × Param}

/-- What is left to show after an event that begins or continues a batch. -/
theorem Inv.of_stands (h : r.Inv A timers₀ config) (hconfig : r'.config = r.config)
    (hstands : ∃ vs : List Elem, r'.At A timers₀ vs r'.control) : r'.Inv A timers₀ config := by
  have hcount : r'.self.nExcutionCount = r.self.nExcutionCount := congrArg Prod.fst hconfig
  refine ⟨hconfig.trans h.config_eq, ?_, ?_, hstands⟩
  · rw [hcount]
    exact h.count_pos
  · rw [hcount]
    exact h.count_lt

theorem Inv.start (hfresh : ∀ timers, newTimer.fresh timers ≠ 0) (h : r.Inv A timers₀ config)
    (hcontrol : r.control = .new) : (r.start newTimer).Inv A timers₀ config := by
  obtain ⟨vs, hat⟩ := h.stands
  rw [hcontrol] at hat
  obtain ⟨hunder, rfl, hno⟩ := hat
  have hlt := h.count_lt
  have hreset : r.reset.Underway A [] := ⟨rfl, hunder.log, hunder.length_le, hunder.elems⟩
  unfold Running.start
  split_ifs
  · refine h.of_stands (loop_config newTimer r.reset _ _ _) ?_
    have htimed : r.reset.Timed timers₀ true := ⟨rfl, hno⟩
    exact hreset.excute hfresh htimed rfl h.count_pos (by simp only [reset]; omega)
  · exact h.of_stands (addTimer_config newTimer r.reset) ⟨[], hreset.addTimer hfresh rfl hno⟩

theorem Inv.tick (hfresh : ∀ timers, newTimer.fresh timers ≠ 0) (h : r.Inv A timers₀ config)
    (hcontrol : r.control = .idle) (hzero : r.self.nTimerId ≠ 0)
    (hsome : (r.timers.lookup r.self.nTimerId).isSome) (hfits : r.Fits .tick) :
    (r.excute newTimer false).Inv A timers₀ config := by
  obtain ⟨vs, hat⟩ := h.stands
  rw [hcontrol] at hat
  refine h.of_stands (loop_config newTimer r _ _ _) ?_
  rcases hat with ⟨hunder, hindex, hown⟩ | hended
  · have htimed : r.Timed timers₀ false := hown
    exact hunder.excute hfresh htimed hindex h.count_pos hfits
  · -- an execution that has ended has no timer
    rcases hended.stopped with hz | hnone
    · exact absurd hz hzero
    · rw [hnone] at hsome
      exact absurd hsome Bool.false_ne_true

theorem Inv.ret (hfresh : ∀ timers, newTimer.fresh timers ≠ 0) (h : r.Inv A timers₀ config)
    (raises : Bool) {fromStart : Bool} {i nMax : ℤ}
    (hcontrol : r.control = .call fromStart i nMax) :
    (r.ret newTimer raises fromStart i nMax).Inv A timers₀ config := by
  obtain ⟨vs, hat⟩ := h.stands
  rw [hcontrol] at hat
  obtain ⟨hunder, rfl, -, hle, hmax, htimed⟩ := hat
  refine h.of_stands (loop_config newTimer _ _ _ _) ?_
  set r₁ : Running Elem Param := { r with
    logged := r.logged ++ if raises then [(r.self.sDesc, r.self.elem vs.length)] else [] } with hr₁
  have hunder₁ : r₁.Underway A vs := ⟨hunder.bEnd, hunder.log, hunder.length_le, hunder.elems⟩
  have htimed₁ : r₁.Timed timers₀ fromStart := htimed.of_eq rfl rfl
  exact hunder₁.loop hfresh htimed₁ hle hmax

/-- The list is changed, but not shortened. -/
theorem Inv.change (h : r.Inv A timers₀ config) (tList : List Elem)
    (hlen : r.self.tExcutionList.length ≤ tList.length)
    (hA : A → r.self.tExcutionList <+: tList) :
    ({ r with self := { r.self with tExcutionList := tList } } : Running Elem Param
      ).Inv A timers₀ config := by
  obtain ⟨vs, hat⟩ := h.stands
  refine h.of_stands rfl ⟨vs, ?_⟩
  set r₁ : Running Elem Param := { r with self := { r.self with tExcutionList := tList } }
  have hunder₁ : r.Underway A vs → r₁.Underway A vs := fun hunder =>
    ⟨hunder.bEnd, hunder.log, hunder.length_le.trans hlen, fun h => (hunder.elems h).trans (hA h)⟩
  show r₁.At A timers₀ vs r.control
  cases hcontrol : r.control with
  | new =>
    rw [hcontrol] at hat
    obtain ⟨hunder, hvs, hno⟩ := hat
    exact ⟨hunder₁ hunder, hvs, hno⟩
  | idle =>
    rw [hcontrol] at hat
    rcases hat with ⟨hunder, hindex, hown⟩ | hended
    · have htimed : r.Timed timers₀ false := hown
      exact .inl ⟨hunder₁ hunder, hindex, htimed.of_eq rfl rfl⟩
    · exact .inr ⟨hended.bEnd, hended.log, hended.noTimer, hended.stopped⟩
  | call fromStart i nMax =>
    rw [hcontrol] at hat
    obtain ⟨hunder, hi, hne, hle, hmax, htimed⟩ := hat
    refine ⟨hunder₁ hunder, hi, hne, hle, ?_, htimed.of_eq rfl rfl⟩
    exact hmax.trans (Int.ofNat_le.mpr hlen)

/-- What the events can do to a state. -/
theorem step_cases {e : Event Elem} (h : r.step newTimer e = some r') :
    (e = .start ∧ r.control = .new ∧ r' = r.start newTimer) ∨
    (e = .tick ∧ r.control = .idle ∧ r.self.nTimerId ≠ 0 ∧
      (r.timers.lookup r.self.nTimerId).isSome ∧ r' = r.excute newTimer false) ∨
    (∃ raises fromStart i nMax, e = .ret raises ∧ r.control = .call fromStart i nMax ∧
      r' = r.ret newTimer raises fromStart i nMax) ∨
    (∃ tList : List Elem, e = .change tList ∧ r.self.tExcutionList.length ≤ tList.length ∧
      r' = { r with self := { r.self with tExcutionList := tList } }) := by
  cases e with
  | start =>
    obtain ⟨hcontrol, h⟩ := Option.ite_none_right_eq_some.mp h
    exact .inl ⟨rfl, hcontrol, (Option.some_inj.mp h).symm⟩
  | tick =>
    obtain ⟨⟨hcontrol, hzero, hsome⟩, h⟩ := Option.ite_none_right_eq_some.mp h
    exact .inr (.inl ⟨rfl, hcontrol, hzero, hsome, (Option.some_inj.mp h).symm⟩)
  | ret raises =>
    simp only [Running.step] at h
    split at h
    · next fromStart i nMax hcontrol =>
      exact .inr (.inr (.inl ⟨raises, fromStart, i, nMax, rfl, hcontrol,
        (Option.some_inj.mp h).symm⟩))
    · cases h
  | change tList =>
    obtain ⟨hlen, h⟩ := Option.ite_none_right_eq_some.mp h
    exact .inr (.inr (.inr ⟨tList, rfl, hlen, (Option.some_inj.mp h).symm⟩))

theorem Inv.step (hfresh : ∀ timers, newTimer.fresh timers ≠ 0) (h : r.Inv A timers₀ config)
    {e : Event Elem} (hfits : r.Fits e) (hA : A → r.Appends e)
    (hstep : r.step newTimer e = some r') : r'.Inv A timers₀ config := by
  rcases step_cases hstep with ⟨-, hcontrol, rfl⟩ | ⟨rfl, hcontrol, hzero, hsome, rfl⟩ |
    ⟨raises, fromStart, i, nMax, -, hcontrol, rfl⟩ | ⟨tList, rfl, hlen, rfl⟩
  · exact h.start hfresh hcontrol
  · exact h.tick hfresh hcontrol hzero hsome hfits
  · exact h.ret hfresh raises hcontrol
  · exact h.change tList hlen hA

/-! ## Progress -/

/-- A bound on the number of events that are left while the list does not change. -/
def remaining (r : Running Elem Param) : ℕ :=
  match r.control with
  | .new => 2 * r.self.tExcutionList.length + 2
  | .idle =>
    if r.self.bEnd then 0
    else 2 * (r.self.tExcutionList.length + 1 - r.self.nIndex.toNat) + 1
  | .call _ i _ => 2 * (r.self.tExcutionList.length - i.toNat) + 2

theorem remaining_le (r : Running Elem Param) :
    r.remaining ≤ 2 * r.self.tExcutionList.length + 3 := by
  unfold remaining
  split
  · omega
  · split_ifs <;> omega
  · omega

/-- What remains between two ticks. -/
theorem remaining_idle (h : r.control = .idle) :
    r.remaining = if r.self.bEnd then 0
      else 2 * (r.self.tExcutionList.length + 1 - r.self.nIndex.toNat) + 1 := by
  unfold remaining
  rw [h]

theorem remaining_addTimer (r : Running Elem Param) :
    (r.addTimer newTimer).remaining = if r.self.bEnd then 0
      else 2 * (r.self.tExcutionList.length + 1 - r.self.nIndex.toNat) + 1 := by
  unfold Running.addTimer
  split_ifs with hend
  · rw [remaining_idle rfl, if_pos hend]
  · rw [remaining_idle rfl, if_neg hend]

/-- At the end of a batch nothing remains, or there are elements that it has not come to. -/
theorem endBatch_cases (r : Running Elem Param) (n : ℕ) :
    (r.endBatch n).self.bEnd = true ∨
      (n < r.self.tExcutionList.length ∧ (r.endBatch n).self.nIndex = n + 1) := by
  unfold Running.endBatch
  split_ifs with hlen
  · exact .inl rfl
  · exact .inr ⟨by omega, rfl⟩

/-- What remains when a batch goes on after `n` calls. If it does not end before the list, then
less remains than between two ticks. -/
theorem remaining_loop {fromStart : Bool} {n : ℕ} {nMax : ℤ} (hle : n ≤ nMax)
    (hmax : nMax ≤ r.self.tExcutionList.length) :
    (r.loop newTimer fromStart (n + 1) nMax).remaining ≤
        2 * (r.self.tExcutionList.length - n) + 1 ∧
      (n < nMax ∨ nMax = r.self.tExcutionList.length →
        (r.loop newTimer fromStart (n + 1) nMax).remaining ≤
          2 * (r.self.tExcutionList.length - n)) := by
  unfold Running.loop
  by_cases hnext : (n + 1 : ℤ) ≤ nMax
  · rw [if_pos hnext]
    simp only [remaining]
    omega
  · obtain rfl : nMax = n := by omega
    rw [if_neg hnext]
    -- the state in which the batch ends, with or without the timer of `start`
    have hend : ∀ m, (m = if (r.endBatch n).self.bEnd then 0
        else 2 * ((r.endBatch n).self.tExcutionList.length + 1 -
          (r.endBatch n).self.nIndex.toNat) + 1) →
        m ≤ 2 * (r.self.tExcutionList.length - n) + 1 ∧
          ((n : ℤ) < n ∨ (n : ℤ) = r.self.tExcutionList.length →
            m ≤ 2 * (r.self.tExcutionList.length - n)) := by
      intro m hm
      rcases endBatch_cases r n with hend | ⟨hlt, hindex⟩
      · rw [if_pos hend] at hm
        omega
      · rw [hindex, endBatch_tExcutionList] at hm
        split_ifs at hm <;> omega
    cases fromStart with
    | true =>
      rw [if_pos rfl]
      exact hend _ (remaining_addTimer _)
    | false =>
      rw [if_neg Bool.false_ne_true]
      exact hend _ (remaining_idle rfl)

/-- Every event but a change of the list brings the end nearer. -/
theorem Inv.remaining_lt (h : r.Inv A timers₀ config) {e : Event Elem} (hfits : r.Fits e)
    (he : e.isChange = false) (hstep : r.step newTimer e = some r') :
    r'.remaining < r.remaining := by
  obtain ⟨vs, hat⟩ := h.stands
  have hpos := h.count_pos
  have hlt := h.count_lt
  rcases step_cases hstep with ⟨-, hcontrol, rfl⟩ | ⟨rfl, hcontrol, hzero, hsome, rfl⟩ |
    ⟨raises, fromStart, i, nMax, -, hcontrol, rfl⟩ | ⟨tList, rfl, -, -⟩
  · have hnew : r.remaining = 2 * r.self.tExcutionList.length + 2 := by
      unfold remaining
      rw [hcontrol]
    rw [hnew]
    unfold Running.start
    split_ifs
    · have hindex : r.reset.self.nIndex = ([] : List Elem).length + 1 := rfl
      rw [excute_eq true hindex hpos (by simp only [reset]; omega)]
      refine lt_of_le_of_lt (remaining_loop ?_ ?_).1 ?_
      · simp only [reset, List.length_nil]
        omega
      · exact min_le_left _ _
      · simp only [reset, List.length_nil]
        omega
    · rw [remaining_addTimer]
      simp [reset]
  · rw [hcontrol] at hat
    rcases hat with ⟨hunder, hindex, -⟩ | hended
    · have hlen := hunder.length_le
      rw [excute_eq false hindex hpos hfits, remaining_idle hcontrol,
        if_neg (by simp [hunder.bEnd]), hindex]
      refine lt_of_le_of_lt ((remaining_loop (by omega) (by omega)).2 (by omega)) ?_
      omega
    · rcases hended.stopped with hz | hnone
      · exact absurd hz hzero
      · rw [hnone] at hsome
        exact absurd hsome Bool.false_ne_true
  · rw [hcontrol] at hat
    obtain ⟨hunder, rfl, -, hle, hmax, -⟩ := hat
    have hcall : r.remaining = 2 * (r.self.tExcutionList.length - vs.length) + 2 := by
      unfold remaining
      rw [hcontrol]
      exact congrArg (fun n => 2 * (_ - n) + 2) (Int.toNat_natCast vs.length)
    rw [hcall]
    have hmax' : nMax ≤ ({ r with
        logged := r.logged ++ if raises then [(r.self.sDesc, r.self.elem vs.length)] else [] } :
        Running Elem Param).self.tExcutionList.length := hmax
    exact lt_of_le_of_lt (remaining_loop hle hmax').1 (Nat.lt_succ_self _)
  · exact absurd he (by simp [Event.isChange])

/-- As long as the execution has not ended, it goes on. -/
theorem Inv.exists_step (h : r.Inv A timers₀ config) (hend : r.self.bEnd = false) :
    ∃ e : Event Elem, e.isChange = false ∧ (r.step newTimer e).isSome := by
  obtain ⟨vs, hat⟩ := h.stands
  cases hcontrol : r.control with
  | new => exact ⟨.start, rfl, by simp [Running.step, hcontrol]⟩
  | idle =>
    rw [hcontrol] at hat
    rcases hat with ⟨-, -, hown⟩ | hended
    · exact ⟨.tick, rfl, by simp [Running.step, hcontrol, hown.ne_zero, hown.isSome]⟩
    · exact absurd hended.bEnd (by simp [hend])
  | call fromStart i nMax => exact ⟨.ret false, rfl, by simp [Running.step, hcontrol]⟩

/-! ## Whole executions -/

/-- What an execution has done so far: the function was called for the indices from 1 on, each time
with the element at the index. If the execution has ended, then `fOver` was called after that, once,
with as many elements in the list as the function had been called for, and the timers are those that
were there before. If `A` holds, then the elements are those of the list. -/
def Processed (A : Prop) (timers₀ : Memory (ℤ × String)) (fOver : Bool) (param : Param)
    (r : Running Elem Param) : Prop :=
  ∃ vs : List Elem,
    (r.self.bEnd = false ∧ r.log = excuted param vs ∧
      vs.length ≤ r.self.tExcutionList.length ∧ (A → vs <+: r.self.tExcutionList)) ∨
    (r.self.bEnd = true ∧ r.NoTimer timers₀ ∧
      ∃ tList : List Elem, tList.length = vs.length ∧ (A → tList = vs) ∧
        r.log = excuted param vs ++ if fOver then [.fOver tList] else [])

theorem Inv.processed {c : ℤ} {fOver : Bool} {param : Param}
    (h : r.Inv A timers₀ (c, fOver, param)) : r.Processed A timers₀ fOver param := by
  obtain ⟨vs, hat⟩ := h.stands
  obtain rfl : r.self.fOver = fOver := congrArg (fun c => c.2.1) h.config_eq
  obtain rfl : r.self.tFuncParam = param := congrArg (fun c => c.2.2) h.config_eq
  refine ⟨vs, ?_⟩
  cases hcontrol : r.control with
  | new =>
    rw [hcontrol] at hat
    obtain ⟨hunder, -⟩ := hat
    exact .inl ⟨hunder.bEnd, hunder.log, hunder.length_le, hunder.elems⟩
  | idle =>
    rw [hcontrol] at hat
    rcases hat with ⟨hunder, -⟩ | hended
    · exact .inl ⟨hunder.bEnd, hunder.log, hunder.length_le, hunder.elems⟩
    · exact .inr ⟨hended.bEnd, hended.noTimer, hended.log⟩
  | call fromStart i nMax =>
    rw [hcontrol] at hat
    obtain ⟨hunder, -⟩ := hat
    exact .inl ⟨hunder.bEnd, hunder.log, hunder.length_le, hunder.elems⟩

theorem Inv.init {self : FrameExcutor Elem Param} (hend : self.bEnd = false)
    (hpos : 1 ≤ self.nExcutionCount) (hlt : self.nExcutionCount < 2 ^ 63) :
    (init self timers₀).Inv A timers₀ (init self timers₀).config := by
  refine ⟨rfl, hpos, hlt, [], ⟨hend, rfl, Nat.zero_le _, ?_⟩, rfl, ?_⟩
  · intro _
    exact List.nil_prefix
  · intro t
    rfl

/-- **Every element once**: in every state of an execution whose batches all end at an integer of
Lua, the function has been called for the elements of the list one after the other, and if the
execution has ended, then `fOver` was called once, after the last element, and the timer is not
registered any more. The elements may change as long as the list does not get shorter, and calls may
raise errors. An execution that has not ended goes on, and if its list has `n` elements, then it
ends after at most `2 * n + 3` events without a change of the list. -/
theorem processes_every_element (newTimer : Allocator (ℤ × String))
    (hfresh : ∀ timers, newTimer.fresh timers ≠ 0) (sDesc : String) (tList : List Elem)
    (nInterval nExcutionCount : Option ℤ) (bInstant : Option Bool) (fOver : Bool) (param : Param)
    (hpos : ∀ n ∈ nExcutionCount, 1 ≤ n) (hlt : ∀ n ∈ nExcutionCount, n < 2 ^ 63)
    (timers₀ : Memory (ℤ × String)) (es : List (Event Elem)) (r : Running Elem Param)
    (hrun : es.foldlM (step newTimer)
      (init (ctor sDesc tList nInterval nExcutionCount bInstant fOver param) timers₀) = some r)
    (hfits : PartialMachine.Meets (step newTimer) Fits
      (init (ctor sDesc tList nInterval nExcutionCount bInstant fOver param) timers₀) es) :
    r.Processed (PartialMachine.Meets (step newTimer) Appends
        (init (ctor sDesc tList nInterval nExcutionCount bInstant fOver param) timers₀) es)
      timers₀ fOver param ∧
    (r.self.bEnd = false → ∃ e : Event Elem, e.isChange = false ∧ (r.step newTimer e).isSome) ∧
    ∀ (es' : List (Event Elem)) (r' : Running Elem Param),
      PartialMachine.Meets (step newTimer) (fun r e => e.isChange = false ∧ r.Fits e) r es' →
      es'.foldlM (step newTimer) r = some r' →
      es'.length ≤ 2 * r.self.tExcutionList.length + 3 := by
  set r₀ : Running Elem Param :=
    init (ctor sDesc tList nInterval nExcutionCount bInstant fOver param) timers₀ with hr₀
  have hcount : 1 ≤ r₀.self.nExcutionCount ∧ r₀.self.nExcutionCount < 2 ^ 63 := by
    cases nExcutionCount with
    | none =>
      show (1 : ℤ) ≤ 100 ∧ (100 : ℤ) < 2 ^ 63
      norm_num
    | some n => exact ⟨hpos n rfl, hlt n rfl⟩
  have hinv : r.Inv (PartialMachine.Meets (step newTimer) Appends r₀ es) timers₀
      (r₀.self.nExcutionCount, fOver, param) := by
    have hcond : PartialMachine.Meets (step newTimer) (fun r e => r.Fits e ∧
        (PartialMachine.Meets (step newTimer) Appends r₀ es → r.Appends e)) r₀ es := by
      by_cases hA : PartialMachine.Meets (step newTimer) Appends r₀ es
      · exact (hfits.and hA).mono fun r e h => ⟨h.1, fun _ => h.2⟩
      · exact hfits.mono fun r e h => ⟨h, fun hA' => absurd hA' hA⟩
    refine PartialMachine.run_invariant ?_ (Inv.init rfl hcount.1 hcount.2) hcond hrun
    intro r e r' h hP hstep
    exact h.step hfresh hP.1 hP.2 hstep
  refine ⟨hinv.processed, hinv.exists_step, ?_⟩
  intro es' r' hmeets hrun'
  refine le_trans (PartialMachine.length_le_measure ?_ hinv hmeets hrun') r.remaining_le
  intro s e s' h hP hstep
  refine ⟨h.step hfresh hP.2 (fun _ => ?_) hstep, h.remaining_lt hP.2 hP.1 hstep⟩
  cases e with
  | change tList => exact absurd hP.1 (by simp [Event.isChange])
  | _ => trivial

/-- Three elements in batches of two. The second call raises an error, and an element is appended
before the third. -/
theorem processes_appended_element :
    ∃ r : Running ℕ Unit,
      [Event.start, .tick, .ret false, .ret true, .change [1, 2, 3, 4], .tick, .ret false,
        .ret false].foldlM (step (.above _))
        (init (ctor "d" [1, 2, 3] none (some 2) (some false) true ()) ∅) = some r ∧
      r.log = excuted () [1, 2, 3, 4] ++ [.fOver [1, 2, 3, 4]] ∧
      r.Processed (PartialMachine.Meets (step (.above _)) Appends
        (init (ctor "d" [1, 2, 3] none (some 2) (some false) true ()) ∅)
        [Event.start, .tick, .ret false, .ret true, .change [1, 2, 3, 4], .tick, .ret false,
          .ret false]) ∅ true () :=
  ⟨_, rfl, rfl, (processes_every_element (.above _) (fun _ => Nat.succ_ne_zero _) "d" [1, 2, 3]
    none (some 2) (some false) true () (by simp) (by simp) ∅ _ _ rfl (by decide +kernel)).1⟩

/-- A batch as large as an integer can be: the function appends an element to the list, and the sum
for the next batch overflows. The third batch begins at a negative index. -/
theorem exists_call_without_element :
    ¬ ∀ (newTimer : Allocator (ℤ × String)), (∀ timers, newTimer.fresh timers ≠ 0) →
      ∀ (sDesc : String) (tList : List ℕ) (nInterval nExcutionCount : Option ℤ)
        (bInstant : Option Bool) (fOver : Bool) (param : Unit),
      (∀ n ∈ nExcutionCount, 1 ≤ n) → (∀ n ∈ nExcutionCount, n < 2 ^ 63) →
      ∀ (timers₀ : Memory (ℤ × String)) (es : List (Event ℕ)) (r : Running ℕ Unit),
      es.foldlM (step newTimer)
        (init (ctor sDesc tList nInterval nExcutionCount bInstant fOver param) timers₀) = some r →
      r.Processed (PartialMachine.Meets (step newTimer) Appends
          (init (ctor sDesc tList nInterval nExcutionCount bInstant fOver param) timers₀) es)
        timers₀ fOver param := by
  intro h
  have hfresh : ∀ timers, (Allocator.above (ℤ × String)).fresh timers ≠ 0 :=
    fun timers => Nat.succ_ne_zero _
  obtain ⟨vs, ⟨-, hlog, -⟩ | ⟨hend, -⟩⟩ := h (.above _) hfresh "" [10] none (some (2 ^ 63 - 1))
    (some false) true () (by simp) (by simp) ∅
    [.start, .tick, .change [10, 20], .ret false, .tick, .tick] _ rfl
  · have hcall : (excuted () vs)[1]? = some (.fExcute (1 - 2 ^ 63) none ()) := by
      rw [← hlog]
      rfl
    rw [excuted, List.getElem?_mapIdx, Option.map_eq_some_iff] at hcall
    obtain ⟨v, -, hv⟩ := hcall
    cases hv
  · exact absurd hend Bool.false_ne_true

end Running

end CodeTest.FrameExcutor
