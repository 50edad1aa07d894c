import CodeTest.Foundations.Machine
import CodeTest.TimeOut.Live

/-!
# Tasks expire at their deadlines

What `TimeOutManager` is for is an agenda: a list of tasks with a flag and a deadline, from which a
task is taken by its flag or when its deadline has come. `OnSchedule` compares the manager with the
agenda after a sequence of operations under a clock that does not go back, and
`timeOutManager_expiry_iff` says that the two agree throughout exactly when no task is pushed under
the flag `false`. The invariant that makes `popTimeOut` complete, although it only goes through the
seconds from `nPreTime` to now, is that no live deadline lies before `nPreTime` (`Tracks.due`).
-/

namespace CodeTest.TimeOutManager

variable {F T : Type*} [DecidableEq F] [LuaKey F]

/-- The operations on a manager, with the orders in which they go through tables. -/
inductive Op (F T : Type*)
  | push (flag : F) (time : ℤ) (task : T)
  | pop (flag : F) (order : PairsOrder F T)
  | get (flag : F)
  | popTimeOut (order : PairsOrder F T)
  | isEmpty (order : PairsOrder F ℤ)

/-- What an operation returns, or that it raises an error. -/
inductive Answer (T : Type*)
  | raised
  | done
  | popped (task : Option T)
  | got (task : Option T)
  | expired (tasks : List T)
  | empty (b : Bool)

/-- Two answers are the same up to the order of a list of expired tasks. -/
inductive Answer.Alike : Answer T → Answer T → Prop
  | refl (a : Answer T) : Alike a a
  | expired {ts ts' : List T} (h : ts.Perm ts') : Alike (.expired ts) (.expired ts')

/-- A manager and the time of its last operation. -/
structure Clocked (F T : Type*) where
  mgr : TimeOutManager ℤ F T
  now : ℤ

/-- One operation at the time `now`. -/
def step : Machine (Clocked F T) (ℤ × Op F T) (Answer T)
  | s, (now, .push flag time task) => (.done, ⟨s.mgr.push flag time task now, now⟩)
  | s, (now, .pop flag order) =>
    (if s.mgr.raises flag then .raised else .popped (s.mgr.pop flag order).1,
      ⟨(s.mgr.pop flag order).2, now⟩)
  | s, (now, .get flag) =>
    (if s.mgr.raises flag then .raised else .got (s.mgr.get flag), ⟨s.mgr, now⟩)
  | s, (now, .popTimeOut order) =>
    (.expired (s.mgr.popTimeOut order now).1, ⟨(s.mgr.popTimeOut order now).2, now⟩)
  | s, (now, .isEmpty order) => (.empty (s.mgr.isEmpty order), ⟨s.mgr, now⟩)

/-- The clock does not go back, and the flag of a task that is pushed is not in use. -/
def Proper (s : Clocked F T) (e : ℤ × Op F T) : Prop :=
  s.now ≤ e.1 ∧ match e.2 with
    | .push flag _ _ => flag ∉ s.mgr.tFlag2TS
    | _ => True

instance (s : Clocked F T) : ∀ e, Decidable (Proper s e)
  | (now, .push flag _ _) => inferInstanceAs (Decidable (s.now ≤ now ∧ flag ∉ s.mgr.tFlag2TS))
  | (now, .pop _ _) | (now, .get _) | (now, .popTimeOut _) | (now, .isEmpty _) =>
    inferInstanceAs (Decidable (s.now ≤ now ∧ True))

/-- No task is pushed under the flag `false`. -/
def Op.Truthy : Op F T → Prop
  | .push flag _ _ => LuaKey.isFalse flag = false
  | _ => True

instance : ∀ op : Op F T, Decidable op.Truthy
  | .push flag _ _ => inferInstanceAs (Decidable (LuaKey.isFalse flag = false))
  | .pop _ _ | .get _ | .popTimeOut _ | .isEmpty _ => inferInstanceAs (Decidable True)

/-- A task on the agenda: its flag, its deadline and the task. -/
abbrev Item (F T : Type*) := F × ℤ × T

namespace Agenda

/-- The task with the flag. -/
def find (l : List (Item F T)) (flag : F) : Option T :=
  (l.find? fun x => x.1 = flag).map fun x => x.2.2

/-- One operation on an agenda. A task pushed at `now` with a time falls due after that time, and
after one second at the earliest. -/
def step : Machine (List (Item F T)) (ℤ × Op F T) (Answer T)
  | l, (now, .push flag time task) => (.done, l ++ [(flag, now + max time 1, task)])
  | l, (_, .pop flag _) => (.popped (find l flag), l.filter fun x => x.1 ≠ flag)
  | l, (_, .get flag) => (.got (find l flag), l)
  | l, (now, .popTimeOut _) =>
    (.expired ((l.filter fun x => x.2.1 ≤ now).map fun x => x.2.2), l.filter fun x => now < x.2.1)
  | l, (_, .isEmpty _) => (.empty l.isEmpty, l)

end Agenda

/-- The tasks pushed by the operations. -/
def pushed : List (ℤ × Op F T) → List T
  | [] => []
  | (_, .push _ _ task) :: es => task :: pushed es
  | _ :: es => pushed es

/-- The tasks handed out with the answers: by `pop` or by `popTimeOut`. -/
def handedOut : List (Answer T) → List T
  | [] => []
  | .popped (some task) :: as => task :: handedOut as
  | .expired tasks :: as => tasks ++ handedOut as
  | _ :: as => handedOut as

/-! ## The manager tracks the agenda -/

/-- The manager holds the tasks of the agenda, none under the flag `false`, no deadline lies before
`nPreTime`, and `nPreTime` is at most one second ahead of the clock. -/
structure Tracks (s : Clocked F T) (l : List (Item F T)) : Prop where
  linked : s.mgr.Linked
  live_iff : ∀ f d t, s.mgr.live f = some (d, t) ↔ (f, d, t) ∈ l
  nodup : (l.map Prod.fst).Nodup
  truthy : ∀ x ∈ l, LuaKey.isFalse x.1 = false
  due : ∀ x ∈ l, s.mgr.nPreTime ≤ x.2.1
  pre : s.mgr.nPreTime ≤ s.now + 1

variable {s : Clocked F T} {l : List (Item F T)}

theorem tracks_ctor (now : ℤ) : Tracks (⟨ctor now, now⟩ : Clocked F T) [] where
  linked := linked_ctor now
  live_iff f d t := by simp
  nodup := List.nodup_nil
  truthy x hx := by simp at hx
  due x hx := by simp at hx
  pre := by simp [ctor]

omit [LuaKey F] in
theorem find_eq_some_iff (hnd : (l.map Prod.fst).Nodup) {flag : F} {t : T} :
    Agenda.find l flag = some t ↔ ∃ d, (flag, d, t) ∈ l := by
  simp only [Agenda.find, Option.map_eq_some_iff]
  constructor
  · rintro ⟨⟨f, d, t⟩, hfind, rfl⟩
    have hf : f = flag := by simpa using List.find?_some hfind
    subst hf
    exact ⟨d, List.mem_of_find?_eq_some hfind⟩
  · rintro ⟨d, hmem⟩
    obtain ⟨x, hx⟩ := Option.isSome_iff_exists.mp
      (List.find?_isSome (p := fun x : Item F T => decide (x.1 = flag)).mpr ⟨_, hmem, by simp⟩)
    have hxl := List.mem_of_find?_eq_some hx
    have hxf : x.1 = flag := by simpa using List.find?_some hx
    refine ⟨x, hx, ?_⟩
    rw [List.inj_on_of_nodup_map hnd hxl hmem hxf]

theorem Tracks.mgr_truthy (h : Tracks s l) : s.mgr.Truthy := by
  have hslot : ∀ d tSlot, s.mgr.tTimeSlot.lookup d = some tSlot → ∀ f ∈ tSlot,
      LuaKey.isFalse f = false := by
    intro d tSlot hslot f hf
    obtain ⟨t, ht⟩ := Option.isSome_iff_exists.mp (AList.lookup_isSome.mpr hf)
    have hlive := h.linked.live_eq_some_iff.mpr ⟨tSlot, hslot, ht⟩
    exact h.truthy (f, d, t) ((h.live_iff f d t).mp hlive)
  refine ⟨hslot, fun f hf => ?_⟩
  obtain ⟨d, hd⟩ := Option.isSome_iff_exists.mp (AList.lookup_isSome.mpr hf)
  obtain ⟨tSlot, hmem, hin⟩ := h.linked.slotted f d hd
  exact hslot d tSlot hmem f hin

theorem Tracks.find_eq (h : Tracks s l) (flag : F) :
    Agenda.find l flag = (s.mgr.live flag).map Prod.snd := by
  refine Option.ext fun t => ?_
  rw [find_eq_some_iff h.nodup, Option.map_eq_some_iff]
  simp only [← h.live_iff]
  constructor
  · rintro ⟨d, hd⟩
    exact ⟨(d, t), hd, rfl⟩
  · rintro ⟨⟨d, t'⟩, hd, rfl⟩
    exact ⟨d, hd⟩

/-- The tasks of a part of the agenda stay tracked when the manager keeps exactly them. -/
theorem Tracks.filter (h : Tracks s l) {s' : Clocked F T} (p : Item F T → Bool)
    (hlinked : s'.mgr.Linked)
    (hlive : ∀ f d t, s'.mgr.live f = some (d, t) ↔ (f, d, t) ∈ l ∧ p (f, d, t) = true)
    (hdue : ∀ x ∈ l, p x = true → s'.mgr.nPreTime ≤ x.2.1)
    (hpre : s'.mgr.nPreTime ≤ s'.now + 1) : Tracks s' (l.filter p) where
  linked := hlinked
  live_iff f d t := by rw [hlive, List.mem_filter]
  nodup := h.nodup.sublist (List.filter_sublist.map _)
  truthy x hx := h.truthy x (List.mem_filter.mp hx).1
  due x hx := hdue x (List.mem_filter.mp hx).1 (List.mem_filter.mp hx).2
  pre := hpre

theorem ddl_int (time now : ℤ) : ddl time now = now + max time 1 := by
  unfold ddl
  simp only [Int.cast_id]
  split_ifs <;> omega

theorem Tracks.push (h : Tracks s l) {now : ℤ} (hnow : s.now ≤ now) {flag : F}
    (hflag : flag ∉ s.mgr.tFlag2TS) (htruthy : LuaKey.isFalse flag = false) (time : ℤ) (task : T) :
    Tracks ⟨s.mgr.push flag time task now, now⟩ (l ++ [(flag, now + max time 1, task)]) := by
  have hfree : s.mgr.live flag = none :=
    h.linked.lookup_flag_eq_none_iff.mp (AList.lookup_eq_none.mpr hflag)
  have hnew : ∀ x ∈ l, x.1 ≠ flag := by
    rintro ⟨f, d, t⟩ hx rfl
    have := (h.live_iff f d t).mpr hx
    rw [hfree] at this
    exact absurd this (by simp)
  have hpre : (s.mgr.push flag time task now).nPreTime = s.mgr.nPreTime := rfl
  refine ⟨h.linked.push hfree time task now, fun f d t => ?_, ?_, ?_, ?_, ?_⟩
  · rw [live_push, ddl_int, List.mem_append, List.mem_singleton]
    by_cases hf : f = flag
    · subst hf
      have : (f, d, t) ∉ l := fun hx => hnew _ hx rfl
      simp [this, eq_comm]
    · simp [hf, h.live_iff]
  · rw [List.map_append, List.map_singleton, List.nodup_append']
    refine ⟨h.nodup, List.nodup_singleton _, ?_⟩
    rw [List.disjoint_singleton]
    intro hmem
    obtain ⟨x, hx, hxf⟩ := List.mem_map.mp hmem
    exact hnew x hx hxf
  · intro x hx
    rcases List.mem_append.mp hx with hx | hx
    · exact h.truthy x hx
    · rw [List.mem_singleton.mp hx]
      exact htruthy
  · intro x hx
    rw [hpre]
    rcases List.mem_append.mp hx with hx | hx
    · exact h.due x hx
    · rw [List.mem_singleton.mp hx]
      have := h.pre
      have := le_max_right time 1
      simp only
      omega
  · have := h.pre
    rw [hpre]
    simp only
    omega

theorem Tracks.popTimeOut (h : Tracks s l) (order : PairsOrder F T) (now : ℤ) :
    (s.mgr.popTimeOut order now).1.Perm ((l.filter fun x => x.2.1 ≤ now).map fun x => x.2.2) ∧
      Tracks ⟨(s.mgr.popTimeOut order now).2, now⟩ (l.filter fun x => now < x.2.1) := by
  obtain ⟨es, hout, hnd, hmem, hlive, hlinked⟩ := h.linked.popTimeOut order now
  -- the scan from `nPreTime` misses no deadline up to now
  have hmem' : ∀ f t, ⟨f, t⟩ ∈ es ↔ ∃ d, (f, d, t) ∈ l ∧ d ≤ now := by
    intro f t
    rw [hmem]
    constructor
    · rintro ⟨i, -, hi, hlive⟩
      exact ⟨i, (h.live_iff f i t).mp hlive, hi⟩
    · rintro ⟨d, hd, hle⟩
      exact ⟨d, h.due _ hd, hle, (h.live_iff f d t).mpr hd⟩
  constructor
  · have hperm : es.Perm ((l.filter fun x => x.2.1 ≤ now).map fun x => ⟨x.1, x.2.2⟩) := by
      refine (List.perm_ext_iff_of_nodup (List.Nodup.of_map _ hnd) ?_).mpr ?_
      · refine List.Nodup.of_map Sigma.fst ?_
        rw [List.map_map]
        exact h.nodup.sublist (List.filter_sublist.map _)
      · rintro ⟨f, t⟩
        rw [hmem', List.mem_map]
        constructor
        · rintro ⟨d, hd, hle⟩
          exact ⟨(f, d, t), by simp [hd, hle], rfl⟩
        · rintro ⟨⟨f', d, t'⟩, hx, heq⟩
          obtain ⟨hx, hle⟩ := List.mem_filter.mp hx
          simp only [Sigma.mk.injEq, heq_eq_eq] at heq
          obtain ⟨rfl, rfl⟩ := heq
          exact ⟨d, hx, by simpa using hle⟩
    rw [hout]
    simpa [List.map_map, Function.comp_def] using hperm.map Sigma.snd
  · refine h.filter _ hlinked (fun f d t => ?_) ?_ ?_
    · rw [hlive, ← h.live_iff]
      simp only [decide_eq_true_eq]
      split_ifs with hf
      · refine iff_of_false (by simp) ?_
        rintro ⟨hd, hlt⟩
        obtain ⟨⟨f', t'⟩, hft, rfl⟩ := List.mem_map.mp hf
        obtain ⟨d', hd', hle⟩ := (hmem' f' t').mp hft
        rw [(h.live_iff f' d' t').mpr hd', Option.some_inj, Prod.mk.injEq] at hd
        omega
      · refine ⟨fun hd => ⟨hd, ?_⟩, fun hd => hd.1⟩
        by_contra hle
        exact hf (List.mem_map_of_mem
          ((hmem' f t).mpr ⟨d, (h.live_iff f d t).mp hd, not_lt.mp hle⟩))
    · intro x _ hlt
      have : now < x.2.1 := by simpa using hlt
      exact this
    · exact le_rfl

theorem Tracks.isEmpty_eq (h : Tracks s l) (order : PairsOrder F ℤ) :
    s.mgr.isEmpty order = l.isEmpty := by
  rw [Bool.eq_iff_iff, h.linked.isEmpty_iff h.mgr_truthy, List.isEmpty_iff,
    List.eq_nil_iff_forall_not_mem]
  constructor
  · rintro hnone ⟨f, d, t⟩ hx
    have := (h.live_iff f d t).mpr hx
    rw [hnone f] at this
    exact absurd this (by simp)
  · intro hnone f
    rw [Option.eq_none_iff_forall_not_mem]
    rintro ⟨d, t⟩ hx
    exact hnone _ ((h.live_iff f d t).mp hx)

/-- Every operation keeps the manager and the agenda together, with the same answer, unless it
pushes a task under the flag `false`. -/
theorem Tracks.step (h : Tracks s l) {e : ℤ × Op F T} (hp : Proper s e) (htruthy : e.2.Truthy) :
    (TimeOutManager.step s e).1.Alike (Agenda.step l e).1 ∧
      Tracks (TimeOutManager.step s e).2 (Agenda.step l e).2 := by
  obtain ⟨now, op⟩ := e
  obtain ⟨hnow, hop⟩ := hp
  have hpre := h.pre
  -- an operation that leaves the manager as it is only moves the clock
  have hstay : Tracks ⟨s.mgr, now⟩ l :=
    ⟨h.linked, h.live_iff, h.nodup, h.truthy, h.due, by simp only at hnow ⊢; omega⟩
  cases op with
  | push flag time task => exact ⟨.refl _, h.push hnow hop htruthy time task⟩
  | pop flag order =>
    have hlast := nPreTime_pop order s.mgr flag
    refine ⟨?_, h.filter _ (h.linked.pop h.mgr_truthy flag order) (fun f d t => ?_) ?_ ?_⟩
    · simp only [TimeOutManager.step, Agenda.step, h.linked.slotted.raises_eq_false, pop_fst,
        h.find_eq]
      exact .refl _
    · simp only [TimeOutManager.step]
      rw [h.mgr_truthy.live_pop, ← h.live_iff]
      by_cases hf : f = flag <;> simp [hf]
    · intro x hx _
      simp only [TimeOutManager.step]
      rw [hlast]
      exact h.due x hx
    · simp only [TimeOutManager.step]
      rw [hlast]
      exact hstay.pre
  | get flag =>
    refine ⟨?_, hstay⟩
    simp only [TimeOutManager.step, Agenda.step, h.linked.slotted.raises_eq_false, get_eq,
      h.find_eq]
    exact .refl _
  | popTimeOut order =>
    obtain ⟨hperm, hnext⟩ := h.popTimeOut order now
    exact ⟨.expired hperm, hnext⟩
  | isEmpty order =>
    refine ⟨?_, hstay⟩
    simp only [TimeOutManager.step, Agenda.step, h.isEmpty_eq]
    exact .refl _

/-! ## No task is handed out twice -/

theorem handedOut_perm {as as' : List (Answer T)} (h : List.Forall₂ Answer.Alike as as') :
    (handedOut as).Perm (handedOut as') := by
  induction h with
  | nil => exact .refl _
  | cons h _ ih =>
    cases h with
    | refl =>
      rename_i a _ _ _
      cases a with
      | popped task => cases task <;> simpa [handedOut] using ih
      | expired tasks => exact ih.append_left _
      | _ => exact ih
    | expired hp => exact hp.append ih

omit [LuaKey F] in
/-- On an agenda with distinct flags, taking the task of a flag leaves the others. -/
theorem perm_find_filter (flag : F) (hnd : (l.map Prod.fst).Nodup) :
    (l.map fun x => x.2.2).Perm
      ((Agenda.find l flag).toList ++ (l.filter fun x => x.1 ≠ flag).map fun x => x.2.2) := by
  induction l with
  | nil => simp [Agenda.find]
  | cons x l ih =>
    rw [List.map_cons, List.nodup_cons] at hnd
    by_cases hx : x.1 = flag
    · have hrest : l.filter (fun y => y.1 ≠ flag) = l := by
        refine List.filter_eq_self.mpr fun y hy => ?_
        simp only [ne_eq, decide_eq_true_eq]
        rintro hyf
        exact hnd.1 (hx.trans hyf.symm ▸ List.mem_map_of_mem hy)
      rw [List.filter_cons_of_neg (by simp [hx]), hrest]
      simp [Agenda.find, hx]
    · have := (ih hnd.2).cons x.2.2
      simp only [Agenda.find, List.find?_cons, hx, List.filter_cons, List.map_cons, ne_eq,
        decide_false, decide_true, if_true, not_false_eq_true] at this ⊢
      exact this.trans List.perm_middle.symm

omit [DecidableEq F] [LuaKey F] in
theorem perm_filter_due (l : List (Item F T)) (now : ℤ) :
    (l.map fun x => x.2.2).Perm (((l.filter fun x => x.2.1 ≤ now).map fun x => x.2.2) ++
      (l.filter fun x => now < x.2.1).map fun x => x.2.2) := by
  rw [← List.map_append]
  refine List.Perm.map _ ?_
  have := (List.filter_append_perm (fun x : Item F T => decide (x.2.1 ≤ now)) l).symm
  simpa only [← decide_not, not_le] using this

/-- The tasks on the agenda and those pushed are those handed out and those left. -/
theorem Tracks.perm_pushed (h : Tracks s l) {es : List (ℤ × Op F T)}
    (hp : Machine.Along TimeOutManager.step (fun s e => Proper s e ∧ e.2.Truthy) s es) :
    ((l.map fun x => x.2.2) ++ pushed es).Perm
      (handedOut (Machine.outputs Agenda.step l es) ++
        (Machine.run Agenda.step l es).map fun x => x.2.2) := by
  induction es generalizing s l with
  | nil => simp [pushed, handedOut]
  | cons e es ih =>
    have hnext := ih (h.step hp.1.1 hp.1.2).2 hp.2
    obtain ⟨now, op⟩ := e
    cases op with
    | push flag time task =>
      simpa [pushed, handedOut, Agenda.step] using hnext
    | pop flag order =>
      refine ((perm_find_filter flag h.nodup).append_right _).trans ?_
      rw [List.append_assoc]
      cases hfind : Agenda.find l flag with
      | none => simpa [pushed, handedOut, Agenda.step, hfind] using hnext
      | some task => simpa [pushed, handedOut, Agenda.step, hfind] using hnext
    | get flag => simpa [pushed, handedOut, Agenda.step] using hnext
    | popTimeOut order =>
      refine ((perm_filter_due l now).append_right _).trans ?_
      simp only [Machine.outputs_cons, Machine.run_cons, Agenda.step, handedOut, pushed,
        List.append_assoc] at hnext ⊢
      exact hnext.append_left _
    | isEmpty order => simpa [pushed, handedOut, Agenda.step] using hnext

/-! ## Runs -/

/-- A new manager after the operations. -/
def after (start : ℤ) (es : List (ℤ × Op F T)) : Clocked F T :=
  Machine.run TimeOutManager.step ⟨ctor start, start⟩ es

/-- The agenda after the operations. -/
def Agenda.after (es : List (ℤ × Op F T)) : List (Item F T) := Machine.run Agenda.step [] es

/-- After the operations `es` on a new manager the two tables belong together and no slot is empty;
the tasks they hold are those on the agenda; every answer was the answer of the agenda, so none of
them was an error and `popTimeOut` has handed out exactly the tasks that were due; the tasks pushed
are those handed out, each once, and those on the agenda; and the manager is found empty exactly
when the agenda is, whatever the order in which its table is gone through. -/
structure OnSchedule (start : ℤ) (es : List (ℤ × Op F T)) : Prop where
  flag_iff : ∀ f d, (after start es).mgr.tFlag2TS.lookup f = some d ↔
    ∃ tSlot, (after start es).mgr.tTimeSlot.lookup d = some tSlot ∧ f ∈ tSlot
  slot_ne : ∀ d tSlot, (after start es).mgr.tTimeSlot.lookup d = some tSlot → tSlot.entries ≠ []
  mem_agenda : ∀ f d t, (f, d, t) ∈ Agenda.after es ↔
    ∃ tSlot, (after start es).mgr.tTimeSlot.lookup d = some tSlot ∧ tSlot.lookup f = some t
  alike : List.Forall₂ Answer.Alike (Machine.outputs TimeOutManager.step ⟨ctor start, start⟩ es)
    (Machine.outputs Agenda.step [] es)
  perm : (pushed es).Perm (handedOut (Machine.outputs TimeOutManager.step ⟨ctor start, start⟩ es) ++
    (Agenda.after es).map fun x => x.2.2)
  isEmpty_iff : ∀ order, (after start es).mgr.isEmpty order = true ↔ Agenda.after es = []

/-- Operations of which none pushes a task under the flag `false`. -/
theorem onSchedule_of_truthy {start : ℤ} {es : List (ℤ × Op F T)}
    (hproper : Machine.Along TimeOutManager.step Proper ⟨ctor start, start⟩ es)
    (htruthy : ∀ e ∈ es, e.2.Truthy) : OnSchedule start es := by
  have h₀ : Tracks (⟨ctor start, start⟩ : Clocked F T) [] := tracks_ctor start
  have hboth := hproper.and_of_forall htruthy
  obtain ⟨houts, hlast⟩ := Machine.simulation (fun s l e h hp => h.step hp.1 hp.2) h₀ hboth
  refine ⟨hlast.linked.flag_iff, hlast.linked.slot_ne, fun f d t => ?_, houts, ?_, fun order => ?_⟩
  · exact (hlast.live_iff f d t).symm.trans hlast.linked.live_eq_some_iff
  · have := h₀.perm_pushed hboth
    rw [List.map_nil, List.nil_append] at this
    exact this.trans ((handedOut_perm houts).symm.append_right _)
  · rw [after, hlast.isEmpty_eq, List.isEmpty_iff]
    rfl

/-- After a push under the flag `false`, a traversal that meets this flag first finds the manager
empty. -/
theorem not_onSchedule_push {start : ℤ} (es : List (ℤ × Op F T)) (now : ℤ) {flag : F}
    (hfalse : LuaKey.isFalse flag = true) (time : ℤ) (task : T) :
    ¬ OnSchedule start (es ++ [(now, .push flag time task)]) := by
  intro h
  have hmem : flag ∈ (after start (es ++ [(now, .push flag time task)])).mgr.tFlag2TS := by
    rw [after, Machine.run_append]
    simp [TimeOutManager.step, TimeOutManager.push]
  have hagenda : Agenda.after (es ++ [(now, .push flag time task)]) ≠ [] := by
    rw [Agenda.after, Machine.run_append]
    simp [Agenda.step]
  refine hagenda ((h.isEmpty_iff (.startingWith flag ℤ)).mp ?_)
  rw [isEmpty, PairsOrder.testNext_startingWith hmem hfalse, Bool.not_false]

/-- **Expiry.** For every sequence of operations on a new manager, under a clock that does not go
back and with the flag of a pushed task not in use: the manager is on schedule after every one of
them if and only if no task is pushed under the flag `false`. -/
theorem timeOutManager_expiry_iff (start : ℤ) (es : List (ℤ × Op F T))
    (hproper : Machine.Along TimeOutManager.step Proper ⟨ctor start, start⟩ es) :
    (∀ es₁, es₁ <+: es → OnSchedule start es₁) ↔ ∀ e ∈ es, e.2.Truthy := by
  constructor
  · rintro hall ⟨now, op⟩ he
    cases op with
    | push flag time task =>
      obtain ⟨es₁, es₂, rfl⟩ := List.append_of_mem he
      rw [← List.singleton_append, ← List.append_assoc] at hall
      have hnot := hall _ (List.prefix_append _ es₂)
      by_contra hfalse
      exact not_onSchedule_push es₁ now (Bool.not_eq_false _ ▸ hfalse) time task hnot
    | _ => trivial
  · rintro htruthy es₁ ⟨es₂, rfl⟩
    exact onSchedule_of_truthy (hproper.of_append) fun e he =>
      htruthy e (List.mem_append_left es₂ he)

/-- Two tasks pushed at the second 100: the first expires at 101, the second is popped by its flag.
-/
theorem timeOutManager_expiry_two :
    (pushed [(100, Op.push 7 0 "first"), (100, .push 8 5 "second"),
        (101, .popTimeOut (.entries _ _)), (103, .pop 8 (.entries _ _))]).Perm
      (handedOut (Machine.outputs TimeOutManager.step (⟨ctor 100, 100⟩ : Clocked ℕ String)
        [(100, Op.push 7 0 "first"), (100, .push 8 5 "second"), (101, .popTimeOut (.entries _ _)),
          (103, .pop 8 (.entries _ _))]) ++ []) := by
  have hall := (timeOutManager_expiry_iff 100
    [(100, Op.push 7 0 "first"), (100, .push 8 5 "second"), (101, .popTimeOut (.entries _ _)),
      (103, .pop 8 (.entries _ _))] (by decide +kernel)).mpr (by decide)
  exact (hall _ (List.prefix_refl _)).perm

/-- A task is pushed under the flag `false`: it is live, and the manager says that it is empty. -/
theorem false_not_onSchedule :
    Machine.Along TimeOutManager.step Proper (⟨ctor 100, 100⟩ : Clocked Bool String)
        [(100, .push false 5 "task")] ∧
      ¬ OnSchedule 100 [(100, Op.push false 5 "task")] :=
  ⟨by decide +kernel, not_onSchedule_push [] 100 rfl 5 "task"⟩

/-! ## No run raises -/

/-- Without the flag `false` no operation raises, even if flags are pushed that are in use and the
clock goes back. -/
theorem raised_notMem_outputs (hF : ∀ f : F, LuaKey.isFalse f = false) (start : ℤ)
    (es : List (ℤ × Op F T)) : .raised ∉ Machine.outputs TimeOutManager.step
      (⟨ctor start, start⟩ : Clocked F T) es := by
  have htruthy : ∀ m : TimeOutManager ℤ F T, m.Truthy := fun m =>
    ⟨fun _ _ _ f _ => hF f, fun f _ => hF f⟩
  suffices h : ∀ s : Clocked F T, s.mgr.Slotted →
      .raised ∉ Machine.outputs TimeOutManager.step s es from h _ (slotted_ctor start)
  induction es with
  | nil => simp
  | cons e es ih =>
    intro s hs
    obtain ⟨now, op⟩ := e
    rw [Machine.outputs_cons, List.mem_cons, not_or]
    cases op with
    | push flag time task =>
      exact ⟨by simp [TimeOutManager.step], ih _ (hs.push flag time task now)⟩
    | pop flag order =>
      exact ⟨by simp [TimeOutManager.step, hs.raises_eq_false],
        ih _ (hs.pop (htruthy s.mgr) flag order)⟩
    | get flag => exact ⟨by simp [TimeOutManager.step, hs.raises_eq_false], ih _ hs⟩
    | popTimeOut order => exact ⟨by simp [TimeOutManager.step], ih _ (hs.popTimeOut order now)⟩
    | isEmpty order => exact ⟨by simp [TimeOutManager.step], ih _ hs⟩

end CodeTest.TimeOutManager
