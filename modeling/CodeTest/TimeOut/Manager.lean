import CodeTest.Foundations.Table
import Mathlib.Tactic

/-!
# The timeout manager

`TimeOutManager` of `timertool.lua`: tasks are kept in slots by the second of their deadline, with a
second table from the flag of a task to its deadline. `os.time()` is an integer and is given to each
operation as `now`; the numbers `N` that may be passed as times to `push` are left open, and so are
the flags `F`.

`pop` and `isEmpty` test `next(t)`, which is also `false` when it is the flag `false`: `order` is
the order in which `next` goes through the table. It does not matter when no flag is `false`
(`Truthy`), as for numbers, and may be left out then.

The proofs about the manager go through `live`, which says for a flag what the two tables together
hold for it. On `Linked` managers each operation has one lemma that gives `live` after it.
-/

namespace CodeTest

/-- The fields of `TimeOutManager`, with times in `N`, flags in `F` and tasks in `T`. -/
structure TimeOutManager (N F T : Type*) where
  nPreTime : ℤ
  tTimeSlot : Table N (Table F T)
  tFlag2TS : Table F N

namespace TimeOutManager

variable {N F T : Type*} [DecidableEq N] [DecidableEq F]

/-- The constructor. -/
def ctor (now : ℤ) : TimeOutManager N F T := { nPreTime := now, tTimeSlot := ∅, tFlag2TS := ∅ }

/-- The deadline that `push` gives to a task. -/
def ddl [IntCast N] [Add N] [One N] [LE N] [DecidableLE N] (time : N) (now : ℤ) : N :=
  (now : N) + if time ≤ 1 then 1 else time

def push [IntCast N] [Add N] [One N] [LE N] [DecidableLE N] (m : TimeOutManager N F T) (flag : F)
    (time : N) (task : T) (now : ℤ) : TimeOutManager N F T :=
  let nDDL := ddl time now
  let tSlot := (m.tTimeSlot.lookup nDDL).getD ∅
  { m with
    tTimeSlot := m.tTimeSlot.insert nDDL (tSlot.insert flag task)
    tFlag2TS := m.tFlag2TS.insert flag nDDL }

/-- `pop` and `get` index the slot of the deadline without a check, and raise if there is none. -/
def raises (m : TimeOutManager N F T) (flag : F) : Bool :=
  (m.tFlag2TS.lookup flag).any fun nDDL => (m.tTimeSlot.lookup nDDL).isNone

/-- `pop`. If it `raises`, it has removed the deadline before. -/
def pop [LuaKey F] (m : TimeOutManager N F T) (flag : F)
    (order : PairsOrder F T := .entries F T) : Option T × TimeOutManager N F T :=
  match m.tFlag2TS.lookup flag with
  | none => (none, m)
  | some nDDL =>
    let tFlag2TS := m.tFlag2TS.erase flag
    match m.tTimeSlot.lookup nDDL with
    | none => (none, { m with tFlag2TS := tFlag2TS })
    | some tSlot =>
      let task := tSlot.lookup flag
      let tSlot := tSlot.erase flag
      if ¬ order.testNext tSlot then
        (task, { m with tTimeSlot := m.tTimeSlot.erase nDDL, tFlag2TS := tFlag2TS })
      else
        (task, { m with tTimeSlot := m.tTimeSlot.insert nDDL tSlot, tFlag2TS := tFlag2TS })

def get (m : TimeOutManager N F T) (flag : F) : Option T :=
  match m.tFlag2TS.lookup flag with
  | none => none
  | some nDDL => ((m.tTimeSlot.lookup nDDL).getD ∅).lookup flag

/-- The seconds from `a` to `b`. -/
def seconds (a b : ℤ) : List ℤ := (List.range (b + 1 - a).toNat).map fun k : ℕ => a + k

/-- The body of the loop of `popTimeOut` for the second `i`, on the manager and the list of tasks
popped so far. -/
def popSecond [IntCast N] (order : PairsOrder F T)
    (r : TimeOutManager N F T × List T) (i : ℤ) : TimeOutManager N F T × List T :=
  match r.1.tTimeSlot.lookup (i : N) with
  | none => r
  | some tSlot =>
    (order.pairs tSlot).foldl
      (fun r e => ({ r.1 with tFlag2TS := r.1.tFlag2TS.erase e.1 }, r.2 ++ [e.2]))
      ({ r.1 with tTimeSlot := r.1.tTimeSlot.erase (i : N) }, r.2)

def popTimeOut [IntCast N] (m : TimeOutManager N F T) (order : PairsOrder F T) (now : ℤ) :
    List T × TimeOutManager N F T :=
  let r := (seconds m.nPreTime now).foldl (popSecond order) (m, [])
  (r.2, { r.1 with nPreTime := now + 1 })

def isEmpty [LuaKey F] (m : TimeOutManager N F T)
    (order : PairsOrder F N := .entries F N) : Bool := !order.testNext m.tFlag2TS

/-! ## What the tables hold -/

/-- The two tables belong together: a flag has the deadline `d` exactly when it is in the slot of
`d`, and no slot is empty. -/
structure Linked (m : TimeOutManager N F T) : Prop where
  flag_iff : ∀ f d, m.tFlag2TS.lookup f = some d ↔
    ∃ tSlot, m.tTimeSlot.lookup d = some tSlot ∧ f ∈ tSlot
  slot_ne : ∀ d tSlot, m.tTimeSlot.lookup d = some tSlot → tSlot.entries ≠ []

/-- No flag in the tables is `false`. -/
structure Truthy [LuaKey F] (m : TimeOutManager N F T) : Prop where
  slot : ∀ d tSlot, m.tTimeSlot.lookup d = some tSlot → ∀ f ∈ tSlot, LuaKey.isFalse f = false
  flag : ∀ f ∈ m.tFlag2TS, LuaKey.isFalse f = false

/-- Numbers are not `false`. -/
theorem truthy_nat (m : TimeOutManager N ℕ T) : m.Truthy := ⟨fun _ _ _ _ _ => rfl, fun _ _ => rfl⟩

/-- Every flag with a deadline is in the slot of it. -/
def Slotted (m : TimeOutManager N F T) : Prop :=
  ∀ f d, m.tFlag2TS.lookup f = some d → ∃ tSlot, m.tTimeSlot.lookup d = some tSlot ∧ f ∈ tSlot

/-- The deadline and the task that the tables hold for a flag. -/
def live (m : TimeOutManager N F T) (f : F) : Option (N × T) :=
  (m.tFlag2TS.lookup f).bind fun d =>
    (((m.tTimeSlot.lookup d).getD ∅).lookup f).map fun t => (d, t)

variable {m : TimeOutManager N F T} {f : F} {d : N} {t : T}

theorem live_eq_some_iff : m.live f = some (d, t) ↔
    m.tFlag2TS.lookup f = some d ∧ ((m.tTimeSlot.lookup d).getD ∅).lookup f = some t := by
  simp only [live, Option.bind_eq_some_iff, Option.map_eq_some_iff, Prod.mk.injEq]
  constructor
  · rintro ⟨d', hd, t', ht, rfl, rfl⟩
    exact ⟨hd, ht⟩
  · rintro ⟨hd, ht⟩
    exact ⟨d, hd, t, ht, rfl, rfl⟩

theorem get_eq (m : TimeOutManager N F T) (f : F) : m.get f = (m.live f).map Prod.snd := by
  unfold get live
  cases m.tFlag2TS.lookup f with
  | none => rfl
  | some d => simp [Option.map_map, Function.comp_def]

@[simp] theorem live_ctor (now : ℤ) (f : F) : (ctor now : TimeOutManager N F T).live f = none := by
  simp [live, ctor]

theorem linked_ctor (now : ℤ) : (ctor now : TimeOutManager N F T).Linked where
  flag_iff f d := by simp [ctor]
  slot_ne d tSlot h := by simp [ctor] at h

theorem Linked.slotted (h : m.Linked) : m.Slotted := fun f d => (h.flag_iff f d).mp

/-- `pop` and `get` find a slot. -/
theorem Slotted.raises_eq_false (h : m.Slotted) (flag : F) : m.raises flag = false := by
  rw [raises, Option.any_eq_false]
  intro nDDL hflag
  obtain ⟨tSlot, hslot, -⟩ := h flag nDDL hflag
  simp [hslot]

theorem Linked.exists_slot (h : m.Linked) (hf : m.tFlag2TS.lookup f = some d) :
    ∃ tSlot t, m.tTimeSlot.lookup d = some tSlot ∧ tSlot.lookup f = some t := by
  obtain ⟨tSlot, hslot, hmem⟩ := (h.flag_iff f d).mp hf
  obtain ⟨t, ht⟩ := Option.isSome_iff_exists.mp (AList.lookup_isSome.mpr hmem)
  exact ⟨tSlot, t, hslot, ht⟩

/-- In a linked manager a task is live when it is in the slot of its deadline. -/
theorem Linked.live_eq_some_iff (h : m.Linked) : m.live f = some (d, t) ↔
    ∃ tSlot, m.tTimeSlot.lookup d = some tSlot ∧ tSlot.lookup f = some t := by
  rw [TimeOutManager.live_eq_some_iff]
  constructor
  · rintro ⟨hd, ht⟩
    obtain ⟨tSlot, hslot, -⟩ := (h.flag_iff f d).mp hd
    rw [hslot, Option.getD_some] at ht
    exact ⟨tSlot, hslot, ht⟩
  · rintro ⟨tSlot, hslot, ht⟩
    refine ⟨(h.flag_iff f d).mpr ⟨tSlot, hslot, ?_⟩, by rwa [hslot, Option.getD_some]⟩
    exact AList.lookup_isSome.mp (by rw [ht]; rfl)

theorem Linked.lookup_flag_eq_none_iff (h : m.Linked) :
    m.tFlag2TS.lookup f = none ↔ m.live f = none := by
  constructor
  · intro hf
    rw [live, hf]
    rfl
  · intro hlive
    by_contra hf
    obtain ⟨d, hd⟩ := Option.ne_none_iff_exists'.mp hf
    obtain ⟨tSlot, t, hslot, ht⟩ := h.exists_slot hd
    rw [h.live_eq_some_iff.mpr ⟨tSlot, hslot, ht⟩] at hlive
    exact absurd hlive (by simp)

section LuaKey

variable [LuaKey F] {orderN : PairsOrder F N}

theorem Truthy.isEmpty_iff_entries (h : m.Truthy) :
    m.isEmpty orderN = true ↔ m.tFlag2TS.entries = [] := by
  rw [isEmpty, Bool.not_eq_true', orderN.testNext_eq_false_iff h.flag]

theorem Truthy.live_eq_none_of_isEmpty (h : m.Truthy) (hempty : m.isEmpty orderN = true) (f : F) :
    m.live f = none := by
  rw [h.isEmpty_iff_entries, Table.entries_eq_nil_iff] at hempty
  rw [live, hempty f]
  rfl

/-- A linked manager without the flag `false` is empty exactly when no task is live. -/
theorem Linked.isEmpty_iff (h : m.Linked) (htruthy : m.Truthy) :
    m.isEmpty orderN = true ↔ ∀ f, m.live f = none := by
  rw [htruthy.isEmpty_iff_entries, Table.entries_eq_nil_iff]
  exact forall_congr' fun f => h.lookup_flag_eq_none_iff

end LuaKey

end TimeOutManager

end CodeTest
