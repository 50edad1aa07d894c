import CodeTest.Foundations.Machine
import CodeTest.Timer.Valid

/-!
# The heap timer as a registry of timers

What `AddTimer` and `DelTimer` are for is a registry: a list of timers under consecutive ids, from
which one is removed by its id. `minHeapTimer_registry` compares the heap timer with it over every
run of fewer than 2³¹ additions.
-/

namespace CodeTest.MinHeapTimer

variable {Cb : Type*} {t : MinHeapTimer Cb}

/-- The calls of the public operations; an addition comes with the time at which it is made. -/
inductive Event (Cb : Type*)
  | add (now expire : UInt32) (cb : Option Cb)
  | del (id : ℤ)

inductive Reply
  | added (id : ℤ)
  | deleted (b : Bool)
deriving DecidableEq

def Event.isAdd : Event Cb → Bool
  | .add .. => true
  | .del _ => false

/-- One call. -/
def call (alloc : Allocator (TimerNode Cb)) (t : MinHeapTimer Cb) :
    Event Cb → Option (Reply × MinHeapTimer Cb)
  | .add now expire cb =>
    some (.added (t.addTimer alloc now expire cb).1, (t.addTimer alloc now expire cb).2)
  | .del id => (t.delTimer id).map fun r => (.deleted r.1, r.2)

/-- A sequence of calls, with the replies to them. -/
def calls (alloc : Allocator (TimerNode Cb)) :
    MinHeapTimer Cb → List (Event Cb) → Option (List Reply × MinHeapTimer Cb)
  | t, [] => some ([], t)
  | t, e :: es => do
    let (reply, t) ← t.call alloc e
    let (replies, t) ← calls alloc t es
    return (reply :: replies, t)

/-- The registry: the last id given out, and the timers. -/
structure Registry (Cb : Type*) where
  count : ℤ := 0
  timers : List (Timer Cb) := []

def Registry.step : Machine (Registry Cb) (Event Cb) Reply
  | r, .add now expire cb =>
    (.added (r.count + 1),
      { count := r.count + 1, timers := ⟨r.count + 1, now + expire, cb⟩ :: r.timers })
  | r, .del id =>
    (.deleted (r.timers.any fun tm => tm.id = id),
      { r with timers := r.timers.filter fun tm => tm.id ≠ id })

/-- A valid timer holds the timers of a registry. -/
structure Implements (t : MinHeapTimer Cb) (r : Registry Cb) : Prop where
  valid : t.Valid
  count : t._count = r.count
  count_nonneg : 0 ≤ r.count
  timers : t.timers.Perm r.timers

/-! ## The timers of a valid heap -/

/-- The ids of the timers are distinct. -/
theorem Valid.nodup_ids (h : t.Valid) : (t.timers.map Timer.id).Nodup := by
  rw [timers, List.map_filterMap]
  rw [List.Nodup, List.pairwise_filterMap]
  refine h.seated.nodup.imp_of_mem fun {p q} hp hq hne id hid id' hid' heq => hne ?_
  subst heq
  have hp' := (h.map_iff id p).mpr ⟨hp, hid⟩
  rw [(h.map_iff id q).mpr ⟨hq, hid'⟩, Option.some_inj] at hp'
  exact hp'.symm

/-- **`DelTimer` on a valid timer**: `true` for an id with a node in the heap, which is then removed
alone, and `false`, without effect, for any other id. -/
theorem Valid.delTimer (h : t.Valid) (id : ℤ) :
    (∀ p tm, p ∈ t._heap → t.timerAt p = some tm → tm.id = id →
      ∃ t', t.delTimer id = some (true, t') ∧ t'.Valid ∧ t'._count = t._count ∧
        t._heap.Perm (p :: t'._heap) ∧
        ∀ q, t'.timerAt q = if q = p then none else t.timerAt q) ∧
    ((∀ p ∈ t._heap, ∀ tm, t.timerAt p = some tm → tm.id ≠ id) →
      t.delTimer id = some (false, t)) := by
  constructor
  · rintro p tm hp htm rfl
    have hmap := (h.map_iff tm.id p).mpr ⟨hp, by rw [htm]; rfl⟩
    obtain ⟨t', hdel, hrest⟩ := h.delNode hp
    refine ⟨t', ?_, hrest⟩
    rw [MinHeapTimer.delTimer, hmap]
    simp only [hdel, Option.map_some]
  · intro hnone
    cases hmap : t._map.lookup id with
    | none => rw [MinHeapTimer.delTimer, hmap]
    | some p =>
      obtain ⟨hp, hid⟩ := (h.map_iff id p).mp hmap
      obtain ⟨tm, htm, rfl⟩ := Option.map_eq_some_iff.mp hid
      exact absurd rfl (hnone p hp tm htm)

/-- The invariant in the terms of the class: the heap is a min-heap on `expire`, its nodes know
their positions, and the map leads exactly to the nodes in the heap. -/
theorem Valid.heap_idx_map (h : t.Valid) :
    (∀ i, 0 < i → i < t._heap.length → t.expireAt ((i - 1) / 2) ≤ t.expireAt i) ∧
      (∀ i p, t._heap[i]? = some p → ∃ node, t.nodes.lookup p = some node ∧ node.idx = i) ∧
      ∀ id p, t._map.lookup id = some p ↔
        p ∈ t._heap ∧ ∃ node, t.nodes.lookup p = some node ∧ node.id = id := by
  refine ⟨fun i hi hlen => ?_, fun i p hp => ?_, fun id p => ?_⟩
  · exact UInt32.le_iff_toNat_le.mpr (h.ordered i hi hlen)
  · exact h.seated i (List.getElem?_eq_some_iff.mp hp).1 p hp
  · rw [h.map_iff, timerAt, Option.map_map, Option.map_eq_some_iff]
    rfl

/-- Removing a node removes its timer from the list. -/
theorem timers_perm_of_removed {t' : MinHeapTimer Cb} {p : Addr} {tm : Timer Cb}
    (hnd : t._heap.Nodup) (htm : t.timerAt p = some tm) (hheap : t._heap.Perm (p :: t'._heap))
    (htimer : ∀ q, t'.timerAt q = if q = p then none else t.timerAt q) :
    t.timers.Perm (tm :: t'.timers) := by
  have hp : p ∉ t'._heap := (List.nodup_cons.mp (hheap.nodup_iff.mp hnd)).1
  have hold : t'._heap.filterMap t.timerAt = t'.timers := by
    refine List.filterMap_congr fun q hq => ?_
    rw [htimer, if_neg (ne_of_mem_of_not_mem hq hp)]
  refine (hheap.filterMap t.timerAt).trans (.of_eq ?_)
  rw [List.filterMap_cons, htm, hold]

/-! ## The heap timer implements the registry -/

variable {r : Registry Cb}

/-- One call. -/
theorem Implements.call (h : Implements t r) (alloc : Allocator (TimerNode Cb)) (e : Event Cb)
    (hadd : e.isAdd → r.count + 1 < 2 ^ 31) :
    ∃ t', t.call alloc e = some ((Registry.step r e).1, t') ∧
      Implements t' (Registry.step r e).2 := by
  obtain ⟨hvalid, hcount, h₀, htimers⟩ := h
  cases e with
  | add now expire cb =>
    obtain ⟨hid, hcount', hvalid', hperm⟩ := hvalid.addTimer (hcount ▸ h₀)
      (hcount ▸ hadd rfl) alloc now expire cb
    rw [hcount] at hid hcount' hperm
    refine ⟨_, by rw [MinHeapTimer.call, hid]; rfl, hvalid', hcount', ?_, ?_⟩
    · exact h₀.trans (Int.le_add_one le_rfl)
    · exact hperm.trans (htimers.cons _)
  | del id =>
    obtain ⟨hlive, hdead⟩ := hvalid.delTimer id
    by_cases hid : ∃ tm ∈ t.timers, tm.id = id
    · obtain ⟨tm, hmem, rfl⟩ := hid
      obtain ⟨p, hp, htm⟩ := List.mem_filterMap.mp hmem
      obtain ⟨t', hdel, hvalid', hcount', hheap, htimer⟩ := hlive p tm hp htm rfl
      have hperm := timers_perm_of_removed hvalid.seated.nodup htm hheap htimer
      have hany : (r.timers.any fun x => x.id = tm.id) = true :=
        List.any_eq_true.mpr ⟨tm, htimers.mem_iff.mp hmem, by simp⟩
      have hids := (hperm.map Timer.id).nodup_iff.mp hvalid.nodup_ids
      have hrest : ∀ x ∈ t'.timers, x.id ≠ tm.id := fun x hx heq =>
        (List.nodup_cons.mp hids).1 (heq ▸ List.mem_map_of_mem hx)
      refine ⟨t', ?_, hvalid', hcount'.trans hcount, h₀, ?_⟩
      · rw [MinHeapTimer.call, hdel, Registry.step, hany]
        rfl
      · have hfilter : t'.timers.filter (fun x => decide (x.id ≠ tm.id)) = t'.timers :=
          List.filter_eq_self.mpr (by simpa using hrest)
        have := (htimers.symm.trans hperm).filter fun x => decide (x.id ≠ tm.id)
        rw [List.filter_cons_of_neg (by simp), hfilter] at this
        exact this.symm
    · have hnone : ∀ tm ∈ r.timers, tm.id ≠ id := fun tm hmem heq =>
        hid ⟨tm, htimers.mem_iff.mpr hmem, heq⟩
      have hany : (r.timers.any fun x => x.id = id) = false := by simpa using hnone
      refine ⟨t, ?_, hvalid, hcount, h₀, ?_⟩
      · rw [MinHeapTimer.call, Registry.step, hany, hdead]
        · rfl
        · intro p hp tm htm heq
          exact hid ⟨tm, List.mem_filterMap.mpr ⟨p, hp, htm⟩, heq⟩
      · rw [Registry.step, List.filter_eq_self.mpr (by simpa using hnone)]
        exact htimers

/-- The number of additions in a sequence of calls. -/
def additions (es : List (Event Cb)) : ℕ := es.countP Event.isAdd

/-- A sequence of calls. -/
theorem Implements.calls (h : Implements t r) (alloc : Allocator (TimerNode Cb))
    {es : List (Event Cb)} (hadd : r.count + additions es < 2 ^ 31) :
    ∃ t', t.calls alloc es = some (Machine.outputs Registry.step r es, t') ∧
      Implements t' (Machine.run Registry.step r es) := by
  induction es generalizing t r with
  | nil => exact ⟨t, rfl, h⟩
  | cons e es ih =>
    have hstep : e.isAdd → r.count + 1 < 2 ^ 31 := by
      intro he
      simp only [additions, List.countP_cons, he, if_true, Nat.cast_add, Nat.cast_one] at hadd
      omega
    have hrest : (Registry.step r e).2.count + additions es < 2 ^ 31 := by
      cases e <;>
        simp only [additions, List.countP_cons, Event.isAdd, Registry.step, if_true, Nat.cast_add,
          Nat.cast_one] at hadd ⊢ <;> omega
    obtain ⟨t₁, hcall, h₁⟩ := h.call alloc e hstep
    obtain ⟨t', hcalls, h'⟩ := ih h₁ hrest
    refine ⟨t', ?_, h'⟩
    simp only [MinHeapTimer.calls, hcall, Option.bind_eq_bind, Option.bind_some, hcalls]
    rfl

theorem implements_new : Implements (new : MinHeapTimer Cb) {} where
  valid := valid_new
  count := rfl
  count_nonneg := le_rfl
  timers := .refl _

/-- **The heap timer.** For every allocator and every sequence of `AddTimer` and `DelTimer` calls
with fewer than 2³¹ additions, no call uses a freed node, and afterwards: the heap is a min-heap on
`expire`; every node in it knows its position; the map leads exactly to the nodes in the heap, by
their ids, which are distinct; the replies are those of the registry, and the timers in the heap are
those in it; and `DelTimer` returns `true` for an id exactly when it has a node in the heap, removes
that node and no other, and leaves the timers of the others as they are. -/
theorem minHeapTimer_registry (alloc : Allocator (TimerNode Cb)) (es : List (Event Cb))
    (hadd : additions es < 2 ^ 31) :
    ∃ replies t, calls alloc new es = some (replies, t) ∧
      (∀ i, 0 < i → i < t._heap.length → t.expireAt ((i - 1) / 2) ≤ t.expireAt i) ∧
      (∀ i p, t._heap[i]? = some p → ∃ node, t.nodes.lookup p = some node ∧ node.idx = i) ∧
      (∀ id p, t._map.lookup id = some p ↔
        p ∈ t._heap ∧ ∃ node, t.nodes.lookup p = some node ∧ node.id = id) ∧
      (t.timers.map Timer.id).Nodup ∧
      replies = Machine.outputs Registry.step {} es ∧
      t.timers.Perm (Machine.run Registry.step {} es).timers ∧
      ∀ id,
        (∀ p tm, p ∈ t._heap → t.timerAt p = some tm → tm.id = id →
          ∃ t', t.delTimer id = some (true, t') ∧ t._heap.Perm (p :: t'._heap) ∧
            ∀ q, q ≠ p → t'.timerAt q = t.timerAt q) ∧
        ((∀ p ∈ t._heap, ∀ tm, t.timerAt p = some tm → tm.id ≠ id) →
          t.delTimer id = some (false, t)) := by
  have h₀ : ((({} : Registry Cb).count : ℤ) + (additions es : ℤ)) < 2 ^ 31 := by
    simp only [zero_add]
    exact_mod_cast hadd
  obtain ⟨t, hcalls, h⟩ := implements_new.calls alloc h₀
  obtain ⟨hheap, hidx, hmap⟩ := h.valid.heap_idx_map
  refine ⟨_, t, hcalls, hheap, hidx, hmap, h.valid.nodup_ids, rfl, h.timers, fun id =>
    ⟨fun p tm hp htm hid => ?_, (h.valid.delTimer id).2⟩⟩
  obtain ⟨t', hdel, -, -, hheap, htimer⟩ := (h.valid.delTimer id).1 p tm hp htm hid
  exact ⟨t', hdel, hheap, fun q hq => by rw [htimer, if_neg hq]⟩

/-- Three timers, two of them with the same expiry, of which the first is deleted twice. -/
theorem minHeapTimer_registry_three :
    ∃ replies t, calls (Allocator.above _) (new : MinHeapTimer Unit)
        [.add 5 7 none, .add 5 7 (some ()), .add 5 2 none, .del 1, .del 1] = some (replies, t) ∧
      replies = [.added 1, .added 2, .added 3, .deleted true, .deleted false] ∧
      (t.timers.map Timer.id).Nodup := by
  obtain ⟨replies, t, hcalls, -, -, -, hids, hreplies, -⟩ :=
    minHeapTimer_registry (Allocator.above (TimerNode Unit))
      [.add 5 7 none, .add 5 7 (some ()), .add 5 2 none, .del 1, .del 1] (by decide)
  exact ⟨replies, t, hcalls, hreplies, hids⟩

end CodeTest.MinHeapTimer
