import CodeTest.Foundations.Machine
import CodeTest.Net.Stored

/-!
# The loop buffer as a byte queue

The queue of capacity `N` that `CLoopBuffer` is meant to be is the machine `Fifo.step N` on lists of
bytes. A client of either sees the result of `Write`, the bytes put out by `Read`, and the two sizes
after every operation. `outputs_eq_fifo_iff` says for which sequences of operations the buffer and
the queue look the same: exactly those in which no `Write` fills the buffer to its last byte. After
such a `Write` the two pointers are equal again, and the buffer takes itself for empty.
-/

namespace CodeTest.Net

/-- The operations of a client. `Read` is given the size asked for. -/
inductive BufferOp
  | write (content : List UInt8)
  | read (size : ℕ)
  | reset
  deriving DecidableEq

/-- What an operation hands back: the result of `Write`, or the bytes put out by `Read`. -/
inductive BufferResult
  | written (ok : Bool)
  | got (bytes : List UInt8)
  | done
  deriving DecidableEq

/-- What a client sees of an operation: its result, and the two sizes after it. -/
structure BufferView where
  result : BufferResult
  readable : ℤ
  writeable : ℤ
  deriving DecidableEq

/-- One operation on the buffer. A `Read` that returns false puts out nothing. -/
def CLoopBuffer.exec (b : CLoopBuffer) : BufferOp → BufferResult × CLoopBuffer
  | .write content => (.written (b.write content).1, (b.write content).2)
  | .read size => (.got ((b.read size).1.getD []), (b.read size).2)
  | .reset => (.done, b.reset)

/-- The buffer as a client sees it. -/
def CLoopBuffer.step : Machine CLoopBuffer BufferOp BufferView := fun b op =>
  let b' := (b.exec op).2
  (⟨(b.exec op).1, b'.getReadableSize, b'.getWriteableSize⟩, b')

namespace Fifo

/-- One operation on a queue of capacity `N`. -/
def exec (N : ℕ) (q : List UInt8) : BufferOp → BufferResult × List UInt8
  | .write content =>
    if content.length ≤ N - q.length then (.written true, q ++ content) else (.written false, q)
  | .read size => (.got (q.take size), q.drop size)
  | .reset => (.done, [])

/-- A queue of capacity `N` as a client sees it. -/
def step (N : ℕ) : Machine (List UInt8) BufferOp BufferView := fun q op =>
  let q' := (exec N q op).2
  (⟨(exec N q op).1, q'.length, N - q'.length⟩, q')

end Fifo

/-- Every `Read` asks for at most `GetReadableSize()` bytes. -/
def ReadsStored (b : CLoopBuffer) : BufferOp → Prop
  | .read size => size ≤ b.getReadableSize
  | _ => True

/-- No `Write` of at least one byte asks for exactly `GetWriteableSize()` bytes. -/
def LeavesRoom (b : CLoopBuffer) : BufferOp → Prop
  | .write content => content = [] ∨ content.length ≠ b.getWriteableSize
  | _ => True

instance (b : CLoopBuffer) : ∀ op, Decidable (ReadsStored b op)
  | .read size => inferInstanceAs (Decidable ((size : ℤ) ≤ b.getReadableSize))
  | .write _ => inferInstanceAs (Decidable True)
  | .reset => inferInstanceAs (Decidable True)

instance (b : CLoopBuffer) : ∀ op, Decidable (LeavesRoom b op)
  | .write content =>
    inferInstanceAs (Decidable (content = [] ∨ (content.length : ℤ) ≠ b.getWriteableSize))
  | .read _ => inferInstanceAs (Decidable True)
  | .reset => inferInstanceAs (Decidable True)

/-- The buffer stores what is in the queue, which is of the buffer's capacity. -/
def Represents (N : ℕ) (b : CLoopBuffer) (q : List UInt8) : Prop :=
  Holds b q ∧ b.mallocRealSize = N

variable {N : ℕ} {b : CLoopBuffer} {q : List UInt8}

/-- An operation that fills neither side keeps the buffer and the queue together. -/
theorem Represents.exec (h : Represents N b q) {op : BufferOp} (hread : ReadsStored b op)
    (hroom : LeavesRoom b op) :
    (b.exec op).1 = (Fifo.exec N q op).1 ∧ Represents N (b.exec op).2 (Fifo.exec N q op).2 := by
  obtain ⟨h, rfl⟩ := h
  have hlt := h.room
  cases op with
  | write content =>
    by_cases hfit : q.length + content.length ≤ b.mallocRealSize
    · have hne : q.length + content.length ≠ b.mallocRealSize := by
        intro hfull
        rcases hroom with rfl | hne
        · simp only [List.length_nil] at hfull
          omega
        · rw [h.getWriteableSize] at hne
          omega
      obtain ⟨hok, hstored, hN⟩ := h.write (lt_of_le_of_ne hfit hne)
      simp only [CLoopBuffer.exec, Fifo.exec]
      rw [if_pos (by omega), hok]
      exact ⟨rfl, hstored, hN⟩
    · simp only [CLoopBuffer.exec, Fifo.exec, h.write_refused (not_le.mp hfit)]
      rw [if_neg (by omega)]
      exact ⟨rfl, h, rfl⟩
  | read size =>
    have hsize : size ≤ q.length := by
      have := h.getReadableSize
      simp only [ReadsStored] at hread
      omega
    obtain ⟨hout, hstored, hN⟩ := h.read hsize
    exact ⟨congrArg BufferResult.got hout, hstored, hN⟩
  | reset => exact ⟨rfl, h.reset, rfl⟩

theorem Represents.step (h : Represents N b q) {op : BufferOp} (hread : ReadsStored b op)
    (hroom : LeavesRoom b op) :
    (b.step op).1 = (Fifo.step N q op).1 ∧ Represents N (b.step op).2 (Fifo.step N q op).2 := by
  obtain ⟨hout, h'⟩ := h.exec hread hroom
  refine ⟨?_, h'⟩
  have hr := h'.1.getReadableSize
  have hw := h'.1.getWriteableSize
  rw [h'.2] at hw
  simp only [CLoopBuffer.step, Fifo.step, hout, hr, hw]

/-- A `Write` that fills the buffer shows: the buffer says that nothing is stored. -/
theorem Represents.step_ne (h : Represents N b q) {op : BufferOp} (hfull : ¬ LeavesRoom b op) :
    (b.step op).1 ≠ (Fifo.step N q op).1 := by
  obtain ⟨h, rfl⟩ := h
  cases op with
  | write content =>
    simp only [LeavesRoom, not_or, not_not, h.getWriteableSize] at hfull
    obtain ⟨hne, hlen⟩ := hfull
    have hpos := List.length_pos_iff.mpr hne
    have hempty := (h.write_full hne (by omega)).2.1
    intro heq
    have hsize := congrArg BufferView.readable heq
    simp only [CLoopBuffer.step, CLoopBuffer.exec, Fifo.step, Fifo.exec, hempty] at hsize
    rw [if_pos (by omega), List.length_append] at hsize
    omega
  | read size => exact absurd trivial hfull
  | reset => exact absurd trivial hfull

/-- From related states, the buffer and the queue look the same along a run exactly when no `Write`
of the run fills the buffer. -/
theorem Represents.outputs_eq_iff (h : Represents N b q) {ops : List BufferOp}
    (hread : Machine.Along CLoopBuffer.step ReadsStored b ops) :
    Machine.outputs CLoopBuffer.step b ops = Machine.outputs (Fifo.step N) q ops ↔
      Machine.Along CLoopBuffer.step LeavesRoom b ops := by
  induction ops generalizing b q with
  | nil => simp
  | cons op ops ih =>
    simp only [Machine.outputs_cons, Machine.along_cons, List.cons.injEq] at hread ⊢
    by_cases hroom : LeavesRoom b op
    · obtain ⟨hout, h'⟩ := h.step hread.1 hroom
      rw [ih h' hread.2]
      exact and_congr_left fun _ => iff_of_true hout hroom
    · exact iff_of_false (fun heq => h.step_ne hroom heq.1) (fun hall => hroom hall.1)

end CodeTest.Net
