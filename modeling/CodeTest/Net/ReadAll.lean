import CodeTest.Net.Bounds
import CodeTest.Net.Receiving
import Mathlib.Data.List.TakeWhile

/-!
# Reading everything

`CSocketUser::ReadAll()` copies all stored bytes into a temporary and makes a `std::string` of its
address, which ends at the first NUL. `readAll_eq_stored_iff` says when the string has the stored
bytes; the buffer is empty afterwards in every case, so the others are lost.

The theorem is about every connection whose receive buffer has been used within its block. Then the
pointers are in the block, and they say what is stored (`ptrsInBlock_iff`). A buffer that is filled
to its last byte has the pointers of an empty one.
-/

namespace CodeTest.Net

open Circular Framing

/-- With the pointers in the block the buffer stores what they say, and only then. -/
theorem ptrsInBlock_iff {b : CLoopBuffer} : b.PtrsInBlock ↔ Holds b b.stored := by
  constructor
  · intro h
    simp only [CLoopBuffer.PtrsInBlock, CLoopBuffer.mallocEndPtr, CLoopBuffer.mallocStartPtr] at h
    obtain ⟨⟨hr₀, hrN⟩, hw₀, hwN⟩ := h
    have hsize : (b.stored.length : ℤ) = if b.readPtr ≤ b.writePtr then b.writePtr - b.readPtr
        else b.mallocRealSize - b.readPtr + b.writePtr := by
      rw [CLoopBuffer.stored, length_window]
      unfold CLoopBuffer.getReadableSize CLoopBuffer.mallocEndPtr CLoopBuffer.mallocStartPtr
      split_ifs <;> omega
    refine ⟨hr₀, by omega, ?_, ?_, ?_⟩
    · split_ifs at hsize <;> omega
    · unfold turn
      split_ifs at hsize ⊢ <;> omega
    · rw [CLoopBuffer.stored, length_window]
  · intro h
    have hr₀ := h.read_nonneg
    have hrN := h.read_lt
    have hq := h.room
    have hw₀ : 0 ≤ b.writePtr := by rw [h.write_eq]; exact turn_nonneg hr₀ (by omega)
    have hwN : b.writePtr < b.mallocRealSize := by rw [h.write_eq]; exact turn_lt hrN (by omega)
    simp only [CLoopBuffer.PtrsInBlock, CLoopBuffer.mallocEndPtr, CLoopBuffer.mallocStartPtr]
    omega

namespace Connection

/-- `CSocketUser::ResetRecvBuffer()`. -/
def resetRecvBuffer (c : Connection) : Connection := c.setRecvBuffer c.user.recvBuffer.reset

/-- The calls that reach the receive buffer of a connection. -/
inductive RecvCall
  | receive (results : List RecvResult) (ctl : ℤ)
  | read (beyond : List UInt8)
  | readAll (beyond : List UInt8)
  | readInto (size : ℕ)
  | reset
  deriving DecidableEq

/-- One call. What it returns plays no part here. -/
def recvCall : Machine Connection RecvCall Unit
  | c, .receive results ctl => ((), (c.receive ctl results).2)
  | c, .read beyond => ((), (c.readString beyond).2)
  | c, .readAll beyond => ((), (c.readAll beyond).2)
  | c, .readInto size => ((), (c.readInto size).2)
  | c, .reset => ((), c.resetRecvBuffer)

/-- The call leaves the block of the receive buffer alone. Only `Read(char*, int)` can ask for
more. -/
def KeepsToBlock (c : Connection) : RecvCall → Prop
  | .readInto size => c.user.recvBuffer.AsksRound (.read size)
  | _ => True

instance (c : Connection) : ∀ call, Decidable (KeepsToBlock c call)
  | .readInto size => inferInstanceAs (Decidable (c.user.recvBuffer.AsksRound (.read size)))
  | .receive _ _ => inferInstanceAs (Decidable True)
  | .read _ => inferInstanceAs (Decidable True)
  | .readAll _ => inferInstanceAs (Decidable True)
  | .reset => inferInstanceAs (Decidable True)

/-- The connection comes, by calls that keep to the block, from one that was accepted. -/
def Used (c : Connection) : Prop :=
  ∃ (fdSocket fdEpoll : ℤ) (junk junk' : ℤ → UInt8) (usable : ℕ) (ctl : ℤ) (calls : List RecvCall),
    0 < usable ∧
      Machine.Along recvCall KeepsToBlock (accept fdSocket fdEpoll junk junk' usable ctl) calls ∧
      Machine.run recvCall (accept fdSocket fdEpoll junk junk' usable ctl) calls = c

variable {c : Connection} {q : List UInt8}

/-! ## The calls -/

theorem receive_ptrsInBlock (h : c.user.recvBuffer.PtrsInBlock) (ctl : ℤ)
    (results : List RecvResult) : (c.receive ctl results).2.user.recvBuffer.PtrsInBlock := by
  induction results generalizing c with
  | nil => exact h
  | cons result results ih =>
    cases result with
    | error => simpa [Connection.receive] using h
    | eof => exact h
    | data chunk =>
      rw [Connection.receive]
      split_ifs with hreg
      · exact ih (h.write (terminate chunk)).2
      · exact h

/-- `ReadAll()` makes a string of what is stored, and takes all of it. -/
theorem holds_readAll (h : Holds c.user.recvBuffer q) (beyond : List UInt8) :
    (c.readAll beyond).1 = (if q = [] then [] else cString q beyond) ∧
      Holds (c.readAll beyond).2.user.recvBuffer [] := by
  obtain ⟨hout, hnext, -⟩ := h.read (Nat.le_refl q.length)
  rw [List.take_length] at hout
  rw [List.drop_length] at hnext
  simp only [Connection.readAll, h.getReadableSize, Int.toNat_natCast]
  refine ⟨?_, hnext⟩
  by_cases hq : q = []
  · have hnone : (c.user.recvBuffer.read q.length).1 = none := by
      unfold CLoopBuffer.read
      rw [if_pos (by rw [h.getReadableSize, hq]; rfl)]
    rw [if_pos hq, hnone]
  · cases hr : (c.user.recvBuffer.read q.length).1 with
    | none =>
      rw [hr] at hout
      exact absurd hout.symm hq
    | some content =>
      rw [hr, Option.getD_some] at hout
      rw [if_neg hq, hout]

/-- One call keeps the pointers in the block. -/
theorem recvCall_ptrsInBlock (c : Connection) (call : RecvCall)
    (h : c.user.recvBuffer.PtrsInBlock) (hcall : KeepsToBlock c call) :
    (recvCall c call).2.user.recvBuffer.PtrsInBlock := by
  have hholds := ptrsInBlock_iff.mp h
  have hptrs : ∀ {b : CLoopBuffer} {q : List UInt8}, Holds b q → b.PtrsInBlock := fun hb =>
    ptrsInBlock_iff.mpr (by rwa [hb.stored])
  cases call with
  | receive results ctl => exact receive_ptrsInBlock h ctl results
  | read beyond => exact hptrs (holds_readString hholds beyond)
  | readAll beyond => exact hptrs (holds_readAll hholds beyond).2
  | readInto size => exact ((h.read_iff size).mpr hcall).2
  | reset => exact hptrs hholds.reset

theorem Used.holds (h : c.Used) : Holds c.user.recvBuffer c.user.recvBuffer.stored := by
  obtain ⟨fdSocket, fdEpoll, junk, junk', usable, ctl, calls, husable, halong, rfl⟩ := h
  refine ptrsInBlock_iff.mp (Machine.run_invariant recvCall_ptrsInBlock ?_ halong)
  simpa [accept] using CLoopBuffer.ptrsInBlock_new junk husable

/-! ## The string -/

/-- A string made from the address of `q` has the bytes `q` if it ends at the first NUL behind
them. -/
theorem cString_eq_self_iff (q beyond : List UInt8) :
    cString q beyond = q ↔ 0 ∉ q ∧ ∀ b ∈ beyond.head?, b = 0 := by
  by_cases hq : 0 ∈ q
  · refine iff_of_false (fun h => ?_) fun h => h.1 hq
    rw [← h, cString] at hq
    simpa using List.mem_takeWhile_imp hq
  · have hbehind : (beyond.takeWhile (· ≠ 0)) = [] ↔ ∀ b ∈ beyond.head?, b = 0 := by
      cases beyond with
      | nil => simp
      | cons b beyond => by_cases hb : b = 0 <;> simp [hb]
    rw [cString, takeWhile_ne_of_not_mem hq, List.append_right_eq_self, hbehind]
    exact (and_iff_right hq).symm

end Connection

open Connection

/-- **When `ReadAll()` loses nothing.** On every connection whose receive buffer was used within its
block, whatever lies in memory behind the temporary: the string that `ReadAll()` returns has exactly
the stored bytes, in order, and the buffer is empty afterwards, if and only if nothing is stored, or
no NUL is stored and the byte behind the temporary is one. -/
theorem readAll_eq_stored_iff {c : Connection} (hc : c.Used) (beyond : List UInt8) :
    ((c.readAll beyond).1 = c.user.recvBuffer.stored ∧
        (c.readAll beyond).2.user.recvBuffer.getReadableSize = 0) ↔
      c.user.recvBuffer.stored = [] ∨
        0 ∉ c.user.recvBuffer.stored ∧ ∀ b ∈ beyond.head?, b = 0 := by
  obtain ⟨hout, hempty⟩ := holds_readAll hc.holds beyond
  rw [hout, hempty.getReadableSize, ← cString_eq_self_iff]
  by_cases hq : c.user.recvBuffer.stored = []
  · simp [hq]
  · simp [hq]

/-- A message was received and read, and the buffer is empty. -/
theorem readAll_eq_stored_read :
    let c := Machine.run recvCall (accept 5 4 (fun _ => 0) (fun _ => 0) 16 0)
      [.receive [.data [104, 105, 0], .error] 0, .read []]
    (c.readAll [7]).1 = c.user.recvBuffer.stored ∧
      (c.readAll [7]).2.user.recvBuffer.getReadableSize = 0 :=
  (readAll_eq_stored_iff
    ⟨5, 4, fun _ => 0, fun _ => 0, 16, 0, _, by decide, by decide, rfl⟩ [7]).mpr
    (.inl (by decide +kernel))

/-- Two messages are stored, and the second one is lost. -/
theorem readAll_loses :
    let c := Machine.run recvCall (accept 5 4 (fun _ => 0) (fun _ => 0) 16 0)
      [.receive [.data [104, 105, 0, 121, 111, 0], .error] 0]
    c.Used ∧ c.user.recvBuffer.stored = [104, 105, 0, 121, 111, 0] ∧ (c.readAll []).1 = [104, 105] ∧
      (c.readAll []).2.user.recvBuffer.getReadableSize = 0 := by
  refine ⟨⟨5, 4, fun _ => 0, fun _ => 0, 16, 0, _, by decide, by decide, rfl⟩, ?_⟩
  decide +kernel

end CodeTest.Net
