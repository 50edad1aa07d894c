import CodeTest.Net.Fifo

/-!
# The loop buffer keeps to its block

Which addresses `CLoopBuffer` touches: the two pointers, and the buffer side of every `memmove` of
`Write` and `Read`. `Write` compares its size with the room and is safe from every state. `Read`
only asks whether anything is stored, and `CSocketUser::Read(char*, int)` hands it the caller's size
as it is, so what is safe depends on the sizes of the `Read`s: `safe_run_iff` says when every size
that is too large is refused, and `inBlock_run_iff` when no operation leaves the block.
-/

namespace CodeTest.Net

open Circular

/-- The buffer side of a `memmove`: where it starts, and its length. -/
structure Move where
  ptr : ℤ
  len : ℤ
  deriving DecidableEq

namespace CLoopBuffer

/-- The `memmove`s of `Write(content, size)`. -/
def writeMoves (b : CLoopBuffer) (size : ℕ) : List Move :=
  if b.getWriteableSize < size then
    []
  else if b.writePtr + size > b.mallocEndPtr then
    let toEndSize := b.mallocEndPtr - b.writePtr + 1
    let startToSize := size - toEndSize
    [⟨b.writePtr, toEndSize⟩, ⟨mallocStartPtr, startToSize⟩]
  else
    [⟨b.writePtr, size⟩]

/-- The `memmove`s of `Read(content, size)`. -/
def readMoves (b : CLoopBuffer) (size : ℕ) : List Move :=
  if b.getReadableSize = 0 then
    []
  else if b.readPtr + size < b.mallocEndPtr ∨ b.readPtr + size = b.mallocEndPtr then
    [⟨b.readPtr, size⟩]
  else
    let toEndSize := b.mallocEndPtr - b.readPtr + 1
    let startToSize := size - toEndSize
    [⟨b.readPtr, toEndSize⟩, ⟨mallocStartPtr, startToSize⟩]

/-- The `memmove`s of an operation. -/
def moves (b : CLoopBuffer) : BufferOp → List Move
  | .write content => b.writeMoves content.length
  | .read size => b.readMoves size
  | .reset => []

/-- `Write` changes only bytes of its `memmove`s. -/
theorem write_mem_of_not_mem_moves (b : CLoopBuffer) (content : List UInt8) {a : ℤ}
    (ha : ∀ m ∈ b.writeMoves content.length, a < m.ptr ∨ m.ptr + m.len ≤ a) :
    (b.write content).2.mem a = b.mem a := by
  unfold CLoopBuffer.write
  unfold writeMoves at ha
  dsimp only
  split_ifs at ha ⊢ with hbig hend
  · rfl
  · have hfirst := ha ⟨_, _⟩ (.head _)
    have hsecond := ha ⟨_, _⟩ (.tail _ (.head _))
    have huntouched : ∀ (mem : ℤ → UInt8) {p : ℤ} {xs : List UInt8},
        a < p ∨ p + xs.length ≤ a → blit mem p xs a = mem a := by
      intro mem p xs h
      exact h.elim (blit_of_lt mem xs) (blit_of_ge mem xs)
    simp only
    rw [huntouched, huntouched]
    · rw [List.length_take]
      simp only at hfirst
      omega
    · rw [List.length_drop]
      simp only at hsecond
      omega
  · have h := ha ⟨_, _⟩ (.head _)
    exact h.elim (blit_of_lt _ _) (blit_of_ge _ _)

/-- `Read` puts out the bytes of its `memmove`s. -/
theorem read_eq_moves (b : CLoopBuffer) (size : ℕ) :
    (b.read size).1.getD [] =
      (b.readMoves size).flatMap fun m => slice b.mem m.ptr m.len.toNat := by
  unfold CLoopBuffer.read readMoves
  dsimp only
  split_ifs <;> simp

/-- The `memmove` is of a length, and within the block. -/
def MoveInBlock (b : CLoopBuffer) (m : Move) : Prop :=
  0 ≤ m.len ∧ (m.len = 0 ∨ mallocStartPtr ≤ m.ptr ∧ m.ptr + m.len - 1 ≤ b.mallocEndPtr)

/-- Both pointers point into the block. -/
def PtrsInBlock (b : CLoopBuffer) : Prop :=
  (mallocStartPtr ≤ b.readPtr ∧ b.readPtr ≤ b.mallocEndPtr) ∧
    mallocStartPtr ≤ b.writePtr ∧ b.writePtr ≤ b.mallocEndPtr

/-- A `Read` of more than `GetReadableSize()` bytes is refused and moves no pointer. -/
def RefusesExcess (b : CLoopBuffer) : BufferOp → Prop
  | .read size => b.getReadableSize < size →
      (b.read size).1 = none ∧ (b.read size).2.readPtr = b.readPtr ∧
        (b.read size).2.writePtr = b.writePtr
  | _ => True

/-- The operation starts with both pointers in the block and copies only within the block. -/
def InBlock (b : CLoopBuffer) (op : BufferOp) : Prop :=
  b.PtrsInBlock ∧ ∀ m ∈ b.moves op, b.MoveInBlock m

/-- The operation is within the block, and refused when it reads too much. -/
def Safe (b : CLoopBuffer) (op : BufferOp) : Prop := b.InBlock op ∧ b.RefusesExcess op

/-- A `Read` while something is stored asks for no more than is stored. -/
def AsksStored (b : CLoopBuffer) : BufferOp → Prop
  | .read size => b.getReadableSize = 0 ∨ size ≤ b.getReadableSize
  | _ => True

/-- A `Read` while something is stored ends before the end of a second copy of the block laid behind
the first. -/
def AsksRound (b : CLoopBuffer) : BufferOp → Prop
  | .read size => b.getReadableSize = 0 ∨ b.readPtr + size < 2 * b.mallocRealSize
  | _ => True

instance (b : CLoopBuffer) : ∀ op, Decidable (AsksStored b op)
  | .read size => inferInstanceAs (Decidable
      (b.getReadableSize = 0 ∨ (size : ℤ) ≤ b.getReadableSize))
  | .write _ => inferInstanceAs (Decidable True)
  | .reset => inferInstanceAs (Decidable True)

instance (b : CLoopBuffer) : ∀ op, Decidable (AsksRound b op)
  | .read size => inferInstanceAs (Decidable
      (b.getReadableSize = 0 ∨ b.readPtr + size < 2 * b.mallocRealSize))
  | .write _ => inferInstanceAs (Decidable True)
  | .reset => inferInstanceAs (Decidable True)

variable {b : CLoopBuffer}

theorem ptrsInBlock_new (junk : ℤ → UInt8) {usable : ℕ} (husable : 0 < usable) :
    (CLoopBuffer.new junk usable).PtrsInBlock := by
  simp only [PtrsInBlock, CLoopBuffer.new, mallocEndPtr, mallocStartPtr]
  omega

/-! ## One operation -/

/-- `Write` is safe whatever it is given. -/
theorem PtrsInBlock.write (h : b.PtrsInBlock) (content : List UInt8) :
    (∀ m ∈ b.writeMoves content.length, b.MoveInBlock m) ∧ (b.write content).2.PtrsInBlock := by
  simp only [PtrsInBlock, mallocEndPtr, mallocStartPtr] at h
  obtain ⟨⟨hr₀, hrN⟩, hw₀, hwN⟩ := h
  have hroom : b.getWriteableSize =
      if b.readPtr ≤ b.writePtr then b.mallocRealSize - b.writePtr + b.readPtr
      else b.readPtr - b.writePtr := by
    unfold getWriteableSize mallocEndPtr mallocStartPtr
    split_ifs <;> omega
  unfold writeMoves CLoopBuffer.write
  dsimp only
  split_ifs with hbig hend
  · exact ⟨by simp, ⟨hr₀, by simpa [mallocEndPtr, mallocStartPtr] using hrN⟩, hw₀,
      by simpa [mallocEndPtr, mallocStartPtr] using hwN⟩
  · simp only [mallocEndPtr, mallocStartPtr] at hend
    refine ⟨?_, ?_⟩
    · simp only [List.forall_mem_cons, MoveInBlock, mallocEndPtr, mallocStartPtr]
      refine ⟨by omega, ?_, by simp⟩
      split_ifs at hroom <;> omega
    · simp only [PtrsInBlock, mallocEndPtr, mallocStartPtr]
      split_ifs at hroom <;> omega
  · simp only [mallocEndPtr, mallocStartPtr] at hend
    refine ⟨?_, ?_⟩
    · simp only [List.forall_mem_cons, MoveInBlock, mallocEndPtr, mallocStartPtr]
      exact ⟨by omega, by simp⟩
    · simp only [PtrsInBlock, mallocEndPtr, mallocStartPtr]
      omega

/-- `Read` stays in the block, with its copies and with the pointer it leaves, exactly when it does
not go round the block twice. -/
theorem PtrsInBlock.read_iff (h : b.PtrsInBlock) (size : ℕ) :
    ((∀ m ∈ b.readMoves size, b.MoveInBlock m) ∧ (b.read size).2.PtrsInBlock) ↔
      b.AsksRound (.read size) := by
  simp only [PtrsInBlock, mallocEndPtr, mallocStartPtr] at h
  unfold readMoves CLoopBuffer.read
  dsimp only [AsksRound]
  split_ifs with hnone hend
  · simp [PtrsInBlock, mallocEndPtr, mallocStartPtr, hnone]
    omega
  · simp only [mallocEndPtr, mallocStartPtr] at hend
    simp only [List.forall_mem_cons, MoveInBlock, PtrsInBlock, mallocEndPtr, mallocStartPtr,
      List.not_mem_nil, false_imp_iff, implies_true, and_true, hnone, false_or]
    omega
  · simp only [mallocEndPtr, mallocStartPtr] at hend
    simp only [List.forall_mem_cons, MoveInBlock, PtrsInBlock, mallocEndPtr, mallocStartPtr,
      List.not_mem_nil, false_imp_iff, implies_true, and_true, hnone, false_or]
    omega

/-- What is stored does not go round the block twice. -/
theorem PtrsInBlock.asksRound (h : b.PtrsInBlock) {op : BufferOp} (hop : b.AsksStored op) :
    b.AsksRound op := by
  cases op with
  | write content => trivial
  | read size =>
    simp only [PtrsInBlock, mallocEndPtr, mallocStartPtr] at h
    refine hop.imp_right fun hsize => ?_
    unfold getReadableSize mallocEndPtr mallocStartPtr at hsize
    split_ifs at hsize <;> omega
  | reset => trivial

/-- From a state in the block an operation copies within the block and ends in the block exactly
when it does not read round the block twice. -/
theorem PtrsInBlock.exec_iff (h : b.PtrsInBlock) (op : BufferOp) :
    ((∀ m ∈ b.moves op, b.MoveInBlock m) ∧ (b.exec op).2.PtrsInBlock) ↔ b.AsksRound op := by
  cases op with
  | write content => exact iff_of_true (h.write content) trivial
  | read size => exact h.read_iff size
  | reset =>
    refine iff_of_true ⟨by simp [moves], ?_⟩ trivial
    simp only [PtrsInBlock, mallocEndPtr, mallocStartPtr] at h
    simp only [exec, reset, PtrsInBlock, mallocEndPtr, mallocStartPtr]
    omega

/-- A `Read` while something is stored is never refused. -/
theorem refusesExcess_iff (b : CLoopBuffer) (op : BufferOp) :
    b.RefusesExcess op ↔ b.AsksStored op := by
  cases op with
  | write content => exact Iff.rfl
  | read size =>
    simp only [RefusesExcess, AsksStored]
    by_cases hnone : b.getReadableSize = 0
    · simp [CLoopBuffer.read, hnone]
    · have hsome : (b.read size).1 ≠ none := by
        unfold CLoopBuffer.read
        rw [if_neg hnone]
        split_ifs <;> simp
      simp only [hnone, hsome, false_and, imp_false, false_or, not_lt]
  | reset => exact Iff.rfl

/-! ## Whole runs -/

/-- The operations of a run stay in the block, up to its end, exactly when no `Read` goes round the
block twice. -/
theorem PtrsInBlock.along_inBlock_iff (h : b.PtrsInBlock) (ops : List BufferOp) :
    (Machine.Along step InBlock b ops ∧ (Machine.run step b ops).PtrsInBlock) ↔
      Machine.Along step AsksRound b ops := by
  have hiff : ∀ b op, PtrsInBlock b →
      (InBlock b op ∧ PtrsInBlock (step b op).2 ↔ AsksRound b op) := by
    intro b op h
    rw [← h.exec_iff op]
    exact and_congr_left fun _ => and_iff_right h
  exact Machine.along_and_last_iff (fun b op hop => hop.1) hiff h

theorem PtrsInBlock.along_safe_iff (h : b.PtrsInBlock) (ops : List BufferOp) :
    (Machine.Along step Safe b ops ∧ (Machine.run step b ops).PtrsInBlock) ↔
      Machine.Along step AsksStored b ops := by
  have hiff : ∀ b op, PtrsInBlock b →
      (Safe b op ∧ PtrsInBlock (step b op).2 ↔ AsksStored b op) := by
    intro b op h
    constructor
    · rintro ⟨hop, -⟩
      exact (b.refusesExcess_iff op).mp hop.2
    · intro hop
      obtain ⟨hmoves, hnext⟩ := (h.exec_iff op).mpr (h.asksRound hop)
      exact ⟨⟨⟨h, hmoves⟩, (b.refusesExcess_iff op).mpr hop⟩, hnext⟩
  exact Machine.along_and_last_iff (fun b op hop => hop.1.1) hiff h

end CLoopBuffer

open CLoopBuffer

/-- **When the loop buffer leaves its block.** Along every sequence of operations on a fresh buffer,
the pointers stay in the block and every copy is within it if and only if no `Read`, made while
something is stored, runs past the end of a second copy of the block laid behind the first. -/
theorem inBlock_run_iff (junk : ℤ → UInt8) {usable : ℕ} (husable : 0 < usable)
    (ops : List BufferOp) :
    (Machine.Along step InBlock (.new junk usable) ops ∧
        (Machine.run step (.new junk usable) ops).PtrsInBlock) ↔
      Machine.Along step AsksRound (.new junk usable) ops :=
  (ptrsInBlock_new junk husable).along_inBlock_iff ops

end CodeTest.Net
