import CodeTest.CppNet.QueueFifo
import CodeTest.Foundations.Occurrences

/-!
# Looking for a string in the queue

`FindStr` of a block and of the queue, and `ReadUntil` with a string. A string is found where one
piece of memory holds it, and then `ReadUntil` hands out what is stored up to its end. Where it lies
across the end of the memory or across two blocks it is not found. When no piece holds it, `FindStr`
of the queue does not return 0 but the length of what is before the block that is written next, and
`ReadUntil` hands this out.
-/

namespace CodeTest.CppNet

open Circular

namespace BufferBlock

/-- The loop of `_FindStrInMem`, from `buff` on, with a bound on its turns: the place of the
string. -/
def findLoop (buffer ch : List UInt8) : ℕ → ℕ → ℕ → Option ℕ
  | 0, _, _ => none
  | fuel + 1, buff, finded =>
    match ((buffer.drop buff).take (buffer.length - finded)).idxOf? (ch.headD 0) with
    | none => none
    | some k =>
      let find := buff + k
      if buffer.length < find + ch.length then none
      else if (buffer.drop find).take ch.length = ch then some find
      else
        let finded := finded + (find - buff) + 1
        if buffer.length - finded < ch.length then none
        else findLoop buffer ch fuel (find + 1) finded

/-- `_FindStrInMem`. -/
def findStrInMem (buffer ch : List UInt8) : Option ℕ :=
  findLoop buffer ch (buffer.length + 1) 0 0

/-- `FindStr`. -/
def findStr (b : BufferBlock) (s : List UInt8) : ℕ :=
  if b.writePt > b.readPt then
    match findStrInMem (slice b.mem b.readPt (b.writePt - b.readPt).toNat) s with
    | some find => find + s.length
    | none => 0
  else if b.writePt < b.readPt ∨ b.canRead = true then
    match findStrInMem (slice b.mem b.readPt (b.bufferEnd - b.readPt).toNat) s with
    | some find => find + s.length
    | none =>
      match findStrInMem (slice b.mem bufferStart (b.writePt - bufferStart).toNat) s with
      | some find => find + s.length + (b.bufferEnd - b.readPt).toNat
      | none => 0
  else 0

/-! ## A piece of memory -/

variable {buffer ch : List UInt8} {b : BufferBlock} {s : List UInt8}

theorem firstCut_append_of_notMem {c : UInt8} {front l : List UInt8} (hc : c ∉ front)
    (d : List UInt8) :
    firstCut (c :: d) (front ++ l) =
      (firstCut (c :: d) l).map fun cut => (front ++ cut.1, cut.2) := by
  induction front with
  | nil => exact Option.map_id'.symm
  | cons a front ih =>
    obtain ⟨hne, hfront⟩ := List.ne_and_not_mem_of_not_mem_cons hc
    have hnot : ¬ c :: d <+: a :: (front ++ l) := fun hpre =>
      hne (List.cons_prefix_cons.mp hpre).1
    rw [List.cons_append, firstCut, if_neg hnot, ih hfront, Option.map_map]
    rfl

theorem exists_of_idxOf? {c : UInt8} {l : List UInt8} {k : ℕ} (h : l.idxOf? c = some k) :
    ∃ front post, l = front ++ c :: post ∧ front.length = k ∧ c ∉ front := by
  induction l generalizing k with
  | nil => cases h
  | cons a l ih =>
    rw [List.idxOf?_cons] at h
    by_cases ha : a = c
    · rw [if_pos (beq_iff_eq.mpr ha)] at h
      cases h
      exact ⟨[], l, by rw [ha]; rfl, rfl, List.not_mem_nil⟩
    · rw [if_neg (beq_iff_eq.not.mpr ha)] at h
      obtain ⟨j, hj, rfl⟩ := Option.map_eq_some_iff.mp h
      obtain ⟨front, post, rfl, rfl, hnot⟩ := ih hj
      exact ⟨a :: front, post, rfl, rfl,
        List.not_mem_cons_of_ne_of_not_mem (fun heq => ha heq.symm) hnot⟩

theorem firstCut_of_length_lt {d l : List UInt8} (h : l.length < d.length) :
    firstCut d l = none :=
  firstCut_eq_none_iff.mpr fun hin => absurd hin.length_le (Nat.not_le.mpr h)

/-- `_FindStrInMem` finds the first occurrence. -/
theorem findLoop_eq {c : UInt8} {d : List UInt8} {fuel p : ℕ} (hp : p ≤ buffer.length)
    (hfuel : buffer.length < p + fuel) :
    findLoop buffer (c :: d) fuel p p =
      (firstCut (c :: d) (buffer.drop p)).map fun cut => p + cut.1.length := by
  induction fuel generalizing p with
  | zero => omega
  | succ fuel ih =>
    have hall : (buffer.drop p).take (buffer.length - p) = buffer.drop p :=
      List.take_of_length_le (List.length_drop).le
    rw [findLoop, hall, List.headD_cons]
    cases hidx : (buffer.drop p).idxOf? c with
    | none =>
      have hnot : c ∉ buffer.drop p := List.idxOf?_eq_none_iff.mp hidx
      have hcut : firstCut (c :: d) (buffer.drop p) = none :=
        firstCut_eq_none_iff.mpr fun hin => hnot (hin.subset List.mem_cons_self)
      rw [hcut]
      rfl
    | some k =>
      obtain ⟨front, post, hsplit, rfl, hnot⟩ := exists_of_idxOf? hidx
      have hlen : buffer.length - p = front.length + (post.length + 1) := by
        rw [← List.length_drop, hsplit, List.length_append, List.length_cons]
      have hdrop : buffer.drop (p + front.length) = c :: post := by
        rw [← List.drop_drop, hsplit, List.drop_left]
      have hpost : buffer.drop (p + front.length + 1) = post := by
        rw [← List.drop_drop, hdrop, List.drop_one, List.tail_cons]
      rw [hsplit, firstCut_append_of_notMem hnot]
      simp only [hdrop, List.length_cons]
      by_cases hend : buffer.length < p + front.length + (d.length + 1)
      · have hcut : firstCut (c :: d) (c :: post) = none :=
          firstCut_of_length_lt (by rw [List.length_cons, List.length_cons]; omega)
        rw [if_pos hend, hcut]
        rfl
      rw [if_neg hend]
      by_cases hpre : c :: d <+: c :: post
      · have htake : (c :: post).take (d.length + 1) = c :: d :=
          (List.prefix_iff_eq_take.mp hpre).symm
        rw [if_pos htake, firstCut, if_pos hpre, Option.map_some, Option.map_some, List.append_nil]
      · have htake : ¬ (c :: post).take (d.length + 1) = c :: d := fun heq =>
          hpre (List.prefix_iff_eq_take.mpr heq.symm)
        have hnext : p + (p + front.length - p) + 1 = p + front.length + 1 := by omega
        rw [if_neg htake, hnext, firstCut, if_neg hpre]
        by_cases hshort : buffer.length - (p + front.length + 1) < d.length + 1
        · have hcut : firstCut (c :: d) post = none :=
            firstCut_of_length_lt (by rw [List.length_cons]; omega)
          rw [if_pos hshort, hcut]
          rfl
        · rw [if_neg hshort, ih (by omega) (by omega), hpost, Option.map_map, Option.map_map]
          refine congrArg (Option.map · _) ?_
          funext cut
          simp only [Function.comp_apply, List.length_append, List.length_cons]
          omega

theorem findStrInMem_eq (hs : s ≠ []) (buffer : List UInt8) :
    findStrInMem buffer s = (firstCut s buffer).map fun cut => cut.1.length := by
  obtain ⟨c, d, rfl⟩ := List.exists_cons_of_ne_nil hs
  rw [findStrInMem, findLoop_eq (Nat.zero_le _) (by omega), List.drop_zero]
  simp only [Nat.zero_add]

/-! ## A block -/

/-- The two pieces of memory in which the block stores its bytes. -/
def firstPiece (b : BufferBlock) : List UInt8 :=
  slice b.mem b.getUseMemoryBlock.1.base b.getUseMemoryBlock.1.len

def secondPiece (b : BufferBlock) : List UInt8 :=
  slice b.mem b.getUseMemoryBlock.2.base b.getUseMemoryBlock.2.len

/-- One of the pieces of the block holds the string. -/
def HasPiece (b : BufferBlock) (s : List UInt8) : Prop :=
  s <:+: b.firstPiece ∨ s <:+: b.secondPiece

theorem Valid.append_pieces (h : b.Valid) : b.firstPiece ++ b.secondPiece = b.stored :=
  h.getUseMemoryBlock

/-- `FindStr` looks through the pieces. -/
theorem findStr_eq (hs : s ≠ []) (b : BufferBlock) :
    b.findStr s =
      match firstCut s b.firstPiece with
      | some cut => cut.1.length + s.length
      | none =>
        match firstCut s b.secondPiece with
        | some cut => cut.1.length + s.length + b.firstPiece.length
        | none => 0 := by
  have hnil : firstCut s [] = none := by
    refine firstCut_eq_none_iff.mpr fun hin => hs (List.infix_nil.mp hin)
  have hslice : slice b.mem 0 0 = [] := rfl
  unfold findStr firstPiece secondPiece getUseMemoryBlock
  simp only [findStrInMem_eq hs]
  by_cases hlt : b.writePt > b.readPt
  · have hge : ¬ b.readPt ≥ b.writePt := not_le.mpr hlt
    simp only [if_pos hlt, if_neg hge, hslice, hnil]
    cases firstCut s (slice b.mem b.readPt (b.writePt - b.readPt).toNat) <;> rfl
  · have hge : b.readPt ≥ b.writePt := not_lt.mp hlt
    by_cases hempty : b.canRead = false ∧ b.writePt = b.readPt
    · have hnone : ¬ (b.writePt < b.readPt ∨ b.canRead = true) := by
        rw [hempty.1, hempty.2]
        simp
      simp only [if_neg hlt, if_neg hnone, if_pos hge, if_pos hempty, hslice, hnil]
    · have hsome : b.writePt < b.readPt ∨ b.canRead = true := by
        by_contra hnot
        obtain ⟨hle, hcan⟩ := not_or.mp hnot
        exact hempty ⟨Bool.eq_false_iff.mpr hcan, le_antisymm hge (not_lt.mp hle)⟩
      simp only [if_neg hlt, if_pos hsome, if_pos hge, if_neg hempty, length_slice]
      cases firstCut s (slice b.mem b.readPt (b.bufferEnd - b.readPt).toNat) with
      | some cut => rfl
      | none =>
        cases firstCut s (slice b.mem bufferStart (b.writePt - bufferStart).toNat) <;> rfl

theorem HasPiece.findStr (hs : s ≠ []) (h : b.Valid) (hin : b.HasPiece s) :
    0 < b.findStr s ∧ b.findStr s ≤ b.stored.length ∧
      ∃ u, b.stored.take (b.findStr s) = u ++ s := by
  have hpos : 0 < s.length := List.length_pos_iff.mpr hs
  have hfound : ∃ u r, b.stored = u ++ s ++ r ∧ b.findStr s = u.length + s.length := by
    rw [findStr_eq hs, ← h.append_pieces]
    cases hfirst : firstCut s b.firstPiece with
    | some cut =>
      refine ⟨cut.1, cut.2 ++ b.secondPiece, ?_, rfl⟩
      rw [eq_of_firstCut hfirst, List.append_assoc]
    | none =>
      cases hsecond : firstCut s b.secondPiece with
      | some cut =>
        refine ⟨b.firstPiece ++ cut.1, cut.2, ?_, ?_⟩
        · rw [eq_of_firstCut hsecond]
          simp only [List.append_assoc]
        · rw [List.length_append]
          simp only
          omega
      | none =>
        rcases hin with hin | hin
        · exact absurd hin (firstCut_eq_none_iff.mp hfirst)
        · exact absurd hin (firstCut_eq_none_iff.mp hsecond)
  obtain ⟨u, r, hstored, hlen⟩ := hfound
  rw [hlen, hstored]
  refine ⟨by omega, ?_, u, List.take_left' (List.length_append)⟩
  rw [List.length_append, List.length_append]
  exact Nat.le_add_right _ _

theorem findStr_eq_zero (hs : s ≠ []) (hnot : ¬ b.HasPiece s) : b.findStr s = 0 := by
  rw [findStr_eq hs, firstCut_eq_none_iff.mpr fun hin => hnot (.inl hin),
    firstCut_eq_none_iff.mpr fun hin => hnot (.inr hin)]

end BufferBlock

namespace BufferQueue

/-- The loop of `FindStr`: over the blocks from `temp` on, with the position of `_buffer_write`
counted from there. -/
def findStrLoop (s : List UInt8) : List BufferBlock → Option ℕ → ℕ
  | [], _ => 0
  | temp :: rest, write =>
    let canRead := temp.findStr s
    if 0 < canRead then canRead
    else if write = some 0 then 0
    else temp.getCanReadLength + findStrLoop s rest (write.map (· - 1))

/-- `FindStr`, whose count is a 32-bit word. -/
def findStr (q : BufferQueue) (s : List UInt8) : ℕ :=
  if q.bufferList.length = 0 then 0
  else (UInt32.ofNat (findStrLoop s q.bufferList q.bufferWrite)).toNat

/-- `ReadUntil(res, len, find, find_len, need_len)`: the bytes, what is stored in `need_len`, and
the queue. -/
def readUntilStr (q : BufferQueue) (len : ℕ) (find : List UInt8) :
    List UInt8 × Option ℕ × BufferQueue :=
  let size := q.findStr find
  if size ≠ 0 then
    if size ≤ len then
      let (bytes, q) := q.read size
      (bytes, none, q)
    else ([], some size, q)
  else ([], none, q)

end BufferQueue

/-! ## The queue -/

open BufferQueue

variable {N : ℕ} {list : List BufferBlock} {write : Option ℕ} {s : List UInt8}

/-- A string that a piece of memory holds is found, and what is stored up to its end ends with it.
-/
theorem findStrLoop_found (h : Shape N list write) (hs : s ≠ [])
    (hin : ∃ b ∈ list, b.HasPiece s) :
    0 < findStrLoop s list write ∧ findStrLoop s list write ≤ (storedList list).length ∧
      ∃ u, (storedList list).take (findStrLoop s list write) = u ++ s := by
  induction list generalizing write with
  | nil =>
    obtain ⟨b, hb, -⟩ := hin
    cases hb
  | cons b rest ih =>
    obtain ⟨hb, -⟩ := h.pool b List.mem_cons_self
    rw [findStrLoop, storedList_cons]
    by_cases hhead : b.HasPiece s
    · obtain ⟨hpos, hle, u, hu⟩ := hhead.findStr hs hb
      simp only [if_pos hpos, List.length_append]
      refine ⟨hpos, hle.trans (Nat.le_add_right _ _), u, ?_⟩
      rw [List.take_append_of_le_length hle, hu]
    · obtain ⟨c, hc, hpiece⟩ := hin
      have hrest : c ∈ rest := (List.mem_cons.mp hc).resolve_left fun heq => hhead (heq ▸ hpiece)
      have hzero := BufferBlock.findStr_eq_zero hs hhead
      simp only [hzero, lt_irrefl, if_false]
      have hwrite : write ≠ some 0 := by
        rintro rfl
        have hdrained := List.flatMap_eq_nil_iff.mp h.drained_of_zero c hrest
        obtain ⟨hpos, hle, -⟩ := hpiece.findStr hs (h.pool c hc).1
        rw [hdrained, List.length_nil] at hle
        omega
      rw [if_neg hwrite]
      cases rest with
      | nil => cases hrest
      | cons next rest =>
        obtain ⟨hpos, hle, u, hu⟩ := ih h.pop ⟨c, hrest, hpiece⟩
        rw [← BufferBlock.length_stored, List.length_append]
        refine ⟨by omega, Nat.add_le_add_left hle _, b.stored ++ u, ?_⟩
        rw [List.take_length_add_append, hu, List.append_assoc]

/-- When no piece of memory holds the string, `FindStr` goes on to the block that is written next
and counts what is before it. -/
theorem findStrLoop_missing (h : Shape N list write) (hs : s ≠ [])
    (hnot : ∀ b ∈ list, ¬ b.HasPiece s) :
    findStrLoop s list write = (storedList (list.take (write.getD 0))).length ∧
      storedList (list.take (write.getD 0)) <+: storedList list := by
  refine ⟨?_, storedList (list.drop (write.getD 0)), ?_⟩
  swap
  · rw [← storedList_append, List.take_append_drop]
  rcases h with ⟨rfl, rfl⟩ | ⟨front, w, back, rfl, rfl, -⟩
  · rfl
  rw [Option.getD_some, List.take_left]
  induction front with
  | nil =>
    have hzero := BufferBlock.findStr_eq_zero hs (hnot w List.mem_cons_self)
    rw [List.nil_append, findStrLoop]
    simp only [hzero, lt_irrefl, if_false]
    rfl
  | cons b front ih =>
    have hzero := BufferBlock.findStr_eq_zero hs (hnot b List.mem_cons_self)
    have hsome : (some (b :: front).length : Option ℕ) ≠ some 0 := by
      rw [List.length_cons]
      exact fun heq => Nat.succ_ne_zero _ (Option.some_inj.mp heq)
    have hrest := ih fun c hc => hnot c (List.mem_cons_of_mem b hc)
    rw [List.cons_append, findStrLoop]
    simp only [hzero, lt_irrefl, if_false]
    rw [if_neg hsome, Option.map_some, List.length_cons, Nat.add_sub_cancel, hrest,
      storedList_cons, List.length_append, BufferBlock.length_stored]

/-- What is stored before the block that is written next. -/
def BufferQueue.beforeWrite (q : BufferQueue) : List UInt8 :=
  storedList (q.bufferList.take (q.bufferWrite.getD 0))

/-- A run of the queue ends with a queue that stores something. -/
theorem exists_queueHolds {N : ℕ} (hN : 0 < N) (blockAlloter : ℕ → ℤ → UInt8)
    {ops : List QueueOp}
    (hfill : Machine.Along BufferQueue.step FillsVector (BufferQueue.new N blockAlloter) ops) :
    ∃ s, QueueHolds (Machine.run BufferQueue.step (BufferQueue.new N blockAlloter) ops) s := by
  have hkeep : ∀ q op, (∃ s, QueueHolds q s) → FillsVector q op →
      ∃ s, QueueHolds (BufferQueue.step q op).2 s := by
    rintro q op ⟨s, hs⟩ hop
    exact ⟨_, (hs.exec hop).2⟩
  exact Machine.run_invariant hkeep ⟨[], QueueHolds.new hN blockAlloter⟩ hfill

/-- What is stored is fewer bytes than `FindStr` can count, so the count is not cut. -/
theorem findStr_eq_loop {q : BufferQueue}
    (hlen : findStrLoop s q.bufferList q.bufferWrite < 2 ^ 32) :
    q.findStr s = findStrLoop s q.bufferList q.bufferWrite := by
  unfold BufferQueue.findStr
  split_ifs with hnil
  · rw [List.eq_nil_of_length_eq_zero hnil, findStrLoop]
  · rw [UInt32.toNat_ofNat', Nat.mod_eq_of_lt hlen]

/-- What `ReadUntil` hands out when what `FindStr` counts fits. -/
theorem readUntilStr_fst {q : BufferQueue} (hq : QueueStores q s) {find : List UInt8} {len : ℕ}
    (hle : q.findStr find ≤ len) : (q.readUntilStr len find).1 = s.take (q.findStr find) := by
  rw [readUntilStr]
  simp only
  split_ifs with hzero
  · exact (hq.read _).1
  · rw [not_not.mp hzero, List.take_zero]

/-- **`ReadUntil` with a string.** Let fewer than `2 ^ 32` bytes be stored after a sequence of
operations in range. If a piece of memory holds the string, `FindStr` returns the length of what is
stored up to its end; if none does, `FindStr` returns the length of what is stored before the block
that is written next. `ReadUntil` hands out so much, when it fits. -/
theorem readUntil_searched {N : ℕ} {ops : List QueueOp} (hrange : QueueRange N ops)
    (blockAlloter : ℕ → ℤ → UInt8)
    (hfill : Machine.Along BufferQueue.step FillsVector (BufferQueue.new N blockAlloter) ops)
    {find : List UInt8} (hfind : find ≠ []) (len : ℕ) :
    let q := Machine.run BufferQueue.step (BufferQueue.new N blockAlloter) ops
    (storedList q.bufferList).length < 2 ^ 32 →
      ((∃ b ∈ q.bufferList, b.HasPiece find) → ∃ u r,
        storedList q.bufferList = u ++ find ++ r ∧ q.findStr find = (u ++ find).length ∧
          (q.findStr find ≤ len → (q.readUntilStr len find).1 = u ++ find)) ∧
      ((∀ b ∈ q.bufferList, ¬ b.HasPiece find) →
        q.findStr find = q.beforeWrite.length ∧
          (q.findStr find ≤ len → (q.readUntilStr len find).1 = q.beforeWrite)) := by
  intro q hlen
  obtain ⟨s, hq⟩ : ∃ s, QueueHolds q s := exists_queueHolds hrange.pos blockAlloter hfill
  rw [hq.stored] at hlen ⊢
  refine ⟨fun hin => ?_, fun hnot => ?_⟩
  · obtain ⟨hpos, hle, u, hu⟩ := findStrLoop_found hq.shape hfind hin
    rw [hq.stored] at hle hu
    have hsize := findStr_eq_loop (hle.trans_lt hlen)
    refine ⟨u, s.drop (q.findStr find), ?_, ?_, fun hfits => ?_⟩
    · rw [← hu, hsize, List.take_append_drop]
    · rw [← hu, hsize, List.length_take, min_eq_left hle]
    · rw [readUntilStr_fst hq.toQueueStores hfits, hsize, hu]
  · obtain ⟨hloop, rest, hrest⟩ := findStrLoop_missing hq.shape hfind hnot
    rw [hq.stored] at hrest
    have hle : q.beforeWrite.length ≤ s.length := by
      rw [← hrest, List.length_append]
      exact Nat.le_add_right _ _
    have hsize : q.findStr find = q.beforeWrite.length := by
      rw [findStr_eq_loop (hloop.trans_lt (hle.trans_lt hlen)), hloop]
      rfl
    refine ⟨hsize, fun hfits => ?_⟩
    rw [readUntilStr_fst hq.toQueueStores hfits, hsize, ← hrest]
    exact List.take_left

/-- Blocks of four bytes, and a string in the second of two. -/
theorem readUntil_searched_four :
    let q := Machine.run BufferQueue.step (BufferQueue.new 4 fun _ _ => 0)
      [.write [1, 2, 3, 4, 5, 6]]
    (storedList q.bufferList).length < 2 ^ 32 ∧
      ((∃ b ∈ q.bufferList, b.HasPiece [5, 6]) → ∃ u r,
        storedList q.bufferList = u ++ [5, 6] ++ r ∧ q.findStr [5, 6] = (u ++ [5, 6]).length ∧
          (q.findStr [5, 6] ≤ 10 → (q.readUntilStr 10 [5, 6]).1 = u ++ [5, 6])) ∧
      ((∀ b ∈ q.bufferList, ¬ b.HasPiece [5, 6]) →
        q.findStr [5, 6] = q.beforeWrite.length ∧
          (q.findStr [5, 6] ≤ 10 → (q.readUntilStr 10 [5, 6]).1 = q.beforeWrite)) :=
  ⟨by decide +kernel, readUntil_searched ⟨by decide, by decide, by decide⟩ (fun _ _ => 0)
    (by decide +kernel) (List.cons_ne_nil _ _) 10 (by decide +kernel)⟩

/-- A string across two blocks is not found, and what is before the second is handed out. -/
example : ((Machine.run BufferQueue.step (BufferQueue.new 4 fun _ _ => 0)
    [.write [1, 2, 3, 4, 5, 6]]).readUntilStr 10 [4, 5]).1 = [1, 2, 3, 4] := by
  decide +kernel

end CodeTest.CppNet
