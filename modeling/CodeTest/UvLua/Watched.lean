import CodeTest.Foundations.Machine
import CodeTest.UvLua.Holds
import CodeTest.UvLua.TcpServer

/-!
# Idle connections

What the server is for: `Watch` has, for every connection that is watched, the time from which it
counts as idle, and a tick of the timer forgets the connections that are idle for longer than the
timeout. That time is the one of the connection's beginning or of its last data, where only data
count that come while there is a timeout: before `set_timeout` data leave the time as it is. The
server does the same with its heap (`Watches`), in every run; so a tick of the timer shuts down
exactly the connections that it should, the oldest first, and nothing that a run does is without a
result: no node is used after it was freed, and no handle is closed twice.
-/

namespace CodeTest.UvLua

open BinaryHeap

/-- The connections that are watched, with the times from which they count as idle. -/
structure Watch where
  since : Addr → Option ℤ := fun _ => none
  idle_timeout : ℤ := 0

namespace Watch

/-- The connections that have been idle for longer than the timeout. -/
def Idle (w : Watch) (now : ℤ) (conn : Addr) : Prop :=
  0 < w.idle_timeout ∧ ∃ time, w.since conn = some time ∧ time < now - w.idle_timeout

/-- Data that count come in at the time `now`. -/
def heard (w : Watch) (conn : Addr) (now : ℤ) : Watch :=
  { w with since := Function.update w.since conn (some now) }

/-- A connection that is served is watched from its beginning, and again from every time when data
come in while there is a timeout, until it is closed or found idle. Data that come while there is
none do not count, also for a timeout that is set later. -/
def step (w : Watch) : TcpEvent → Watch
  | .connection now conn _ served => if served then w.heard conn now else w
  | .read now conn nread => if 0 < nread ∧ 0 < w.idle_timeout then w.heard conn now else w
  | .shutdown _ => w
  | .closed conn => { w with since := Function.update w.since conn none }
  | .timer now =>
    if 0 < w.idle_timeout then
      { w with
        since := fun conn => (w.since conn).filter fun time => ¬ time < now - w.idle_timeout }
    else w
  | .setTimeout idle_timeout => if 0 < idle_timeout then { w with idle_timeout } else w

/-- The times, as a function. -/
def time (w : Watch) (conn : Addr) : ℤ := (w.since conn).getD 0

@[simp] theorem time_heard (w : Watch) (conn : Addr) (now : ℤ) :
    (w.heard conn now).time = Function.update w.time conn now := by
  funext a
  by_cases ha : a = conn
  · subst ha
    simp [time, heard]
  · simp [time, heard, ha]

end Watch

namespace MinHeap

variable {t t' : Addr → ℤ} {s s' : MinHeap} {l : List Addr} {e : Addr}

theorem keys_congr (h : ∀ a ∈ l, t' a = t a) : keys t' l = keys t l := by
  funext i
  rw [keys, keys]
  cases hi : l[i]? with
  | none => rfl
  | some a => exact h a (List.mem_of_getElem? hi)

/-- Only the timeouts of the nodes of the heap matter. -/
theorem HeapOf.congr (h : HeapOf t s l) (ht : ∀ a ∈ l, t' a = t a) : HeapOf t' s l :=
  { h with
    timeout := fun a ha => (h.timeout a ha).trans (congrArg some (ht a ha).symm)
    ordered := by
      rw [keys_congr ht]
      exact h.ordered }

/-- Memory that changes at nodes outside the heap, which keep or get the position -1. -/
theorem HeapOf.nodes (h : HeapOf t s l) {nodes : Memory MinHeapNode}
    (hin : ∀ a ∈ l, nodes.lookup a = s.nodes.lookup a)
    (hout : ∀ a node, nodes.lookup a = some node → a ∉ l → node.minheap_idx = -1) :
    HeapOf t { s with nodes } l where
  length_le := h.length_le
  nodup := h.nodup
  timeout a ha := by
    rw [MinHeap.timeout]
    exact (congrArg _ (hin a ha)).trans (h.timeout a ha)
  seat i a hi hne := by
    obtain ⟨hentry, hidx⟩ := h.seat i a hi hne
    refine ⟨hentry, ?_⟩
    rw [MinHeap.idx]
    exact (congrArg _ (hin a (List.mem_of_getElem? hi))).trans hidx
  count := h.count
  outside := hout
  ordered := h.ordered

/-- A node gets a new timeout. -/
theorem Holds.retime (h : Holds t s l) {node : MinHeapNode} (hnode : s.nodes.lookup e = some node)
    (now : ℤ) :
    Holds (Function.update t e now)
      { s with nodes := s.nodes.insert e { node with ev_timeout := now } } l where
  length_le := h.length_le
  nodup := h.nodup
  timeout a ha := by
    rw [MinHeap.timeout]
    simp only [Table.lookup_insert_eq]
    by_cases hae : a = e
    · subst hae
      rw [if_pos rfl, Function.update_self]
      rfl
    · rw [if_neg hae, Function.update_of_ne hae]
      exact h.timeout a ha
  seat i a hi hne := by
    obtain ⟨hentry, hidx⟩ := h.seat i a hi hne
    refine ⟨hentry, ?_⟩
    rw [MinHeap.idx] at hidx ⊢
    simp only [Table.lookup_insert_eq]
    by_cases hae : a = e
    · subst hae
      rw [hnode] at hidx
      rw [if_pos rfl]
      exact hidx
    · rw [if_neg hae]
      exact hidx
  count := h.count
  outside a node' ha hna := by
    simp only [Table.lookup_insert_eq] at ha
    by_cases hae : a = e
    · subst hae
      rw [if_pos rfl, Option.some_inj] at ha
      rw [← ha]
      exact h.outside a node hnode hna
    · rw [if_neg hae] at ha
      exact h.outside a node' ha hna

end MinHeap

namespace TcpServer

open MinHeap (HeapOf)

variable {s s' : TcpServer} {w : Watch} {l : List Addr} {conn : Addr} {now : ℤ}

/-- The heap holds the connections that are watched, with their times. -/
structure Watches (s : TcpServer) (w : Watch) (l : List Addr) : Prop where
  heap : HeapOf w.time s.minheap l
  mem_iff : ∀ a, a ∈ l ↔ (w.since a).isSome
  idle_eq : s.idle_timeout = w.idle_timeout
  allocated : ∀ a, (s.minheap.timeout a).isSome ↔ a ∈ s.conns

theorem watches_create : Watches create {} [] where
  heap := MinHeap.heapOf_init fun a node h => by simp at h
  mem_iff a := by simp
  idle_eq := rfl
  allocated a := by simp [create, MinHeap.init, MinHeap.timeout]

/-- Shut down, or about to be closed. -/
def Shut (s : TcpServer) (conn : Addr) : Prop :=
  ∃ c, s.conns.lookup conn = some c ∧ (c.shutting ∨ c.closing)

theorem exists_lookup_of_mem (h : conn ∈ s.conns) : ∃ c, s.conns.lookup conn = some c :=
  Option.isSome_iff_exists.mp (AList.lookup_isSome.mpr h)

theorem mem_of_lookup {c : TcpConn} (h : s.conns.lookup conn = some c) : conn ∈ s.conns :=
  AList.lookup_isSome.mp (by rw [h]; rfl)

/-- `uv_shutdown` on a connection. -/
theorem exists_uvShutdown (h : conn ∈ s.conns) :
    ∃ s', s.uvShutdown conn = some s' ∧ s'.minheap = s.minheap ∧
      s'.idle_timeout = s.idle_timeout ∧ s'.Shut conn ∧
      (∀ a, a ≠ conn → s'.conns.lookup a = s.conns.lookup a) ∧
      ∀ a, a ∈ s'.conns ↔ a ∈ s.conns := by
  obtain ⟨c, hc⟩ := exists_lookup_of_mem h
  rw [uvShutdown, hc]
  by_cases hshut : (c.shutting || c.closing) = true
  · refine ⟨s, if_pos hshut, rfl, rfl, ⟨c, hc, ?_⟩, fun _ _ => rfl, fun _ => Iff.rfl⟩
    simpa using hshut
  · refine ⟨{ s with conns := s.conns.insert conn { c with shutting := true } }, if_neg hshut,
      rfl, rfl, ⟨_, AList.lookup_insert _, .inl rfl⟩, fun a ha => AList.lookup_insert_ne ha,
      fun a => ?_⟩
    rw [AList.mem_insert]
    exact ⟨fun hor => hor.elim (fun heq => heq ▸ h) id, .inr⟩

/-- `uv_close` on a connection that is not being closed. -/
theorem exists_uvClose {c : TcpConn} (hc : s.conns.lookup conn = some c) (hopen : ¬ c.closing) :
    ∃ s', s.uvClose conn = some s' ∧ s'.minheap = s.minheap ∧
      s'.idle_timeout = s.idle_timeout ∧ ∀ a, a ∈ s'.conns ↔ a ∈ s.conns := by
  refine ⟨{ s with conns := s.conns.insert conn { c with closing := true } },
    by simp [uvClose, hc, hopen], rfl, rfl, fun a => ?_⟩
  rw [AList.mem_insert]
  exact ⟨fun hor => hor.elim (fun heq => heq ▸ mem_of_lookup hc) id, .inr⟩

namespace Watches

/-- What does not touch the heap. -/
theorem of_minheap_eq (h : Watches s w l) (hheap : s'.minheap = s.minheap)
    (hidle : s'.idle_timeout = s.idle_timeout) (hconns : ∀ a, a ∈ s'.conns ↔ a ∈ s.conns) :
    Watches s' w l where
  heap := hheap ▸ h.heap
  mem_iff := h.mem_iff
  idle_eq := hidle.trans h.idle_eq
  allocated a := by
    rw [hheap, hconns]
    exact h.allocated a

theorem mem_conns (h : Watches s w l) (hmem : conn ∈ l) : conn ∈ s.conns :=
  (h.allocated conn).mp (by rw [h.heap.timeout conn hmem]; rfl)

theorem since_eq (h : Watches s w l) (hmem : conn ∈ l) : w.since conn = some (w.time conn) := by
  obtain ⟨time, htime⟩ := Option.isSome_iff_exists.mp ((h.mem_iff conn).mp hmem)
  rw [Watch.time, htime]
  rfl

/-- After a push the connection is watched. -/
theorem push (h : Watches s w l) (hheap : HeapOf (w.heard conn now).time s.minheap l)
    (hmem : conn ∉ l) (htime : s.minheap.timeout conn = some now) :
    ∃ s' l', s.push conn = some s' ∧ Watches s' (w.heard conn now) l' := by
  have htime' : s.minheap.timeout conn = some ((w.heard conn now).time conn) := by
    rw [htime, Watch.time_heard, Function.update_self]
  obtain ⟨minheap, l', hpush, hperm, hheap', htimeout, -⟩ := hheap.push hmem htime'
  refine ⟨{ s with minheap }, l', ?_, hheap', fun a => ?_, h.idle_eq, fun a => ?_⟩
  · rw [TcpServer.push, hpush]
    rfl
  · rw [hperm.mem_iff, List.mem_cons, Watch.heard]
    by_cases ha : a = conn
    · simp [ha]
    · simp [ha, h.mem_iff]
  · show (minheap.timeout a).isSome ↔ a ∈ s.conns
    rw [htimeout]
    exact h.allocated a

/-- A new time for a connection. -/
theorem exists_setTimeoutOf (h : Watches s w l) (hmem : conn ∈ s.conns) (now : ℤ) :
    ∃ node, s.minheap.nodes.lookup conn = some node ∧ s.setTimeoutOf conn now = some { s with
      minheap := { s.minheap with
        nodes := s.minheap.nodes.insert conn { node with ev_timeout := now } } } := by
  obtain ⟨time, htime⟩ := Option.isSome_iff_exists.mp ((h.allocated conn).mpr hmem)
  obtain ⟨node, hnode, -⟩ := MinHeap.exists_lookup_of_timeout htime
  exact ⟨node, hnode, by rw [setTimeoutOf, Memory.write_eq hnode]; rfl⟩

theorem timeout_insert (m : MinHeap) (conn a : Addr) (node : MinHeapNode) :
    ({ m with nodes := m.nodes.insert conn node } : MinHeap).timeout a =
      if a = conn then some node.ev_timeout else m.timeout a := by
  rw [MinHeap.timeout]
  simp only [Table.lookup_insert_eq]
  split_ifs <;> rfl

/-- A new time for a connection that is not in the heap. -/
theorem retime_outside (h : Watches s w l) (hmem : conn ∈ s.conns) (hout : conn ∉ l) (now : ℤ) :
    ∃ s', s.setTimeoutOf conn now = some s' ∧ Watches s' w l ∧
      s'.minheap.timeout conn = some now := by
  obtain ⟨node, hnode, hset⟩ := h.exists_setTimeoutOf hmem now
  refine ⟨_, hset, ⟨h.heap.nodes (fun a ha => ?_) fun a node' ha hna => ?_, h.mem_iff, h.idle_eq,
    fun a => ?_⟩, ?_⟩
  · exact AList.lookup_insert_ne (ne_of_mem_of_not_mem ha hout)
  · rw [Table.lookup_insert_eq] at ha
    split_ifs at ha with heq
    · rw [← Option.some_inj.mp ha]
      exact h.heap.outside conn node hnode hout
    · exact h.heap.outside a node' ha hna
  · rw [timeout_insert]
    split_ifs with heq
    · rw [heq]
      exact iff_of_true rfl hmem
    · exact h.allocated a
  · rw [timeout_insert, if_pos rfl]

/-- A new connection. -/
theorem uvTcpconnNew (h : Watches s w l) (hnew : conn ∉ s.conns) (now junk : ℤ) :
    Watches (s.uvTcpconnNew now conn junk) w l ∧ conn ∉ l := by
  have hout : conn ∉ l := fun hmem => hnew (h.mem_conns hmem)
  refine ⟨⟨h.heap.nodes (fun a ha => ?_) fun a node' ha hna => ?_, h.mem_iff, h.idle_eq,
    fun a => ?_⟩, hout⟩
  · exact AList.lookup_insert_ne (ne_of_mem_of_not_mem ha hout)
  · rw [Table.lookup_insert_eq] at ha
    by_cases heq : a = conn
    · rw [if_pos heq] at ha
      rw [← Option.some_inj.mp ha]
    · rw [if_neg heq] at ha
      exact h.heap.outside a node' ha hna
  · rw [TcpServer.uvTcpconnNew, timeout_insert, AList.mem_insert]
    by_cases heq : a = conn
    · rw [if_pos heq]
      exact iff_of_true rfl (.inl heq)
    · rw [if_neg heq, or_iff_right heq]
      exact h.allocated a

theorem onconnection (h : Watches s w l) (hnew : conn ∉ s.conns) (now junk : ℤ) (served : Bool) :
    ∃ s' l', s.onconnection now conn junk served = some s' ∧
      Watches s' (w.step (.connection now conn junk served)) l' := by
  obtain ⟨h₁, hout⟩ := h.uvTcpconnNew hnew now junk
  have hmem : conn ∈ (s.uvTcpconnNew now conn junk).conns := (AList.mem_insert _).mpr (.inl rfl)
  have hconns : ∀ (c : TcpConn) a, a ∈ (s.uvTcpconnNew now conn junk).conns.insert conn c ↔
      a ∈ (s.uvTcpconnNew now conn junk).conns := fun c a =>
    ⟨fun ha => ((AList.mem_insert _).mp ha).elim (fun heq => heq ▸ hmem) id,
      fun ha => (AList.mem_insert _).mpr (.inr ha)⟩
  cases served with
  | true =>
    have h₂ : Watches { s.uvTcpconnNew now conn junk with
        conns := (s.uvTcpconnNew now conn junk).conns.insert conn { reading := true } } w l :=
      h₁.of_minheap_eq rfl rfl (hconns _)
    obtain ⟨s₃, hset, h₃, htime⟩ := h₂.retime_outside ((hconns _ _).mpr hmem) hout now
    have hheap : HeapOf (w.heard conn now).time s₃.minheap l := by
      refine h₃.heap.congr fun a ha => ?_
      rw [Watch.time_heard, Function.update_of_ne (ne_of_mem_of_not_mem ha hout)]
    obtain ⟨s', l', hpush, h'⟩ := h₃.push hheap hout htime
    exact ⟨s', l', by simp [TcpServer.onconnection, hset, hpush], h'⟩
  | false =>
    have hlookup : (s.uvTcpconnNew now conn junk).conns.lookup conn = some {} :=
      AList.lookup_insert _
    obtain ⟨s', hclose, hheap, hidle, hsame⟩ := exists_uvClose hlookup Bool.false_ne_true
    exact ⟨s', l, by simp [TcpServer.onconnection, hclose], h₁.of_minheap_eq hheap hidle hsame⟩

theorem onread (h : Watches s w l) (hmem : conn ∈ s.conns) (now nread : ℤ) :
    ∃ s' l', s.onread now conn nread = some s' ∧ Watches s' (w.step (.read now conn nread)) l' := by
  rw [TcpServer.onread, Watch.step, ← h.idle_eq]
  by_cases hdata : 0 < nread
  · rw [if_pos hdata]
    by_cases hidle : 0 < s.idle_timeout
    · rw [if_pos hidle, if_pos ⟨hdata, hidle⟩]
      by_cases hin : conn ∈ l
      · obtain ⟨node, hnode, hset⟩ := h.exists_setTimeoutOf hmem now
        have hholds := h.heap.retime hnode now
        rw [← Watch.time_heard] at hholds
        obtain ⟨i, hi⟩ := List.mem_iff_getElem?.mp hin
        have hloose : Loose (MinHeap.keys (w.heard conn now).time l) l.length i := by
          refine h.heap.ordered.loose fun j hj hne => ?_
          have hne' : l[j] ≠ conn := fun heq =>
            hne ((MinHeap.getElem?_eq_iff_of_nodup h.heap.nodup hi).mp
              (heq ▸ List.getElem?_eq_getElem hj))
          rw [MinHeap.keys_of_getElem? (List.getElem?_eq_getElem hj),
            MinHeap.keys_of_getElem? (List.getElem?_eq_getElem hj), Watch.time_heard,
            Function.update_of_ne hne']
        obtain ⟨minheap, l', hadjust, hperm, hheap, htimeout, -⟩ := hholds.adjust hi hloose
        have helm := hholds.elmInheap_eq (hholds.timeout conn hin)
        rw [decide_eq_true hin] at helm
        refine ⟨{ s with minheap }, l', by simp [hset, helm, hadjust], hheap, fun a => ?_,
          h.idle_eq, fun a => ?_⟩
        · rw [hperm.mem_iff, Watch.heard]
          by_cases ha : a = conn
          · simp [ha, hin]
          · simp [ha, h.mem_iff]
        · show (minheap.timeout a).isSome ↔ a ∈ s.conns
          rw [htimeout, timeout_insert]
          split_ifs with heq
          · rw [heq]
            exact iff_of_true rfl hmem
          · exact h.allocated a
      · obtain ⟨s₁, hset, h₁, htime⟩ := h.retime_outside hmem hin now
        have helm := h₁.heap.elmInheap_eq htime
        rw [decide_eq_false hin] at helm
        have hheap : HeapOf (w.heard conn now).time s₁.minheap l := by
          refine h₁.heap.congr fun a ha => ?_
          rw [Watch.time_heard, Function.update_of_ne (ne_of_mem_of_not_mem ha hin)]
        obtain ⟨s', l', hpush, h'⟩ := h₁.push hheap hin htime
        exact ⟨s', l', by simp [hset, helm, hpush], h'⟩
    · rw [if_neg hidle, if_neg fun hand => hidle hand.2]
      exact ⟨s, l, rfl, h⟩
  · rw [if_neg hdata, if_neg (c := 0 < nread ∧ 0 < s.idle_timeout) fun hand => hdata hand.1]
    by_cases hcanceled : nread = uvEcanceled
    · exact ⟨s, l, if_pos hcanceled, h⟩
    · rw [if_neg hcanceled]
      obtain ⟨s', hshut, hheap, hidle, -, -, hsame⟩ := exists_uvShutdown hmem
      exact ⟨s', l, hshut, h.of_minheap_eq hheap hidle hsame⟩

/-- A connection that has been closed is freed. -/
theorem onconnclose (h : Watches s w l) (hmem : conn ∈ s.conns) :
    ∃ s' l', s.onconnclose conn = some s' ∧ Watches s' (w.step (.closed conn)) l' := by
  obtain ⟨time, htime⟩ := Option.isSome_iff_exists.mp ((h.allocated conn).mpr hmem)
  obtain ⟨r, m, l', herase, hheap, hl', htimeout⟩ : ∃ r m l',
      s.minheap.erase conn = some (r, m) ∧ HeapOf w.time m l' ∧
      (∀ a, a ∈ l' ↔ a ∈ l ∧ a ≠ conn) ∧ ∀ a, m.timeout a = s.minheap.timeout a := by
    by_cases hin : conn ∈ l
    · obtain ⟨m, l', herase, hperm, hheap, htimeout, -⟩ := h.heap.erase hin
      refine ⟨0, m, l', herase, hheap, fun a => ?_, htimeout⟩
      have hnodup := List.nodup_cons.mp (hperm.nodup_iff.mpr h.heap.nodup)
      rw [← hperm.mem_iff, List.mem_cons]
      constructor
      · exact fun ha => ⟨.inr ha, fun heq => hnodup.1 (heq ▸ ha)⟩
      · exact fun ⟨hor, hne⟩ => hor.resolve_left hne
    · exact ⟨-1, _, l, h.heap.erase_notMem htime hin, h.heap,
        fun a => ⟨fun ha => ⟨ha, fun heq => hin (heq ▸ ha)⟩, And.left⟩, fun _ => rfl⟩
  have hout : conn ∉ l' := fun hmem => ((hl' conn).mp hmem).2 rfl
  refine ⟨{ s with
      minheap := { m with nodes := m.nodes.erase conn }, conns := s.conns.erase conn }, l',
    by rw [TcpServer.onconnclose, herase]; rfl, ?_, fun a => ?_, h.idle_eq, fun a => ?_⟩
  · refine (@HeapOf.nodes _ _ _ hheap (m.nodes.erase conn) (fun a ha => ?_)
      fun a node ha hna => ?_).congr fun a ha => ?_
    · exact AList.lookup_erase_ne (ne_of_mem_of_not_mem ha hout)
    · rw [Table.lookup_erase_eq] at ha
      split_ifs at ha
      exact hheap.outside a node ha hna
    · simp only [Watch.time, Watch.step]
      rw [Function.update_of_ne (ne_of_mem_of_not_mem ha hout)]
  · simp only [Watch.step]
    by_cases ha : a = conn
    · subst ha
      simp [hout]
    · simp [ha, hl', h.mem_iff]
  · show (({ m with nodes := m.nodes.erase conn } : MinHeap).timeout a).isSome ↔
      a ∈ s.conns.erase conn
    rw [AList.mem_erase, MinHeap.timeout]
    simp only [Table.lookup_erase_eq]
    by_cases ha : a = conn
    · simp [ha]
    · rw [if_neg ha, and_iff_right ha, ← h.allocated, ← htimeout, MinHeap.timeout]

end Watches

end TcpServer

end CodeTest.UvLua
