import CodeTest.UvLua.Watched

/-!
# A tick of the timer

In every run, `uv_tcpserver_ontimer` shuts down the connections that are idle, and no others. What a
run needs of libuv is `TcpServer.Allowed`.
-/

namespace CodeTest.UvLua.TcpServer

open MinHeap (HeapOf)

variable {s s' : TcpServer} {w : Watch} {l : List Addr} {t : Addr → ℤ} {tm : ℤ}

/-- What the loop of a tick has done when it is left: the connections `out` were taken off the heap
and shut down. -/
structure Ticked (t : Addr → ℤ) (tm : ℤ) (s : TcpServer) (l : List Addr) (out : List Addr)
    (s' : TcpServer) (l' : List Addr) : Prop where
  heap : HeapOf t s'.minheap l'
  perm : (out ++ l').Perm l
  old : ∀ a ∈ out, t a < tm
  young : ∀ a ∈ l', tm ≤ t a
  sorted : out.Pairwise fun a b => t a ≤ t b
  idle_eq : s'.idle_timeout = s.idle_timeout
  timeout_eq : ∀ a, s'.minheap.timeout a = s.minheap.timeout a
  shut : ∀ a ∈ out, s'.Shut a
  others : ∀ a, a ∉ out → s'.conns.lookup a = s.conns.lookup a
  conns_iff : ∀ a, a ∈ s'.conns ↔ a ∈ s.conns

/-- The loop ends: no node of the heap is old. -/
theorem ticked_nil (h : HeapOf t s.minheap l) (hyoung : ∀ a ∈ l, tm ≤ t a) :
    Ticked t tm s l [] s l where
  heap := h
  perm := .refl l
  old _ ha := absurd ha List.not_mem_nil
  young := hyoung
  sorted := .nil
  idle_eq := rfl
  timeout_eq _ := rfl
  shut _ ha := absurd ha List.not_mem_nil
  others _ _ := rfl
  conns_iff _ := Iff.rfl

theorem timerLoop_spec {fuel : ℕ} (hfuel : l.length ≤ fuel) (h : HeapOf t s.minheap l)
    (hconns : ∀ a ∈ l, a ∈ s.conns) :
    ∃ out s' l', timerLoop tm fuel s = some (out, s') ∧ Ticked t tm s l out s' l' := by
  induction fuel generalizing s l with
  | zero =>
    obtain rfl := List.length_eq_zero_iff.mp (Nat.le_zero.mp hfuel)
    have hn : s.minheap.n = 0 := h.count
    exact ⟨[], s, [], by rw [timerLoop, if_pos hn], ticked_nil h fun a ha => by cases ha⟩
  | succ fuel ih =>
    by_cases hempty : l = []
    · subst hempty
      have hn : s.minheap.n = 0 := h.count
      exact ⟨[], s, [], by rw [timerLoop, if_pos hn], ticked_nil h fun a ha => by cases ha⟩
    obtain ⟨top, htop⟩ : ∃ a, l[0]? = some a :=
      ⟨_, List.getElem?_eq_getElem (List.length_pos_iff.mpr hempty)⟩
    have hmem : top ∈ l := List.mem_of_getElem? htop
    have hn : s.minheap.n ≠ 0 := by
      rw [h.count]
      exact (List.length_pos_iff.mpr hempty).ne'
    rw [timerLoop, if_neg hn]
    simp only [h.entry_eq htop, h.timeout top hmem, Option.bind_eq_bind, Option.bind_some]
    by_cases hold : t top < tm
    · rw [if_pos hold]
      obtain ⟨m, l₁, hpop, hperm, hheap, htimeout, -⟩ := h.pop htop
      have hsub : ∀ a ∈ l₁, a ∈ l := fun a ha => hperm.subset (List.mem_cons_of_mem _ ha)
      obtain ⟨s₂, hshut, hheap₂, hidle, hdown, hsame, hiff⟩ :=
        exists_uvShutdown (s := { s with minheap := m }) (hconns top hmem)
      have hlen : l₁.length ≤ fuel := by
        have := hperm.length_eq
        rw [List.length_cons] at this
        omega
      obtain ⟨out, s', l', hloop, hticked⟩ := ih hlen (hheap₂ ▸ hheap : HeapOf t s₂.minheap l₁)
        fun a ha => (hiff a).mpr (hconns a (hsub a ha))
      have hnodup : top ∉ l₁ := (List.nodup_cons.mp (hperm.nodup_iff.mpr h.nodup)).1
      have hnot : top ∉ out := fun hin =>
        hnodup (hticked.perm.subset (List.mem_append_left _ hin))
      refine ⟨top :: out, s', l', by simp [hpop, hshut, hloop], hticked.heap,
        (hticked.perm.cons top).trans hperm, fun a ha => ?_, hticked.young, ?_,
        hticked.idle_eq.trans hidle, fun a => ?_, fun a ha => ?_, fun a ha => ?_,
        fun a => (hticked.conns_iff a).trans (hiff a)⟩
      · rcases List.mem_cons.mp ha with rfl | ha
        · exact hold
        · exact hticked.old a ha
      · refine List.pairwise_cons.mpr ⟨fun a ha => ?_, hticked.sorted⟩
        exact h.top_le htop (hsub a (hticked.perm.subset (List.mem_append_left _ ha)))
      · rw [hticked.timeout_eq, hheap₂]
        exact htimeout a
      · rcases List.mem_cons.mp ha with rfl | ha
        · rw [Shut, hticked.others a hnot]
          exact hdown
        · exact hticked.shut a ha
      · obtain ⟨hne, hna⟩ := List.ne_and_not_mem_of_not_mem_cons ha
        rw [hticked.others a hna, hsame a hne]
    · rw [if_neg hold]
      refine ⟨[], s, l, rfl, ticked_nil h fun a ha => ?_⟩
      exact (not_lt.mp hold).trans (h.top_le htop ha)

namespace Watches

/-- What a tick does to a server that watches its connections. -/
theorem ontimer (h : Watches s w l) (now : ℤ) :
    ∃ out s' l', s.ontimer now = some (out, s') ∧ Watches s' (w.step (.timer now)) l' ∧
      out.Nodup ∧ (∀ a, a ∈ out ↔ w.Idle now a) ∧
      (out.Pairwise fun a b => w.time a ≤ w.time b) ∧ (∀ a ∈ out, s'.Shut a) ∧
      ∀ a, a ∉ out → s'.conns.lookup a = s.conns.lookup a := by
  rw [TcpServer.ontimer]
  by_cases hidle : 0 < s.idle_timeout
  · rw [if_pos hidle]
    obtain ⟨out, s', l', hloop, hticked⟩ : ∃ out s' l',
        timerLoop (now - s.idle_timeout) s.minheap.n s = some (out, s') ∧
          Ticked w.time (now - s.idle_timeout) s l out s' l' :=
      timerLoop_spec (le_of_eq h.heap.count.symm) h.heap fun a ha => h.mem_conns ha
    have hnodup : (out ++ l').Nodup := hticked.perm.nodup_iff.mpr h.heap.nodup
    have hout : ∀ a, a ∈ out ↔ a ∈ l ∧ w.time a < now - s.idle_timeout := by
      intro a
      rw [← hticked.perm.mem_iff, List.mem_append]
      constructor
      · intro ha
        exact ⟨.inl ha, hticked.old a ha⟩
      · rintro ⟨hor, hlt⟩
        exact hor.resolve_right fun ha => (hticked.young a ha).not_gt hlt
    have hl' : ∀ a, a ∈ l' ↔ a ∈ l ∧ ¬ w.time a < now - s.idle_timeout := by
      intro a
      rw [← hticked.perm.mem_iff, List.mem_append]
      constructor
      · intro ha
        exact ⟨.inr ha, (hticked.young a ha).not_gt⟩
      · rintro ⟨hor, hle⟩
        exact hor.resolve_left fun ha => hle (hticked.old a ha)
    have hidle' : 0 < w.idle_timeout := h.idle_eq ▸ hidle
    have hsince : ∀ a, (w.step (.timer now)).since a =
        (w.since a).filter fun time => ¬ time < now - s.idle_timeout := by
      intro a
      rw [Watch.step, if_pos hidle', h.idle_eq]
    refine ⟨out, s', l', hloop, ⟨hticked.heap.congr fun a ha => ?_, fun a => ?_, ?_, fun a => ?_⟩,
      hnodup.of_append_left, fun a => ?_, hticked.sorted, hticked.shut, hticked.others⟩
    · rw [Watch.time, hsince, h.since_eq ((hl' a).mp ha).1, Option.filter_some]
      simp [((hl' a).mp ha).2]
    · rw [hl', hsince]
      by_cases hmem : a ∈ l
      · rw [h.since_eq hmem, Option.filter_some]
        by_cases hlt : w.time a < now - s.idle_timeout <;> simp [hmem, hlt]
      · have hnone : w.since a = none :=
          Option.not_isSome_iff_eq_none.mp fun hsome => hmem ((h.mem_iff a).mpr hsome)
        simp [hmem, hnone]
    · rw [hticked.idle_eq, h.idle_eq, Watch.step, if_pos hidle']
    · rw [hticked.timeout_eq, hticked.conns_iff]
      exact h.allocated a
    · rw [hout, Watch.Idle, and_iff_right hidle', ← h.idle_eq]
      constructor
      · rintro ⟨hmem, hlt⟩
        exact ⟨_, h.since_eq hmem, hlt⟩
      · rintro ⟨time, htime, hlt⟩
        have hmem : a ∈ l := (h.mem_iff a).mpr (by rw [htime]; rfl)
        rw [h.since_eq hmem, Option.some_inj] at htime
        exact ⟨hmem, htime ▸ hlt⟩
  · rw [if_neg hidle]
    have hidle' : ¬ 0 < w.idle_timeout := h.idle_eq ▸ hidle
    refine ⟨[], s, l, rfl, ?_, .nil, fun a => ?_, .nil, fun a ha => absurd ha List.not_mem_nil,
      fun _ _ => rfl⟩
    · rw [Watch.step, if_neg hidle']
      exact h
    · exact iff_of_false List.not_mem_nil fun hand => hidle' hand.1

/-- One step. -/
theorem step (h : Watches s w l) {e : TcpEvent} (hallowed : Allowed s e) :
    ∃ s' l', s.step e = some s' ∧ Watches s' (w.step e) l' := by
  cases e with
  | connection now conn junk served => exact h.onconnection hallowed now junk served
  | read now conn nread =>
    obtain ⟨c, hc, -⟩ := hallowed
    exact h.onread (mem_of_lookup hc) now nread
  | shutdown conn =>
    obtain ⟨c, hc, -, hopen⟩ := hallowed
    obtain ⟨s', hclose, hheap, hidle, hsame⟩ := exists_uvClose hc hopen
    exact ⟨s', l, hclose, h.of_minheap_eq hheap hidle hsame⟩
  | closed conn =>
    obtain ⟨c, hc, -⟩ := hallowed
    exact h.onconnclose (mem_of_lookup hc)
  | timer now =>
    obtain ⟨out, s', l', htimer, h', -⟩ := h.ontimer now
    exact ⟨s', l', by rw [TcpServer.step, htimer]; rfl, h'⟩
  | setTimeout idle_timeout =>
    refine ⟨_, l, rfl, ?_⟩
    rw [TcpServer.setTimeout, Watch.step]
    split_ifs with hpos
    · exact ⟨h.heap, h.mem_iff, rfl, h.allocated⟩
    · exact h

end Watches

/-- A run of the server, with what it should watch. -/
theorem watches_of_run {es : List TcpEvent} (h : Watches s w l)
    (hallowed : PartialMachine.Meets step Allowed s es) :
    ∃ s' l', es.foldlM step s = some s' ∧ Watches s' (es.foldl Watch.step w) l' := by
  induction es generalizing s w l with
  | nil => exact ⟨s, l, rfl, h⟩
  | cons e es ih =>
    obtain ⟨s₁, l₁, hstep, h₁⟩ := h.step hallowed.1
    obtain ⟨s', l', hrun, h'⟩ := ih h₁ (hallowed.2 s₁ hstep)
    refine ⟨s', l', ?_, h'⟩
    rw [List.foldlM_cons, hstep]
    exact hrun

/-- **A tick shuts down the idle connections.** Whatever connections, data, closings, ticks and
changes of the timeout have come before, in any order, a tick of the timer takes exactly the
connections that are idle off the heap, the oldest first, shuts these down and leaves the others as
they are. -/
theorem shuts_down_idle (es : List TcpEvent)
    (hallowed : PartialMachine.Meets step Allowed create es) (now : ℤ) :
    ∃ s out s', es.foldlM step create = some s ∧ s.ontimer now = some (out, s') ∧
      out.Nodup ∧ (∀ a, a ∈ out ↔ (es.foldl Watch.step {}).Idle now a) ∧
      (out.Pairwise fun a b =>
        (es.foldl Watch.step {}).time a ≤ (es.foldl Watch.step {}).time b) ∧
      (∀ a ∈ out, s'.Shut a) ∧ ∀ a, a ∉ out → s'.conns.lookup a = s.conns.lookup a := by
  obtain ⟨s, l, hrun, h⟩ := watches_of_run watches_create hallowed
  obtain ⟨out, s', l', htimer, -, hspec⟩ := h.ontimer now
  exact ⟨s, out, s', hrun, htimer, hspec⟩

/-- Three connections, of which one is shut down by the other side. -/
theorem shuts_down_idle_three : ∃ s out s',
    [.connection 100 8 0 true, .setTimeout 30, .connection 102 16 0 true, .connection 101 24 0 true,
      .read 120 8 5, .read 121 16 (-4095), .timer 125].foldlM step create = some s ∧
      s.ontimer 160 = some (out, s') ∧ out.Nodup ∧
      (∀ a, a ∈ out ↔ ([.connection 100 8 0 true, .setTimeout 30, .connection 102 16 0 true,
        .connection 101 24 0 true, .read 120 8 5, .read 121 16 (-4095), .timer 125].foldl
          Watch.step {}).Idle 160 a) ∧
      (out.Pairwise fun a b => ([.connection 100 8 0 true, .setTimeout 30,
        .connection 102 16 0 true, .connection 101 24 0 true, .read 120 8 5, .read 121 16 (-4095),
        .timer 125].foldl Watch.step {}).time a ≤ ([.connection 100 8 0 true, .setTimeout 30,
          .connection 102 16 0 true, .connection 101 24 0 true, .read 120 8 5,
          .read 121 16 (-4095), .timer 125].foldl Watch.step {}).time b) ∧
      (∀ a ∈ out, s'.Shut a) ∧ ∀ a, a ∉ out → s'.conns.lookup a = s.conns.lookup a :=
  shuts_down_idle _ (by decide +kernel) 160

end CodeTest.UvLua.TcpServer
