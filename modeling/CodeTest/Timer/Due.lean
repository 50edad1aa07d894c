import CodeTest.Timer.Expire
import Mathlib.Order.Nat

/-!
# What one `ExpireTimer` fires

A state that is reached without an overflow of the count is `Intact`, whatever its callbacks did.
From there an `ExpireTimer` whose callbacks return at once goes through its loop in rounds
(`Intact.round`): a round fires the timer at the front of the heap, which is the first to expire, or
ends the loop. `expireTimer_due` puts the rounds together.
-/

namespace CodeTest.TimerRun

open MinHeapTimer

variable {Cb : Type} {alloc : Allocator (TimerNode Cb)} {s s' : TimerRun Cb} {p : Addr}
  {now : UInt32}

/-! ## The states that are reached -/

/-- An addition does not make the count overflow. -/
def Bounded (s : TimerRun Cb) : TimerEvent Cb → Prop
  | .addTimer .. => s.timer._count + 1 < 2 ^ 31
  | _ => True

instance decidableBounded (s : TimerRun Cb) : ∀ e, Decidable (s.Bounded e)
  | .addTimer .. => inferInstanceAs (Decidable (_ < _))
  | .delTimer _ => isTrue trivial
  | .expireTimer _ => isTrue trivial
  | .tick => isTrue trivial
  | .ret => isTrue trivial

/-- The timer is valid, and its count has not overflowed. -/
structure Intact (s : TimerRun Cb) : Prop where
  valid : s.timer.Valid
  count_nonneg : 0 ≤ s.timer._count

theorem intact_init : (init : TimerRun Cb).Intact where
  valid := valid_new
  count_nonneg := le_rfl

/-- Only the timer matters. -/
theorem Intact.of_timer_eq (h : s.Intact) (ht : s'.timer = s.timer) : s'.Intact :=
  ⟨ht ▸ h.valid, ht ▸ h.count_nonneg⟩

/-- `_delNode` has a result only for a node of the heap, whose timer it removes. -/
theorem Intact.delNode (h : s.Intact) {timer' : MinHeapTimer Cb}
    (hdel : s.timer.delNode p = some timer') :
    timer'.Valid ∧ timer'._count = s.timer._count ∧
      ∃ tm, s.timer.timers.Perm (tm :: timer'.timers) := by
  have hp : p ∈ s.timer._heap := by
    apply h.valid.mem_heap
    apply AList.lookup_isSome.mp
    rw [MinHeapTimer.delNode] at hdel
    obtain ⟨node, hnode, -⟩ := Option.bind_eq_some_iff.mp hdel
    rw [hnode]
    rfl
  obtain ⟨tm, htm⟩ := h.valid.exists_timerAt hp
  obtain ⟨t', ht', hvalid, hcount, hheap, htimer⟩ := h.valid.delNode hp
  rw [hdel, Option.some_inj] at ht'
  subst ht'
  exact ⟨hvalid, hcount, tm, timers_perm_of_removed h.valid.seated.nodup htm hheap htimer⟩

/-- What remains in use of the timer after a node is deleted. -/
theorem Intact.of_delNode (h : s.Intact) (hdel : s.timer.delNode p = some s'.timer) :
    s'.Intact := by
  obtain ⟨hvalid, hcount, -⟩ := h.delNode hdel
  exact ⟨hvalid, hcount ▸ h.count_nonneg⟩

/-- What the end of an iteration can lead to. -/
theorem finish_cases (hs : s.finish p now = some s') :
    s.timer.delNode p = some s'.timer ∧ s'.control = .loop now ∧ s'.log = s.log := by
  obtain ⟨timer', hdel, rfl⟩ := Option.map_eq_some_iff.mp hs
  exact ⟨hdel, rfl, rfl⟩

/-- What an iteration can lead to: the end of the loop, or the node at the front is fired, which is
due, and its callback runs or is missing. -/
theorem tick_cases (hs : s.tick now = some s') :
    s' = { s with control := .idle } ∨
      ∃ p rest e, s.timer._heap = p :: rest ∧ s.timer.nodes.lookup p = some e ∧ e.expire ≤ now ∧
        (s' = { s with control := .callback p now, log := s.log ++ [.fired e.id] } ∨
          ({ s with log := s.log ++ [.fired e.id] } : TimerRun Cb).finish p now = some s') := by
  unfold TimerRun.tick at hs
  cases hheap : s.timer._heap with
  | nil =>
    simp only [hheap, Option.some_inj] at hs
    exact .inl hs.symm
  | cons p rest =>
    simp only [hheap] at hs
    obtain ⟨e, he, hs⟩ := Option.bind_eq_some_iff.mp hs
    split_ifs at hs with hnow
    · cases hs
      exact .inl rfl
    · cases hs
    · refine .inr ⟨p, rest, e, rfl, he, UInt32.not_lt.mp hnow, ?_⟩
      cases hcb : e.cb with
      | some cb =>
        simp only [hcb, Option.pure_def, Option.some_inj] at hs
        exact .inl hs.symm
      | none =>
        simp only [hcb] at hs
        exact .inr hs

theorem Intact.tick (h : s.Intact) (hs : s.tick now = some s') : s'.Intact := by
  obtain rfl | ⟨p, rest, e, -, -, -, rfl | hs⟩ := tick_cases hs
  · exact h.of_timer_eq rfl
  · exact h.of_timer_eq rfl
  · have h₁ : ({ s with log := s.log ++ [.fired e.id] } : TimerRun Cb).Intact := h.of_timer_eq rfl
    exact h₁.of_delNode (finish_cases hs).1

/-- What a deletion can lead to. -/
theorem delTimer_cases {id : ℤ} (hs : s.step alloc (.delTimer id) = some s') :
    s' = s ∨ ∃ p, s.timer.delNode p = some s'.timer ∧ s'.control = s.control ∧
      s'.log = s.log ++ [.deleted id] := by
  obtain ⟨⟨deleted, timer'⟩, hdel, hs⟩ := Option.bind_eq_some_iff.mp hs
  cases hs
  unfold MinHeapTimer.delTimer at hdel
  split at hdel
  · cases hdel
    exact .inl rfl
  · obtain ⟨timer'', hdel', heq⟩ := Option.map_eq_some_iff.mp hdel
    cases heq
    exact .inr ⟨_, hdel', rfl, rfl⟩

/-- Every event keeps the timer intact, whatever is deleted in a callback. -/
theorem Intact.step (h : s.Intact) {e : TimerEvent Cb} (hbounded : s.Bounded e)
    (hs : s.step alloc e = some s') : s'.Intact := by
  cases e with
  | addTimer now expire cb =>
    obtain ⟨-, hcount, hvalid, -⟩ :=
      h.valid.addTimer_nodes h.count_nonneg hbounded alloc now expire cb
    cases hs
    refine ⟨hvalid, ?_⟩
    show 0 ≤ (s.timer.addTimer alloc now expire cb).2._count
    rw [hcount]
    have := h.count_nonneg
    omega
  | delTimer id =>
    obtain rfl | ⟨p, hdel, -⟩ := delTimer_cases hs
    · exact h
    · exact h.of_delNode hdel
  | expireTimer now =>
    cases hcontrol : s.control with
    | idle =>
      simp only [TimerRun.step, hcontrol, Option.some_inj] at hs
      exact h.of_timer_eq (hs ▸ rfl)
    | _ =>
      simp only [TimerRun.step, hcontrol, Option.some_inj] at hs
      exact hs ▸ h
  | tick =>
    cases hcontrol : s.control with
    | loop now =>
      simp only [TimerRun.step, hcontrol] at hs
      exact h.tick hs
    | _ =>
      simp only [TimerRun.step, hcontrol, Option.some_inj] at hs
      exact hs ▸ h
  | ret =>
    cases hcontrol : s.control with
    | callback p now =>
      simp only [TimerRun.step, hcontrol] at hs
      exact h.of_delNode (finish_cases hs).1
    | _ =>
      simp only [TimerRun.step, hcontrol, Option.some_inj] at hs
      exact hs ▸ h

theorem intact_of_run {es : List (TimerEvent Cb)}
    (hbounded : PartialMachine.Meets (TimerRun.step alloc) Bounded init es)
    (hs : es.foldlM (TimerRun.step alloc) init = some s) : s.Intact :=
  PartialMachine.run_invariant (fun _ _ _ h he hs => h.step he hs) intact_init hbounded hs

/-! ## One round -/

/-- The rest of an `ExpireTimer` whose callbacks return at once, in `n` rounds. -/
def quiet (n : ℕ) : List (TimerEvent Cb) := (List.replicate n [.tick, .ret]).flatten

theorem quiet_succ (n : ℕ) : (quiet (n + 1) : List (TimerEvent Cb)) = .tick :: .ret :: quiet n :=
  rfl

theorem quiet_add (m n : ℕ) : (quiet (m + n) : List (TimerEvent Cb)) = quiet m ++ quiet n := by
  rw [quiet, List.replicate_add, List.flatten_append]
  rfl

/-- The rounds of an `ExpireTimer` that has ended have no effect. -/
theorem quiet_idle (hidle : s.control = .idle) (n : ℕ) :
    (quiet n).foldlM (TimerRun.step alloc) s = some s := by
  induction n with
  | zero => rfl
  | succ n ih => simp [quiet_succ, TimerRun.step, hidle, ih]

/-- The timers of the nodes of a heap. -/
theorem Intact.exists_timerAt (h : s.Intact) {i : ℕ} (hi : s.timer._heap[i]? = some p) :
    ∃ tm, s.timer.timerAt p = some tm ∧ tm.expire.toNat = s.timer.keys i := by
  obtain ⟨node, hnode, -⟩ := h.valid.seated i (List.getElem?_eq_some_iff.mp hi).1 p hi
  have htm : s.timer.timerAt p = some (.ofNode node) := by
    rw [timerAt, hnode]
    rfl
  refine ⟨.ofNode node, htm, ?_⟩
  rw [keys_eq, hi, Option.bind_some, htm]
  rfl

/-- The timer at the front of the heap is the first to expire. -/
theorem Intact.front_le (h : s.Intact) (hp : s.timer._heap[0]? = some p) {tm tm' : Timer Cb}
    (htm : s.timer.timerAt p = some tm) (htm' : tm' ∈ s.timer.timers) :
    tm.expire ≤ tm'.expire := by
  obtain ⟨q, hq, hqtm⟩ := List.mem_filterMap.mp htm'
  obtain ⟨i, hi⟩ := List.mem_iff_getElem?.mp hq
  obtain ⟨_, h₀, hkey₀⟩ := h.exists_timerAt hp
  obtain ⟨_, h₁, hkey₁⟩ := h.exists_timerAt hi
  rw [htm, Option.some_inj] at h₀
  rw [hqtm, Option.some_inj] at h₁
  subst h₀ h₁
  rw [UInt32.le_iff_toNat_le, hkey₀, hkey₁]
  exact h.valid.ordered.top_le (List.getElem?_eq_some_iff.mp hi).1

/-- A timer that is due is fired and removed, with a callback or without. -/
theorem Intact.exists_fired (h : s.Intact) (hcontrol : s.control = .loop now) {rest : List Addr}
    {e : TimerNode Cb} (hheap : s.timer._heap = p :: rest)
    (he : s.timer.nodes.lookup p = some e) (hnow : ¬ now < e.expire) :
    ∃ s', [.tick, .ret].foldlM (TimerRun.step alloc) s = some s' ∧ s'.Intact ∧
      s'.control = .loop now ∧ s'.log = s.log ++ [.fired e.id] ∧
      s.timer.timers.Perm (.ofNode e :: s'.timer.timers) := by
  have htm : s.timer.timerAt p = some (.ofNode e) := by
    rw [timerAt, he]
    rfl
  obtain ⟨timer', hdel, hvalid, hcount, hperm, htimer⟩ :=
    h.valid.delNode (p := p) (by simp [hheap])
  refine ⟨⟨timer', .loop now, s.log ++ [.fired e.id]⟩, ?_, ⟨hvalid, hcount ▸ h.count_nonneg⟩,
    rfl, rfl, timers_perm_of_removed h.valid.seated.nodup htm hperm htimer⟩
  have htick := tick_due h.valid hheap he hnow
  cases hcb : e.cb with
  | some cb =>
    rw [hcb] at htick
    simp [TimerRun.step, hcontrol, htick, TimerRun.finish, hdel]
  | none =>
    rw [hcb] at htick
    simp [TimerRun.step, hcontrol, htick, TimerRun.finish, hdel]

/-- **One round** ends the loop if no timer is due, and else fires one that is the first to expire
and removes it alone. -/
theorem Intact.round (h : s.Intact) (hcontrol : s.control = .loop now) :
    ([.tick, .ret].foldlM (TimerRun.step alloc) s = some { s with control := .idle } ∧
        ∀ tm ∈ s.timer.timers, now < tm.expire) ∨
      ∃ s' tm, [.tick, .ret].foldlM (TimerRun.step alloc) s = some s' ∧ s'.Intact ∧
        s'.control = .loop now ∧ s'.log = s.log ++ [.fired tm.id] ∧ tm.expire ≤ now ∧
        (∀ tm' ∈ s.timer.timers, tm.expire ≤ tm'.expire) ∧
        s.timer.timers.Perm (tm :: s'.timer.timers) := by
  cases hheap : s.timer._heap with
  | nil =>
    refine .inl ⟨by simp [TimerRun.step, hcontrol, tick_nil hheap], ?_⟩
    simp [timers, hheap]
  | cons p rest =>
    have h₀ : s.timer._heap[0]? = some p := by simp [hheap]
    obtain ⟨tm, htm, -⟩ := h.exists_timerAt h₀
    have hfirst : ∀ tm' ∈ s.timer.timers, tm.expire ≤ tm'.expire := fun tm' => h.front_le h₀ htm
    obtain ⟨e, he, rfl⟩ := Option.map_eq_some_iff.mp htm
    by_cases hnow : now < e.expire
    · refine .inl ⟨by simp [TimerRun.step, hcontrol, tick_of_lt hheap he hnow], fun tm' htm' => ?_⟩
      exact UInt32.lt_of_lt_of_le hnow (hfirst tm' htm')
    · obtain ⟨s', hs', h', hloop, hlog, hperm⟩ := h.exists_fired hcontrol hheap he hnow
      exact .inr ⟨s', .ofNode e, hs', h', hloop, hlog, UInt32.not_lt.mp hnow, hfirst, hperm⟩

/-! ## A whole `ExpireTimer` -/

/-- **The loop** fires what is due at its time, the first to expire first, and no timer is due
afterwards. -/
theorem Intact.loop (h : s.Intact) (alloc : Allocator (TimerNode Cb))
    (hcontrol : s.control = .loop now) {n : ℕ} (hn : s.timer.timers.length < n) :
    ∃ s' fired, (quiet n).foldlM (TimerRun.step alloc) s = some s' ∧ s'.Intact ∧
      s'.control = .idle ∧ s'.log = s.log ++ fired.map (fun tm => .fired tm.id) ∧
      s.timer.timers.Perm (fired ++ s'.timer.timers) ∧ (∀ tm ∈ fired, tm.expire ≤ now) ∧
      (∀ tm ∈ s'.timer.timers, now < tm.expire) ∧
      fired.Pairwise fun tm tm' => tm.expire ≤ tm'.expire := by
  induction n generalizing s with
  | zero => omega
  | succ n ih =>
    have hrun : ∀ s₁, [.tick, .ret].foldlM (TimerRun.step alloc) s = some s₁ →
        (quiet (n + 1)).foldlM (TimerRun.step alloc) s =
          (quiet n).foldlM (TimerRun.step alloc) s₁ := by
      intro s₁ hs₁
      have happ : (quiet (n + 1) : List (TimerEvent Cb)) = [.tick, .ret] ++ quiet n := rfl
      rw [happ, List.foldlM_append, hs₁]
      rfl
    rcases h.round hcontrol with ⟨hs₁, hlater⟩ | ⟨s₁, tm, hs₁, h₁, hloop, hlog, hdue, hfirst, hperm⟩
    · -- the loop ends
      refine ⟨_, [], (hrun _ hs₁).trans (quiet_idle rfl n), h.of_timer_eq rfl, rfl, ?_, .refl _,
        by simp, hlater, .nil⟩
      simp
    · have hlen : s₁.timer.timers.length < n := by
        have := hperm.length_eq
        rw [List.length_cons] at this
        omega
      obtain ⟨s', fired, hs', h', hidle, hlog', hperm', hdue', hlater, hsorted⟩ := ih h₁ hloop hlen
      have hall : s.timer.timers.Perm (tm :: fired ++ s'.timer.timers) :=
        hperm.trans (hperm'.cons tm)
      refine ⟨s', tm :: fired, (hrun s₁ hs₁).trans hs', h', hidle, ?_, hall, ?_, hlater, ?_⟩
      · rw [hlog', hlog, List.map_cons, List.append_assoc, List.singleton_append]
      · rintro x (_ | ⟨_, hx⟩)
        · exact hdue
        · exact hdue' x hx
      · refine List.pairwise_cons.mpr ⟨fun x hx => hfirst x ?_, hsorted⟩
        exact hall.mem_iff.mpr (by simp [hx])

/-- **What one `ExpireTimer` fires.** In every state that is reached without an overflow of the
count, however the callbacks used the timer on the way, an `ExpireTimer` at any time whose callbacks
leave the timer alone ends; it fires exactly the timers that are due, each once and in the order of
their expiry; and exactly the others are left, in a valid heap. -/
theorem expireTimer_due (alloc : Allocator (TimerNode Cb)) (es : List (TimerEvent Cb))
    (hbounded : PartialMachine.Meets (step alloc) Bounded init es) (s : TimerRun Cb)
    (hs : es.foldlM (step alloc) init = some s) (hidle : s.control = .idle) (now : UInt32) :
    ∃ (s' : TimerRun Cb) (fired : List (Timer Cb)), (∀ n, s.timer._heap.length < n →
        (.expireTimer now :: quiet n).foldlM (step alloc) s = some s') ∧
      s'.control = .idle ∧ s'.log = s.log ++ fired.map (fun tm => .fired tm.id) ∧
      fired.Perm (s.timer.timers.filter fun tm => tm.expire ≤ now) ∧
      (fired.map Timer.id).Nodup ∧
      (fired.Pairwise fun tm tm' => tm.expire ≤ tm'.expire) ∧
      s'.timer.timers.Perm (s.timer.timers.filter fun tm => ¬ tm.expire ≤ now) ∧
      s'.timer.Valid := by
  have h := intact_of_run hbounded hs
  set s₁ : TimerRun Cb := { s with control := .loop now }
  have h₁ : s₁.Intact := h.of_timer_eq rfl
  have hstart : s.step alloc (.expireTimer now) = some s₁ := by simp [step, hidle, s₁]
  have hlen : s₁.timer.timers.length < s.timer._heap.length + 1 :=
    Nat.lt_succ_of_le (List.length_filterMap_le _ _)
  obtain ⟨s', fired, hs', h', hidle', hlog, hperm, hdue, hlater, hsorted⟩ :=
    h₁.loop alloc rfl hlen
  have hperm : s.timer.timers.Perm (fired ++ s'.timer.timers) := hperm
  have hfired : (s.timer.timers.filter fun tm => tm.expire ≤ now).Perm fired := by
    have hall : (fired.filter fun tm => tm.expire ≤ now) = fired :=
      List.filter_eq_self.mpr (by simpa using hdue)
    have hnone : (s'.timer.timers.filter fun tm => tm.expire ≤ now) = [] :=
      List.filter_eq_nil_iff.mpr (by simpa using hlater)
    have hfilter := hperm.filter fun tm => decide (tm.expire ≤ now)
    rwa [List.filter_append, hall, hnone, List.append_nil] at hfilter
  have hleft : (s.timer.timers.filter fun tm => ¬ tm.expire ≤ now).Perm s'.timer.timers := by
    have hnone : (fired.filter fun tm => ¬ tm.expire ≤ now) = [] :=
      List.filter_eq_nil_iff.mpr (by simpa using hdue)
    have hall : (s'.timer.timers.filter fun tm => ¬ tm.expire ≤ now) = s'.timer.timers :=
      List.filter_eq_self.mpr (by simpa using hlater)
    have hfilter := hperm.filter fun tm => decide (¬ tm.expire ≤ now)
    rwa [List.filter_append, hall, hnone, List.nil_append] at hfilter
  refine ⟨s', fired, fun n hn => ?_, hidle', hlog, hfired.symm, ?_, hsorted, hleft.symm, h'.valid⟩
  · obtain ⟨k, rfl⟩ := Nat.exists_eq_add_of_le hn
    rw [List.foldlM_cons, hstart, quiet_add]
    show (quiet _ ++ quiet k).foldlM _ s₁ = _
    rw [List.foldlM_append, hs']
    exact quiet_idle hidle' k
  · have hids := (hperm.map Timer.id).nodup_iff.mp h.valid.nodup_ids
    rw [List.map_append] at hids
    exact hids.of_append_left

/-- Four timers, one of them without a callback, of which three are due. -/
theorem expireTimer_due_four :
    ∃ (s s' : TimerRun Unit) (fired : List (Timer Unit)),
      [.addTimer 0 5 (some ()), .addTimer 0 9 (some ()), .addTimer 0 2 none,
        .addTimer 0 5 (some ())].foldlM (step (.above _)) init = some s ∧
      s'.log = s.log ++ fired.map (fun tm => .fired tm.id) ∧
      fired.Perm (s.timer.timers.filter fun tm => tm.expire ≤ 6) ∧ s'.timer.Valid := by
  set run := ([.addTimer 0 5 (some ()), .addTimer 0 9 (some ()), .addTimer 0 2 none,
    .addTimer 0 5 (some ())] : List (TimerEvent Unit)).foldlM (step (.above _)) init with hrun
  have hcontrol : run.map TimerRun.control = some .idle := by rfl
  obtain ⟨s, hs, hidle⟩ := Option.map_eq_some_iff.mp hcontrol
  obtain ⟨s', fired, -, -, hlog, hfired, -, -, -, hvalid⟩ :=
    expireTimer_due (.above _) _ (by decide +kernel) s (hrun ▸ hs) hidle 6
  exact ⟨s, s', fired, hs, hlog, hfired, hvalid⟩

end CodeTest.TimerRun
