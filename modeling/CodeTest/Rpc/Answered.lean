import CodeTest.Foundations.Ledger
import CodeTest.Foundations.Machine
import CodeTest.Rpc.Pending

/-!
# Every call is answered once

Calls, replies and ticks in any order. A reply is any message with an application and an index: it
may come twice, or late, or for a call that was never made. Callbacks are run in the order in which
they are queued, and may make calls. Besides what the code keeps, the state has the calls made so
far, in order, and a log of how they ended.

As long as no call is made under an index that is still pending, the calls form a ledger, whose
places are the applications and indices (`Accounted`). So each call is pending, in the manager of a
route that has a timer, or has ended once, in one way, and the callback for that was run or waits to
be run, once, if the call has it (`answered_once`). A call that has none for the way it ended ends
without a callback (`timeout_without_callback`).
-/

namespace CodeTest

/-- How a call ends. -/
inductive Outcome (D : Type)
  | response (tData : D)
  | timeout
  | error

/-- What is run for an outcome: the callback for it, if there is one. -/
def CbFunctor.callback {Cb Args D : Type} (f : CbFunctor Cb Args) :
    Outcome D → Option (Invocation Cb Args D)
  | .response tData => f.fCb.map fun fCb => .fCb fCb tData f.tArgs
  | .timeout => f.fTimeout.map fun fTimeout => .fTimeout fTimeout f.tArgs
  | .error => f.fError.map fun fError => .fError fError f.tArgs

theorem CbFunctor.tArgs_of_callback {Cb Args D : Type} {f : CbFunctor Cb Args} {o : Outcome D}
    {i : Invocation Cb Args D} (h : f.callback o = some i) : i.tArgs = f.tArgs := by
  cases o with
  | response tData =>
    obtain ⟨fCb, -, rfl⟩ := Option.map_eq_some_iff.mp h
    rfl
  | timeout =>
    obtain ⟨fTimeout, -, rfl⟩ := Option.map_eq_some_iff.mp h
    rfl
  | error =>
    obtain ⟨fError, -, rfl⟩ := Option.map_eq_some_iff.mp h
    rfl

namespace Rpc

open CdsRpc

/-- The module, the calls made so far with their callbacks, how those that ended did, and the
callbacks that are still to be run and those that have been. -/
structure Caller (A N Cb Args D : Type) where
  rpc : CdsRpc A N Cb (ℕ × Args)
  calls : List (A × CbFunctor Cb Args)
  ended : List (ℕ × Outcome D)
  queue : List (Invocation Cb (ℕ × Args) D)
  executed : List (Invocation Cb (ℕ × Args) D)

/-- What may happen next. -/
inductive Act (A N Cb Args D : Type)
  | call (now : ℤ) (app : A) (nTimeout : Option N) (tCbFunctor : CbFunctor Cb Args)
  | onResponse (now : ℤ) (app : A) (nCbIdx : Double) (tData : D)
  | onResponseError (now : ℤ) (app : A) (nCbIdx : Double)
  | tick (now : ℤ) (t : Addr) (order : PairsOrder Double (CbFunctor Cb (ℕ × Args)))
  | run

namespace Caller

variable {A N Cb Args D : Type} [DecidableEq A] [DecidableEq N]

def init : Caller A N Cb Args D :=
  { rpc := .init, calls := [], ended := [], queue := [], executed := [] }

/-- The calls with the callbacks `fs` end. -/
def close (s : Caller A N Cb Args D) (fs : List (CbFunctor Cb (ℕ × Args))) (o : Outcome D)
    (invocations : List (Invocation Cb (ℕ × Args) D)) (rpc : CdsRpc A N Cb (ℕ × Args)) :
    Caller A N Cb Args D :=
  { s with
    rpc, ended := s.ended ++ fs.map fun f => (f.tArgs.1, o)
    queue := s.queue ++ invocations }

section Step

variable [IntCast N] [Add N] [One N] [LE N] [DecidableLE N]

/-- One step. The first half of an operation is computed once more for the log, to see which calls
it takes out. -/
def step (env : RpcEnv A N Cb (ℕ × Args)) (s : Caller A N Cb Args D) :
    Act A N Cb Args D → Option (Caller A N Cb Args D)
  | .call now app nTimeout f => do
    let (_, rpc) ← s.rpc.initRpcRoute env now app nTimeout (some (f.mark s.calls.length))
    return { s with rpc, calls := s.calls ++ [(app, f)] }
  | .onResponse now app nCbIdx tData => do
    let (tCbFunctor, _) ← s.rpc.takeFunctor env now app nCbIdx
    let (invocations, rpc) ← s.rpc.onResponse env now app nCbIdx tData
    return s.close tCbFunctor.toList (.response tData) invocations rpc
  | .onResponseError now app nCbIdx => do
    let (tCbFunctor, _) ← s.rpc.takeFunctor env now app nCbIdx
    let (invocations, rpc) ← s.rpc.onResponseError env now app nCbIdx
    return s.close tCbFunctor.toList .error invocations rpc
  | .tick now t order =>
    match s.rpc.timers.lookup t with
    | none => some s
    | some (r, app) => do
      let (tTimeouts, _) ← s.rpc.takeTimeouts order now r app
      let (invocations, rpc) ← s.rpc.checkTimeout order now r app
      return s.close tTimeouts .timeout invocations rpc
  | .run => some { s with queue := s.queue.tail, executed := s.executed ++ s.queue.head?.toList }

end Step

/-- A call is not made under an index that is still pending. -/
def FreeIdx (s : Caller A N Cb Args D) : Act A N Cb Args D → Prop
  | .call _ app _ _ => s.rpc.pending app (s.rpc.nextIdx app) = none
  | _ => True

instance decidableFreeIdx (s : Caller A N Cb Args D) : ∀ e, Decidable (FreeIdx s e)
  | .call _ app _ _ => inferInstanceAs (Decidable (s.rpc.pending app (s.rpc.nextIdx app) = none))
  | .onResponse _ _ _ _ => isTrue trivial
  | .onResponseError _ _ _ => isTrue trivial
  | .tick _ _ _ => isTrue trivial
  | .run => isTrue trivial

/-- The callbacks of the call `c` are stored in the manager of the route that is registered for its
application, and the route has a timer that is registered. -/
def Pending (s : Caller A N Cb Args D) (c : ℕ) (app : A) (f : CbFunctor Cb Args) : Prop :=
  ∃ r route mgr idx t, s.rpc.lg_tRpcs.lookup app = some r ∧ s.rpc.routes.lookup r = some route ∧
    route.timeoutmanager = some mgr ∧ mgr.get idx = some (f.mark c) ∧ route.timerid = some t ∧
    s.rpc.timers.lookup t = some (r, app)

/-- The entries of the log for the call `c`. -/
def endings (s : Caller A N Cb Args D) (c : ℕ) : List (ℕ × Outcome D) :=
  s.ended.filter fun x => x.1 = c

/-- The callbacks of the call `c` that were run or wait to be run. -/
def invocations (s : Caller A N Cb Args D) (c : ℕ) : List (Invocation Cb (ℕ × Args) D) :=
  (s.executed ++ s.queue).filter fun i => i.tArgs.1 = c

/-! ## The invariant -/

/-- What an entry of the log lets run. -/
def effect (calls : List (A × CbFunctor Cb Args)) (x : ℕ × Outcome D) :
    Option (Invocation Cb (ℕ × Args) D) :=
  calls[x.1]?.bind fun y => (y.2.mark x.1).callback x.2

/-- The number of the call at a place. -/
def owner (rpc : CdsRpc A N Cb (ℕ × Args)) (k : A × Double) : Option ℕ :=
  (rpc.pending k.1 k.2).map fun f => f.tArgs.1

/-- The calls form a ledger, what is stored are their callbacks, and what was queued is what the log
lets run. -/
structure Accounted (s : Caller A N Cb Args D) : Prop where
  managed : s.rpc.Managed
  stored : ∀ app idx f, s.rpc.pending app idx = some f →
    ∃ g, s.calls[f.tArgs.1]? = some (app, g) ∧ f = g.mark f.tArgs.1
  balanced : Ledger.Balanced (owner s.rpc) s.calls.length s.ended
  ran : s.executed ++ s.queue = s.ended.filterMap (effect s.calls)

variable {s : Caller A N Cb Args D}

theorem accounted_init : (init : Caller A N Cb Args D).Accounted where
  managed := managed_init
  stored app idx f h := by simp [init, CdsRpc.init, pending, routeOf] at h
  balanced := Ledger.balanced_empty
  ran := rfl

omit [DecidableEq A] [DecidableEq N] in
theorem effect_num (calls : List (A × CbFunctor Cb Args)) (x : ℕ × Outcome D)
    (i : Invocation Cb (ℕ × Args) D) (h : effect calls x = some i) : i.tArgs.1 = x.1 := by
  obtain ⟨y, -, hi⟩ := Option.bind_eq_some_iff.mp h
  rw [CbFunctor.tArgs_of_callback hi]
  rfl

/-- The calls at some indices of an application end. -/
theorem Accounted.close (h : s.Accounted) {rpc : CdsRpc A N Cb (ℕ × Args)} (hmanaged : rpc.Managed)
    (app : A) (es : List (Σ _ : Double, CbFunctor Cb (ℕ × Args)))
    (hnodup : (es.map Sigma.fst).Nodup)
    (hmem : ∀ idx f, ⟨idx, f⟩ ∈ es → s.rpc.pending app idx = some f)
    (hpending : ∀ app' idx, rpc.pending app' idx =
      if app' = app ∧ idx ∈ es.map Sigma.fst then none else s.rpc.pending app' idx)
    (o : Outcome D) :
    (s.close (es.map Sigma.snd) o ((es.map Sigma.snd).filterMap fun f => f.callback o)
      rpc).Accounted := by
  refine ⟨hmanaged, fun app' idx f hf => ?_, ?_, ?_⟩
  · rw [Caller.close, hpending] at hf
    split_ifs at hf
    exact h.stored app' idx f hf
  · refine h.balanced.close (Prod.mk_right_injective app) (fun f => f.tArgs.1) es hnodup ?_ ?_ o
    · intro idx f he
      rw [owner, hmem idx f he]
      rfl
    · rintro ⟨app', idx⟩
      have hiff : (app', idx) ∈ es.map (fun e => (app, e.1)) ↔
          app' = app ∧ idx ∈ es.map Sigma.fst := by
        simp only [List.mem_map, Prod.mk.injEq]
        constructor
        · rintro ⟨e, he, rfl, rfl⟩
          exact ⟨rfl, e, he, rfl⟩
        · rintro ⟨rfl, e, he, rfl⟩
          exact ⟨e, he, rfl, rfl⟩
      simp only [owner, Caller.close, hpending, hiff]
      split_ifs <;> rfl
  · rw [Caller.close, ← List.append_assoc, h.ran, List.filterMap_append, List.filterMap_map,
      List.filterMap_map, List.map_map, List.filterMap_map]
    congr 1
    refine List.filterMap_congr fun e he => ?_
    -- what is stored are the callbacks of the call
    obtain ⟨g, hg, hmark⟩ := h.stored app e.1 e.2 (hmem e.1 e.2 he)
    simp only [Function.comp_apply, effect, hg, Option.bind_some, ← hmark]

/-- A reply for the call at an index of an application. -/
theorem Accounted.close_pending (h : s.Accounted) {rpc : CdsRpc A N Cb (ℕ × Args)}
    (hmanaged : rpc.Managed) {app : A} {idx : Double}
    (hpending : ∀ app' idx', rpc.pending app' idx' =
      if app' = app ∧ idx' = idx then none else s.rpc.pending app' idx') (o : Outcome D) :
    (s.close (s.rpc.pending app idx).toList o
      ((s.rpc.pending app idx).toList.filterMap fun f => f.callback o) rpc).Accounted := by
  cases hf : s.rpc.pending app idx with
  | none =>
    refine h.close hmanaged app [] (by simp) (by simp) (fun app' idx' => ?_) o
    rw [hpending]
    split_ifs with hboth hin hin
    · exact absurd hin.2 (by simp)
    · rw [hboth.1, hboth.2, hf]
    · exact absurd hin.2 (by simp)
    · rfl
  | some f =>
    refine h.close hmanaged app [⟨idx, f⟩] (by simp) (fun idx' f' he => ?_)
      (fun app' idx' => ?_) o
    · obtain ⟨rfl, rfl⟩ : idx' = idx ∧ f' = f := by simpa using he
      exact hf
    · rw [hpending]
      simp only [List.map_cons, List.map_nil, List.mem_singleton]

/-- **What the accounts say about a call.** -/
theorem Accounted.pending_or_ended (h : s.Accounted) {c : ℕ} {app : A} {f : CbFunctor Cb Args}
    (hc : s.calls[c]? = some (app, f)) :
    (s.Pending c app f ∧ s.endings c = [] ∧ s.invocations c = []) ∨
      (¬ s.Pending c app f ∧ ∃ o, s.endings c = [(c, o)] ∧
        s.invocations c = ((f.mark c).callback o).toList) := by
  have hran : s.invocations c = (s.endings c).filterMap (effect s.calls) := by
    rw [invocations, h.ran, endings]
    exact Ledger.filter_filterMap_effect s.ended (effect_num s.calls) c
  rcases h.balanced.open_or_closed (List.getElem?_eq_some_iff.mp hc).1 with
    ⟨⟨⟨app', idx⟩, howner⟩, hnone⟩ | ⟨hnot, o, ho⟩
  · left
    obtain ⟨f', hf', rfl⟩ := Option.map_eq_some_iff.mp howner
    obtain ⟨g, hg, hmark⟩ := h.stored app' idx f' hf'
    obtain ⟨rfl, rfl⟩ := Prod.mk.inj (Option.some_inj.mp (hg.symm.trans hc))
    obtain ⟨r, route, mgr, t, hr, hroute, hmgr, hget, htid, htimer⟩ := h.managed.exists_timer hf'
    refine ⟨⟨r, route, mgr, idx, t, hr, hroute, hmgr, hmark ▸ hget, htid, htimer⟩, hnone, ?_⟩
    rw [hran, endings, hnone]
    rfl
  · right
    refine ⟨?_, o, ho, ?_⟩
    · rintro ⟨r, route, mgr, idx, t, hr, hroute, hmgr, hget, -⟩
      refine hnot ⟨(app, idx), ?_⟩
      simp only [owner, pending, routeOf, hr, hroute, hmgr, hget, Option.bind_some, Option.map_some]
      rfl
    · rw [hran, endings, ho]
      simp only [effect, List.filterMap_cons, hc, Option.bind_some, List.filterMap_nil]
      cases (f.mark c).callback o <;> rfl

variable [IntCast N] [Add N] [One N] [LE N] [DecidableLE N]

/-- A call, under an index that is not pending. -/
theorem Accounted.call (h : s.Accounted) (env : RpcEnv A N Cb (ℕ × Args)) (now : ℤ) (app : A)
    (nTimeout : Option N) (f : CbFunctor Cb Args)
    (hfree : s.rpc.pending app (s.rpc.nextIdx app) = none) :
    ∃ s', s.step env (.call now app nTimeout f) = some s' ∧ s'.Accounted := by
  obtain ⟨rpc, hinit, hmanaged, hpending⟩ :=
    h.managed.initRpcRoute env now nTimeout (f.mark s.calls.length) hfree
  refine ⟨{ s with rpc, calls := s.calls ++ [(app, f)] }, ?_, hmanaged, ?_, ?_, ?_⟩
  · rw [step, hinit]
    rfl
  · intro app' idx f' hf'
    rw [hpending] at hf'
    split_ifs at hf' with hnew
    · obtain rfl := Option.some_inj.mp hf'
      exact ⟨f, by rw [hnew.1]; exact List.getElem?_concat_length, rfl⟩
    · obtain ⟨g, hg, hmark⟩ := h.stored app' idx f' hf'
      exact ⟨g, List.getElem?_append_left (List.getElem?_eq_some_iff.mp hg).1 ▸ hg, hmark⟩
  · rw [List.length_append, List.length_singleton]
    refine h.balanced.openAt (app, s.rpc.nextIdx app) (by rw [owner, hfree]; rfl) fun k => ?_
    rw [owner, hpending]
    by_cases hk : k = (app, s.rpc.nextIdx app)
    · rw [if_pos hk, if_pos (by rw [hk]; exact ⟨rfl, rfl⟩)]
      rfl
    · rw [if_neg hk, if_neg fun hboth => hk (Prod.ext hboth.1 hboth.2)]
      rfl
  · rw [h.ran]
    refine List.filterMap_congr fun x hx => ?_
    have hlt := h.balanced.closed_lt x.1 (List.mem_map_of_mem hx)
    rw [effect, effect, List.getElem?_append_left hlt]

/-- Every step under the condition succeeds and keeps the accounts. -/
theorem Accounted.step (env : RpcEnv A N Cb (ℕ × Args)) (s : Caller A N Cb Args D)
    (e : Act A N Cb Args D) (h : s.Accounted) (hfree : FreeIdx s e) :
    ∃ s', s.step env e = some s' ∧ s'.Accounted := by
  cases e with
  | call now app nTimeout f => exact h.call env now app nTimeout f hfree
  | onResponse now app nCbIdx tData =>
    obtain ⟨rpc, htake, hmanaged, hpending⟩ := h.managed.takeFunctor env now app nCbIdx
    refine ⟨_, ?_, h.close_pending hmanaged hpending (.response tData)⟩
    rw [Caller.step, onResponse, htake]
    rfl
  | onResponseError now app nCbIdx =>
    obtain ⟨rpc, htake, hmanaged, hpending⟩ := h.managed.takeFunctor env now app nCbIdx
    refine ⟨_, ?_, h.close_pending hmanaged hpending .error⟩
    rw [Caller.step, onResponseError, htake]
    rfl
  | tick now t order =>
    rw [Caller.step]
    cases ht : s.rpc.timers.lookup t with
    | none => exact ⟨s, rfl, h⟩
    | some closure =>
      obtain ⟨r, app⟩ := closure
      obtain ⟨es, rpc, htake, hmanaged, hnodup, hmem, hpending⟩ :=
        h.managed.takeTimeouts ht order now
      refine ⟨_, ?_, h.close hmanaged app es hnodup hmem hpending .timeout⟩
      simp only [checkTimeout, htake]
      rfl
  | run =>
    refine ⟨_, rfl, h.managed, h.stored, h.balanced, ?_⟩
    rw [← h.ran]
    cases s.queue <;> simp

end Caller

open Caller

/-- **Every call is answered once.** In every run of calls, replies of any kind, ticks and
callbacks, in any order, in which no call is made under an index that is still pending, the
operations succeed, and of each call made so far either the callbacks are stored in the manager of
the route that is registered for its application, with a timer that is registered, and none of them
was queued; or they are not, the call has ended once, and what was queued of its callbacks is the
one for the way it ended, if it has that, and once. -/
theorem answered_once {A N Cb Args D : Type} [DecidableEq A] [DecidableEq N] [IntCast N] [Add N]
    [One N] [LE N] [DecidableLE N] (env : RpcEnv A N Cb (ℕ × Args)) (es : List (Act A N Cb Args D))
    (hfree : PartialMachine.Meets (Caller.step env) FreeIdx Caller.init es) :
    ∃ s, es.foldlM (Caller.step env) Caller.init = some s ∧
      ∀ c app f, s.calls[c]? = some (app, f) →
        (s.Pending c app f ∧ s.endings c = [] ∧ s.invocations c = []) ∨
        (¬ s.Pending c app f ∧ ∃ o, s.endings c = [(c, o)] ∧
          s.invocations c = ((f.mark c).callback o).toList) := by
  obtain ⟨s, hrun, h⟩ := PartialMachine.exists_run (Accounted.step env) accounted_init hfree
  exact ⟨s, hrun, fun c app f hc => h.pending_or_ended hc⟩

/-- Two calls to application 7: the first is answered, and once more when it has ended, and the
second times out. -/
theorem answered_once_mixed : ∃ s,
    [.call 100 7 (some 1) ⟨some 1, 11, some 2, some 3⟩,
      .call 100 7 (some 1) ⟨some 1, 12, some 2, some 3⟩,
      .onResponse 100 7 (2 ^ 32 + 1) 5, .onResponse 100 7 (2 ^ 32 + 1) 5, .run,
      .tick 101 1 (.entries _ _)].foldlM
        (Caller.step ⟨.above _, .above _⟩ : Caller ℕ ℤ ℕ ℕ ℕ → Act ℕ ℤ ℕ ℕ ℕ → _) Caller.init =
          some s ∧
      ∀ c app f, s.calls[c]? = some (app, f) →
        (s.Pending c app f ∧ s.endings c = [] ∧ s.invocations c = []) ∨
        (¬ s.Pending c app f ∧ ∃ o, s.endings c = [(c, o)] ∧
          s.invocations c = ((f.mark c).callback o).toList) :=
  answered_once _ _ (by decide +kernel)

/-- A call without a callback for the timeout times out: it is not pending, and nothing is run. -/
theorem timeout_without_callback : ¬ ∀ es : List (Act ℕ ℤ ℕ ℕ ℕ),
    PartialMachine.Meets (Caller.step ⟨.above _, .above _⟩) FreeIdx Caller.init es →
    ∀ s ∈ es.foldlM (Caller.step ⟨.above _, .above _⟩) Caller.init, ∀ c app f,
      s.calls[c]? = some (app, f) → s.Pending c app f ∨ (s.invocations c).length = 1 := by
  intro hall
  let es : List (Act ℕ ℤ ℕ ℕ ℕ) :=
    [.call 100 7 (some 1) ⟨some 1, 11, none, some 3⟩, .tick 101 1 (.entries _ _)]
  have hend : ∃ s ∈ es.foldlM (Caller.step ⟨.above _, .above _⟩) Caller.init,
      s.calls[0]? = some (7, ⟨some 1, 11, none, some 3⟩) ∧ s.rpc.lg_tRpcs.lookup 7 = none ∧
        s.invocations 0 = [] := by
    decide +kernel
  obtain ⟨s, hs, hcall, hroute, hnone⟩ := hend
  rcases hall es (by decide +kernel) s hs 0 7 _ hcall with ⟨r, route, mgr, idx, t, hr, -⟩ | hone
  · exact absurd (hroute.symm.trans hr) (by simp)
  · exact absurd (hnone ▸ hone) (by simp)

end Rpc

end CodeTest
