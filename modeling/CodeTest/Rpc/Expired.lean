import CodeTest.Foundations.Dispatch
import CodeTest.MultiTask.Expired
import CodeTest.Rpc.Answered

/-!
# Calls that expire together

The closure of a timer takes all calls that have expired out of the manager of its route, gives the
route up if none are left, and then calls their `fTimeout` one after the other. As with packs, an
error in one of them ends the check, and the calls after it are neither told nor stored.

`timeouts_called_iff` is the result for both modules.
-/

namespace CodeTest

namespace Rpc

open CdsRpc

variable {A N Cb Args D : Type}

/-- The module, and how many calls were made. -/
structure Calls (A N Cb Args : Type) where
  rpc : CdsRpc A N Cb (ℕ × Args)
  made : ℕ

/-- What may happen next; the callbacks of a check are run by the check itself. -/
inductive CallEvent (A N Cb Args D : Type)
  | call (now : ℤ) (app : A) (nTimeout : Option N) (tCbFunctor : CbFunctor Cb Args)
  | onResponse (now : ℤ) (app : A) (nCbIdx : Double) (tData : D)
  | onResponseError (now : ℤ) (app : A) (nCbIdx : Double)
  | tick (now : ℤ) (t : Addr) (order : PairsOrder Double (CbFunctor Cb (ℕ × Args)))

/-- What is called when a call expires. -/
def timeoutCall (f : CbFunctor Cb (ℕ × Args)) : Option (Invocation Cb (ℕ × Args) D) :=
  f.fTimeout.map fun fTimeout => .fTimeout fTimeout f.tArgs

/-- The number of the call of a callback. -/
def num (i : Invocation Cb (ℕ × Args) D) : ℕ := i.tArgs.1

theorem num_timeoutCall {f : CbFunctor Cb (ℕ × Args)} {i : Invocation Cb (ℕ × Args) D}
    (hi : timeoutCall f = some i) : num i = f.tArgs.1 := by
  obtain ⟨fTimeout, -, rfl⟩ := Option.map_eq_some_iff.mp hi
  rfl

namespace Calls

variable [DecidableEq A] [DecidableEq N]

def init : Calls A N Cb Args := { rpc := .init, made := 0 }

/-- One step, with the callbacks that a check has to call, in order. -/
def step [IntCast N] [Add N] [One N] [LE N] [DecidableLE N] (env : RpcEnv A N Cb (ℕ × Args))
    (s : Calls A N Cb Args) : CallEvent A N Cb Args D →
      Option (List (Invocation Cb (ℕ × Args) D) × Calls A N Cb Args)
  | .call now app nTimeout f => do
    let (_, rpc) ← s.rpc.initRpcRoute env now app nTimeout (some (f.mark s.made))
    return ([], { rpc, made := s.made + 1 })
  | .onResponse now app nCbIdx tData => do
    let (_, rpc) ← s.rpc.onResponse env now app nCbIdx tData
    return ([], { s with rpc })
  | .onResponseError now app nCbIdx => do
    let (_, rpc) ← s.rpc.onResponseError (D := D) env now app nCbIdx
    return ([], { s with rpc })
  | .tick now t order =>
    match s.rpc.timers.lookup t with
    | none => some ([], s)
    | some (r, app) => do
      let (invocations, rpc) ← s.rpc.checkTimeout order now r app
      return (invocations, { s with rpc })

/-- In a check, of the calls that expire, in the order in which they are gone through, none whose
`fTimeout` raises comes before one whose `fTimeout` does not. -/
def Orderly [IntCast N] (raises : Invocation Cb (ℕ × Args) D → Bool) (s : Calls A N Cb Args) :
    CallEvent A N Cb Args D → Prop
  | .tick now t order => ∀ x ∈ s.rpc.timers.lookup t, ∀ route ∈ s.rpc.routes.lookup x.1,
      ∀ mgr ∈ route.timeoutmanager, (mgr.expired order now).Pairwise fun x y =>
        ∀ i ∈ timeoutCall x.2, ∀ j ∈ timeoutCall y.2, raises i → raises j
  | _ => True

/-! ## The entries -/

/-- The callbacks at a place of the manager of an application. -/
def entry (rpc : CdsRpc A N Cb (ℕ × Args)) (k : A × N × Double) :
    Option (CbFunctor Cb (ℕ × Args)) :=
  ((rpc.routeOf k.1).bind fun route => route.timeoutmanager).bind fun mgr => mgr.entry k.2

/-- The number of the call at a place. -/
def owner (s : Calls A N Cb Args) (k : A × N × Double) : Option ℕ :=
  (entry s.rpc k).map fun f => f.tArgs.1

/-- The tables belong together, and the calls that are stored are numbered. -/
structure Counted (s : Calls A N Cb Args) : Prop where
  wellFormed : s.rpc.WellFormed
  numbered : Numbered s.owner s.made

variable {s : Calls A N Cb Args}

theorem counted_init : (init : Calls A N Cb Args).Counted where
  wellFormed := wellFormed_init
  numbered := by
    have hnone : ∀ k, (init : Calls A N Cb Args).owner k = none := fun k => by
      simp [owner, entry, init, CdsRpc.init, routeOf]
    exact ⟨fun k c hk => by simp [hnone] at hk, fun k k' c hk => by simp [hnone] at hk⟩

/-- What is in the manager that an operation gets for an application. -/
theorem entry_of_getD {rpc : CdsRpc A N Cb (ℕ × Args)} {app : A} {now : ℤ}
    {mgr : TimeOutManager N Double (CbFunctor Cb (ℕ × Args))}
    (hmgr : ((rpc.routeOf app).getD (genRpcRoute now)).timeoutmanager = some mgr) {p : N × Double}
    {f : CbFunctor Cb (ℕ × Args)} (hp : mgr.entry p = some f) : entry rpc (app, p) = some f := by
  rw [entry]
  cases hroute : rpc.routeOf app with
  | none =>
    rw [hroute, Option.getD_none] at hmgr
    obtain rfl := Option.some_inj.mp hmgr
    rw [TimeOutManager.entry_ctor] at hp
    cases hp
  | some route =>
    rw [hroute, Option.getD_some] at hmgr
    rw [Option.bind_some, hmgr]
    exact hp

/-- Calls are removed. -/
theorem Counted.mono (h : s.Counted) {rpc : CdsRpc A N Cb (ℕ × Args)} (hwf : rpc.WellFormed)
    (hold : ∀ k f, entry rpc k = some f → entry s.rpc k = some f) :
    ({ s with rpc } : Calls A N Cb Args).Counted ∧
      ∀ k c, ({ s with rpc } : Calls A N Cb Args).owner k = some c → s.owner k = some c := by
  have howner : ∀ k c, ({ s with rpc } : Calls A N Cb Args).owner k = some c →
      s.owner k = some c := by
    intro k c hk
    obtain ⟨f, hf, rfl⟩ := Option.map_eq_some_iff.mp hk
    rw [owner, hold k f hf]
    rfl
  exact ⟨⟨hwf, h.numbered.mono howner⟩, howner⟩

/-- A reply. -/
theorem Counted.takeFunctor (h : s.Counted) (env : RpcEnv A N Cb (ℕ × Args)) (now : ℤ) (app : A)
    (nCbIdx : Double) : ∃ tCbFunctor rpc,
    s.rpc.takeFunctor env now app nCbIdx = some (tCbFunctor, rpc) ∧
      ({ s with rpc } : Calls A N Cb Args).Counted ∧
      ∀ k c, ({ s with rpc } : Calls A N Cb Args).owner k = some c → s.owner k = some c := by
  obtain ⟨rpc, mgr, hmgr, htake, hwf, hown, hother⟩ :=
    h.wellFormed.takeFunctor env now app nCbIdx
  refine ⟨_, rpc, htake, h.mono hwf fun k f hf => ?_⟩
  obtain ⟨app', p⟩ := k
  by_cases happ : app' = app
  · subst happ
    rw [entry, hown] at hf
    split_ifs at hf
    · cases hf
    · exact entry_of_getD hmgr (TimeOutManager.entry_of_entry_pop hf)
  · rw [entry, hother app' happ] at hf
    exact hf

section Check

variable [IntCast N]

/-- What a check has to call. -/
theorem exists_checkTimeout {rpc : CdsRpc A N Cb (ℕ × Args)} {r : Addr}
    {route : RpcRoute N Cb (ℕ × Args)}
    {mgr : TimeOutManager N Double (CbFunctor Cb (ℕ × Args))}
    (hroute : rpc.routes.lookup r = some route) (hmgr : route.timeoutmanager = some mgr)
    (order : PairsOrder Double (CbFunctor Cb (ℕ × Args))) (now : ℤ) (app : A) :
    ∃ rpc', rpc.checkTimeout (D := D) order now r app =
      some ((mgr.expired order now).filterMap fun x => timeoutCall x.2, rpc') := by
  have hbatch : ((mgr.expired order now).filterMap fun x => timeoutCall (D := D) x.2) =
      ((mgr.popTimeOut order now).1.filterMap timeoutCall) := by
    rw [TimeOutManager.popTimeOut_fst, List.filterMap_map]
    rfl
  rw [hbatch, checkTimeout, takeTimeouts, hroute]
  simp only [Option.bind_eq_bind, Option.bind_some, hmgr]
  split <;> exact ⟨_, rfl⟩

/-- A check calls for the calls that expire, which are stored no more. -/
theorem Counted.check (h : s.Counted) {t r : Addr} {app : A}
    (ht : s.rpc.timers.lookup t = some (r, app))
    (order : PairsOrder Double (CbFunctor Cb (ℕ × Args))) (now : ℤ) :
    ∃ batch rpc, s.rpc.checkTimeout (D := D) order now r app = some (batch, rpc) ∧
      ({ s with rpc } : Calls A N Cb Args).Counted ∧
      DispatchStep num s.owner ({ s with rpc } : Calls A N Cb Args).owner s.made s.made batch := by
  obtain ⟨rpc, route, mgr, hroute, hmgr, htake, hwf, hown, hother⟩ :=
    h.wellFormed.takeTimeouts ht order now
  have hentry : ∀ p, entry s.rpc (app, p) = mgr.entry p := fun p => by
    rw [entry, hroute, Option.bind_some, hmgr, Option.bind_some]
  have hleft : ∀ k f, entry rpc k = some f → entry s.rpc k = some f ∧
      k ∉ ((mgr.expired order now).map fun e => ((app, e.1), e.2)).map Prod.fst := by
    rintro ⟨app', p⟩ f hf
    have hplace : (app', p) ∈
        ((mgr.expired order now).map fun e => ((app, e.1), e.2)).map Prod.fst →
          app' = app ∧ p ∈ (mgr.expired order now).map Prod.fst := by
      intro hmem
      rw [List.map_map] at hmem
      obtain ⟨e, he, heq⟩ := List.mem_map.mp hmem
      obtain ⟨rfl, rfl⟩ := Prod.mk.inj heq
      exact ⟨rfl, List.mem_map_of_mem he⟩
    by_cases happ : app' = app
    · subst happ
      rw [entry, hown] at hf
      split_ifs at hf
      · cases hf
      · obtain ⟨hold, hnot⟩ := TimeOutManager.entry_of_entry_popTimeOut order hf
        exact ⟨(hentry p).trans hold, fun hmem => hnot (hplace hmem).2⟩
    · rw [entry, hother app' happ] at hf
      exact ⟨hf, fun hmem => happ (hplace hmem).1⟩
  obtain ⟨hcounted, -⟩ := h.mono hwf fun k f hf => (hleft k f hf).1
  have hdispatch : DispatchStep num s.owner ({ s with rpc } : Calls A N Cb Args).owner s.made
      s.made (((mgr.expired order now).map fun e => ((app, e.1), e.2)).filterMap
        fun e => (timeoutCall e.2 : Option (Invocation Cb (ℕ × Args) D))) := by
    refine .take (fun f => f.tArgs.1) h.numbered ?_ (fun e he => ?_)
      (fun e _ i hi => num_timeoutCall hi) fun k c hk => ?_
    · have hnodup := (TimeOutManager.nodup_expired order mgr now).map
        (Prod.mk_right_injective app)
      rwa [List.map_map] at hnodup ⊢
    · obtain ⟨e', he', rfl⟩ := List.mem_map.mp he
      rw [owner, hentry, TimeOutManager.entry_of_mem_expired order he']
      rfl
    · obtain ⟨f, hf, rfl⟩ := Option.map_eq_some_iff.mp hk
      obtain ⟨hold, hnot⟩ := hleft k f hf
      refine ⟨?_, hnot⟩
      rw [owner, hold]
      rfl
  rw [List.filterMap_map] at hdispatch
  refine ⟨_, rpc, ?_, hcounted, hdispatch⟩
  rw [checkTimeout, htake, TimeOutManager.popTimeOut_fst]
  simp only [Option.bind_eq_bind, Option.bind_some, List.filterMap_map]
  rfl

end Check

variable [IntCast N] [Add N] [One N] [LE N] [DecidableLE N]

/-- A new call gets the next number. -/
theorem Counted.call (h : s.Counted) (env : RpcEnv A N Cb (ℕ × Args)) (now : ℤ) (app : A)
    (nTimeout : Option N) (f : CbFunctor Cb Args) :
    ∃ batch s', s.step env (.call now app nTimeout f : CallEvent A N Cb Args D) =
        some (batch, s') ∧ s'.Counted ∧
      DispatchStep num s.owner s'.owner s.made s'.made batch := by
  obtain ⟨rpc, mgr, t, hmgr, hinit, hwf, hown, hother⟩ :=
    h.wellFormed.initRpcRoute env now app nTimeout (f.mark s.made)
  have hnew : ∀ k c, ({ rpc, made := s.made + 1 } : Calls A N Cb Args).owner k = some c →
      k = (app, TimeOutManager.ddl (nTimeout.getD ((keepAliveTime : ℤ) : N)) now,
        (genIdx ((s.rpc.routeOf app).getD (genRpcRoute now)).cbidx).1) ∧ c = s.made ∨
        s.owner k = some c := by
    rintro ⟨app', p⟩ c hk
    rw [owner, entry] at hk
    by_cases happ : app' = app
    · subst happ
      rw [hown, Option.bind_some, Option.bind_some, TimeOutManager.entry_push] at hk
      split_ifs at hk with hp
      · exact .inl ⟨congrArg (Prod.mk app') hp, (Option.some_inj.mp hk).symm⟩
      · obtain ⟨f', hf', rfl⟩ := Option.map_eq_some_iff.mp hk
        refine .inr ?_
        rw [owner, entry_of_getD hmgr hf']
        rfl
    · rw [hother app' happ] at hk
      exact .inr hk
  refine ⟨[], { rpc, made := s.made + 1 }, ?_, ⟨hwf, h.numbered.put _ hnew⟩, .put hnew⟩
  rw [step, hinit]
  rfl

/-- Every step keeps the calls numbered, and dispatches. -/
theorem dispatches (env : RpcEnv A N Cb (ℕ × Args)) :
    Dispatches (Calls.step env : Calls A N Cb Args → CallEvent A N Cb Args D → _) num Counted
      owner made where
  lt s k c h hk := h.numbered.lt k c hk
  step s e h := by
    cases e with
    | call now app nTimeout f => exact h.call env now app nTimeout f
    | onResponse now app nCbIdx tData =>
      obtain ⟨tCbFunctor, rpc, htake, hcounted, howner⟩ := h.takeFunctor env now app nCbIdx
      refine ⟨[], { s with rpc }, ?_, hcounted, .mono howner⟩
      rw [step, onResponse, htake]
      rfl
    | onResponseError now app nCbIdx =>
      obtain ⟨tCbFunctor, rpc, htake, hcounted, howner⟩ := h.takeFunctor env now app nCbIdx
      refine ⟨[], { s with rpc }, ?_, hcounted, .mono howner⟩
      rw [step, onResponseError, htake]
      rfl
    | tick now t order =>
      rw [step]
      cases ht : s.rpc.timers.lookup t with
      | none => exact ⟨[], s, rfl, h, .mono fun _ _ hk => hk⟩
      | some closure =>
        obtain ⟨r, app⟩ := closure
        obtain ⟨batch, rpc, hcheck, hcounted, hdispatch⟩ := h.check (D := D) ht order now
        refine ⟨batch, { s with rpc }, ?_, hcounted, hdispatch⟩
        simp only [hcheck]
        rfl

/-- A batch is orderly if the calls that expire are. -/
theorem orderly_iff (env : RpcEnv A N Cb (ℕ × Args))
    (raises : Invocation Cb (ℕ × Args) D → Bool)
    (s : Logged (Calls A N Cb Args) (Invocation Cb (ℕ × Args) D)) (e : CallEvent A N Cb Args D) :
    Logged.Orderly (Calls.step env) raises s e ↔ s.state.Orderly raises e := by
  rw [Logged.Orderly]
  cases e with
  | tick now t order =>
    rw [step, Orderly]
    cases s.state.rpc.timers.lookup t with
    | none => simp
    | some closure =>
      obtain ⟨r, app⟩ := closure
      simp only [Option.mem_some_iff, forall_eq']
      cases hroute : s.state.rpc.routes.lookup r with
      | none => simp [checkTimeout, takeTimeouts, hroute]
      | some route =>
        cases hmgr : route.timeoutmanager with
        | none => simp [checkTimeout, takeTimeouts, hroute, hmgr]
        | some mgr =>
          obtain ⟨rpc, hcheck⟩ := exists_checkTimeout (D := D) hroute hmgr order now app
          simp only [hcheck, hmgr, Option.bind_eq_bind, Option.bind_some, Option.pure_def,
            Option.mem_some_iff, forall_eq']
          exact List.pairwise_filterMap
  | _ =>
    refine iff_of_true (fun r hr => ?_) trivial
    obtain ⟨x, -, hx⟩ := Option.bind_eq_some_iff.mp hr
    obtain rfl := Option.some_inj.mp hx
    exact .nil

end Calls

/-- **Calls that expire together**, of one route, in every run of calls, replies and checks. -/
theorem calls_called_iff [DecidableEq A] [DecidableEq N] [IntCast N] [Add N] [One N] [LE N]
    [DecidableLE N] (env : RpcEnv A N Cb (ℕ × Args))
    (raises : Invocation Cb (ℕ × Args) D → Bool) (es : List (CallEvent A N Cb Args D)) :
    ∃ s, es.foldlM (Logged.step (Calls.step env) raises) (.init .init) = some s ∧
      (PartialMachine.Meets (Logged.step (Calls.step env) raises)
          (fun s e => s.state.Orderly raises e) (.init .init) es →
        ∀ i ∈ s.due, i ∈ s.called) ∧
      (s.Kept (Calls.step env) raises ↔
        PartialMachine.Meets (Logged.step (Calls.step env) raises)
          (fun s e => s.state.Orderly raises e) (.init .init) es) := by
  have horderly : Logged.Orderly (Calls.step env) raises =
      fun (s : Logged (Calls A N Cb Args) (Invocation Cb (ℕ × Args) D)) e =>
        s.state.Orderly raises e := by
    funext s e
    exact propext (Calls.orderly_iff env raises s e)
  rw [← horderly]
  exact (Calls.dispatches env).called_iff raises Calls.counted_init es

end Rpc

open MultiTask Rpc

/-- **When an exception in a callback does not swallow the others.** In every run of the module for
packs and of the module for remote calls: if in each check, of the packs, or of the calls of the
route, that expire, in the order in which they are gone through, none whose `fTimeout` raises comes
before one whose `fTimeout` does not, then every `fTimeout` of an entry that has expired and that
does not raise was called in that check. And only then was each of them called, or is it in some
continuation of the run. -/
theorem timeouts_called_iff {A N Cb Args V D : Type} [DecidableEq A] [DecidableEq N] [IntCast N]
    [Add N] [One N] [LE N] [DecidableLE N] (newTimer : Allocator Unit)
    (packRaises : PackInvocation (ℕ × Cb) (ℕ × Args) V → Bool) (now : ℤ)
    (packEvents : List (PackEvent N Cb Args V)) (env : RpcEnv A N Cb (ℕ × Args))
    (callRaises : Invocation Cb (ℕ × Args) D → Bool)
    (callEvents : List (CallEvent A N Cb Args D)) :
    (∃ s, packEvents.foldlM (Logged.step (Packs.step newTimer) packRaises)
        (.init (.init now)) = some s ∧
      (PartialMachine.Meets (Logged.step (Packs.step newTimer) packRaises)
          (fun s e => s.state.Orderly packRaises e) (.init (.init now)) packEvents →
        ∀ i ∈ s.due, i ∈ s.called) ∧
      (s.Kept (Packs.step newTimer) packRaises ↔
        PartialMachine.Meets (Logged.step (Packs.step newTimer) packRaises)
          (fun s e => s.state.Orderly packRaises e) (.init (.init now)) packEvents)) ∧
    ∃ s, callEvents.foldlM (Logged.step (Calls.step env) callRaises) (.init .init) = some s ∧
      (PartialMachine.Meets (Logged.step (Calls.step env) callRaises)
          (fun s e => s.state.Orderly callRaises e) (.init .init) callEvents →
        ∀ i ∈ s.due, i ∈ s.called) ∧
      (s.Kept (Calls.step env) callRaises ↔
        PartialMachine.Meets (Logged.step (Calls.step env) callRaises)
          (fun s e => s.state.Orderly callRaises e) (.init .init) callEvents) :=
  ⟨packs_called_iff newTimer packRaises now packEvents,
    calls_called_iff env callRaises callEvents⟩

/-- Two packs expire in the same second, and the `fTimeout` of the first raises: that of the second
is never called. -/
theorem exists_swallowed : ¬ ∀ (raises : PackInvocation (ℕ × ℕ) (ℕ × ℕ) ℕ → Bool)
    (es : List (PackEvent ℤ ℕ ℕ ℕ)),
    ∃ s, es.foldlM (Logged.step (Packs.step (.above _)) raises) (.init (.init 100)) = some s ∧
      s.Kept (Packs.step (.above _)) raises := by
  intro h
  let raises : PackInvocation (ℕ × ℕ) (ℕ × ℕ) ℕ → Bool := fun i => MultiTask.num i = 1
  let es : List (PackEvent ℤ ℕ ℕ ℕ) :=
    [.startMultiTask 100 ⟨1, none, some 7, 11⟩ (some 1),
      .startMultiTask 100 ⟨1, none, some 7, 12⟩ (some 1), .tick 101 1 (.entries _ _)]
  obtain ⟨s, hs, hkept⟩ := h raises es
  obtain ⟨s', hs', -, hiff⟩ := packs_called_iff (.above _) raises 100 es
  obtain rfl := Option.some_inj.mp (hs'.symm.trans hs)
  exact absurd (hiff.mp hkept) (by decide +kernel)

end CodeTest
