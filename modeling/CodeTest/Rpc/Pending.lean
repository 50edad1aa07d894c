import CodeTest.Rpc.Routes

/-!
# The calls that are pending

`pending s app idx` are the callbacks stored for the index `idx` in the manager of the route that is
registered for `app`. A call stores its callbacks under one index, a reply takes out those under one
index, and a tick only takes out. To tell calls apart whose indices are the same, the callbacks of a
call are marked with its number.
-/

namespace CodeTest

/-- The callbacks of the call with the number `c`: the number is put before their arguments. -/
def CbFunctor.mark {Cb Args : Type} (f : CbFunctor Cb Args) (c : ℕ) : CbFunctor Cb (ℕ × Args) :=
  ⟨f.fCb, (c, f.tArgs), f.fTimeout, f.fError⟩

namespace CdsRpc

open TimeOutManager

variable {A N Cb Args : Type} [DecidableEq A] [DecidableEq N] {s s' : CdsRpc A N Cb Args} {app : A}

/-- The callbacks that the route of an application has stored for an index. -/
def pending (s : CdsRpc A N Cb Args) (app : A) (idx : Double) : Option (CbFunctor Cb Args) :=
  (s.routeOf app).bind fun route => route.timeoutmanager.bind fun mgr => mgr.get idx

/-- The index that the next call to an application gets. -/
def nextIdx (s : CdsRpc A N Cb Args) (app : A) : Double :=
  (genIdx ((s.routeOf app).elim 0 RpcRoute.cbidx)).1

theorem pending_eq {route : RpcRoute N Cb Args} {mgr : TimeOutManager N Double (CbFunctor Cb Args)}
    (hroute : s.routeOf app = some route) (hmgr : route.timeoutmanager = some mgr) (idx : Double) :
    s.pending app idx = (mgr.live idx).map Prod.snd := by
  rw [pending, hroute, Option.bind_some, hmgr, Option.bind_some, get_eq]

/-- A route that does not exist yet has nothing stored. -/
theorem pending_eq_getD {now : ℤ} {mgr : TimeOutManager N Double (CbFunctor Cb Args)}
    (hmgr : ((s.routeOf app).getD (genRpcRoute now)).timeoutmanager = some mgr) (idx : Double) :
    s.pending app idx = (mgr.live idx).map Prod.snd := by
  cases hroute : s.routeOf app with
  | some route =>
    rw [hroute, Option.getD_some] at hmgr
    exact pending_eq hroute hmgr idx
  | none =>
    rw [hroute, Option.getD_none] at hmgr
    obtain rfl := Option.some_inj.mp hmgr
    rw [pending, hroute, live_ctor]
    rfl

omit [DecidableEq N] in
theorem nextIdx_eq (s : CdsRpc A N Cb Args) (now : ℤ) (app : A) :
    (genIdx ((s.routeOf app).getD (genRpcRoute now)).cbidx).1 = s.nextIdx app := by
  cases hroute : s.routeOf app <;> rw [nextIdx, hroute] <;> rfl

theorem pending_congr {app' : A} (h : s'.routeOf app' = s.routeOf app') (idx : Double) :
    s'.pending app' idx = s.pending app' idx := by
  rw [pending, pending, h]

section WellFormed

variable (h : s.WellFormed)

include h

/-- **A call** stores its callbacks under the next index. -/
theorem WellFormed.pending_initRpcRoute [IntCast N] [Add N] [One N] [LE N] [DecidableLE N]
    (env : RpcEnv A N Cb Args) (now : ℤ) (app : A) (nTimeout : Option N) (f : CbFunctor Cb Args) :
    ∃ s', s.initRpcRoute env now app nTimeout (some f) = some (s.nextIdx app, s') ∧
      s'.WellFormed ∧ ∀ app' idx, s'.pending app' idx =
        if app' = app ∧ idx = s.nextIdx app then some f else s.pending app' idx := by
  obtain ⟨s', mgr, t, hmgr, hinit, hwf, hown, hother⟩ := h.initRpcRoute env now app nTimeout f
  rw [nextIdx_eq] at hinit hown
  refine ⟨s', hinit, hwf, fun app' idx => ?_⟩
  by_cases happ : app' = app
  · subst happ
    rw [pending_eq hown rfl, live_push, pending_eq_getD hmgr]
    by_cases hidx : idx = s.nextIdx app' <;> simp [hidx]
  · rw [pending_congr (hother app' happ), if_neg fun hboth => happ hboth.1]

/-- **A reply** takes out the callbacks under its index. -/
theorem WellFormed.pending_takeFunctor (env : RpcEnv A N Cb Args) (now : ℤ) (app : A)
    (idx : Double) :
    ∃ s', s.takeFunctor env now app idx = some (s.pending app idx, s') ∧ s'.WellFormed ∧
      ∀ app' idx', s'.pending app' idx' =
        if app' = app ∧ idx' = idx then none else s.pending app' idx' := by
  obtain ⟨s', mgr, hmgr, htake, hwf, hown, hother⟩ := h.takeFunctor env now app idx
  rw [pop_fst, ← pending_eq_getD hmgr] at htake
  refine ⟨s', htake, hwf, fun app' idx' => ?_⟩
  by_cases happ : app' = app
  · subst happ
    have hlive : (((mgr.pop idx).2.live idx').map Prod.snd) =
        if app' = app' ∧ idx' = idx then none else s.pending app' idx' := by
      rw [(truthy_nat mgr).live_pop, pending_eq_getD hmgr]
      by_cases hidx : idx' = idx <;> simp [hidx]
    rw [← hlive]
    split_ifs at hown with hgone
    · rw [pending, hown, (truthy_nat _).live_eq_none_of_isEmpty hgone.2]
      rfl
    · exact pending_eq hown rfl idx'
  · rw [pending_congr (hother app' happ), if_neg fun hboth => happ hboth.1]

/-- **A tick** only takes out. -/
theorem WellFormed.pending_takeTimeouts [IntCast N] {t r : Addr}
    (ht : s.timers.lookup t = some (r, app)) (order : PairsOrder Double (CbFunctor Cb Args))
    (now : ℤ) :
    ∃ tTimeouts s', s.takeTimeouts order now r app = some (tTimeouts, s') ∧ s'.WellFormed ∧
      ∀ app' idx f, s'.pending app' idx = some f → s.pending app' idx = some f := by
  obtain ⟨s', route, mgr, hroute, hmgr, htake, hwf, hown, hother⟩ := h.takeTimeouts ht order now
  refine ⟨_, s', htake, hwf, fun app' idx f hf => ?_⟩
  by_cases happ : app' = app
  · subst happ
    split_ifs at hown with hgone
    · rw [pending, hown] at hf
      exact absurd hf (by simp)
    · rw [pending_eq hown rfl] at hf
      obtain ⟨x, hx, rfl⟩ := Option.map_eq_some_iff.mp hf
      rw [pending_eq hroute hmgr, live_of_live_popTimeOut order hx]
      rfl
  · rwa [pending_congr (hother app' happ)] at hf

end WellFormed

/-! ## Managers and timers -/

/-- The tables of the manager of a registered route belong together, and the route has a timer
unless nothing is stored in it. -/
structure Managed (s : CdsRpc A N Cb Args) : Prop extends s.WellFormed where
  manager : ∀ app route mgr, s.routeOf app = some route → route.timeoutmanager = some mgr →
    mgr.Linked ∧ (route.timerid = none → mgr.isEmpty = true)

theorem managed_init : (init : CdsRpc A N Cb Args).Managed where
  toWellFormed := wellFormed_init
  manager app route mgr hroute := by simp [routeOf, init] at hroute

namespace Managed

variable (h : s.Managed)

include h

/-- Where a pending call is stored, and the timer that will look at it. -/
theorem exists_timer {idx : Double} {f : CbFunctor Cb Args} (hf : s.pending app idx = some f) :
    ∃ r route mgr t, s.lg_tRpcs.lookup app = some r ∧ s.routes.lookup r = some route ∧
      route.timeoutmanager = some mgr ∧ mgr.get idx = some f ∧ route.timerid = some t ∧
      s.timers.lookup t = some (r, app) := by
  obtain ⟨route, hroute, hf⟩ := Option.bind_eq_some_iff.mp hf
  obtain ⟨mgr, hmgr, hget⟩ := Option.bind_eq_some_iff.mp hf
  obtain ⟨r, hr, hlookup⟩ := Option.bind_eq_some_iff.mp hroute
  cases ht : route.timerid with
  | none =>
    have hempty := (h.manager app route mgr hroute hmgr).2 ht
    rw [get_eq, (truthy_nat mgr).live_eq_none_of_isEmpty hempty] at hget
    exact absurd hget (by simp)
  | some t =>
    obtain ⟨r', hr', htimer⟩ := h.timer_registered hroute ht
    rw [hr, Option.some_inj] at hr'
    subst hr'
    exact ⟨r, route, mgr, t, hr, hlookup, hmgr, hget, ht, htimer⟩

theorem manager_getD {now : ℤ} {mgr : TimeOutManager N Double (CbFunctor Cb Args)}
    (hmgr : ((s.routeOf app).getD (genRpcRoute now)).timeoutmanager = some mgr) :
    mgr.Linked ∧
      (((s.routeOf app).getD (genRpcRoute now)).timerid = none → mgr.isEmpty = true) := by
  cases hroute : s.routeOf app with
  | some route =>
    rw [hroute, Option.getD_some] at hmgr
    exact h.manager app route mgr hroute hmgr
  | none =>
    rw [hroute, Option.getD_none] at hmgr
    obtain rfl := Option.some_inj.mp hmgr
    exact ⟨linked_ctor now, fun _ => rfl⟩

/-- An operation on one route only has to keep that route in order. -/
theorem of_route (hwf : s'.WellFormed)
    (hother : ∀ app', app' ≠ app → s'.routeOf app' = s.routeOf app')
    (hown : ∀ route mgr, s'.routeOf app = some route → route.timeoutmanager = some mgr →
      mgr.Linked ∧ (route.timerid = none → mgr.isEmpty = true)) : s'.Managed := by
  refine ⟨hwf, fun app' route mgr hroute hmgr => ?_⟩
  rcases eq_or_ne app' app with rfl | hne
  · exact hown route mgr hroute hmgr
  · rw [hother app' hne] at hroute
    exact h.manager app' route mgr hroute hmgr

/-- A call under an index that is not pending. -/
theorem initRpcRoute [IntCast N] [Add N] [One N] [LE N] [DecidableLE N] (env : RpcEnv A N Cb Args)
    (now : ℤ) (nTimeout : Option N) (f : CbFunctor Cb Args)
    (hfree : s.pending app (s.nextIdx app) = none) :
    ∃ s', s.initRpcRoute env now app nTimeout (some f) = some (s.nextIdx app, s') ∧ s'.Managed ∧
      ∀ app' idx, s'.pending app' idx =
        if app' = app ∧ idx = s.nextIdx app then some f else s.pending app' idx := by
  obtain ⟨s', hinit, hwf, hpending⟩ := h.pending_initRpcRoute env now app nTimeout f
  obtain ⟨s₁, mgr, t, hmgr, hinit₁, -, hown, hother⟩ :=
    h.toWellFormed.initRpcRoute env now app nTimeout f
  rw [nextIdx_eq] at hinit₁ hown
  obtain rfl : s₁ = s' := by simpa using hinit₁.symm.trans hinit
  refine ⟨s₁, hinit, h.of_route hwf hother fun route mgr' hroute hmgr' => ?_, hpending⟩
  obtain rfl := Option.some_inj.mp (hown.symm.trans hroute)
  obtain rfl := Option.some_inj.mp hmgr'
  rw [pending_eq_getD hmgr, Option.map_eq_none_iff] at hfree
  exact ⟨(h.manager_getD hmgr).1.push hfree _ _ _, fun hnone => absurd hnone (by simp)⟩

/-- A reply. -/
theorem takeFunctor (env : RpcEnv A N Cb Args) (now : ℤ) (app : A) (idx : Double) :
    ∃ s', s.takeFunctor env now app idx = some (s.pending app idx, s') ∧ s'.Managed ∧
      ∀ app' idx', s'.pending app' idx' =
        if app' = app ∧ idx' = idx then none else s.pending app' idx' := by
  obtain ⟨s', htake, hwf, hpending⟩ := h.pending_takeFunctor env now app idx
  obtain ⟨s₁, mgr, hmgr, htake₁, -, hown, hother⟩ := h.toWellFormed.takeFunctor env now app idx
  rw [htake, Option.some_inj] at htake₁
  obtain rfl := (Prod.mk.inj htake₁).2
  refine ⟨s', htake, h.of_route hwf hother fun route mgr' hroute hmgr' => ?_, hpending⟩
  split_ifs at hown with hgone
  · rw [hown] at hroute
    exact absurd hroute (by simp)
  · obtain rfl := Option.some_inj.mp (hown.symm.trans hroute)
    obtain rfl := Option.some_inj.mp hmgr'
    obtain ⟨hlinked, htimed⟩ := h.manager_getD hmgr
    have hpop := hlinked.pop (truthy_nat mgr) idx (.entries _ _)
    refine ⟨hpop, fun hnone => (hpop.isEmpty_iff (truthy_nat _)).mpr fun idx' => ?_⟩
    -- without a timer nothing was stored before
    rw [(truthy_nat mgr).live_pop, (truthy_nat mgr).live_eq_none_of_isEmpty (htimed hnone),
      ite_self]

/-- A tick takes out entries of the manager of its route, each index once. -/
theorem takeTimeouts [IntCast N] {t r : Addr} (ht : s.timers.lookup t = some (r, app))
    (order : PairsOrder Double (CbFunctor Cb Args)) (now : ℤ) :
    ∃ (es : List (Σ _ : Double, CbFunctor Cb Args)) (s' : CdsRpc A N Cb Args),
      s.takeTimeouts order now r app = some (es.map Sigma.snd, s') ∧ s'.Managed ∧
      (es.map Sigma.fst).Nodup ∧ (∀ idx f, ⟨idx, f⟩ ∈ es → s.pending app idx = some f) ∧
      ∀ app' idx, s'.pending app' idx =
        if app' = app ∧ idx ∈ es.map Sigma.fst then none else s.pending app' idx := by
  obtain ⟨s', route, mgr, hroute, hmgr, htake, hwf, hown, hother⟩ :=
    h.toWellFormed.takeTimeouts ht order now
  obtain ⟨hlinked, htimed⟩ := h.manager app route mgr hroute hmgr
  obtain ⟨es, hout, hnodup, hmem, hlive, hlinked'⟩ := hlinked.popTimeOut order now
  refine ⟨es, s', by rw [htake, hout], h.of_route hwf hother fun route' mgr' hroute' hmgr' => ?_,
    hnodup, fun idx f hf => ?_, fun app' idx => ?_⟩
  · split_ifs at hown with hgone
    · rw [hown] at hroute'
      exact absurd hroute' (by simp)
    · obtain rfl := Option.some_inj.mp (hown.symm.trans hroute')
      obtain rfl := Option.some_inj.mp hmgr'
      refine ⟨hlinked', fun hnone => (hlinked'.isEmpty_iff (truthy_nat _)).mpr fun idx => ?_⟩
      rw [hlive, (truthy_nat mgr).live_eq_none_of_isEmpty (htimed hnone), ite_self]
  · obtain ⟨i, -, -, hi⟩ := (hmem idx f).mp hf
    rw [pending_eq hroute hmgr, hi]
    rfl
  · rcases eq_or_ne app' app with rfl | hne
    · have hlive' : (((mgr.popTimeOut order now).2.live idx).map Prod.snd) =
          if app' = app' ∧ idx ∈ es.map Sigma.fst then none else s.pending app' idx := by
        rw [hlive, pending_eq hroute hmgr]
        split_ifs with h₁ h₂ h₂
        · rfl
        · exact absurd ⟨rfl, h₁⟩ h₂
        · exact absurd h₂.2 h₁
        · rfl
      rw [← hlive']
      split_ifs at hown with hgone
      · rw [pending, hown, (truthy_nat _).live_eq_none_of_isEmpty hgone]
        rfl
      · exact pending_eq hown rfl idx
    · rw [pending_congr (hother app' hne), if_neg fun hboth => hne hboth.1]

end Managed

end CdsRpc

end CodeTest
