import CodeTest.Rpc.Route
import CodeTest.TimeOut.Live

/-!
# Each operation acts on one route

`routeOf s app` is the route that is registered for an application. In a state in which the tables
of the module and of the timers belong together (`WellFormed`), each operation changes the route of
one application, and succeeds. The three lemmas `WellFormed.initRpcRoute`, `WellFormed.takeFunctor`
and `WellFormed.takeTimeouts` say how.
-/

namespace CodeTest.CdsRpc

open TimeOutManager

variable {A N Cb Args : Type} [DecidableEq A] {s : CdsRpc A N Cb Args} {app : A}
  {r : Addr} {route : RpcRoute N Cb Args}

/-- The route that is registered for an application. -/
def routeOf (s : CdsRpc A N Cb Args) (app : A) : Option (RpcRoute N Cb Args) :=
  (s.lg_tRpcs.lookup app).bind fun r => s.routes.lookup r

/-- The timers are those of the registered routes, which have a manager and belong each to one
application. -/
structure WellFormed (s : CdsRpc A N Cb Args) : Prop where
  route : ∀ app r, s.lg_tRpcs.lookup app = some r → ∃ route, s.routes.lookup r = some route ∧
    route.timeoutmanager.isSome ∧ ∀ t, route.timerid = some t → s.timers.lookup t = some (r, app)
  timer : ∀ t r app, s.timers.lookup t = some (r, app) → s.lg_tRpcs.lookup app = some r ∧
    ∃ route, s.routes.lookup r = some route ∧ route.timerid = some t
  inj : ∀ app app' r, s.lg_tRpcs.lookup app = some r → s.lg_tRpcs.lookup app' = some r → app = app'

theorem wellFormed_init : (init : CdsRpc A N Cb Args).WellFormed where
  route app r h := by simp [init] at h
  timer t r app h := by simp [init] at h
  inj app app' r h := by simp [init] at h

namespace WellFormed

variable (h : s.WellFormed)

include h

theorem exists_manager_of_lookup (hr : s.lg_tRpcs.lookup app = some r)
    (hlookup : s.routes.lookup r = some route) : ∃ mgr, route.timeoutmanager = some mgr := by
  obtain ⟨route', hroute', hmgr, -⟩ := h.route app r hr
  rw [hlookup, Option.some_inj] at hroute'
  exact Option.isSome_iff_exists.mp (hroute' ▸ hmgr)

theorem exists_manager (hroute : s.routeOf app = some route) :
    ∃ mgr, route.timeoutmanager = some mgr := by
  obtain ⟨r, hr, hlookup⟩ := Option.bind_eq_some_iff.mp hroute
  exact h.exists_manager_of_lookup hr hlookup

/-- A route that has a timer has it registered. -/
theorem timer_registered (hroute : s.routeOf app = some route) {t : Addr}
    (ht : route.timerid = some t) :
    ∃ r, s.lg_tRpcs.lookup app = some r ∧ s.timers.lookup t = some (r, app) := by
  obtain ⟨r, hr, hlookup⟩ := Option.bind_eq_some_iff.mp hroute
  obtain ⟨route', hroute', -, htimer⟩ := h.route app r hr
  rw [hlookup, Option.some_inj] at hroute'
  exact ⟨r, hr, htimer t (hroute' ▸ ht)⟩

/-- Another application's route is another table. -/
theorem ne_of_ne {app' : A} {r' : Addr} (hr : s.lg_tRpcs.lookup app = some r)
    (hr' : s.lg_tRpcs.lookup app' = some r') (hne : app' ≠ app) : r' ≠ r := by
  rintro rfl
  exact hne (h.inj app' app r' hr' hr)

/-- Writing to the route of an application, and registering its timer if it gets one. -/
theorem setRoute (hr : s.lg_tRpcs.lookup app = some r) (hroute : s.routes.lookup r = some route)
    (route' : RpcRoute N Cb Args) (timers' : Memory (Addr × A))
    (hmgr : route'.timeoutmanager.isSome)
    (htimers : ∀ t x, timers'.lookup t = some x ↔
      s.timers.lookup t = some x ∨ x = (r, app) ∧ route'.timerid = some t)
    (hkeep : route.timerid.isSome → route'.timerid = route.timerid) :
    let s' : CdsRpc A N Cb Args :=
      { s with routes := s.routes.insert r route', timers := timers' }
    s'.WellFormed ∧ s'.routeOf app = some route' ∧
      ∀ app', app' ≠ app → s'.routeOf app' = s.routeOf app' := by
  refine ⟨⟨?_, ?_, h.inj⟩, ?_, ?_⟩
  · intro app₁ r₁ hr₁
    simp only at hr₁
    rw [Table.lookup_insert_eq]
    by_cases happ : app₁ = app
    · subst happ
      obtain rfl := Option.some_inj.mp (hr₁.symm.trans hr)
      exact ⟨route', if_pos rfl, hmgr, fun t ht => (htimers _ _).mpr (.inr ⟨rfl, ht⟩)⟩
    · obtain ⟨route₁, hroute₁, hmgr₁, htimer₁⟩ := h.route app₁ r₁ hr₁
      refine ⟨route₁, ?_, hmgr₁, fun t ht => (htimers _ _).mpr (.inl (htimer₁ t ht))⟩
      rw [if_neg (h.ne_of_ne hr hr₁ happ), hroute₁]
  · intro t r₁ app₁ ht
    rw [Table.lookup_insert_eq]
    rcases (htimers _ _).mp ht with ht | ⟨heq, hown⟩
    · obtain ⟨hr₁, route₁, hroute₁, htimer₁⟩ := h.timer t r₁ app₁ ht
      refine ⟨hr₁, ?_⟩
      by_cases hrr : r₁ = r
      · subst hrr
        rw [hroute, Option.some_inj] at hroute₁
        subst hroute₁
        exact ⟨route', if_pos rfl, by rw [hkeep (by rw [htimer₁]; rfl), htimer₁]⟩
      · exact ⟨route₁, by rw [if_neg hrr, hroute₁], htimer₁⟩
    · obtain ⟨rfl, rfl⟩ := Prod.mk.inj heq
      exact ⟨hr, route', if_pos rfl, hown⟩
  · simp only [routeOf, hr, Option.bind_some, Table.lookup_insert_eq, if_true]
  · intro app' hne
    simp only [routeOf]
    refine Option.bind_congr fun r' hr' => ?_
    rw [Table.lookup_insert_eq, if_neg (h.ne_of_ne hr hr' hne)]

theorem setRoute_keep (hr : s.lg_tRpcs.lookup app = some r)
    (hroute : s.routes.lookup r = some route) (route' : RpcRoute N Cb Args)
    (hmgr : route'.timeoutmanager.isSome) (htid : route'.timerid = route.timerid) :
    ({ s with routes := s.routes.insert r route' } : CdsRpc A N Cb Args).WellFormed ∧
      ({ s with routes := s.routes.insert r route' } : CdsRpc A N Cb Args).routeOf app =
        some route' ∧
      ∀ app', app' ≠ app →
        ({ s with routes := s.routes.insert r route' } : CdsRpc A N Cb Args).routeOf app' =
          s.routeOf app' := by
  refine h.setRoute hr hroute route' s.timers hmgr (fun t x => ⟨.inl, ?_⟩) fun _ => htid
  rintro (hx | ⟨rfl, ht⟩)
  · exact hx
  · obtain ⟨route₁, hroute₁, -, htimer⟩ := h.route app r hr
    rw [hroute, Option.some_inj] at hroute₁
    exact htimer t (by rw [← hroute₁, ← htid, ht])

/-- A registered timer belongs to an application exactly if its route has the id of the timer. -/
theorem timer_own_iff (hr : s.lg_tRpcs.lookup app = some r)
    (hroute : s.routes.lookup r = some route) {t r' : Addr} {app' : A}
    (ht : s.timers.lookup t = some (r', app')) :
    app' = app ↔ route.timerid = some t := by
  obtain ⟨hr', route₁, hroute₁, htimer₁⟩ := h.timer t r' app' ht
  constructor
  · rintro rfl
    rw [hr, Option.some_inj] at hr'
    subst hr'
    rw [hroute, Option.some_inj] at hroute₁
    rw [hroute₁, htimer₁]
  · intro ht'
    obtain ⟨route₂, hroute₂, -, htimers⟩ := h.route app r hr
    rw [hroute, Option.some_inj] at hroute₂
    subst hroute₂
    rw [htimers t ht', Option.some_inj, Prod.mk.injEq] at ht
    exact ht.2.symm

/-- When the timer of a route is removed, the timers that are left are those of other applications.
-/
theorem lookup_remove_iff (hr : s.lg_tRpcs.lookup app = some r)
    (hroute : s.routes.lookup r = some route) (t r' : Addr) (app' : A) :
    (SvrTimer.remove s.timers route.timerid).lookup t = some (r', app') ↔
      app' ≠ app ∧ s.timers.lookup t = some (r', app') := by
  cases htid : route.timerid with
  | none =>
    rw [SvrTimer.remove]
    refine ⟨fun ht => ⟨fun happ => ?_, ht⟩, fun ht => ht.2⟩
    rw [(h.timer_own_iff hr hroute ht).mp happ] at htid
    cases htid
  | some t' =>
    rw [SvrTimer.remove, Table.lookup_erase_eq]
    by_cases htt : t = t'
    · subst htt
      rw [if_pos rfl]
      refine iff_of_false (by simp) fun ht => ?_
      exact ht.1 ((h.timer_own_iff hr hroute ht.2).mpr htid)
    · rw [if_neg htt]
      refine ⟨fun ht => ⟨fun happ => htt ?_, ht⟩, fun ht => ht.2⟩
      have hown := (h.timer_own_iff hr hroute ht).mp happ
      rw [htid, Option.some_inj] at hown
      exact hown.symm

/-- Giving up the route of an application. -/
theorem teardown (hr : s.lg_tRpcs.lookup app = some r) (hroute : s.routes.lookup r = some route)
    (route' : RpcRoute N Cb Args) (htimer : route'.timerid = route.timerid) :
    (s.teardown r route' app).WellFormed ∧ (s.teardown r route' app).routeOf app = none ∧
      ∀ app', app' ≠ app → (s.teardown r route' app).routeOf app' = s.routeOf app' := by
  have hlookup : ∀ app' r', (s.lg_tRpcs.erase app).lookup app' = some r' ↔
      app' ≠ app ∧ s.lg_tRpcs.lookup app' = some r' := by
    intro app' r'
    rw [Table.lookup_erase_eq]
    by_cases happ : app' = app <;> simp [happ]
  have hremove := h.lookup_remove_iff hr hroute
  rw [← htimer] at hremove
  refine ⟨⟨?_, ?_, ?_⟩, ?_, ?_⟩
  · intro app₁ r₁ hr₁
    obtain ⟨hne, hr₁⟩ := (hlookup app₁ r₁).mp hr₁
    obtain ⟨route₁, hroute₁, hmgr₁, htimer₁⟩ := h.route app₁ r₁ hr₁
    refine ⟨route₁, ?_, hmgr₁, fun t ht => (hremove _ _ _).mpr ⟨hne, htimer₁ t ht⟩⟩
    simp only [CdsRpc.teardown]
    rw [Table.lookup_insert_eq, if_neg (h.ne_of_ne hr hr₁ hne), hroute₁]
  · intro t r₁ app₁ ht
    obtain ⟨hne, ht⟩ := (hremove _ _ _).mp ht
    obtain ⟨hr₁, route₁, hroute₁, htimer₁⟩ := h.timer t r₁ app₁ ht
    refine ⟨(hlookup _ _).mpr ⟨hne, hr₁⟩, route₁, ?_, htimer₁⟩
    simp only [CdsRpc.teardown]
    rw [Table.lookup_insert_eq, if_neg (h.ne_of_ne hr hr₁ hne), hroute₁]
  · intro app₁ app₂ r₁ h₁ h₂
    exact h.inj app₁ app₂ r₁ ((hlookup _ _).mp h₁).2 ((hlookup _ _).mp h₂).2
  · simp only [routeOf, CdsRpc.teardown]
    rw [Table.lookup_erase_eq, if_pos rfl, Option.bind_none]
  · intro app' hne
    simp only [routeOf, CdsRpc.teardown]
    rw [Table.lookup_erase_eq, if_neg hne]
    refine Option.bind_congr fun r' hr' => ?_
    rw [Table.lookup_insert_eq, if_neg (h.ne_of_ne hr hr' hne)]

/-- `getRpcRoute` makes sure that the application has a route. -/
theorem getRpcRoute (env : RpcEnv A N Cb Args) (now : ℤ) (app : A) :
    ∃ r s', s.getRpcRoute env now app = (r, s') ∧ s'.WellFormed ∧
      s'.lg_tRpcs.lookup app = some r ∧
      s'.routes.lookup r = some ((s.routeOf app).getD (genRpcRoute now)) ∧
      ∀ app', app' ≠ app → s'.routeOf app' = s.routeOf app' := by
  cases hr : s.lg_tRpcs.lookup app with
  | some r =>
    obtain ⟨route, hroute, -⟩ := h.route app r hr
    refine ⟨r, s, by rw [CdsRpc.getRpcRoute, hr], h, hr, ?_, fun _ _ => rfl⟩
    rw [routeOf, hr, Option.bind_some, hroute, Option.getD_some]
  | none =>
    have hfresh := env.newRoute.fresh_free s.routes
    refine ⟨env.newRoute.fresh s.routes, _, by rw [CdsRpc.getRpcRoute, hr], ?_, ?_, ?_, ?_⟩
    all_goals generalize env.newRoute.fresh s.routes = r at hfresh
    · have hold : ∀ app' r', s.lg_tRpcs.lookup app' = some r' → r' ≠ r := by
        rintro app' r' hr' rfl
        obtain ⟨route, hroute, -⟩ := h.route app' r' hr'
        rw [hfresh] at hroute
        exact absurd hroute (by simp)
      have hcases : ∀ app' r', (s.lg_tRpcs.insert app r).lookup app' = some r' →
          app' = app ∧ r' = r ∨ s.lg_tRpcs.lookup app' = some r' := by
        intro app' r' hr'
        rw [Table.lookup_insert_eq] at hr'
        split_ifs at hr' with happ
        · exact .inl ⟨happ, (Option.some_inj.mp hr').symm⟩
        · exact .inr hr'
      refine ⟨fun app' r' hr' => ?_, fun t r' app' ht => ?_, fun app₁ app₂ r' h₁ h₂ => ?_⟩
      · rw [Table.lookup_insert_eq]
        rcases hcases app' r' hr' with ⟨rfl, rfl⟩ | hr'
        · exact ⟨_, if_pos rfl, rfl, fun t ht => by simp [genRpcRoute] at ht⟩
        · rw [if_neg (hold app' r' hr')]
          exact h.route app' r' hr'
      · obtain ⟨hr', hroute⟩ := h.timer t r' app' ht
        rw [Table.lookup_insert_eq, Table.lookup_insert_eq, if_neg (hold app' r' hr'), if_neg]
        · exact ⟨hr', hroute⟩
        · rintro rfl
          rw [hr] at hr'
          exact absurd hr' (by simp)
      · rcases hcases app₁ r' h₁ with ⟨happ₁, hr₁⟩ | h₁ <;>
          rcases hcases app₂ r' h₂ with ⟨happ₂, hr₂⟩ | h₂
        · rw [happ₁, happ₂]
        · exact absurd hr₁ (hold _ _ h₂)
        · exact absurd hr₂ (hold _ _ h₁)
        · exact h.inj _ _ _ h₁ h₂
    · rw [Table.lookup_insert_eq, if_pos rfl]
    · rw [Table.lookup_insert_eq, if_pos rfl, routeOf, hr, Option.bind_none, Option.getD_none]
    · intro app' hne
      simp only [routeOf]
      rw [Table.lookup_insert_eq, if_neg hne]
      refine Option.bind_congr fun r' hr' => ?_
      rw [Table.lookup_insert_eq, if_neg]
      rintro rfl
      obtain ⟨route, hroute, -⟩ := h.route app' r' hr'
      rw [hfresh] at hroute
      exact absurd hroute (by simp)

variable [DecidableEq N]

/-- **`initRpcRoute`** puts the callbacks into the manager of the application's route, under the
index at which its counter stands, and the route has a timer. -/
theorem initRpcRoute [IntCast N] [Add N] [One N] [LE N] [DecidableLE N] (env : RpcEnv A N Cb Args)
    (now : ℤ) (app : A) (nTimeout : Option N) (f : CbFunctor Cb Args) :
    ∃ s' mgr t, ((s.routeOf app).getD (genRpcRoute now)).timeoutmanager = some mgr ∧
      s.initRpcRoute env now app nTimeout (some f) =
        some ((genIdx ((s.routeOf app).getD (genRpcRoute now)).cbidx).1, s') ∧ s'.WellFormed ∧
      s'.routeOf app = some
        { cbidx := (genIdx ((s.routeOf app).getD (genRpcRoute now)).cbidx).2
          timeoutmanager := some (mgr.push
            (genIdx ((s.routeOf app).getD (genRpcRoute now)).cbidx).1
            (nTimeout.getD (keepAliveTime : N)) f now)
          timerid := some t } ∧
      ∀ app', app' ≠ app → s'.routeOf app' = s.routeOf app' := by
  obtain ⟨r, s₁, hget, h₁, hr, hroute, hother⟩ := h.getRpcRoute env now app
  generalize (s.routeOf app).getD (genRpcRoute now) = route at hroute
  obtain ⟨mgr, hmgr⟩ := h₁.exists_manager_of_lookup hr hroute
  rw [CdsRpc.initRpcRoute, hget]
  simp only [hroute, hmgr, Option.bind_eq_bind, Option.bind_some]
  rcases ht : route.timerid with - | t
  · have hfresh := env.newTimer.fresh_free s₁.timers
    generalize env.newTimer.fresh s₁.timers = t at hfresh
    have htimers : ∀ t' x, (s₁.timers.insert t (r, app)).lookup t' = some x ↔
        s₁.timers.lookup t' = some x ∨ x = (r, app) ∧ some t = some t' := by
      intro t' x
      rw [Table.lookup_insert_eq]
      by_cases htt : t' = t
      · subst htt
        simp [hfresh, eq_comm]
      · simp [htt, Ne.symm htt]
    obtain ⟨hwf, hown, hrest⟩ := h₁.setRoute hr hroute
      ⟨(genIdx route.cbidx).2, some (mgr.push (genIdx route.cbidx).1
        (nTimeout.getD (keepAliveTime : N)) f now), some t⟩ _ rfl htimers (by rw [ht]; simp)
    exact ⟨_, mgr, t, rfl, rfl, hwf, hown, fun app' hne =>
      (hrest app' hne).trans (hother app' hne)⟩
  · obtain ⟨hwf, hown, hrest⟩ := h₁.setRoute_keep hr hroute
      ⟨(genIdx route.cbidx).2, some (mgr.push (genIdx route.cbidx).1
        (nTimeout.getD (keepAliveTime : N)) f now), some t⟩ rfl ht.symm
    exact ⟨_, mgr, t, rfl, rfl, hwf, hown, fun app' hne =>
      (hrest app' hne).trans (hother app' hne)⟩

/-- **`takeFunctor`** pops the callbacks from the manager of the application's route, which is given
up when something was popped and nothing is left. -/
theorem takeFunctor (env : RpcEnv A N Cb Args) (now : ℤ) (app : A) (nCbIdx : Double) :
    ∃ s' mgr, ((s.routeOf app).getD (genRpcRoute now)).timeoutmanager = some mgr ∧
      s.takeFunctor env now app nCbIdx = some ((mgr.pop nCbIdx).1, s') ∧ s'.WellFormed ∧
      s'.routeOf app = (if (mgr.pop nCbIdx).1.isSome ∧ (mgr.pop nCbIdx).2.isEmpty then none
        else some { (s.routeOf app).getD (genRpcRoute now) with
          timeoutmanager := some (mgr.pop nCbIdx).2 }) ∧
      ∀ app', app' ≠ app → s'.routeOf app' = s.routeOf app' := by
  obtain ⟨r, s₁, hget, h₁, hr, hroute, hother⟩ := h.getRpcRoute env now app
  generalize (s.routeOf app).getD (genRpcRoute now) = route at hroute
  obtain ⟨mgr, hmgr⟩ := h₁.exists_manager_of_lookup hr hroute
  rw [CdsRpc.takeFunctor, hget]
  simp only [hroute, hmgr, Option.bind_eq_bind, Option.bind_some]
  obtain ⟨hwf, hown, hrest⟩ := h₁.setRoute_keep hr hroute
    { route with timeoutmanager := some (mgr.pop nCbIdx).2 } rfl rfl
  obtain ⟨hwf', hown', hrest'⟩ := h₁.teardown hr hroute
    { route with timeoutmanager := some (mgr.pop nCbIdx).2 } rfl
  rcases hpop : (mgr.pop nCbIdx).1 with - | f
  · exact ⟨_, mgr, rfl, by rw [hpop]; rfl, hwf, by rw [hpop]; simpa using hown, fun app' hne =>
      (hrest app' hne).trans (hother app' hne)⟩
  · by_cases hempty : (mgr.pop nCbIdx).2.isEmpty
    · refine ⟨_, mgr, rfl, ?_, hwf', ?_, fun app' hne => (hrest' app' hne).trans (hother app' hne)⟩
      · rw [hpop]
        simp only [if_pos hempty]
        rfl
      · rw [hpop, if_pos ⟨rfl, hempty⟩, hown']
    · refine ⟨_, mgr, rfl, ?_, hwf, ?_, fun app' hne => (hrest app' hne).trans (hother app' hne)⟩
      · rw [hpop]
        simp only [if_neg hempty]
        rfl
      · rw [if_neg fun hboth => hempty hboth.2, hown]

/-- **The closure of a timer** pops what has timed out from the manager of its route, which is given
up when nothing is left. -/
theorem takeTimeouts [IntCast N] {t : Addr} (ht : s.timers.lookup t = some (r, app))
    (order : PairsOrder Double (CbFunctor Cb Args)) (now : ℤ) :
    ∃ s' route mgr, s.routeOf app = some route ∧ route.timeoutmanager = some mgr ∧
      s.takeTimeouts order now r app = some ((mgr.popTimeOut order now).1, s') ∧ s'.WellFormed ∧
      s'.routeOf app = (if (mgr.popTimeOut order now).2.isEmpty then none
        else some { route with timeoutmanager := some (mgr.popTimeOut order now).2 }) ∧
      ∀ app', app' ≠ app → s'.routeOf app' = s.routeOf app' := by
  obtain ⟨hr, route, hroute, -⟩ := h.timer t r app ht
  have hroute' : s.routeOf app = some route := by rw [routeOf, hr, Option.bind_some, hroute]
  obtain ⟨mgr, hmgr⟩ := h.exists_manager hroute'
  rw [CdsRpc.takeTimeouts]
  simp only [hroute, hmgr, Option.bind_eq_bind, Option.bind_some]
  by_cases hempty : (mgr.popTimeOut order now).2.isEmpty
  · obtain ⟨hwf, hown, hrest⟩ := h.teardown hr hroute
      { route with timeoutmanager := some (mgr.popTimeOut order now).2 } rfl
    exact ⟨_, route, mgr, hroute', hmgr, by rw [if_pos hempty]; rfl, hwf,
      by rw [if_pos hempty, hown], hrest⟩
  · obtain ⟨hwf, hown, hrest⟩ := h.setRoute_keep hr hroute
      { route with timeoutmanager := some (mgr.popTimeOut order now).2 } rfl rfl
    exact ⟨_, route, mgr, hroute', hmgr, by rw [if_neg hempty]; rfl, hwf,
      by rw [if_neg hempty, hown], hrest⟩

end WellFormed

end CodeTest.CdsRpc
