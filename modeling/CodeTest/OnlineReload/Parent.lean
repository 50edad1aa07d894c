import CodeTest.OnlineReload.Reloader

/-!
# The parent of an import

The code of modules is a tree: it imports modules, whose code runs meanwhile, and reloads modules,
and goes on from each call according to whether this has raised, so that it may catch an exception
or let it pass.

`_parent` is restored by hand: `_import` does so if it returns, and `_reload` sets it to `None`
instead. It is the same after every call as before it exactly if no call meets a state in which this
is wrong (`parent_restored_iff`), and then each dependency is recorded under the module whose import
or reload runs the code that performs it.
-/

namespace CodeTest

/-- Code of modules. An import has the code that `_baseimport` runs and what this returns, a reload
the code of each module, that of its `__reload__`, and the depth to which it can recurse; both have
the code that comes next when the call has returned, and when it has raised. -/
inductive Code
  | done
  | raise
  | import_ (name : String) (fromlist : Bool) (body : Code) (base : Option String)
      (modules : Modules) (next : Bool → Code)
  | reload (depth : ℕ) (m : String) (hasReload copyRaises : String → Bool)
      (body callback : String → Code) (next : Bool → Code)

namespace Code

/-- Running code of the module `performer`. -/
def run (blacklist : Option (Finset String)) : Code → Option String → Globals → Ran
  | .done, _, g => ⟨false, g, []⟩
  | .raise, _, g => ⟨true, g, []⟩
  | .import_ name fromlist body base modules next, performer, g =>
    let r := _import performer name fromlist (fun g => run blacklist body (some name) g) base
      modules g
    let r' := run blacklist (next r.raised) performer r.globals
    { r' with log := r.log ++ r'.log }
  | .reload depth m hasReload copyRaises body callback next, performer, g =>
    let env : ReloadEnv :=
      { blacklist, hasReload, copyRaises
        impReload := fun name g => run blacklist (body name) (some name) g
        callback := fun name g => run blacklist (callback name) (some name) g }
    let r := env.reload depth m g
    let r' := run blacklist (next (r.outcome ≠ .finished)) performer r.walk.state
    { r' with log := r.log ++ r'.log }

end Code

namespace LogEntry

/-- After the call `_parent` is what it was before. -/
def Restored : LogEntry → Prop
  | .ended _ _ before after => after = before
  | .recorded _ _ _ => True

/-- The dependency is recorded under the module whose code performed the import. -/
def Attributed : LogEntry → Prop
  | .ended _ _ _ _ => True
  | .recorded performer under _ => performer = some under

/-- The state that a call meets is one in which it restores `_parent`: it is the name of the module
for an import, or a reload, that raises, and `None` for a reload that returns. -/
def Restorable : LogEntry → Prop
  | .ended (.import_ name) .raised before _ => before = some name
  | .ended (.reload name) .raised before _ => before = some name
  | .ended (.reload _) .returned before _ => before = none
  | _ => True

end LogEntry

/-! ## Keeping track -/

/-- What holds of the log of something that is run by code of the module `performer`, from a state
in which this is the parent, and of the parent afterwards. -/
structure Tracked (performer parent : Option String) (log : List LogEntry) : Prop where
  restored_iff : (∀ e ∈ log, e.Restored) ↔ ∀ e ∈ log, e.Restorable
  parent_eq : (∀ e ∈ log, e.Restored) → parent = performer
  attributed : (∀ e ∈ log, e.Restored) → ∀ e ∈ log, e.Attributed

namespace Tracked

variable {performer performer' parent parent' before : Option String} {log log' : List LogEntry}

theorem nil (performer : Option String) : Tracked performer performer [] := by
  refine ⟨iff_of_true ?_ ?_, fun _ => rfl, fun _ => ?_⟩ <;> simp

/-- One after the other. -/
theorem append (h : Tracked performer parent log)
    (h' : parent = performer → Tracked performer' parent' log') :
    Tracked performer' parent' (log ++ log') := by
  have hsplit : ∀ P : LogEntry → Prop,
      (∀ e ∈ log ++ log', P e) ↔ (∀ e ∈ log, P e) ∧ ∀ e ∈ log', P e := fun P =>
    List.forall_mem_append
  refine ⟨?_, fun hall => ?_, fun hall => ?_⟩
  · rw [hsplit, hsplit, ← h.restored_iff]
    exact and_congr_right fun hfirst => (h' (h.parent_eq hfirst)).restored_iff
  · obtain ⟨hfirst, hsecond⟩ := (hsplit _).mp hall
    exact (h' (h.parent_eq hfirst)).parent_eq hsecond
  · obtain ⟨hfirst, hsecond⟩ := (hsplit _).mp hall
    exact (hsplit _).mpr
      ⟨h.attributed hfirst, (h' (h.parent_eq hfirst)).attributed hsecond⟩

/-- The end of a call from a state with the parent `before`. -/
theorem ended (h : Tracked performer parent log) {call : ImportCall} {how : CallEnd}
    (hiff : parent = performer →
      (parent' = before ↔ (LogEntry.ended call how before parent').Restorable)) :
    Tracked before parent' (log ++ [.ended call how before parent']) := by
  refine h.append fun hparent => ⟨?_, fun hall => hall _ (List.mem_singleton_self _), ?_⟩
  · rw [List.forall_mem_singleton, List.forall_mem_singleton]
    exact hiff hparent
  · intro _ e he
    obtain rfl := List.mem_singleton.mp he
    trivial

/-- A dependency is recorded under the parent. -/
theorem recorded (under m : String) : Tracked (some under) (some under)
    [.recorded (some under) under m] := by
  refine ⟨?_, fun _ => rfl, fun _ => ?_⟩ <;> simp [LogEntry.Restored, LogEntry.Restorable,
    LogEntry.Attributed]

end Tracked

/-! ## The calls -/

/-- `_import`. -/
theorem tracked_import {name : String} {baseimport : Globals → Ran}
    (hbase : ∀ g, g.parent = some name →
      Tracked (some name) (baseimport g).globals.parent (baseimport g).log)
    (fromlist : Bool) (base : Option String) (modules : Modules) (g : Globals) :
    let r := _import g.parent name fromlist baseimport base modules g
    Tracked g.parent r.globals.parent r.log := by
  have h := hbase { g with parent := some name } rfl
  have hraised : ∀ globals : Globals,
      globals.parent = (baseimport { g with parent := some name }).globals.parent →
      Tracked g.parent globals.parent ((baseimport { g with parent := some name }).log ++
        [.ended (.import_ name) .raised g.parent globals.parent]) := by
    intro globals hglobals
    refine h.ended fun hparent => ?_
    rw [hglobals, hparent]
    exact eq_comm
  have hreturned : ∀ {performer parent log}, Tracked performer parent log →
      Tracked g.parent g.parent (log ++ [.ended (.import_ name) .returned g.parent g.parent]) :=
    fun hlog => hlog.ended fun _ => iff_of_true rfl trivial
  unfold _import
  simp only
  split
  · exact hraised _ rfl
  · split
    · rename_i base under hunder
      split
      · exact hraised _ rfl
      · split
        · rename_i m _ _
          have hrecorded := h.append fun _ => Tracked.recorded under m
          rw [← hunder] at hrecorded
          exact hreturned hrecorded
        · exact hreturned h
    · exact hreturned h

open DepthFirst

namespace ReloadEnv

variable {env : ReloadEnv}

theorem tracked_reloadModule
    (himp : ∀ name g, g.parent = some name →
      Tracked (some name) (env.impReload name g).globals.parent (env.impReload name g).log)
    (hcallback : ∀ name g, g.parent = some name →
      Tracked (some name) (env.callback name g).globals.parent (env.callback name g).log)
    (name : String) {g : Globals} (hg : g.parent = some name) :
    Tracked (some name) (env.reloadModule name g).globals.parent (env.reloadModule name g).log := by
  rw [reloadModule]
  have h := himp name g hg
  simp only
  split
  · exact h
  · split
    · exact h.append fun hparent => hcallback name _ hparent
    · exact h

theorem tracked_reloadDeps {reload : String → Walk Globals String → Result}
    (h : ∀ dep w, Tracked w.state.parent (reload dep w).walk.state.parent (reload dep w).log)
    (deps : List String) (w : Walk Globals String) :
    Tracked w.state.parent (reloadDeps reload deps w).walk.state.parent
      (reloadDeps reload deps w).log := by
  induction deps generalizing w with
  | nil => exact .nil _
  | cons dep deps ih =>
    rw [reloadDeps]
    split
    · exact ih w
    · simp only
      split
      · refine (h dep w).append fun hparent => ?_
        have hrest := ih (reload dep w).walk
        rwa [hparent] at hrest
      · exact h dep w

/-- `_reload`. -/
theorem tracked_reload (env : ReloadEnv)
    (himp : ∀ name g, g.parent = some name →
      Tracked (some name) (env.impReload name g).globals.parent (env.impReload name g).log)
    (hcallback : ∀ name g, g.parent = some name →
      Tracked (some name) (env.callback name g).globals.parent (env.callback name g).log)
    (depth : ℕ) (name : String) (w : Walk Globals String) :
    Tracked w.state.parent (env._reload depth name w).walk.state.parent
      (env._reload depth name w).log := by
  induction depth generalizing name w with
  | zero => exact (Tracked.nil w.state.parent).ended fun _ => iff_of_true rfl trivial
  | succ depth ih =>
    rw [_reload]
    simp only
    split
    · exact (Tracked.nil w.state.parent).ended fun _ => iff_of_true rfl trivial
    · have hdeps : Tracked w.state.parent (reloadReversed (env._reload depth)
          { w with visited := insert name w.visited }
            (w.state.dependencies.lookup name)).walk.state.parent
          (reloadReversed (env._reload depth)
            { w with visited := insert name w.visited }
            (w.state.dependencies.lookup name)).log := by
        cases w.state.dependencies.lookup name with
        | none => exact .nil _
        | some deps =>
          exact tracked_reloadDeps ih deps.reverse { w with visited := insert name w.visited }
      generalize reloadReversed (env._reload depth) _ _ = r at hdeps
      split
      · split
        · exact hdeps.ended fun _ => eq_comm
        · have hran := hdeps.append fun _ => tracked_reloadModule himp hcallback name
            (g := ⟨r.walk.state.dependencies.erase name, some name⟩) rfl
          split
          · refine hran.ended fun hparent => ?_
            rw [hparent]
            exact eq_comm
          · exact hran.ended fun _ => eq_comm
      · exact hdeps.ended fun hparent => iff_of_true hparent trivial

end ReloadEnv

/-- Every code. -/
theorem Code.tracked_run (blacklist : Option (Finset String)) (code : Code)
    (performer : Option String) (g : Globals) (hg : g.parent = performer) :
    Tracked performer (run blacklist code performer g).globals.parent
      (run blacklist code performer g).log := by
  induction code generalizing performer g with
  | done => exact hg ▸ .nil _
  | raise => exact hg ▸ .nil _
  | import_ name fromlist body base modules next ihbody ihnext =>
    subst hg
    rw [run]
    refine (tracked_import (fun g hg => ihbody (some name) g hg) fromlist base modules g).append
      fun hparent => ihnext _ g.parent _ hparent
  | reload depth m hasReload copyRaises body callback next ihbody ihcallback ihnext =>
    subst hg
    rw [run]
    let env : ReloadEnv :=
      { blacklist, hasReload, copyRaises
        impReload := fun name g => run blacklist (body name) (some name) g
        callback := fun name g => run blacklist (callback name) (some name) g }
    refine (env.tracked_reload (fun name g hg => ihbody name (some name) g hg)
      (fun name g hg => ihcallback name (some name) g hg) depth m ⟨∅, [], g⟩).append
      fun hparent => ihnext _ g.parent _ hparent

/-- **When import tracking survives failing imports.** For all code: every call of `_import` and
`_reload` in it leaves `_parent` as it was, whether it returns or raises, exactly if an import that
raises, and a reload that comes to its own module and raises, meet a `_parent` that is the name of
the module already, and such a reload that returns meets a `_parent` that is `None`. And then every
dependency is recorded under the module whose import or reload runs the code that performs it. -/
theorem parent_restored_iff (blacklist : Option (Finset String)) (code : Code) (g : Globals) :
    ((∀ e ∈ (code.run blacklist g.parent g).log, e.Restored) ↔
      ∀ e ∈ (code.run blacklist g.parent g).log, e.Restorable) ∧
    ((∀ e ∈ (code.run blacklist g.parent g).log, e.Restored) →
      ∀ e ∈ (code.run blacklist g.parent g).log, e.Attributed) :=
  have h := code.tracked_run blacklist g.parent g rfl
  ⟨h.restored_iff, h.attributed⟩

/-- A module catches the exception of an import that fails, and imports another one. -/
theorem exists_misattributed : ¬ ∀ (blacklist : Option (Finset String)) (code : Code) (g : Globals),
    (∀ e ∈ (code.run blacklist g.parent g).log, e.Restored) ∧
      ∀ e ∈ (code.run blacklist g.parent g).log, e.Attributed := by
  intro h
  let modules : Modules := ⟨fun _ _ => none, fun _ => none, fun _ => true⟩
  let helper : Code := .import_ "helper" true .done (some "helper") modules fun _ => .done
  let code : Code := .import_ "a" true (.import_ "missing" true .raise none modules fun _ => helper)
    (some "a") modules fun _ => .done
  have hmem : .recorded (some "a") "missing" "helper" ∈ (code.run none none ⟨∅, none⟩).log := by
    decide +kernel
  have hunder : some "a" = some "missing" := (h none code ⟨∅, none⟩).2 _ hmem
  exact absurd hunder (by decide)

end CodeTest
