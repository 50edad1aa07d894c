import CodeTest.OnlineReload.Reloader

/-!
# What a reload reloads

`_reload` is a depth-first walk (`_reload_eq_visit`) over `_dependencies` that changes them as it
goes: the list of a module is removed and made anew when the module is reloaded. Since its own list
is read before that, and not again, the walk follows the dependencies as they were at the start, as
long as reloading a module changes no other list than its own.
-/

namespace CodeTest

open DepthFirst Relation

/-- A module, and all that occur as dependencies. -/
def Globals.modules (g : Globals) (m : String) : Finset String :=
  insert m (g.dependencies.entries.flatMap fun e => e.2).toFinset

namespace ReloadEnv

variable (env : ReloadEnv)

/-- Reloading a module changes no list of dependencies but its own. -/
def ChangesOwnList : Prop :=
  ∀ name g, g.parent = some name → ∀ n, n ≠ name →
    (env.reloadModule name g).globals.dependencies.lookup n = g.dependencies.lookup n

/-- Copying or reloading the module raises, in some state. -/
def Raises (name : String) : Prop :=
  (env.hasReload name && env.copyRaises name) = true ∨
    ∃ g, (env.reloadModule name g).raised = true

/-- The module `y` is not blacklisted, and is a dependency of `x`. -/
def Depends (g : Globals) (x y : String) : Prop :=
  y ∈ (g.dependencies.lookup x).getD [] ∧ env.blacklisted y = false

/-- The module `x` is reached from `m` along dependencies through modules that are not blacklisted.
-/
def Reaches (g : Globals) (m x : String) : Prop :=
  env.blacklisted m = false ∧ ReflTransGen (env.Depends g) m x

/-! ## The walk -/

/-- What is done on the walk. -/
def actions : Actions Globals String where
  skip := env.blacklisted
  succ g name := ((g.dependencies.lookup name).getD []).reverse
  prepare name g :=
    (env.hasReload name && env.copyRaises name, ⟨g.dependencies.erase name, some name⟩)
  finish name g :=
    let r := env.reloadModule name g
    (r.raised, if r.raised then r.globals else { r.globals with parent := none })

variable {env}

theorem reloadDeps_eq_visitAll {reload : String → Walk Globals String → Result}
    {visit : String → Walk Globals String → Outcome × Walk Globals String}
    (h : ∀ dep w, ((reload dep w).outcome, (reload dep w).walk) = visit dep w)
    (deps : List String) (w : Walk Globals String) :
    ((reloadDeps reload deps w).outcome, (reloadDeps reload deps w).walk) =
      visitAll visit deps w := by
  induction deps generalizing w with
  | nil => rfl
  | cons dep deps ih =>
    rw [reloadDeps, visitAll, ← h dep w]
    split
    · exact ih w
    · simp only
      split
      · exact ih _
      · rfl

variable (env) in
theorem reloadReversed_eq (reload : String → Walk Globals String → Result)
    (w : Walk Globals String) (g : Globals) (m : String) :
    reloadReversed reload w (g.dependencies.lookup m) =
      reloadDeps reload (env.actions.succ g m) w := by
  show _ = reloadDeps reload ((g.dependencies.lookup m).getD []).reverse w
  cases g.dependencies.lookup m <;> rfl

/-- **`_reload` is a depth-first walk.** -/
theorem _reload_eq_visit (depth : ℕ) (m : String) (w : Walk Globals String) :
    ((env._reload depth m w).outcome, (env._reload depth m w).walk) =
      env.actions.visit depth m w := by
  induction depth generalizing m w with
  | zero => rfl
  | succ depth ih =>
    rw [_reload, Actions.visit]
    by_cases hskip : env.blacklisted m = true
    · rw [if_pos hskip, if_pos (show env.actions.skip m = true from hskip)]
    · rw [if_neg hskip, if_neg (show ¬ env.actions.skip m = true from hskip)]
      rw [← reloadDeps_eq_visitAll ih]
      simp only [reloadReversed_eq env]
      generalize reloadDeps (env._reload depth) _ _ = r
      by_cases hfinished : r.outcome = .finished
      · simp only [if_pos hfinished, actions]
        by_cases hcopy : (env.hasReload m && env.copyRaises m) = true
        · rw [if_pos hcopy, if_pos hcopy]
        · rw [if_neg hcopy, if_neg hcopy]
          split <;> rfl
      · simp only [if_neg hfinished]

theorem keeps (hown : env.ChangesOwnList) : env.actions.Keeps where
  prepare x g y hne := by
    show ((AList.lookup y (g.dependencies.erase x)).getD []).reverse = _
    rw [Table.lookup_erase_eq, if_neg hne]
    rfl
  finish x g y hne := by
    have hlookup := hown x ⟨g.dependencies.erase x, some x⟩ rfl y hne
    rw [Table.lookup_erase_eq, if_neg hne] at hlookup
    have hdeps : (env.actions.finish x (env.actions.prepare x g).2).2.dependencies =
        (env.reloadModule x ⟨g.dependencies.erase x, some x⟩).globals.dependencies := by
      simp only [actions]
      split <;> rfl
    show (AList.lookup y (Globals.dependencies _) |>.getD []).reverse = _
    rw [hdeps, hlookup]
    rfl

theorem edge_eq_depends (g : Globals) :
    env.actions.Edge (env.actions.succ g) = env.Depends g := by
  funext x y
  exact propext (and_congr_left fun _ => List.mem_reverse)

theorem mem_modules (g : Globals) (m : String) : ∀ y ∈ g.modules m,
    ∀ z ∈ env.actions.succ g y, z ∈ g.modules m := by
  intro y _ z hz
  refine Finset.mem_insert_of_mem (List.mem_toFinset.mpr (List.mem_flatMap.mpr ?_))
  have hmem : z ∈ (g.dependencies.lookup y).getD [] := List.mem_reverse.mp hz
  cases hdeps : g.dependencies.lookup y with
  | none =>
    rw [hdeps] at hmem
    cases hmem
  | some deps =>
    rw [hdeps] at hmem
    exact ⟨⟨y, deps⟩, AList.mem_lookup_iff.mp hdeps, hmem⟩

end ReloadEnv

end CodeTest
