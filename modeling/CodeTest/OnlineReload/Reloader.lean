import CodeTest.Foundations.DepthFirst
import CodeTest.Foundations.Table

/-!
# Reloading modules

`reloader.py` hooks into `import`. The global `_parent` is the name of the module that is being
imported, and `_dependencies` maps the name of a module to the modules that it imports. `reload`
walks over these dependencies and reloads them before the module.

A module is identified with its name, since `imp.reload` raises for a module that is not the one
registered under its name. What the interpreter and the code of modules do when a module is imported
or reloaded is given to the functions: it acts on the global variables, and may raise. Besides what
the code keeps there is a log of the calls of `_import` and `_reload` that have ended and of the
dependencies that were recorded.
-/

namespace CodeTest

/-- The global variables `_dependencies` and `_parent`. -/
structure Globals where
  dependencies : Table String (List String)
  parent : Option String

inductive ImportCall
  | import_ (name : String)
  | reload (name : String)
deriving DecidableEq

/-- How a call ends: it returns, or something it does raises; `passed` is a call of `_reload` that
does not come to reload its module. -/
inductive CallEnd
  | returned
  | raised
  | passed
deriving DecidableEq

/-- The log: a call that has ended, with `_parent` before and after it, and a dependency that was
recorded, with the module whose code performed the import and the one under which it is recorded. -/
inductive LogEntry
  | ended (call : ImportCall) (how : CallEnd) (before after : Option String)
  | recorded (performer : Option String) (under m : String)
deriving DecidableEq

/-- What came of running something. -/
structure Ran where
  raised : Bool
  globals : Globals
  log : List LogEntry

/-- The end of a call is logged. -/
def Ran.ended (r : Ran) (call : ImportCall) (how : CallEnd) (before : Option String) : Ran :=
  { r with log := r.log ++ [.ended call how before r.globals.parent] }

/-! ## _import -/

/-- What the interpreter knows of the modules when an import has been performed: the modules that
are attributes of a module, `sys.modules`, and which modules have a `__file__`. -/
structure Modules where
  getattr : String → String → Option String
  sysModules : String → Option String
  hasFile : String → Bool

/-- The loop over the components of a name; without a result it raises. -/
def Modules.descend (modules : Modules) : String → List String → Option String
  | m, [] => some m
  | m, component :: components =>
    match modules.getattr m component with
    | some m => modules.descend m components
    | none =>
      match modules.sysModules (m ++ "." ++ component) with
      | some m => modules.descend m components
      | none => none

/-- `_import`, in the code of `performer`. `baseimport` is what the call of `_baseimport` does, and
`base` is what it returns; `fromlist` tells whether this argument is given. -/
def _import (performer : Option String) (name : String) (fromlist : Bool)
    (baseimport : Globals → Ran) (base : Option String) (modules : Modules) (g : Globals) : Ran :=
  let parent := g.parent
  let r := baseimport { g with parent := some name }
  if r.raised then r.ended (.import_ name) .raised parent
  else
    match base, parent with
    | some base, some under =>
      match if fromlist then some base else modules.descend base (name.splitOn ".").tail with
      | none => Ran.ended { r with raised := true } (.import_ name) .raised parent
      | some m =>
        if modules.hasFile m then
          let deps := (r.globals.dependencies.lookup under).getD []
          let dependencies := r.globals.dependencies.insert under (deps ++ [m])
          Ran.ended ⟨false, ⟨dependencies, parent⟩, r.log ++ [.recorded performer under m]⟩
            (.import_ name) .returned parent
        else Ran.ended ⟨false, { r.globals with parent }, r.log⟩ (.import_ name) .returned parent
    | _, _ => Ran.ended ⟨false, { r.globals with parent }, r.log⟩ (.import_ name) .returned parent

/-! ## _reload -/

/-- The blacklist, and for each module what `imp.reload` does, whether it has a function
`__reload__`, whether `_deepcopy_module_dict` raises for it, and what its `__reload__` does. -/
structure ReloadEnv where
  blacklist : Option (Finset String)
  impReload : String → Globals → Ran
  hasReload : String → Bool
  copyRaises : String → Bool
  callback : String → Globals → Ran

namespace ReloadEnv

variable (env : ReloadEnv)

def blacklisted (name : String) : Bool :=
  match env.blacklist with
  | none => false
  | some blacklist => name ∈ blacklist

/-- The call of `imp.reload`, and of `__reload__` after it. -/
def reloadModule (name : String) (g : Globals) : Ran :=
  let r := env.impReload name g
  if r.raised then r
  else if env.hasReload name then
    let r' := env.callback name r.globals
    { r' with log := r.log ++ r'.log }
  else r

open DepthFirst

/-- How a call of `_reload` ends, the walk, and the log of the call. -/
structure Result where
  outcome : Outcome
  walk : Walk Globals String
  log : List LogEntry

/-- The loop over the dependencies. -/
def reloadDeps (reload : String → Walk Globals String → Result) :
    List String → Walk Globals String → Result
  | [], w => ⟨.finished, w, []⟩
  | dep :: deps, w =>
    if dep ∈ w.visited then reloadDeps reload deps w
    else
      let r := reload dep w
      if r.outcome = .finished then
        let r' := reloadDeps reload deps r.walk
        { r' with log := r.log ++ r'.log }
      else r

/-- The dependencies are reloaded in reverse order, if there is a list of them. -/
def reloadReversed (reload : String → Walk Globals String → Result) (w : Walk Globals String) :
    Option (List String) → Result
  | none => ⟨.finished, w, []⟩
  | some deps => reloadDeps reload deps.reverse w

/-- `_reload`. On the walk are the set `visited`, the modules on which `imp.reload` was called, and
the global variables; `depth` is the depth to which the interpreter lets it recurse. -/
def _reload : ℕ → String → Walk Globals String → Result
  | 0, name, w => ⟨.tooDeep, w, [.ended (.reload name) .passed w.state.parent w.state.parent]⟩
  | depth + 1, name, w =>
    let before := w.state.parent
    if env.blacklisted name then
      ⟨.finished, w, [.ended (.reload name) .passed before before]⟩
    else
      let w := { w with visited := insert name w.visited }
      let r := reloadReversed (_reload depth) w (w.state.dependencies.lookup name)
      if r.outcome = .finished then
        let g : Globals := ⟨r.walk.state.dependencies.erase name, some name⟩
        if env.hasReload name && env.copyRaises name then
          ⟨.raised, { r.walk with state := g },
            r.log ++ [.ended (.reload name) .raised before g.parent]⟩
        else
          let ran := env.reloadModule name g
          let w := { r.walk with finished := r.walk.finished ++ [name] }
          if ran.raised then
            ⟨.raised, { w with state := ran.globals },
              r.log ++ ran.log ++ [.ended (.reload name) .raised before ran.globals.parent]⟩
          else
            ⟨.finished, { w with state := { ran.globals with parent := none } },
              r.log ++ ran.log ++ [.ended (.reload name) .returned before none]⟩
      else { r with log := r.log ++ [.ended (.reload name) .passed before r.walk.state.parent] }

def reload (depth : ℕ) (m : String) (g : Globals) : Result := env._reload depth m ⟨∅, [], g⟩

end ReloadEnv

end CodeTest
