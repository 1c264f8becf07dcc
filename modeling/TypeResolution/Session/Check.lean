import TypeResolution.Module.Graph
import TypeResolution.Resolution
import TypeResolution.Session.Source

/-!
Checking sessions. Each module publishes its aliases; a module sees the aliases of its imports,
except those in its own import cycle, and its own aliases shadow them. Modules are checked one
after the other in dependency order, or all at once after all of them have published.
-/

namespace TypeResolution

/-- The answer to a query. -/
inductive QueryResult where
  | evaluated (type : TypeId) (display : String)
  | assignable (assignable : Bool)
  | narrowed (type : TypeId) (display : String)
  | inferred (types : List TypeId) (display : List String)
  deriving DecidableEq, Repr

structure ModuleReport where
  name : String
  results : List QueryResult
  diagnostics : List Diagnostic
  deriving DecidableEq, Repr

/-- Reports in the order of the modules. -/
structure SessionReport where
  modules : List ModuleReport
  deriving DecidableEq, Repr

namespace SessionReport

def find? (r : SessionReport) (name : String) : Option ModuleReport :=
  r.modules.find? (·.name = name)

def diagnostics (r : SessionReport) : List Diagnostic := r.modules.flatMap (·.diagnostics)

def errorCount (r : SessionReport) : Nat := (r.diagnostics.filter (·.isError)).length

end SessionReport

namespace Session

/-- Checking a module collects diagnostics, counts lowered expressions and can be cancelled. -/
abbrev Checking := ExceptT Cancelled (StateT (Array Diagnostic) Lowering)

def record (ds : Array Diagnostic) : Checking Unit := modify (· ++ ds)

/-- Keeps the diagnostics of an outcome. -/
def keep {α : Type} (step : Build (Outcome α)) : Checking α := do
  let outcome ← (step : Build (Outcome α))
  record outcome.diagnostics
  return outcome.value

def display (t : TypeId) : Checking String := Build.text t

def lowerExpr (e : TypeExpr) : Checking TypeId := (e.lower [] : Lowering TypeId)

/-- A session whose request was cancelled before it started gives up at its first poll. -/
def patience (cancelled : Bool) : Option Nat := if cancelled then some 0 else none

def evaluate (setting : Setting) (cancelled : Bool) (t : TypeId) : Checking TypeId := do
  match ← keep (setting.evaluate (patience cancelled) t) with
  | .ok t => return t
  | .error e => throw e

def run (setting : Setting) (cancelled : Bool) : Query → Checking QueryResult
  | .evaluate type => do
      let t ← evaluate setting cancelled (← lowerExpr type)
      return .evaluated t (← display t)
  | .assignable source target excess => do
      let source ← lowerExpr source
      let target ← lowerExpr target
      let excess := excess.getD setting.options.excessPropertyCheck
      let setting := { setting with
        options := { setting.options with excessPropertyCheck := excess } }
      let verdict ← keep (setting.checkAssignable source target)
      record verdict.reason.toArray
      return .assignable verdict.assignable
  | .narrow type guard branch => do
      let guard ← (guard.lower [] : Lowering TypeGuard)
      let t ← lowerExpr type
      let t ← keep (setting.narrow t guard branch)
      return .narrowed t (← display t)
  | .inferCall typeParams params args => do
      let (infos, scope) ← (Lowering.bindParams typeParams [] : Lowering _)
      let params ← (lowerAll params scope : Lowering _)
      let args ← (lowerAll args [] : Lowering _)
      let ts ← keep (setting.typeArguments infos params args)
      return .inferred ts (← ts.mapM display)

def runAll (setting : Setting) (cancelled : Bool) (queries : List Query) :
    Checking (List QueryResult) :=
  queries.mapM fun q => do
    if cancelled then
      throw .mk
    run setting cancelled q

/-- Evaluates the aliases without parameters, so that their problems show without queries. -/
def surface (setting : Setting) (cancelled : Bool) (own : List Alias) : Checking Unit :=
  (own.filter (·.params.isEmpty)).forM fun a => do
    let t ← Build.reference a.name []
    discard (evaluate setting cancelled t)

/-- The first of equal diagnostics stays. -/
def withoutRepeats (ds : List Diagnostic) : List Diagnostic :=
  ds.foldl (fun done d => if done.contains d then done else done ++ [d]) []

/-- What the modules have published, by module number. -/
abbrev Exports := List (Nat × List Alias)

/-- The first publication for a module stays. -/
def publish (id : Nat) (own : List Alias) (exports : Exports) : Exports :=
  if (exports.lookup id).isSome then exports else exports ++ [(id, own)]

/-- Imported aliases in import order, then the module's own. -/
def environment (g : ModuleGraph) (id : Nat) (own : List Alias) (exports : Exports) :
    Environment :=
  let imports := (g.dependencies id).filter (!g.inSameCycle id ·)
  let imported := imports.flatMap fun dep => (exports.lookup dep).getD []
  (imported ++ own).foldl (·.insert ·) .empty

def cycleDiagnostic (g : ModuleGraph) (id : Nat) (name : String) : List Diagnostic :=
  (g.cycleOf? id).toList.map fun c =>
    .of .cyclicModuleDependency [name, c.describe]

/-- A module whose aliases are lowered, and how many expressions that took. -/
structure Prepared where
  id : Nat
  source : ModuleSource
  own : List Alias
  operations : Nat

def prepare (g : ModuleGraph) (m : ModuleSource) : Build Prepared := do
  let (own, operations) ← (m.aliases.mapM (·.lower []) : Lowering _).run 0
  return ⟨(g.id? m.name).getD 0, m, own, operations⟩

/-- Checks a module that sees the given aliases. -/
def reportIn (config : SessionConfig) (cancelled : Bool) (g : ModuleGraph) (env : Environment)
    (m : Prepared) : Build (Except Cancelled ModuleReport) := do
  let setting : Setting := ⟨env, config.resolution⟩
  let checks : Checking (List QueryResult) := do
    surface setting cancelled m.own
    runAll setting cancelled m.source.queries
  let ((results, ds), _) ← (checks.run.run #[]).run m.operations
  return results.map fun results =>
    ⟨m.source.name, results,
      withoutRepeats (cycleDiagnostic g m.id m.source.name ++ ds.toList)⟩

/-- Checks a module against what is published. -/
def report (config : SessionConfig) (cancelled : Bool) (g : ModuleGraph) (exports : Exports)
    (m : Prepared) : Build (Except Cancelled ModuleReport) :=
  reportIn config cancelled g (environment g m.id m.own exports) m

/-- What modules have published when all of them have. -/
def published (prepared : List Prepared) : Exports :=
  prepared.foldl (fun exports m => publish m.id m.own exports) []

/-- All modules publish before the first one is checked. -/
def checkTogether (config : SessionConfig) (cancelled : Bool) (g : ModuleGraph)
    (modules : List ModuleSource) : Build (List (Except Cancelled ModuleReport)) := do
  let prepared ← modules.mapM (prepare g)
  prepared.mapM (report config cancelled g (published prepared))

/-- Checks the modules in the given order; each one publishes and is checked before the next. -/
def checkEach (config : SessionConfig) (cancelled : Bool) (g : ModuleGraph) :
    List (Nat × ModuleSource) → Exports → Build (List (Nat × Except Cancelled ModuleReport))
  | [], _ => return []
  | (position, m) :: rest, exports => do
      let m ← prepare g m
      let exports := publish m.id m.own exports
      let r ← report config cancelled g exports m
      return (position, r) :: (← checkEach config cancelled g rest exports)

/-- Modules with their positions, dependencies first. -/
def dependencyOrder (g : ModuleGraph) (modules : List ModuleSource) :
    List (Nat × ModuleSource) :=
  g.topologicalOrder.flatMap fun id =>
    (modules.mapIdx fun i m => (i, m)).filter fun (_, m) => g.id? m.name = some id

def checkInOrder (config : SessionConfig) (cancelled : Bool) (g : ModuleGraph)
    (modules : List ModuleSource) : Build (List (Except Cancelled ModuleReport)) := do
  let reports ← checkEach config cancelled g (dependencyOrder g modules) []
  return (List.range modules.length).filterMap fun i => reports.lookup i

/-- The import graph of a session, with its cycles. -/
def graph (modules : List ModuleSource) : ModuleGraph :=
  (ModuleGraph.ofImports (modules.map fun m => (m.name, m.imports))).detectCycles

/-- Checks all modules of a session. -/
def check (config : SessionConfig) (cancelled : Bool) (modules : List ModuleSource) :
    Build (Except Cancelled SessionReport) := do
  let g := graph modules
  let reports ←
    if config.parallel then checkTogether config cancelled g modules
    else checkInOrder config cancelled g modules
  return (reports.mapM id).map (⟨·⟩)

end Session

end TypeResolution
