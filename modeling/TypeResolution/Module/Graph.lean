/-!
The import graph of modules. Modules have numbers in the order in which they were added. A cycle
is a set of modules that reach each other by imports; it is listed in the order in which a
depth-first walk enters its members, and cycles in the order in which the walk is done with them.
-/

namespace TypeResolution

/-- A module and its edges. -/
structure ModuleInfo where
  name : String
  /-- Modules that it imports, in import order. -/
  dependencies : List Nat
  /-- Modules that import it. -/
  dependents : List Nat
  /-- Imports that name no module. -/
  unresolved : List String
  deriving DecidableEq, Repr

/-- Modules that import each other in a circle. -/
structure ImportCycle where
  members : List Nat
  names : List String
  deriving DecidableEq, Repr

/-- The names with arrows, and the first one again. -/
def ImportCycle.describe (c : ImportCycle) : String :=
  " -> ".intercalate (c.names ++ c.names.head?.toList)

structure ModuleGraph where
  modules : List ModuleInfo
  /-- The cycles that were found last. -/
  cycles : List ImportCycle
  deriving DecidableEq, Repr

namespace ModuleGraph

def empty : ModuleGraph := ⟨[], []⟩

def size (g : ModuleGraph) : Nat := g.modules.length

def module? (g : ModuleGraph) (id : Nat) : Option ModuleInfo := g.modules[id]?

def id? (g : ModuleGraph) (name : String) : Option Nat :=
  g.modules.findIdx? (·.name = name)

def dependencies (g : ModuleGraph) (id : Nat) : List Nat :=
  ((g.module? id).map (·.dependencies)).getD []

/-- The number of a module, which is added unless its name is known. -/
def addModule (g : ModuleGraph) (name : String) : Nat × ModuleGraph :=
  match g.id? name with
  | some id => (id, g)
  | none => (g.size, { g with modules := g.modules ++ [⟨name, [], [], []⟩] })

/-- Adds an import; the target need not be a module. -/
def addDependency (g : ModuleGraph) (source target : Nat) : ModuleGraph :=
  match g.module? source with
  | none => g
  | some m =>
      if m.dependencies.contains target then g
      else
        let modules := g.modules.modify source fun m =>
          { m with dependencies := m.dependencies ++ [target] }
        { g with modules := modules.modify target fun m =>
          { m with dependents := m.dependents ++ [source] } }

def addUnresolved (g : ModuleGraph) (source : Nat) (name : String) : ModuleGraph :=
  { g with modules := g.modules.modify source fun m =>
    { m with unresolved := m.unresolved ++ [name] } }

/-- Adds an import by name. -/
def addImport (g : ModuleGraph) (source : Nat) (name : String) : ModuleGraph :=
  match g.id? name with
  | some target => g.addDependency source target
  | none => g.addUnresolved source name

def addImports (g : ModuleGraph) (name : String) (imports : List String) : ModuleGraph :=
  match g.id? name with
  | some source => imports.foldl (addImport · source) g
  | none => g

/-- All names become modules first, so imports may point forward. -/
def ofImports (modules : List (String × List String)) : ModuleGraph :=
  let g := modules.foldl (fun g m => (g.addModule m.1).2) empty
  modules.foldl (fun g m => g.addImports m.1 m.2) g

def edgeCount (g : ModuleGraph) : Nat := (g.modules.flatMap (·.dependencies)).length

/-- A depth-first walk: the modules entered and those it is done with, the latest first. -/
structure Walk where
  entered : List Nat
  done : List Nat
  deriving DecidableEq, Repr

/-- Walks from a module unless it was entered before; at most `depth` imports nest. -/
def visit (g : ModuleGraph) : Nat → Walk → Nat → Walk
  | 0, w, _ => w
  | depth + 1, w, id =>
      if w.entered.contains id then w
      else
        let w := (g.dependencies id).foldl (visit g depth) { w with entered := id :: w.entered }
        { w with done := id :: w.done }

/-- Walks from all modules in order. An import leads to a module or to the target of an edge, so
their number bounds the nesting. -/
def walk (g : ModuleGraph) : Walk :=
  (List.range g.size).foldl (g.visit (g.size + g.edgeCount + 1)) ⟨[], []⟩

/-- Dependencies first, imports that close a circle apart; every module appears once. -/
def topologicalOrder (g : ModuleGraph) : List Nat := g.walk.done.reverse

/-- The search for cycles: modules are numbered as they are entered. -/
structure Search where
  next : Nat
  index : Nat → Option Nat
  /-- The least number that a module is known to lead to by way of the stack. -/
  low : Nat → Option Nat
  /-- Modules whose cycle is not complete, the latest first. -/
  stack : List Nat
  /-- The members of each cycle, the latest cycle first. -/
  found : List (List Nat)

namespace Search

def start : Search := ⟨0, fun _ => none, fun _ => none, [], []⟩

/-- Whether a module has been entered. -/
def seen (s : Search) (id : Nat) : Bool := (s.index id).isSome

def enter (s : Search) (id : Nat) : Search :=
  { s with
    next := s.next + 1
    index := fun a => if a = id then some s.next else s.index a
    low := fun a => if a = id then some s.next else s.low a
    stack := id :: s.stack }

def lower (s : Search) (id : Nat) : Option Nat → Search
  | some bound => { s with low := fun a => if a = id then (s.low a).map (min · bound) else s.low a }
  | none => s

/-- Follows an import: a module that is new is searched by `inner`, and one that is on the stack
is led back to. -/
def follow (inner : Search → Nat → Search) (id : Nat) (s : Search) (target : Nat) : Search :=
  if !s.seen target then
    let s := inner s target
    s.lower id (s.low target)
  else if s.stack.contains target then
    s.lower id (s.index target)
  else s

/-- Takes modules from the stack up to and with `id`; the others stay. -/
def popTo (id : Nat) : List Nat → List Nat × List Nat
  | [] => ([], [])
  | top :: rest =>
      if top = id then ([top], rest)
      else ((top :: (popTo id rest).1), (popTo id rest).2)

/-- Leaves a module. If it leads to none that was entered before it, then what is on the stack
from it on is complete. -/
def leave (s : Search) (id : Nat) (importsItself : Bool) : Search :=
  if s.low id ≠ s.index id then s
  else
    let (members, stack) := popTo id s.stack
    if 1 < members.length || importsItself then
      { s with stack := stack, found := members.reverse :: s.found }
    else { s with stack := stack }

end Search

/-- Searches from a module that is new; at most `depth` imports nest. -/
def connect (g : ModuleGraph) : Nat → Search → Nat → Search
  | 0, s, _ => s
  | depth + 1, s, id =>
      let deps := g.dependencies id
      (deps.foldl (Search.follow (connect g depth) id) (s.enter id)).leave id (deps.contains id)

/-- Searches from all modules in order. -/
def search (g : ModuleGraph) : Search :=
  (List.range g.size).foldl
    (fun s id => if s.seen id then s else g.connect (g.size + g.edgeCount + 1) s id) .start

/-- Finds the cycles. -/
def detectCycles (g : ModuleGraph) : ModuleGraph :=
  { g with cycles := g.search.found.reverse.map fun members =>
    ⟨members, members.filterMap fun id => (g.module? id).map (·.name)⟩ }

/-- The position of the cycle that a module belongs to. -/
def cycleIndex? (g : ModuleGraph) (id : Nat) : Option Nat :=
  g.cycles.findIdx? (·.members.contains id)

/-- The cycle that a module belongs to. -/
def cycleOf? (g : ModuleGraph) (id : Nat) : Option ImportCycle :=
  (g.cycleIndex? id).bind (g.cycles[·]?)

def inSameCycle (g : ModuleGraph) (a b : Nat) : Bool :=
  match g.cycleIndex? a, g.cycleIndex? b with
  | some i, some j => i = j
  | _, _ => false

end ModuleGraph

end TypeResolution
