import TypeResolution.Type.Scope

/-!
Substitution of types for parameters, by name. The names that a node binds shadow outer bindings
in the parts where they are bound. A distributive conditional over a substituted parameter is
split per union member, and so is a mapped type over its keys. Unions and intersections are built
as they are; evaluation normalizes them later.
-/

namespace TypeResolution

/-- Types for parameter names; each name is bound once. -/
structure Substitution where
  bindings : List (String × TypeId)
  deriving DecidableEq, Repr

namespace Substitution

def empty : Substitution := ⟨[]⟩

def isEmpty (σ : Substitution) : Bool := σ.bindings.isEmpty

def size (σ : Substitution) : Nat := σ.bindings.length

def get? (σ : Substitution) (name : String) : Option TypeId := σ.bindings.lookup name

def contains (σ : Substitution) (name : String) : Bool := (σ.get? name).isSome

def insertInto (name : String) (t : TypeId) : List (String × TypeId) → List (String × TypeId)
  | [] => [(name, t)]
  | b :: rest => if name = b.1 then (name, t) :: rest else b :: insertInto name t rest

/-- Binds a name, in place of its binding if it has one. -/
def insert (σ : Substitution) (name : String) (t : TypeId) : Substitution :=
  ⟨insertInto name t σ.bindings⟩

theorem lookup_insertInto (name other : String) (t : TypeId) :
    ∀ l : List (String × TypeId),
      (insertInto name t l).lookup other = if other = name then some t else l.lookup other := by
  intro l
  have hb : other ≠ name → (other == name) = false := fun h => beq_eq_false_iff_ne.2 h
  induction l with
  | nil => by_cases h : other = name <;> simp [insertInto, List.lookup_cons, h, hb]
  | cons b rest ih =>
      obtain ⟨key, u⟩ := b
      unfold insertInto
      by_cases hk : name = key
      · subst hk
        by_cases h : other = name <;> simp [List.lookup_cons, h, hb]
      · simp only [hk, if_false, List.lookup_cons, ih]
        by_cases h : other = key
        · subst h
          simp [Ne.symm hk]
        · simp [beq_eq_false_iff_ne.2 h]

theorem get?_insert (σ : Substitution) (name other : String) (t : TypeId) :
    (σ.insert name t).get? other = if other = name then some t else σ.get? other :=
  lookup_insertInto name other t σ.bindings

/-- Binds the names of `τ` as `τ` does. -/
def extend (σ τ : Substitution) : Substitution :=
  τ.bindings.foldl (fun σ b => σ.insert b.1 b.2) σ

def ofBindings (bindings : List (String × TypeId)) : Substitution :=
  extend empty ⟨bindings⟩

/-- Binds each parameter to its argument, or else to its default, or else to `unknown`. -/
def ofArgs (params : List TypeParam) (args : List TypeId) : Substitution :=
  params.zipIdx.foldl
    (fun σ (p, i) => σ.insert p.name ((args[i]?.or p.default).getD .unknown)) empty

end Substitution

namespace Instantiation

/-- Nesting up to which a substitution goes. -/
def maxDepth : Nat := 200

/-- A walk remembers its results while no binder shadows anything. -/
abbrev Instantiating := StateT (Std.HashMap TypeId TypeId) Build

/-- Runs a walk of its own. -/
def apart {α : Type} (walk : Instantiating α) : Instantiating α := fun cache => do
  let (a, _) ← walk {}
  return (a, cache)

/-- How the components of a node are instantiated, under a substitution and shadowed names. -/
abbrev Inner := Substitution → List String → TypeId → Instantiating TypeId

def lookup? (σ : Substitution) (shadowed : List String) (name : String) : Option TypeId :=
  if shadowed.contains name then none else σ.get? name

/-- The parameter that a type is, with what is substituted for it. -/
def replacement? (s : Store) (σ : Substitution) (shadowed : List String) (t : TypeId) :
    Option (String × TypeId) :=
  match s.node t with
  | .param info => (lookup? σ shadowed info.name).map (info.name, ·)
  | _ => none

def conditionalParts (inner : Inner) (σ : Substitution) (shadowed : List String)
    (c : Conditional) : Instantiating TypeId := do
  let check ← inner σ shadowed c.check
  let pattern ← inner σ (shadowed ++ c.infer) c.pattern
  let whenTrue ← inner σ (shadowed ++ c.infer) c.whenTrue
  let whenFalse ← inner σ shadowed c.whenFalse
  Build.conditional { c with
    check := check, pattern := pattern, whenTrue := whenTrue, whenFalse := whenFalse }

def mappedParts (inner : Inner) (σ : Substitution) (shadowed : List String) (m : Mapped) :
    Instantiating TypeId := do
  let source ← inner σ shadowed m.source
  let within := shadowed ++ [m.keyParam]
  let keyFilter ← m.keyFilter.mapM (inner σ within)
  let template ← inner σ within m.template
  let nameType ← m.nameType.mapM (inner σ within)
  Build.mapped { m with
    source := source, keyFilter := keyFilter, template := template, nameType := nameType }

/-- One result for each member that is put in the place of a parameter. -/
def perMember (name : String) (members : List TypeId) (σ : Substitution)
    (parts : Substitution → Instantiating TypeId) : Instantiating TypeId := do
  let results ← members.mapM fun t => apart (parts (σ.insert name t))
  Build.rawUnion results

def conditional (inner : Inner) (σ : Substitution) (shadowed : List String) (c : Conditional) :
    Instantiating TypeId := do
  let s ← getThe Store
  match if c.distributive then replacement? s σ shadowed c.check else none with
  | none => conditionalParts inner σ shadowed c
  | some (name, t) =>
      if t = .never then
        return .never
      match s.node t with
      | .union members => perMember name members σ fun σ => conditionalParts inner σ shadowed c
      | _ => conditionalParts inner σ shadowed c

def mapped (inner : Inner) (σ : Substitution) (shadowed : List String) (m : Mapped) :
    Instantiating TypeId := do
  let s ← getThe Store
  match replacement? s σ shadowed m.source with
  | none => mappedParts inner σ shadowed m
  | some (name, t) =>
      match s.node t with
      | .union members => perMember name members σ fun σ => mappedParts inner σ shadowed m
      | _ => mappedParts inner σ shadowed m

/-- Instantiates a node whose components are instantiated by `inner`. -/
def node (inner : Inner) (σ : Substitution) (shadowed : List String) (t : TypeId) :
    Node → Instantiating TypeId
  | .error | .intrinsic _ | .literal _ => return t
  | .param info => return (lookup? σ shadowed info.name).getD t
  | .union members => do Build.rawUnion (← members.mapM (inner σ shadowed))
  | .intersection members => do Build.rawIntersection (← members.mapM (inner σ shadowed))
  | .object shape => do
      let fields ← shape.fields.mapM fun f => return { f with type := ← inner σ shadowed f.type }
      let index ← shape.stringIndex.mapM (inner σ shadowed)
      let rebuilt ← Build.object ⟨fields, index⟩
      Build.copyFieldOrigins t rebuilt (fields.map (·.name))
      return rebuilt
  | .function shape => do
      let params ← shape.params.mapM (inner σ shadowed)
      Build.function params (← inner σ shadowed shape.result)
  | .array element => do Build.array (← inner σ shadowed element)
  | .reference name args => do Build.reference name (← args.mapM (inner σ shadowed))
  | .indexAccess object key => do
      let object ← inner σ shadowed object
      Build.indexAccess object (← inner σ shadowed key)
  | .template spans => do
      Build.template (← spans.mapM fun
        | .text text => return .text text
        | .hole t => return .hole (← inner σ shadowed t))
  | .stringMap kind arg => do Build.stringMap kind (← inner σ shadowed arg)
  | .conditional c => conditional inner σ shadowed c
  | .mapped m => mapped inner σ shadowed m

def instantiateAt : Nat → Inner
  | depth, σ, shadowed, t => do
      if t.isFixed then
        return t
      if shadowed.isEmpty then
        if let some known := (← get)[t]? then
          return known
      match depth with
      | 0 => return t
      | depth + 1 =>
          let n ← Build.node t
          let result ← node (instantiateAt depth) σ shadowed t n
          if shadowed.isEmpty then
            modify (·.insert t result)
          return result

end Instantiation

namespace Build

/-- Puts the types of `σ` in the place of the free parameters of `t`. -/
def instantiate (σ : Substitution) (t : TypeId) : Build TypeId := do
  if σ.isEmpty || t.isFixed then
    return t
  let (result, _) ← Instantiation.instantiateAt Instantiation.maxDepth σ [] t {}
  return result

end Build

end TypeResolution
