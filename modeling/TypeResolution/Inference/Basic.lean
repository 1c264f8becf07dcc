import TypeResolution.Environment
import TypeResolution.Type.Normal
import TypeResolution.Type.Substitution
import TypeResolution.Type.Template

/-!
Inference of type arguments. Walking a target type beside a source type records, for each
parameter of the target, the candidates that the source offers; parameters that meet share their
candidates. The candidates of a parameter are joined, unless two of them are primitives of
different classes.
-/

namespace TypeResolution.Inference

/-- Parameters that have met, and their candidates in the order they were found. -/
structure Pool where
  names : List String
  candidates : List TypeId
  deriving DecidableEq, Repr

abbrev Inferring := StateT (List Pool) Build

/-- What an inference is about. -/
structure Problem where
  environment : Environment
  /-- The parameters to be inferred, each name once. -/
  params : List TypeParam
  preserveLiterals : Bool

/-- The first parameter of each name. -/
def distinct (params : List TypeParam) : List TypeParam :=
  params.foldl (fun done p => if done.any (·.name = p.name) then done else done ++ [p]) []

def Problem.of (environment : Environment) (preserveLiterals : Bool) (params : List TypeParam) :
    Problem :=
  ⟨environment, distinct params, preserveLiterals⟩

def Problem.pools (p : Problem) : List Pool := p.params.map fun info => ⟨[info.name], []⟩

def Problem.find? (p : Problem) (name : String) : Option TypeParam :=
  p.params.find? (·.name = name)

def addMissing (candidates : List TypeId) (t : TypeId) : List TypeId :=
  if candidates.contains t then candidates else candidates ++ [t]

/-- Candidates of the pool that a parameter belongs to. -/
def candidatesOf (pools : List Pool) (name : String) : List TypeId :=
  ((pools.find? (·.names.contains name)).map (·.candidates)).getD []

def addTo (name : String) (t : TypeId) (pools : List Pool) : List Pool :=
  pools.map fun p =>
    if p.names.contains name then { p with candidates := addMissing p.candidates t } else p

/-- Joins the pools of two parameters; the candidates of the first one stay in front. -/
def merge (first second : String) (pools : List Pool) : List Pool :=
  match pools.find? (·.names.contains first), pools.find? (·.names.contains second) with
  | some p, some q =>
      if p = q then pools
      else
        ⟨p.names ++ q.names, q.candidates.foldl addMissing p.candidates⟩
          :: pools.filter (fun r => r ≠ p && r ≠ q)
  | _, _ => pools

def widenAt : Nat → TypeId → Build TypeId
  | 0, t => return t
  | fuel + 1, t => do
      match ← Build.node t with
      | .literal value => return value.primitive
      | .union members => Build.union (← members.mapM (widenAt fuel))
      | .object shape =>
          let fields ← shape.fields.mapM fun f => do
            if f.readonly then return f
            else return { f with type := ← widenAt fuel f.type }
          Build.object { shape with fields := fields }
      | .array element => Build.array (← widenAt fuel element)
      | .function shape => Build.function shape.params (← widenAt fuel shape.result)
      | _ => return t

/-- Replaces literals by their primitive, also in the mutable fields of an object, in the elements
of an array and in the result of a function. -/
def widen (t : TypeId) : Build TypeId := widenAt (t.index + 1) t

/-- How often an alias is expanded at one place. -/
def maxExpansions : Nat := 8

def expandAt (env : Environment) : Nat → TypeId → Build TypeId
  | 0, t => return t
  | n + 1, t => do
      match ← Build.node t with
      | .reference name args =>
          match env.get? name with
          | some a => expandAt env n (← Build.instantiate (.ofArgs a.params args) a.body)
          | none => return t
      | _ => return t

/-- Replaces a reference by the body of its alias. -/
def expand (env : Environment) (t : TypeId) : Build TypeId := expandAt env maxExpansions t

/-- Nesting up to which types are walked. -/
def maxDepth : Nat := 64

/-- The components in which inferred parameters are looked for. -/
def searched : Node → List TypeId
  | .mapped m => [m.source, m.template]
  | n => n.components

def mentionsAt (p : Problem) (s : Store) : Nat → TypeId → Bool
  | 0, _ => false
  | depth + 1, t =>
      if t.isFixed then false
      else
        match s.node t with
        | .param info => (p.find? info.name).isSome
        | n => (searched n).any (mentionsAt p s depth)

/-- Whether a type mentions a parameter to be inferred. -/
def mentions (p : Problem) (s : Store) (t : TypeId) : Bool := mentionsAt p s (maxDepth + 1) t

/-- Records a candidate. Literals are widened unless the parameter or the walk keeps them. -/
def addCandidate (p : Problem) (strict : Bool) (info : TypeParam) (t : TypeId) :
    Inferring Unit := do
  let keep := strict || p.preserveLiterals || info.isConst
  let candidate ← if keep then pure t else (widen t : Build TypeId)
  modify (addTo info.name candidate)

/-- How the components of a pair are walked: strictly or not, and beside which pairs. -/
abbrev Inner := Bool → TypeId → TypeId → Inferring Bool

/-- Walks all pairs; whether each of them matched. -/
def walkAll (walk : TypeId → TypeId → Inferring Bool) :
    List (TypeId × TypeId) → Inferring Bool
  | [] => return true
  | (target, source) :: rest => do
      let here ← walk target source
      let others ← walkAll walk rest
      return here && others

/-- Walks all pairs; whether one of them matched. -/
def walkAny (walk : TypeId → TypeId → Inferring Bool) :
    List (TypeId × TypeId) → Inferring Bool
  | [] => return false
  | (target, source) :: rest => do
      let here ← walk target source
      let others ← walkAny walk rest
      return here || others

/-- Whether a fixed member of a union accounts for a source member. -/
def covers (s : Store) (fixed member : TypeId) : Bool :=
  fixed = member ||
    match s.node member with
    | .literal value => value.primitive = fixed
    | _ => false

/-- The source members that no fixed member accounts for are what the generic members stand for. -/
def toUnion (p : Problem) (inner : Inner) (strict : Bool) (members : List TypeId)
    (source : TypeId) : Inferring Bool := do
  let s ← getThe Store
  let generic := members.filter (mentions p s)
  let fixed := members.filter (!mentions p s ·)
  let leftover := (s.unionMembers source).filter fun m => !fixed.any (covers s · m)
  if generic.isEmpty || leftover.isEmpty then
    return true
  match generic with
  | [single] =>
      let rest ← Build.union leftover
      inner strict single rest
  | many =>
      let found ← walkAny (inner true) (many.flatMap fun t => leftover.map (t, ·))
      return found || !strict

/-- Fields by name; a missing field that would have told something is a mismatch. Then the index
signature against that of the source and against all its fields. -/
def objects (p : Problem) (inner : Inner) (strict : Bool) (target source : ObjectShape) :
    Inferring Bool := do
  let fields ← target.fields.mapM fun f => do
    match source.find? f.name with
    | some g => inner strict f.type g.type
    | none => return f.optional || !mentions p (← getThe Store) f.type || !strict
  let index ← match target.stringIndex with
    | some t =>
        walkAll (inner strict)
          ((source.stringIndex.toList ++ source.fields.map (·.type)).map (t, ·))
    | none => pure true
  return fields.all id && index

/-- A pattern against a text: what each hole captured is walked against the hole. -/
def texts (inner : Inner) (strict : Bool) (spans : List Span) (text : String) :
    Inferring Bool := do
  if Limits.templateLength < text.utf8ByteSize then
    return !strict
  match Template.capture spans text.toList with
  | none => return false
  | some captured =>
      let results ← captured.mapM fun (hole, piece) => do
        inner strict hole (← Build.stringLiteral piece)
      return results.all id

/-- Walks a pair whose aliases are expanded. -/
def walkNodes (p : Problem) (inner : Inner) (strict : Bool) (target source : TypeId) :
    Inferring Bool := do
  let targetNode ← Build.node target
  let sourceNode ← Build.node source
  match targetNode, sourceNode with
  | .union members, _ => toUnion p inner strict members source
  | _, .union members => walkAll (inner strict) (members.map (target, ·))
  | .intersection members, _ => walkAll (inner strict) (members.map (·, source))
  | .object t, .object s => objects p inner strict t s
  | .function t, .function s =>
      walkAll (inner strict) (t.params.zip s.params ++ [(t.result, s.result)])
  | .array t, .array s => inner strict t s
  | .reference name args, .reference other others =>
      if name = other then walkAll (inner strict) (args.zip others) else return !strict
  | .template spans, .literal (.string text) => texts inner strict spans text
  | _, _ => return !strict

/-- Walks a pair. A parameter to be inferred takes the source as a candidate, or joins the
parameter that the source is. -/
def walkPair (p : Problem) (inner : Inner) (strict : Bool) (target source : TypeId) :
    Inferring Bool := do
  let target ← expand p.environment target
  let source ← expand p.environment source
  let param? := fun
    | Node.param info => p.find? info.name
    | _ => none
  match param? (← Build.node target) with
  | none => walkNodes p inner strict target source
  | some info =>
      match param? (← Build.node source) with
      | some other => modify (merge info.name other.name)
      | none => addCandidate p strict info source
      return true

/-- Walks a pair with `depth` levels left, beside the pairs that are being walked. A pair that
tells nothing, is walked already or lies too deep counts as a match. -/
def inferAt (p : Problem) : Nat → List (TypeId × TypeId) → Inner
  | 0, _, _, _, _ => return true
  | depth + 1, active, strict, target, source => do
      if target = source || !mentions p (← getThe Store) target then
        return true
      else if active.contains (target, source) then
        return true
      else
        walkPair p (inferAt p depth ((target, source) :: active)) strict target source

/-- Records the candidates that `source` offers for the parameters of `target`; whether their
shapes match. -/
def inferFrom (p : Problem) (strict : Bool) (target source : TypeId) : Inferring Bool :=
  inferAt p maxDepth [] strict target source

/-- Two candidates of one parameter that exclude each other. -/
structure Conflict where
  name : String
  first : TypeId
  second : TypeId
  deriving DecidableEq, Repr

def Conflict.diagnostic (s : Store) (c : Conflict) : Diagnostic :=
  .of .inferenceConflict [c.name, s.text c.first, s.text c.second]

/-- The classes of a primitive, or of the members of a union of primitives. -/
def primitiveClasses? (s : Store) (t : TypeId) : Option (List Normal.PrimitiveClass) :=
  (s.unionMembers t).mapM (Normal.primitiveClass? s)

/-- Both are primitives and share no class. -/
def exclusive (s : Store) (a b : TypeId) : Bool :=
  match primitiveClasses? s a, primitiveClasses? s b with
  | some left, some right => !left.any right.contains
  | _, _ => false

/-- Joins the candidates from left to right. -/
def joinFrom (strict : Bool) (name : String) (current : TypeId) :
    List TypeId → ExceptT Conflict Build TypeId
  | [] => return current
  | next :: rest => do
      if !strict && exclusive (← getThe Store) current next then
        throw ⟨name, current, next⟩
      let joined ← Build.union [current, next]
      joinFrom strict name joined rest

/-- The type that the candidates of a parameter agree on; none without a candidate. -/
def solve (strict : Bool) (name : String) (pools : List Pool) :
    ExceptT Conflict Build (Option TypeId) :=
  match candidatesOf pools name with
  | [] => return none
  | first :: rest => return some (← joinFrom strict name first rest)

/-- Walks the parameter types of a call beside its argument types. -/
def collect (p : Problem) (params args : List TypeId) : Inferring Unit :=
  (params.zip args).forM fun (param, arg) => discard (inferFrom p false param arg)

/-- Binds the parameters that got a candidate. -/
def unify (env : Environment) (preserveLiterals : Bool) (typeParams : List TypeParam)
    (params args : List TypeId) : ExceptT Conflict Build Substitution := do
  let p := Problem.of env preserveLiterals typeParams
  let (_, pools) ← (collect p params args).run p.pools
  typeParams.foldlM
    (fun σ info => do
      match ← solve false info.name pools with
      | some t => return σ.insert info.name t
      | none => return σ) Substitution.empty

/-- The type argument of one parameter: what was inferred, or else its default, its constraint or
`unknown`. A conflict is reported and gives `unknown`. -/
def argument (pools : List Pool) (info : TypeParam) : Reporting TypeId := do
  match ← (solve false info.name pools).run with
  | .ok (some t) => return t
  | .ok none => return (info.default.or info.constraint).getD .unknown
  | .error conflict =>
      Reporting.report (conflict.diagnostic (← getThe Store))
      return .unknown

/-- One type argument for each parameter. -/
def typeArguments (env : Environment) (preserveLiterals : Bool) (typeParams : List TypeParam)
    (params args : List TypeId) : Reporting (List TypeId) := do
  let p := Problem.of env preserveLiterals typeParams
  let (_, pools) ← (collect p params args).run p.pools
  typeParams.mapM (argument pools)

/-- Binds the names of a pattern from a source of its shape. A name that the source does not reach
is bound to `unknown`. -/
def matchPattern (env : Environment) (preserveLiterals : Bool) (source pattern : TypeId)
    (names : List String) : Build (Option Substitution) := do
  let p := Problem.of env preserveLiterals (names.map .named)
  let (matched, pools) ← (inferFrom p true pattern source).run p.pools
  if matched then
    let σ ← names.foldlM
      (fun (σ : Substitution) name => do
        match ← (solve true name pools).run with
        | .ok (some t) => return σ.insert name t
        | _ => return σ.insert name .unknown) Substitution.empty
    return some σ
  else
    return none

end TypeResolution.Inference
