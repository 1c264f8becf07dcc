import TypeResolution.Diagnostic
import TypeResolution.Limits
import TypeResolution.Type.Printer
import TypeResolution.Type.Scope

/-!
Normal forms of unions and intersections. Nested ones are flattened, `never`, `unknown` and `any`
are absorbed, literals fall into their primitive, an intersection is distributed over its unions,
and objects that meet in an intersection are merged. Normalizing goes through object fields,
functions and arrays and leaves types alone that only evaluation can resolve.
-/

namespace TypeResolution

namespace Store

def leavesAt (s : Store) (parts : Node → Option (List TypeId)) : Nat → TypeId → List TypeId
  | 0, t => [t]
  | fuel + 1, t =>
      match parts (s.node t) with
      | some members => members.flatMap (leavesAt s parts fuel)
      | none => [t]

/-- What is left of a type when it and what it consists of are taken apart. Components have
smaller ids, so the id bounds the nesting. -/
def leaves (s : Store) (parts : Node → Option (List TypeId)) (t : TypeId) : List TypeId :=
  s.leavesAt parts (t.index + 1) t

/-- The members of a union, and of the unions among them. -/
def unionLeaves (s : Store) (t : TypeId) : List TypeId := s.leaves Node.unionMembers? t

/-- The members of an intersection, and of the intersections among them. -/
def intersectionLeaves (s : Store) (t : TypeId) : List TypeId := s.leaves Node.intersectionMembers? t

/-- Drops literals that stand next to their primitive; `true` and `false` make `boolean`. -/
def absorbLiterals (s : Store) (members : List TypeId) : List TypeId :=
  let members :=
    if members.contains .trueLiteral && members.contains .falseLiteral then
      TypeId.insertSorted s.numbers .boolean members
    else members
  let absorbed := fun t => match s.node t with
    | .literal value => members.contains value.primitive
    | _ => false
  members.filter fun t => !absorbed t

end Store

namespace Build

/-- The normal form of the union of normal types. -/
def union (members : List TypeId) : Build TypeId := do
  let s ← get
  let flat := TypeId.sortUnique s.numbers (members.flatMap s.unionLeaves)
  if flat.contains .error then
    return .error
  if flat.contains .any then
    return .any
  if flat.contains .unknown then
    return .unknown
  match s.absorbLiterals (flat.filter (· ≠ .never)) with
  | [] => return .never
  | [t] => return t
  | ts => intern (.union ts)

end Build

/-- Computations that may add types and diagnostics. -/
abbrev Reporting := StateT (Array Diagnostic) Build

namespace Reporting

def report (d : Diagnostic) : Reporting Unit := modify (·.push d)

end Reporting

namespace Normal

/-- Disjoint kinds of primitive values. -/
inductive PrimitiveClass where
  | string
  | number
  | boolean
  | null
  | undefined
  | void
  deriving DecidableEq, Repr

def PrimitiveClass.isNullish : PrimitiveClass → Bool
  | .null | .undefined | .void => true
  | _ => false

def primitiveClass? (s : Store) (t : TypeId) : Option PrimitiveClass :=
  match s.node t with
  | .intrinsic .string | .literal (.string _) => some .string
  | .intrinsic .number | .literal (.number _) => some .number
  | .intrinsic .boolean | .literal (.boolean _) => some .boolean
  | .intrinsic .null => some .null
  | .intrinsic .undefined => some .undefined
  | .intrinsic .void => some .void
  | _ => none

/-- Drops what the literal among the members makes superfluous; two literals exclude each other. -/
def keepLiteral (s : Store) (members : List TypeId) : Option (List TypeId) :=
  match members.filterMap s.literal? with
  | [] => some members
  | [value] => some (members.filter (· ≠ value.primitive))
  | _ => none

/-- Applies the rules for primitives to the members of an intersection; `none` when it is empty. -/
def reducePrimitives (s : Store) (members : List TypeId) : Option (List TypeId) :=
  let classes := (members.filterMap (primitiveClass? s)).eraseDups
  if classes.isEmpty then
    some members
  else
    let objectLike := members.any s.isObjectLike
    if objectLike && classes.any (·.isNullish) then
      none
    else
      let members := if objectLike then members.filter (!s.isEmptyObject ·) else members
      if classes.length = 2 && classes.contains .void && classes.contains .undefined then
        some (members.filter (· ≠ .void))
      else if 1 < classes.length then
        none
      else
        keepLiteral s members

/-- One member of each union, after `chosen`; later unions vary fastest. -/
def choices (chosen : List TypeId) : List (List TypeId) → List (List TypeId)
  | [] => [chosen]
  | members :: rest => members.flatMap fun t => choices (chosen ++ [t]) rest

/-- How many choices there are. -/
def choiceCount (unions : List (List TypeId)) : Nat := unions.foldr (·.length * ·) 1

/-- A field of a merged object and the object that it came from first. -/
structure Owned where
  field : Field
  owner : TypeId
  deriving DecidableEq, Repr

def reportConflict (site : Option SourceTag) (name : String) (first second : Owned) :
    Reporting Unit := do
  let declared := "'" ++ name ++ "' is declared here."
  let firstText ← Build.text first.field.type
  let secondText ← Build.text second.field.type
  let firstTag ← Build.origin? (.field first.owner name)
  let secondTag ← Build.origin? (.field second.owner name)
  Reporting.report <|
    (((Diagnostic.of .incompatibleIntersection [name, firstText, secondText]).withLocation
      site).withRelated firstTag declared).withRelated secondTag declared

/-- Merges two fields of one name: their types meet, the result is optional when both are and
readonly when one is. -/
def meetFields (meet : List TypeId → Reporting TypeId) (site : Option SourceTag)
    (old new : Owned) : Reporting Owned := do
  let merged ←
    if old.field.type = new.field.type then pure old.field.type
    else meet [old.field.type, new.field.type]
  if merged = .never && old.field.type ≠ .never && new.field.type ≠ .never then
    reportConflict site new.field.name old new
  return { old with
    field := { old.field with
      type := merged
      optional := old.field.optional && new.field.optional
      readonly := old.field.readonly || new.field.readonly } }

/-- Adds a field to those merged so far. -/
def mergeField (meet : List TypeId → Reporting TypeId) (site : Option SourceTag) (new : Owned) :
    List Owned → Reporting (List Owned)
  | [] => return [new]
  | old :: rest => do
      if old.field.name = new.field.name then
        return (← meetFields meet site old new) :: rest
      else
        return old :: (← mergeField meet site new rest)

def mergeIndex (meet : List TypeId → Reporting TypeId) :
    Option TypeId → Option TypeId → Reporting (Option TypeId)
  | some a, some b => return some (← meet [a, b])
  | none, other => return other
  | some a, none => return some a

/-- Merges the fields of one object, then its index signature. -/
def mergeObject (meet : List TypeId → Reporting TypeId) (site : Option SourceTag)
    (merged : List Owned × Option TypeId) (object : TypeId) :
    Reporting (List Owned × Option TypeId) := do
  match (← getThe Store).objectShape? object with
  | none => return merged
  | some shape =>
      let fields ← shape.fields.foldlM (fun fields f => mergeField meet site ⟨f, object⟩ fields)
        merged.1
      let index ← mergeIndex meet merged.2 shape.stringIndex
      return (fields, index)

def mergeObjects (meet : List TypeId → Reporting TypeId) (site : Option SourceTag)
    (objects : List TypeId) : Reporting TypeId := do
  let (fields, index) ← objects.foldlM (mergeObject meet site) ([], none)
  let merged ← Build.object ⟨fields.map (·.field), index⟩
  fields.forM fun f => Build.copyFieldOrigins f.owner merged [f.field.name]
  return merged

/-- The normal form of members without unions to distribute over. -/
def meetParts (meet : List TypeId → Reporting TypeId) (site : Option SourceTag)
    (members : List TypeId) : Reporting TypeId := do
  let s ← getThe Store
  match reducePrimitives s members with
  | none => return .never
  | some members =>
      let objects := members.filter s.isObject
      let members ←
        if 1 < objects.length then do
          let merged ← mergeObjects meet site objects
          pure (merged :: members.filter (!objects.contains ·))
        else pure members
      Build.rawIntersection members

/-- Members that remain after `unknown` is dropped, or the type that absorbs the others. -/
def absorbMeet (members : List TypeId) : TypeId ⊕ List TypeId :=
  if members.contains .error then .inl .error
  else if members.contains .never then .inl .never
  else if members.contains .any then .inl .any
  else
    match members.filter (· ≠ .unknown) with
    | [] => .inl .unknown
    | [t] => .inl t
    | ts => .inr ts

/-- The intersection of members in which unions are nested at most `nesting` deep. Objects are
merged by `meet`. -/
def intersectionAt (meet : List TypeId → Reporting TypeId) (site : Option SourceTag) :
    Nat → List TypeId → Reporting TypeId
  | 0, _ => return .error
  | nesting + 1, members => do
      let s ← getThe Store
      match absorbMeet (TypeId.sortUnique s.numbers (members.flatMap s.intersectionLeaves)) with
      | .inl t => return t
      | .inr flat =>
          let unions := flat.filterMap s.unionMembers?
          let others := flat.filter fun t => (s.unionMembers? t).isNone
          if unions.isEmpty || Limits.distributionSize < choiceCount unions then
            meetParts meet site flat
          else do
            let results ← (choices others unions).mapM (intersectionAt meet site nesting)
            Build.union results

/-- Bounds the nesting of the types: components have smaller ids. -/
def rank (members : List TypeId) : Nat := members.foldr (fun t n => max (t.index + 2) n) 1

/-- The intersection of members whose objects are nested at most `levels` deep. -/
def intersectionIn (site : Option SourceTag) : Nat → List TypeId → Reporting TypeId
  | 0, _ => return .error
  | levels + 1, members =>
      intersectionAt (intersectionIn site levels) site (rank members) members

end Normal

namespace Reporting

/-- The normal form of the intersection of normal types. Conflicts between fields are reported
at `site`. -/
def intersection (site : Option SourceTag) (members : List TypeId) : Reporting TypeId :=
  Normal.intersectionIn site (Normal.rank members) members

end Reporting

namespace Build

/-- The normal form of the intersection of normal types, without reports. -/
def intersection (members : List TypeId) : Build TypeId := do
  let (t, _) ← Reporting.intersection none members #[]
  return t

end Build

namespace Normal

/-- Nesting up to which types are normalized. -/
def maxDepth : Nat := 200

/-- Normalizing remembers its results. -/
abbrev Normalizing := StateT (Std.HashMap TypeId TypeId) Reporting

def remember (t result : TypeId) : Normalizing Unit :=
  modify fun cache => (cache.insert t result).insert result result

/-- Rebuilds an object when one of its components changed. -/
def rebuildObject (t : TypeId) (old new : ObjectShape) : Build TypeId := do
  if old = new then
    return t
  let rebuilt ← Build.object new
  Build.copyFieldOrigins t rebuilt (new.fields.map (·.name))
  return rebuilt

/-- Normalizes a node whose components are normalized by `inner`. -/
def normalizeNode (inner : Option SourceTag → TypeId → Normalizing TypeId)
    (site : Option SourceTag) (t : TypeId) : Node → Normalizing TypeId
  | .union members => do
      Build.union (← members.mapM (inner site))
  | .intersection members => do
      let site := (← Build.origin? (.type t)).or site
      let members ← members.mapM (inner site)
      Reporting.intersection site members
  | .object shape => do
      let fields ← shape.fields.mapM fun f => return { f with type := ← inner site f.type }
      let index ← shape.stringIndex.mapM (inner site)
      rebuildObject t shape ⟨fields, index⟩
  | .function shape => do
      let params ← shape.params.mapM (inner site)
      let result ← inner site shape.result
      Build.function params result
  | .array element => do
      Build.array (← inner site element)
  | _ => return t

def normalizeAt : Nat → Option SourceTag → TypeId → Normalizing TypeId
  | depth, site, t => do
      if t.isFixed then
        return t
      if let some known := (← get)[t]? then
        return known
      match depth with
      | 0 => return t
      | depth + 1 =>
          let n ← Build.node t
          let result ← normalizeNode (normalizeAt depth) site t n
          remember t result
          return result

end Normal

namespace Reporting

/-- The normal form of a type. Conflicts in intersections are reported at the intersection's own
tag, or else at `site`. -/
def normalize (site : Option SourceTag) (t : TypeId) : Reporting TypeId := do
  let (result, _) ← Normal.normalizeAt Normal.maxDepth site t {}
  return result

end Reporting

end TypeResolution
