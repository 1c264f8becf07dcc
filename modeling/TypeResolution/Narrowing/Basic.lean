import TypeResolution.Evaluation.Evaluate

/-!
Narrowing: what is left of a type on either side of a condition. The members of a union are kept,
dropped or made smaller one by one. A field that has another literal type in each member of a union
of objects is a discriminant of the union.
-/

namespace TypeResolution

/-- Answers of the `typeof` operator. -/
inductive TypeofKind where
  | string
  | number
  | boolean
  | undefined
  | object
  | function
  deriving DecidableEq, Repr

namespace TypeofKind

def all : List TypeofKind := [.string, .number, .boolean, .undefined, .object, .function]

def name : TypeofKind → String
  | .string => "string"
  | .number => "number"
  | .boolean => "boolean"
  | .undefined => "undefined"
  | .object => "object"
  | .function => "function"

def ofName? (n : String) : Option TypeofKind := all.find? (·.name = n)

/-- The primitive that all values of the kind belong to. -/
def primitive? : TypeofKind → Option TypeId
  | .string => some .string
  | .number => some .number
  | .boolean => some .boolean
  | .undefined => some .undefined
  | .object | .function => none

end TypeofKind

/-- A condition, apart from any program text. -/
inductive TypeGuard where
  | typeof (kind : TypeofKind)
  | literalEquality (value : TypeId)
  | nullishEquality
  | truthy
  | discriminant (property : String) (value : TypeId)
  | inProperty (property : String)
  | predicate (asserts : TypeId)
  deriving DecidableEq, Repr

/-- The side of a condition. -/
inductive Branch where
  | whenTrue
  | whenFalse
  deriving DecidableEq, Repr

namespace Branch

def isTrue (b : Branch) : Bool := b = .whenTrue

def name : Branch → String
  | .whenTrue => "true"
  | .whenFalse => "false"

end Branch

/-- A discriminant with its literal type in each member of the union. -/
structure Discriminant where
  property : String
  variants : List (TypeId × TypeId)
  deriving DecidableEq, Repr

namespace Narrowing

/-- Whether a condition holds of the values of a type. -/
inductive Match where
  | always
  | never
  | sometimes
  deriving DecidableEq, Repr

/-- Whether values of the type can be on the side of a branch. -/
def Match.keeps : Match → Branch → Bool
  | .always, b => b.isTrue
  | .never, b => !b.isTrue
  | .sometimes, _ => true

def resolve (setting : Setting) (t : TypeId) : Reporting TypeId := do
  if t.isFixed then
    return t
  let (result, e) ← (Eval.evaluate setting t (.fresh setting.options 0 none) : Build _)
  e.diagnostics.forM Reporting.report
  match result with
  | .ok t => return t
  | .error _ => return t

/-- Assignability without the check for excess fields. -/
def isAssignable (setting : Setting) (source target : TypeId) : Reporting Bool := do
  let setting := { setting with options := { setting.options with excessPropertyCheck := false } }
  let (result, c) ←
    (Check.isAssignable (setting.nested 0) source target (.fresh setting.options) : Build _)
  c.diagnostics.forM fun d =>
    modify fun ds => if ds.contains d then ds else ds.push d
  return result

/-- The kind of the values of a type, if they all have one; parameters are handled apart. -/
def kindOf? : Node → Option TypeofKind
  | .intrinsic .string | .literal (.string _) | .template _ | .stringMap .. => some .string
  | .intrinsic .number | .literal (.number _) => some .number
  | .intrinsic .boolean | .literal (.boolean _) => some .boolean
  | .intrinsic .undefined | .intrinsic .void => some .undefined
  | .intrinsic .null | .object _ | .array _ => some .object
  | .function _ => some .function
  | _ => none

def typeofMatchAt (s : Store) (kind : TypeofKind) : Nat → TypeId → Match
  | 0, _ => .sometimes
  | fuel + 1, t =>
      match s.node t with
      | .param info =>
          match info.constraint with
          | some constraint => typeofMatchAt s kind fuel constraint
          | none => .sometimes
      | n =>
          match kindOf? n with
          | some found => if found = kind then .always else .never
          | none => .sometimes

/-- A parameter is judged by its constraint. -/
def typeofMatch (s : Store) (kind : TypeofKind) (t : TypeId) : Match :=
  typeofMatchAt s kind (t.index + 1) t

/-- What `any` and `unknown` become when the condition on their kind holds. -/
def ofKind (kind : TypeofKind) (t : TypeId) : Build TypeId := do
  match kind.primitive? with
  | some primitive => return primitive
  | none =>
      if kind = .object then
        let empty ← Build.object ⟨[], none⟩
        Build.union [empty, .null]
      else return t

/-- A member that may or may not have the kind is cut down to it where that can be said. -/
def cutToKind (kind : TypeofKind) (t : TypeId) : Build TypeId :=
  match kind.primitive? with
  | some primitive => Build.rawIntersection [t, primitive]
  | none => return t

def byTypeof (kind : TypeofKind) (branch : Branch) (t : TypeId) : Build TypeId := do
  if t.isAnyOrUnknown then
    if branch.isTrue then ofKind kind t else return t
  else
    let s ← get
    let judged := (s.unionMembers t).map fun m => (m, typeofMatch s kind m)
    let narrowed ← (judged.filter (·.2.keeps branch)).mapM fun (m, found) =>
      if branch.isTrue && found = .sometimes then cutToKind kind m else pure m
    Build.union narrowed

/-- What is left of a member that is not equal to the literal. -/
def unlike (literal t : TypeId) : Option TypeId :=
  if t = literal then none
  else if t = .boolean && literal = .trueLiteral then some .falseLiteral
  else if t = .boolean && literal = .falseLiteral then some .trueLiteral
  else some t

def byLiteral (setting : Setting) (literal : TypeId) (branch : Branch) (t : TypeId) :
    Reporting TypeId := do
  if t.isAnyOrUnknown then
    return if branch.isTrue then literal else t
  let members := (← getThe Store).unionMembers t
  if branch.isTrue then
    let kept ← members.filterM fun m => do
      if m = literal then return true else isAssignable setting literal m
    Build.union (kept.map fun _ => literal)
  else
    Build.union (members.filterMap (unlike literal))

def byNullish (branch : Branch) (t : TypeId) : Build TypeId := do
  if t.isAnyOrUnknown then
    if branch.isTrue then Build.union [.null, .undefined] else return t
  else
    let members := (← get).unionMembers t
    Build.union (members.filter fun m => m.isNullish = branch.isTrue)

/-- Whether the values of a type are truthy. -/
def truthiness (s : Store) (t : TypeId) : Match :=
  match s.node t with
  | .intrinsic .null | .intrinsic .undefined | .intrinsic .void | .intrinsic .never => .never
  | .literal value => if value.isFalsy then .never else .always
  | .object _ | .array _ | .function _ => .always
  | _ => .sometimes

/-- The part of a member whose values can be truthy or falsy. -/
def cutToTruth (branch : Branch) (t : TypeId) : Build TypeId :=
  if branch.isTrue then
    return if t = .boolean then .trueLiteral else t
  else if t = .string then Build.stringLiteral ""
  else if t = .number then Build.numberLiteral .zero
  else return if t = .boolean then .falseLiteral else t

def byTruth (branch : Branch) (t : TypeId) : Build TypeId := do
  let s ← get
  let judged := (s.unionMembers t).map fun m => (m, truthiness s m)
  let narrowed ← (judged.filter (·.2.keeps branch)).mapM fun (m, found) =>
    if found = .sometimes then cutToTruth branch m else pure m
  Build.union narrowed

/-- The same object with another type for a field. -/
def withFieldType (shape : ObjectShape) (name : String) (t : TypeId) : Build TypeId :=
  Build.object { shape with
    fields := shape.fields.map fun f => if f.name = name then { f with type := t } else f }

/-- Whether a constituent of a discriminant field agrees with the branch. -/
def agrees (setting : Setting) (value : TypeId) (branch : Branch) (c : TypeId) :
    Reporting Bool := do
  if !branch.isTrue then
    return c ≠ value
  else if c = value then
    return true
  else if ← isAssignable setting value c then
    return true
  else
    isAssignable setting c value

/-- An object of the union under a condition on one of its fields; none drops it. -/
def discriminate (setting : Setting) (property : String) (value : TypeId) (branch : Branch)
    (member : TypeId) : Reporting (Option TypeId) := do
  let shape? := (← getThe Store).objectShape? member
  match shape?, shape?.bind (·.find? property) with
  | some shape, some f =>
      let field ← resolve setting f.type
      let constituents := (← getThe Store).unionMembers field
      let fitting ← constituents.filterM (agrees setting value branch)
      if fitting.isEmpty then
        return none
      else if fitting.length = constituents.length then
        return some member
      else
        let narrowed ← Build.union fitting
        return some (← withFieldType shape property narrowed)
  | _, _ => return if branch.isTrue then none else some member

def byDiscriminant (setting : Setting) (property : String) (value : TypeId) (branch : Branch)
    (t : TypeId) : Reporting TypeId := do
  let members := (← getThe Store).unionMembers t
  let kept ← members.mapM (discriminate setting property value branch)
  Build.union (kept.filterMap id)

/-- Whether the objects of a type have a field of the name. -/
def presence (name : String) : Node → Match
  | .object shape =>
      match shape.find? name with
      | some f => if f.optional then .sometimes else .always
      | none => if shape.stringIndex.isSome then .sometimes else .never
  | .param _ | .intersection _ => .sometimes
  | _ => .never

def byPresence (name : String) (branch : Branch) (t : TypeId) : Build TypeId := do
  if t.isAnyOrUnknown then
    return t
  let s ← get
  Build.union ((s.unionMembers t).filter fun m => (presence name (s.node m)).keeps branch)

/-- Whether some value could belong to both types: a required field of type `never` has none. -/
def mayOverlap (left right : TypeId) : Build Bool := do
  let met ← Build.intersection [left, right]
  if met = .never then
    return false
  match (← get).objectShape? met with
  | some shape => return !shape.fields.any fun f => f.type = .never && !f.optional
  | none => return true

/-- What is left of a member of which the predicate holds; none drops it. -/
def asserted (setting : Setting) (asserts member : TypeId) : Reporting (Option TypeId) := do
  if ← isAssignable setting member asserts then
    return some member
  else if ← isAssignable setting asserts member then
    return some asserts
  else if ← (mayOverlap member asserts : Build Bool) then
    return some (← Build.intersection [member, asserts])
  else
    return none

/-- The members of which the predicate cannot hold, or none if one of them overlaps with it. -/
def excluded (setting : Setting) (asserts : TypeId) :
    List TypeId → Reporting (Option (List TypeId))
  | [] => return some []
  | m :: rest => do
      if ← isAssignable setting m asserts then
        excluded setting asserts rest
      else if ← (mayOverlap m asserts : Build Bool) then
        return none
      else
        return (← excluded setting asserts rest).map (m :: ·)

def byPredicate (setting : Setting) (asserts : TypeId) (branch : Branch) (t : TypeId) :
    Reporting TypeId := do
  if t.isAnyOrUnknown then
    return if branch.isTrue then asserts else t
  let members := (← getThe Store).unionMembers t
  if branch.isTrue then
    let kept ← members.mapM (asserted setting asserts)
    Build.union (kept.filterMap id)
  else
    match ← excluded setting asserts members with
    | some kept => Build.union kept
    | none =>
        let s ← getThe Store
        Reporting.report <|
          (Diagnostic.of .narrowingAmbiguous [s.text asserts, s.text t]).withLocation
            (s.origin? (.type t))
        return t

/-- The type on one side of a condition. -/
def narrow (setting : Setting) (t : TypeId) (guard : TypeGuard) (branch : Branch) :
    Reporting TypeId := do
  let t ← resolve setting t
  match guard with
  | .typeof kind => byTypeof kind branch t
  | .literalEquality value => byLiteral setting value branch t
  | .nullishEquality => byNullish branch t
  | .truthy => byTruth branch t
  | .discriminant property value => byDiscriminant setting property value branch t
  | .inProperty property => byPresence property branch t
  | .predicate asserts => do
      let asserts ← resolve setting asserts
      byPredicate setting asserts branch t

/-- The type after two branches. -/
def join (left right : TypeId) : Build TypeId := Build.union [left, right]

/-- Literal types, `null` and `undefined`. -/
def isUnit (s : Store) (t : TypeId) : Bool :=
  s.isLiteral t || t = .null || t = .undefined

/-- The literal type of a field in each member, if there is one and no two are equal. -/
def variantsOf (s : Store) (name : String) :
    List (TypeId × ObjectShape) → List (TypeId × TypeId) → Option (List (TypeId × TypeId))
  | [], done => some done
  | (member, shape) :: rest, done =>
      match shape.find? name with
      | none => none
      | some f =>
          if isUnit s f.type && !done.any (·.1 = f.type) then
            variantsOf s name rest (done ++ [(f.type, member)])
          else none

/-- The discriminants of a union of objects. -/
def discriminants (setting : Setting) (t : TypeId) : Reporting (List Discriminant) := do
  let t ← resolve setting t
  let s ← getThe Store
  match s.node t with
  | .union members =>
      match members.mapM fun m => (s.objectShape? m).map (m, ·) with
      | none => return []
      | some shapes =>
          match shapes with
          | (_, first) :: _ :: _ =>
              return first.fields.filterMap fun f =>
                (variantsOf s f.name shapes []).map (⟨f.name, ·⟩)
          | _ => return []
  | _ => return []

end Narrowing

end TypeResolution
