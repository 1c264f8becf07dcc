import TypeResolution.Evaluation.Conditional

/-!
Access to the type of a field. A union of keys is split first, then a union of objects; the
members of an intersection that know the key meet. A key that is not known gives `unknown`, and one
with free parameters defers the access.
-/

namespace TypeResolution.Eval

/-- The type of a field by its name, or else that of the index signature. -/
def fieldType (shape : ObjectShape) (name : String) : TypeId :=
  (((shape.find? name).map (·.type)).or shape.stringIndex).getD .unknown

/-- The members that know the key. -/
def knownMembers (inner : TypeId → Eval TypeId) (members : List TypeId) (key : TypeId) :
    Eval (List TypeId) := do
  let found ← members.mapM fun m => do inner (← Build.indexAccess m key)
  return found.filter (· ≠ .unknown)

/-- Keeps the access when the key or the object is still open. -/
def deferAccess (open_ : Bool) (object key : TypeId) : Eval TypeId :=
  if open_ then Build.indexAccess object key else return .unknown

/-- Access to an evaluated object with one evaluated key. -/
def accessKey (inner : TypeId → Eval TypeId) (t object key : TypeId) : Eval TypeId := do
  let s ← getThe Store
  match s.node object, s.node key with
  | .union members, _ => perMember inner (Build.indexAccess · key) members
  | .intersection members, _ =>
      let found ← knownMembers inner members key
      if found.isEmpty then
        return .unknown
      let site ← origin? t
      intersection site found
  | .object shape, .literal (.string name) => return fieldType shape name
  | .object shape, .intrinsic .string => return shape.stringIndex.getD .unknown
  | .object _, _ => deferAccess (s.containsParams key) object key
  | .array element, .intrinsic .number | .array element, .literal (.number _) => return element
  | .array _, .literal (.string name) =>
      if name = "length" then return .number else return .unknown
  | .array _, _ => deferAccess (s.containsParams key) object key
  | _, _ => deferAccess (s.containsParams object || s.containsParams key) object key

def indexAccess (inner : TypeId → Eval TypeId) (t object key : TypeId) : Eval TypeId := do
  let object ← inner object
  let key ← inner key
  if object = .any then
    return .any
  else if key = .never then
    return .never
  else
    match ← Build.node key with
    | .union keys => perMember inner (Build.indexAccess object ·) keys
    | _ => accessKey inner t object key

end TypeResolution.Eval
