import Std.Data.HashSet
import TypeResolution.Type.Store

/-!
Scopes of type parameters, and small questions about a type. The names that a conditional's
pattern introduces are bound in the pattern and in the true branch; the key parameter of a mapped
type is bound in all its parts but the source.
-/

namespace TypeResolution

namespace Node

/-- The components in which free parameters are looked for, each with the names bound around it. -/
def scopes : Node → List (List String × TypeId)
  | .param _ => []
  | .conditional c =>
      [([], c.check), ([], c.whenFalse), (c.infer, c.pattern), (c.infer, c.whenTrue)]
  | .mapped m =>
      ([], m.source) :: (m.keyFilter.toList ++ m.template :: m.nameType.toList).map ([m.keyParam], ·)
  | n => n.components.map ([], ·)

/-- The members of a union. -/
def unionMembers? : Node → Option (List TypeId)
  | .union members => some members
  | _ => none

/-- The members of an intersection. -/
def intersectionMembers? : Node → Option (List TypeId)
  | .intersection members => some members
  | _ => none

theorem eq_union_of_members {n : Node} {members : List TypeId}
    (h : n.unionMembers? = some members) : n = .union members := by
  cases n with
  | union ms => exact congrArg Node.union (Option.some.inj h)
  | _ => cases h

theorem eq_intersection_of_members {n : Node} {members : List TypeId}
    (h : n.intersectionMembers? = some members) : n = .intersection members := by
  cases n with
  | intersection ms => exact congrArg Node.intersection (Option.some.inj h)
  | _ => cases h

theorem unionMembers?_subset (n : Node) (members : List TypeId)
    (h : n.unionMembers? = some members) : members ⊆ n.components := by
  rw [eq_union_of_members h]
  exact fun _ hm => hm

theorem intersectionMembers?_subset (n : Node) (members : List TypeId)
    (h : n.intersectionMembers? = some members) : members ⊆ n.components := by
  rw [eq_intersection_of_members h]
  exact fun _ hm => hm

end Node

namespace Scope

/-- Nesting up to which free parameters are looked for. -/
def maxDepth : Nat := 64

/-- A walk remembers the types it has seen while no name is bound. -/
abbrev Walk := StateM (Std.HashSet TypeId)

/-- Whether a type is to be looked into: at any time under a binder, else once. -/
def visit (bound : List String) (t : TypeId) : Walk Bool := fun seen =>
  if bound.isEmpty then
    if seen.contains t then (false, seen) else (true, seen.insert t)
  else (true, seen)

/-- Whether a parameter that is `wanted` occurs outside of `bound`. -/
def walkAt (s : Store) (wanted : String → Bool) : Nat → List String → TypeId → Walk Bool
  | 0, _, _ => pure false
  | depth + 1, bound, t => do
      if t.isFixed then
        return false
      unless ← visit bound t do
        return false
      match s.node t with
      | .param info => return !bound.contains info.name && wanted info.name
      | n => n.scopes.anyM fun (names, c) => walkAt s wanted depth (names ++ bound) c

end Scope

namespace Store

/-- Whether a parameter with a `wanted` name occurs free. -/
def hasFreeParam (s : Store) (wanted : String → Bool) (t : TypeId) : Bool :=
  (Scope.walkAt s wanted Scope.maxDepth [] t {}).1

def containsParams (s : Store) (t : TypeId) : Bool := s.hasFreeParam (fun _ => true) t

def containsParamsExcept (s : Store) (except : List String) (t : TypeId) : Bool :=
  s.hasFreeParam (!except.contains ·) t

def referencesParam (s : Store) (name : String) (t : TypeId) : Bool :=
  s.hasFreeParam (· = name) t

/-- The members of a union; any other type is its own only member. -/
def unionMembers (s : Store) (t : TypeId) : List TypeId := (s.node t).unionMembers?.getD [t]

/-- The members of a type that is a union. -/
def unionMembers? (s : Store) (t : TypeId) : Option (List TypeId) := (s.node t).unionMembers?

theorem unionMembers?_eq_none_iff {s : Store} {t : TypeId} :
    s.unionMembers? t = none ↔ ∀ members, s.node t ≠ .union members := by
  unfold unionMembers?
  cases s.node t <;> simp [Node.unionMembers?]

/-- The value of a literal type. -/
def literal? (s : Store) (t : TypeId) : Option Literal :=
  match s.node t with
  | .literal value => some value
  | _ => none

/-- The text of a string literal type. -/
def stringLiteral? (s : Store) (t : TypeId) : Option String :=
  match s.node t with
  | .literal (.string text) => some text
  | _ => none

def isLiteral (s : Store) (t : TypeId) : Bool :=
  match s.node t with
  | .literal _ => true
  | _ => false

/-- Objects, arrays and functions. -/
def isObjectLike (s : Store) (t : TypeId) : Bool :=
  match s.node t with
  | .object _ | .array _ | .function _ => true
  | _ => false

def objectShape? (s : Store) (t : TypeId) : Option ObjectShape :=
  match s.node t with
  | .object shape => some shape
  | _ => none

def isObject (s : Store) (t : TypeId) : Bool := (s.objectShape? t).isSome

def isEmptyObject (s : Store) (t : TypeId) : Bool :=
  (s.objectShape? t).any (·.isEmpty)

end Store

end TypeResolution
