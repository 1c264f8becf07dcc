import TypeResolution.Source
import TypeResolution.Text.Replace

/-!
Diagnostics. Every condition the engine meets is recoverable: a component goes on with a valid
type and adds a diagnostic. Each kind has a code, a category and a message with numbered holes.
-/

namespace TypeResolution

inductive Category where
  | warning
  | error
  | suggestion
  | message
  deriving DecidableEq, Repr

namespace Category

def name : Category → String
  | .warning => "Warning"
  | .error => "Error"
  | .suggestion => "Suggestion"
  | .message => "Message"

end Category

/-- The closed set of conditions that are reported. -/
inductive DiagnosticKind where
  | unresolvedReference
  | incompatibleIntersection
  | cyclicTypeAlias
  | evaluationDepthExceeded
  | inferenceConflict
  | keyRemapCollision
  | narrowingAmbiguous
  | cyclicModuleDependency
  | notAssignable
  deriving DecidableEq, Repr

namespace DiagnosticKind

def all : List DiagnosticKind :=
  [.unresolvedReference, .incompatibleIntersection, .cyclicTypeAlias, .evaluationDepthExceeded,
    .inferenceConflict, .keyRemapCollision, .narrowingAmbiguous, .cyclicModuleDependency,
    .notAssignable]

def name : DiagnosticKind → String
  | .unresolvedReference => "UnresolvedReference"
  | .incompatibleIntersection => "IncompatibleIntersection"
  | .cyclicTypeAlias => "CyclicTypeAlias"
  | .evaluationDepthExceeded => "EvaluationDepthExceeded"
  | .inferenceConflict => "InferenceConflict"
  | .keyRemapCollision => "KeyRemapCollision"
  | .narrowingAmbiguous => "NarrowingAmbiguous"
  | .cyclicModuleDependency => "CyclicModuleDependency"
  | .notAssignable => "NotAssignable"

def ofName? (n : String) : Option DiagnosticKind :=
  all.find? (·.name = n)

def code : DiagnosticKind → Nat
  | .unresolvedReference => 9001
  | .incompatibleIntersection => 9002
  | .cyclicTypeAlias => 9003
  | .evaluationDepthExceeded => 9004
  | .inferenceConflict => 9005
  | .keyRemapCollision => 9006
  | .narrowingAmbiguous => 9007
  | .cyclicModuleDependency => 9008
  | .notAssignable => 9009

theorem code_inj : ∀ {j k : DiagnosticKind}, j.code = k.code → j = k := by
  intro j k h
  cases j <;> cases k <;> first | rfl | simp [code] at h

def category : DiagnosticKind → Category
  | .narrowingAmbiguous => .warning
  | _ => .error

/-- The message; `{0}`, `{1}`, … are its holes. -/
def template : DiagnosticKind → String
  | .unresolvedReference => "Cannot find type '\x7b0\x7d'."
  | .incompatibleIntersection =>
      "Property '\x7b0\x7d' has conflicting types '\x7b1\x7d' and '\x7b2\x7d' in intersection and was reduced to 'never'."
  | .cyclicTypeAlias => "Type alias '\x7b0\x7d' circularly references itself."
  | .evaluationDepthExceeded =>
      "Type instantiation is excessively deep and possibly infinite (limit \x7b0\x7d)."
  | .inferenceConflict =>
      "Type parameter '\x7b0\x7d' has conflicting candidates '\x7b1\x7d' and '\x7b2\x7d'."
  | .keyRemapCollision => "Keys '\x7b0\x7d' and '\x7b1\x7d' are both remapped to '\x7b2\x7d'."
  | .narrowingAmbiguous =>
      "Cannot exclude '\x7b0\x7d' from '\x7b1\x7d'; the type was left unnarrowed."
  | .cyclicModuleDependency => "Module '\x7b0\x7d' is part of an import cycle: \x7b1\x7d."
  | .notAssignable => "Type '\x7b0\x7d' is not assignable to type '\x7b1\x7d'."

end DiagnosticKind

namespace Message

/-- The hole with number `i`. -/
def hole (i : Nat) : String :=
  "\x7b" ++ toString i ++ "\x7d"

/-- Fills the holes from number `i` on, one argument after the other: a hole that an argument
brings along is filled by a later argument. -/
def fillFrom (i : Nat) (template : String) : List String → String
  | [] => template
  | arg :: rest => fillFrom (i + 1) (Text.replaceAll (hole i) arg template) rest

def fill (template : String) (args : List String) : String :=
  fillFrom 0 template args

end Message

/-- A secondary location of a diagnostic. -/
structure RelatedLocation where
  location : Option SourceTag
  message : String
  deriving DecidableEq, Repr

structure Diagnostic where
  kind : DiagnosticKind
  message : String
  location : Option SourceTag
  related : List RelatedLocation
  deriving DecidableEq, Repr

namespace Diagnostic

/-- A diagnostic without location whose message is the kind's template filled with `args`. -/
def of (kind : DiagnosticKind) (args : List String) : Diagnostic :=
  ⟨kind, Message.fill kind.template args, none, []⟩

def withLocation (d : Diagnostic) (location : Option SourceTag) : Diagnostic :=
  { d with location := location }

def withRelated (d : Diagnostic) (location : Option SourceTag) (message : String) : Diagnostic :=
  { d with related := d.related ++ [⟨location, message⟩] }

def code (d : Diagnostic) : Nat := d.kind.code

def category (d : Diagnostic) : Category := d.kind.category

def isError (d : Diagnostic) : Bool := d.category = .error

end Diagnostic

end TypeResolution
