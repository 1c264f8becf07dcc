import TypeResolution.Type.Printer

/-!
Why a type is not assignable to another.
-/

namespace TypeResolution

inductive Failure where
  | missingProperty (name : String)
  | optionalProperty (name : String)
  | propertyTypeMismatch (name : String) (source target : TypeId)
  | excessProperty (name : String)
  | tooManyParameters (source target : Nat)
  | returnTypeMismatch (source target : TypeId)
  | noMatchingUnionMember (source : TypeId)
  | typeMismatch (source target : TypeId)
  deriving DecidableEq, Repr

namespace Failure

def name : Failure → String
  | .missingProperty _ => "MissingProperty"
  | .optionalProperty _ => "OptionalProperty"
  | .propertyTypeMismatch .. => "PropertyTypeMismatch"
  | .excessProperty _ => "ExcessProperty"
  | .tooManyParameters .. => "TooManyParameters"
  | .returnTypeMismatch .. => "ReturnTypeMismatch"
  | .noMatchingUnionMember _ => "NoMatchingUnionMember"
  | .typeMismatch .. => "TypeMismatch"

def message (s : Store) : Failure → String
  | .missingProperty name => "Property '" ++ name ++ "' is missing in the source type."
  | .optionalProperty name =>
      "Property '" ++ name
        ++ "' is optional in the source type but required in the target type."
  | .propertyTypeMismatch name source target =>
      "Types of property '" ++ name ++ "' are incompatible: '" ++ s.text source
        ++ "' is not assignable to '" ++ s.text target ++ "'."
  | .excessProperty name =>
      "Object literal may only specify known properties, and '" ++ name
        ++ "' does not exist in the target type."
  | .tooManyParameters source target =>
      "Source expects " ++ toString source ++ " parameters but the target provides only "
        ++ toString target ++ "."
  | .returnTypeMismatch source target =>
      "Return type '" ++ s.text source ++ "' is not assignable to '" ++ s.text target ++ "'."
  | .noMatchingUnionMember source =>
      "'" ++ s.text source ++ "' is not assignable to any member of the target union."
  | .typeMismatch source target =>
      "'" ++ s.text source ++ "' is not assignable to '" ++ s.text target ++ "'."

/-- Where the failure is explained, for a check of `source` against `target`. -/
def location? (s : Store) (source target : TypeId) : Failure → Option SourceTag
  | .missingProperty name | .optionalProperty name | .propertyTypeMismatch name _ _ =>
      s.origin? (.field target name)
  | .excessProperty name => s.origin? (.field source name)
  | _ => none

end Failure

end TypeResolution
