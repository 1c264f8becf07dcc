import TypeResolution.Limits

/-!
Limits and flags of a resolution request.
-/

namespace TypeResolution

structure Options where
  /-- Nested evaluations. -/
  maxEvaluationDepth : UInt32 := Limits.evaluationDepth
  /-- Nested assignability checks. -/
  maxSubtypeDepth : UInt32 := Limits.subtypeDepth
  /-- Recursive steps of one walk. -/
  maxIterations : UInt32 := Limits.iterations
  /-- Refuse fields of the source that the target does not declare. -/
  excessPropertyCheck : Bool := false
  /-- Keep literal types for every inferred parameter, as if it were const. -/
  preserveLiterals : Bool := false
  deriving DecidableEq, Repr

def Options.standard : Options := {}

end TypeResolution
