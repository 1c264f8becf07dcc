/-!
Size caps and default bounds shared by the components.
-/

namespace TypeResolution.Limits

/-- An intersection is not distributed over unions into more members than this. -/
def distributionSize : Nat := 64

/-- Longest text, in bytes, that a template type may spell or be matched against. -/
def templateLength : Nat := 4096

/-- Nested evaluations by default. -/
def evaluationDepth : UInt32 := 50

/-- Nested assignability checks by default. -/
def subtypeDepth : UInt32 := 100

/-- Recursive steps of one request by default. -/
def iterations : UInt32 := 100000

end TypeResolution.Limits
