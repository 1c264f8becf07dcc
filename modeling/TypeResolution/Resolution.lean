import TypeResolution.Narrowing.Basic

/-!
Requests. Each one starts fresh, uses the aliases and options of its setting, and gives its answer
together with the diagnostics that arose.
-/

namespace TypeResolution

/-- An answer and the diagnostics that arose on the way. -/
structure Outcome (α : Type) where
  value : α
  diagnostics : Array Diagnostic

namespace Outcome

def map {α β : Type} (f : α → β) (o : Outcome α) : Outcome β := ⟨f o.value, o.diagnostics⟩

end Outcome

/-- Runs a computation that reports. -/
def Reporting.outcome {α : Type} (step : Reporting α) : Build (Outcome α) := do
  let (a, ds) ← step.run #[]
  return ⟨a, ds⟩

/-- Runs an evaluation on a given evaluator. -/
def Eval.outcome {α : Type} (step : Eval α) (start : Evaluator) :
    Build (Outcome (Except Cancelled α)) := do
  let (result, e) ← step.run.run start
  return ⟨result, e.diagnostics⟩

namespace Setting

/-- No aliases and the standard options. -/
def plain : Setting := ⟨.empty, .standard⟩

/-- An evaluator for a new request. -/
def evaluator (setting : Setting) (patience : Option Nat) : Evaluator :=
  .fresh setting.options 0 patience

/-- Expands aliases, resolves what can be resolved, then normalizes. -/
def evaluate (setting : Setting) (patience : Option Nat) (t : TypeId) :
    Build (Outcome (Except Cancelled TypeId)) :=
  (Eval.evaluateNormalized setting t).outcome (setting.evaluator patience)

def evaluateConditional (setting : Setting) (patience : Option Nat) (c : Conditional)
    (σ : Substitution) : Build (Outcome (Except Cancelled TypeId)) :=
  (Eval.evaluateConditional setting c σ).outcome (setting.evaluator patience)

def evaluateMapped (setting : Setting) (patience : Option Nat) (m : Mapped) (σ : Substitution) :
    Build (Outcome (Except Cancelled TypeId)) :=
  (Eval.evaluateMapped setting m σ).outcome (setting.evaluator patience)

/-- Evaluation without normalization and without reports. -/
def evaluateQuietly (setting : Setting) (t : TypeId) : Build TypeId := do
  let outcome ← (Eval.evaluate setting t).outcome (setting.evaluator none)
  match outcome.value with
  | .ok t => return t
  | .error _ => return t

/-- The normal form, without evaluation. -/
def normalize (site : Option SourceTag) (t : TypeId) : Build (Outcome TypeId) :=
  (Reporting.normalize site t).outcome

def isAssignable (setting : Setting) (source target : TypeId) : Build (Outcome Bool) := do
  let (result, c) ←
    (Check.isAssignable (setting.nested 0) source target).run (.fresh setting.options)
  return ⟨result, c.diagnostics⟩

def checkAssignable (setting : Setting) (source target : TypeId) :
    Build (Outcome Check.Verdict) := do
  let (verdict, c) ←
    (Check.checkAssignable (setting.nested 0) source target).run (.fresh setting.options)
  return ⟨verdict, c.diagnostics⟩

def narrow (setting : Setting) (t : TypeId) (guard : TypeGuard) (branch : Branch) :
    Build (Outcome TypeId) :=
  (Narrowing.narrow setting t guard branch).outcome

def discriminants (setting : Setting) (t : TypeId) : Build (Outcome (List Discriminant)) :=
  (Narrowing.discriminants setting t).outcome

/-- Binds parameters from the types of a call; a conflict is an error. -/
def unify (setting : Setting) (typeParams : List TypeParam) (params args : List TypeId) :
    Build (Except Inference.Conflict Substitution) :=
  (Inference.unify setting.environment setting.options.preserveLiterals typeParams params args).run

/-- One type argument for each parameter; conflicts are reported. -/
def typeArguments (setting : Setting) (typeParams : List TypeParam) (params args : List TypeId) :
    Build (Outcome (List TypeId)) :=
  (Inference.typeArguments setting.environment setting.options.preserveLiterals typeParams params
    args).outcome

end Setting

end TypeResolution
