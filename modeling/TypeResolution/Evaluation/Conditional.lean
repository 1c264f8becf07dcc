import TypeResolution.Assignability.Check
import TypeResolution.Inference.Basic

/-!
Conditional types. The check type is evaluated and, if the conditional is distributive, split per
union member. A check or pattern with free parameters defers the choice. Otherwise the names of
the pattern are bound from the check type, which must be assignable to the bound pattern.
-/

namespace TypeResolution.Eval

/-- Assignability as seen from inside an evaluation: nested evaluations start at its depth. -/
def isAssignable (inner : TypeId → Eval TypeId) (setting : Setting) (source target : TypeId) :
    Eval Bool := do
  let depth := (← get).guard.depth
  let nested : Check.Nested := ⟨inner, .fresh setting.options depth none⟩
  let (result, c) ← (Check.isAssignable nested source target (.fresh setting.options) : Build _)
  reportAll c.diagnostics
  return result

def bindAll (names : List String) (t : TypeId) : Substitution :=
  names.foldl (fun σ name => σ.insert name t) .empty

/-- One result for each member that takes a place, joined. -/
def perMember (inner : TypeId → Eval TypeId) (place : TypeId → Build TypeId)
    (members : List TypeId) : Eval TypeId := do
  let results ← members.mapM fun t => do inner (← place t)
  union results

/-- `any` takes both branches. -/
def bothBranches (inner : TypeId → Eval TypeId) (c : Conditional) : Eval TypeId := do
  let whenTrue ← Build.instantiate (bindAll c.infer .unknown) c.whenTrue
  let whenTrue ← inner whenTrue
  let whenFalse ← inner c.whenFalse
  union [whenTrue, whenFalse]

/-- The bindings of the pattern's names if the check type fits the pattern. -/
def fit (inner : TypeId → Eval TypeId) (setting : Setting) (check pattern : TypeId)
    (infer : List String) : Eval (Option Substitution) := do
  let bindings ←
    if infer.isEmpty then pure (some Substitution.empty)
    else
      Inference.matchPattern setting.environment setting.options.preserveLiterals check pattern
        infer
  match bindings with
  | none => return none
  | some σ =>
      let pattern ←
        if σ.isEmpty then pure pattern
        else do
          let bound ← Build.instantiate σ pattern
          inner bound
      if ← isAssignable inner setting check pattern then return some σ else return none

/-- Names of the pattern are not in scope in the false branch; those that occur there are reported
and become `unknown`. -/
def falseBranch (inner : TypeId → Eval TypeId) (t : TypeId) (c : Conditional) : Eval TypeId := do
  let s ← getThe Store
  let used := c.infer.filter (s.referencesParam · c.whenFalse)
  let site := s.origin? (.type t)
  used.forM fun name => report ((Diagnostic.of .unresolvedReference [name]).withLocation site)
  let whenFalse ← Build.instantiate (bindAll used .unknown) c.whenFalse
  inner whenFalse

/-- The choice for a check type that is not split. -/
def choose (inner : TypeId → Eval TypeId) (setting : Setting) (t : TypeId) (c : Conditional)
    (check : TypeId) : Eval TypeId := do
  let pattern ← inner c.pattern
  let s ← getThe Store
  if s.containsParams check || s.containsParamsExcept c.infer pattern then
    Build.conditional { c with check := check, pattern := pattern }
  else
    match ← fit inner setting check pattern c.infer with
    | some σ =>
        let whenTrue ← Build.instantiate σ c.whenTrue
        inner whenTrue
    | none => falseBranch inner t c

def conditional (inner : TypeId → Eval TypeId) (setting : Setting) (t : TypeId)
    (c : Conditional) : Eval TypeId := do
  let check ← inner c.check
  if check = .any then
    bothBranches inner c
  else if c.distributive && check = .never then
    return .never
  else
    match c.distributive, ← Build.node check with
    | true, .union members =>
        perMember inner (fun m => Build.conditional { c with check := m }) members
    | _, _ => choose inner setting t c check

end TypeResolution.Eval
