import TypeResolution.Evaluation.Conditional

/-!
Template types and text transforms. A template whose holes take finitely many texts becomes the
union of the texts it spells, unless these are too many or too long.
-/

namespace TypeResolution.Eval

/-- All texts of `starts` followed by one of `ends`, unless they are too many. -/
def spell (starts ends : Option (List String)) : Option (List String) := do
  let starts ← starts
  let ends ← ends
  if starts.length * ends.length ≤ Limits.distributionSize then
    some (starts.flatMap fun a => ends.map (a ++ ·))
  else none

/-- The spans with their holes evaluated, and the texts they spell; none if a hole is `never`. -/
def evaluateSpans (inner : TypeId → Eval TypeId) :
    List Span → Option (List String) → Eval (Option (List Span × Option (List String)))
  | [], texts => return some ([], texts)
  | .text a :: rest, texts => do
      let rest ← evaluateSpans inner rest (texts.map (·.map (· ++ a)))
      return rest.map fun (spans, texts) => (.text a :: spans, texts)
  | .hole t :: rest, texts => do
      let value ← inner t
      if value = .never then
        return none
      let texts := spell texts (Template.literalTexts (← getThe Store) value)
      let rest ← evaluateSpans inner rest texts
      return rest.map fun (spans, texts) => (.hole value :: spans, texts)

def template (inner : TypeId → Eval TypeId) (spans : List Span) : Eval TypeId := do
  match ← evaluateSpans inner spans (some [""]) with
  | none => return .never
  | some (spans, texts) =>
      let short := fun (text : String) => text.utf8ByteSize ≤ Limits.templateLength
      match texts with
      | some texts =>
          if texts.all short then
            let literals ← texts.mapM fun text => (Build.stringLiteral text : Build TypeId)
            union literals
          else
            Build.template spans
      | none => Build.template spans

def stringMap (inner : TypeId → Eval TypeId) (kind : StringMap) (arg : TypeId) : Eval TypeId := do
  let arg ← inner arg
  match ← Build.node arg with
  | .literal (.string text) => Build.stringLiteral (kind.apply text)
  | .union members => perMember inner (Build.stringMap kind ·) members
  | _ =>
      if arg = .never || arg = .any then return arg else Build.stringMap kind arg

end TypeResolution.Eval
