import TypeResolution.Proofs.Tags.Basic
import TypeResolution.Session.Source

/-!
Expressions without their tags become the same types. The tags of an expression are erased from it,
from its parts and from the fields of its objects.
-/

namespace TypeResolution

mutual

/-- The expression without tags. -/
def TypeExpr.untagged : TypeExpr → TypeExpr
  | ⟨kind, _⟩ => ⟨kind.untagged, none⟩

def ExprKind.untagged : ExprKind → ExprKind
  | .intrinsic kind => .intrinsic kind
  | .literal value => .literal value
  | .object fields index => .object (untaggedFields fields) (untaggedOption index)
  | .union members => .union (untaggedAll members)
  | .intersection members => .intersection (untaggedAll members)
  | .function params returnType => .function (untaggedAll params) returnType.untagged
  | .array element => .array element.untagged
  | .reference name args => .reference name (untaggedAll args)
  | .conditional check pattern infer thenBranch elseBranch distributive =>
      .conditional check.untagged pattern.untagged infer thenBranch.untagged elseBranch.untagged
        distributive
  | .mapped keyParam source keyFilter template nameType optional readonly =>
      .mapped keyParam source.untagged (untaggedOption keyFilter) template.untagged
        (untaggedOption nameType) optional readonly
  | .indexAccess object index => .indexAccess object.untagged index.untagged
  | .template spans => .template (untaggedSpans spans)
  | .stringMap kind argument => .stringMap kind argument.untagged

def untaggedAll : List TypeExpr → List TypeExpr
  | [] => []
  | e :: rest => e.untagged :: untaggedAll rest

def untaggedOption : Option TypeExpr → Option TypeExpr
  | none => none
  | some e => some e.untagged

def untaggedFields : List FieldExpr → List FieldExpr
  | [] => []
  | ⟨name, type, optional, readonly, _⟩ :: rest =>
      ⟨name, type.untagged, optional, readonly, none⟩ :: untaggedFields rest

def untaggedSpans : List SpanExpr → List SpanExpr
  | [] => []
  | .text text :: rest => .text text :: untaggedSpans rest
  | .hole e :: rest => .hole e.untagged :: untaggedSpans rest

end

theorem isEmpty_untaggedAll (es : List TypeExpr) : (untaggedAll es).isEmpty = es.isEmpty := by
  cases es <;> rfl

def ParamExpr.untagged (p : ParamExpr) : ParamExpr :=
  { p with constraint := untaggedOption p.constraint, default := untaggedOption p.default }

def AliasExpr.untagged (a : AliasExpr) : AliasExpr :=
  ⟨a.name, a.params.map (·.untagged), a.body.untagged, none⟩

def GuardExpr.untagged : GuardExpr → GuardExpr
  | .literalEquality value => .literalEquality value.untagged
  | .discriminant property value => .discriminant property value.untagged
  | .predicate asserts => .predicate asserts.untagged
  | guard => guard

def Query.untagged : Query → Query
  | .evaluate type => .evaluate type.untagged
  | .assignable source target excess => .assignable source.untagged target.untagged excess
  | .narrow type guard branch => .narrow type.untagged guard.untagged branch
  | .inferCall typeParams params args =>
      .inferCall (typeParams.map (·.untagged)) (untaggedAll params) (untaggedAll args)

/-- The module with all tags erased from its declarations and queries. -/
def ModuleSource.untagged (m : ModuleSource) : ModuleSource :=
  { m with aliases := m.aliases.map (·.untagged), queries := m.queries.map (·.untagged) }

namespace Tags

open Lowering

theorem agree_bump : Agree bump bump := by
  refine agree_bind (agree_modify fun m n hmn => ?_) fun _ => ?_
  · obtain rfl : m = n := hmn
    rfl
  · exact agree_bind beside_get fun _ => agree_pure _

theorem agree_bindNames (names : List String) (scope : TypeScope) :
    Agree (bindNames names scope) (bindNames names scope) :=
  agree_foldlM (fun _ _ => agree_bind (agree_intern _) fun _ => agree_pure _) scope

theorem agree_application (name : String) (args : List TypeId) :
    Agree (application name args) (application name args) := by
  rcases args with _ | ⟨arg, _ | ⟨second, rest⟩⟩
  · exact agree_intern _
  · refine beside_ite (agree_intern _) ?_
    cases builtinMap? name with
    | none => exact agree_intern _
    | some kind => exact agree_intern _
  · exact agree_intern _

theorem alike_recordFields (object : TypeId) (fields : List FieldExpr) (s : Store) :
    s.Alike (recordFields object fields s).2 := by
  induction fields generalizing s with
  | nil => exact .refl s
  | cons f rest ih =>
      change s.Alike (recordFields object rest _).2
      refine Store.Alike.trans ?_ (ih _)
      cases f.location.or f.type.location with
      | none => exact .refl s
      | some tag => exact Store.alike_recordOrigin s _ tag

mutual

theorem agree_lower (e : TypeExpr) (scope : TypeScope) :
    Agree (e.lower scope) (e.untagged.lower scope) := by
  obtain ⟨kind, location⟩ := e
  rw [TypeExpr.untagged]
  unfold TypeExpr.lower
  refine agree_bind agree_bump fun b => beside_ite ?_ (agree_pure _)
  refine agree_bind (agree_lowerKind kind scope) fun t => ?_
  cases location with
  | none => exact agree_pure _
  | some tag => exact agree_recorded (agree_pure t) _ tag

theorem agree_lowerKind (kind : ExprKind) (scope : TypeScope) :
    Agree (kind.lower scope) (kind.untagged.lower scope) := by
  unfold ExprKind.untagged ExprKind.lower
  cases kind with
  | intrinsic kind => exact agree_pure _
  | literal value => exact agree_lift (agree_literal value)
  | object fields index =>
      refine agree_bind (agree_lowerFields fields scope []) fun lowered => ?_
      refine agree_bind (agree_lowerOption index scope) fun stringIndex => ?_
      refine agree_bind (agree_lift (agree_intern _)) fun object => ?_
      refine agree_bind (agree_lift ?_) fun _ => agree_pure _
      exact agree_quiet (alike_recordFields object fields) (alike_recordFields object _)
  | union members =>
      exact agree_bind (agree_lowerAll members scope) fun ts => agree_lift (agree_rawUnion ts)
  | intersection members =>
      exact agree_bind (agree_lowerAll members scope) fun ts =>
        agree_lift (agree_rawIntersection ts)
  | function params result =>
      refine agree_bind (agree_lowerAll params scope) fun params => ?_
      exact agree_bind (agree_lower result scope) fun t => agree_lift (agree_intern _)
  | array element =>
      exact agree_bind (agree_lower element scope) fun t => agree_lift (agree_intern _)
  | reference name args =>
      dsimp only
      rw [isEmpty_untaggedAll]
      cases if args.isEmpty then scope.lookup name else none with
      | some param => exact agree_pure _
      | none =>
          exact agree_bind (agree_lowerAll args scope) fun ts =>
            agree_lift (agree_application name ts)
  | conditional check pattern infer thenBranch elseBranch distributive =>
      refine agree_bind (agree_lower check scope) fun check => ?_
      refine agree_bind (agree_lift (agree_node check)) fun n => ?_
      refine agree_bind (agree_lift (agree_bindNames infer scope)) fun inner => ?_
      refine agree_bind (agree_lower pattern inner) fun pattern => ?_
      refine agree_bind (agree_lower thenBranch inner) fun whenTrue => ?_
      exact agree_bind (agree_lower elseBranch inner) fun whenFalse =>
        agree_lift (agree_intern _)
  | mapped keyParam source keyFilter template nameType optional readonly =>
      refine agree_bind (agree_lower source scope) fun source => ?_
      refine agree_bind (agree_lift (agree_bindNames [keyParam] scope)) fun inner => ?_
      refine agree_bind (agree_lowerOption keyFilter inner) fun keyFilter => ?_
      refine agree_bind (agree_lower template inner) fun template => ?_
      exact agree_bind (agree_lowerOption nameType inner) fun nameType =>
        agree_lift (agree_intern _)
  | indexAccess object index =>
      refine agree_bind (agree_lower object scope) fun object => ?_
      exact agree_bind (agree_lower index scope) fun key => agree_lift (agree_intern _)
  | template spans =>
      exact agree_bind (agree_lowerSpans spans scope) fun spans => agree_lift (agree_template spans)
  | stringMap kind argument =>
      exact agree_bind (agree_lower argument scope) fun t => agree_lift (agree_intern _)

theorem agree_lowerAll (es : List TypeExpr) (scope : TypeScope) :
    Agree (lowerAll es scope) (lowerAll (untaggedAll es) scope) := by
  cases es with
  | nil => exact agree_pure _
  | cons e rest =>
      rw [untaggedAll, lowerAll, lowerAll]
      refine agree_bind (agree_lower e scope) fun t => ?_
      exact agree_bind (agree_lowerAll rest scope) fun _ => agree_pure _

theorem agree_lowerOption (e : Option TypeExpr) (scope : TypeScope) :
    Agree (lowerOption e scope) (lowerOption (untaggedOption e) scope) := by
  cases e with
  | none => exact agree_pure _
  | some e =>
      rw [untaggedOption, lowerOption, lowerOption]
      exact agree_bind (agree_lower e scope) fun _ => agree_pure _

theorem agree_lowerFields (fields : List FieldExpr) (scope : TypeScope) (done : List Field) :
    Agree (lowerFields fields scope done) (lowerFields (untaggedFields fields) scope done) := by
  cases fields with
  | nil => exact agree_pure _
  | cons f rest =>
      obtain ⟨name, type, optional, readonly, location⟩ := f
      rw [untaggedFields, lowerFields, lowerFields]
      refine agree_bind (agree_lower type scope) fun t => ?_
      exact agree_lowerFields rest scope _

theorem agree_lowerSpans (spans : List SpanExpr) (scope : TypeScope) :
    Agree (lowerSpans spans scope) (lowerSpans (untaggedSpans spans) scope) := by
  cases spans with
  | nil => exact agree_pure _
  | cons span rest =>
      cases span with
      | text a =>
          rw [untaggedSpans, lowerSpans, lowerSpans]
          exact agree_bind (agree_lowerSpans rest scope) fun _ => agree_pure _
      | hole e =>
          rw [untaggedSpans, lowerSpans, lowerSpans]
          refine agree_bind (agree_lower e scope) fun t => ?_
          exact agree_bind (agree_lowerSpans rest scope) fun _ => agree_pure _

end

end Tags

end TypeResolution
