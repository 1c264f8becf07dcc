import TypeResolution.Narrowing.Basic
import TypeResolution.Proofs.Tidy.Types

/-!
Assignability, evaluation and narrowing leave a tidy store tidy, if the evaluation or the check of
components does.
-/

namespace TypeResolution.Tidy

open Store

section check

open Check

variable {inner : Check.Inner} {nested : Nested} {source target : TypeId}

theorem keeps_checkReport (d : Diagnostic) : Keeps (Check.report d) := keeps_modify

theorem keeps_fail (reason : Failure) : Keeps (fail reason) :=
  keeps_bind keeps_modify fun _ => keeps_pure

theorem keeps_failWith (reason : Failure) : Keeps (failWith reason) :=
  keeps_bind keeps_modify fun _ => keeps_pure

theorem keeps_orFail {m : Check Bool} (h : Keeps m) (reason : Failure) :
    Keeps (do if ← m then return true else fail reason) :=
  keeps_bind h fun _ => gives_ite (fun _ => keeps_pure) fun _ => keeps_fail reason

theorem keeps_againstEmptyObject : Keeps (againstEmptyObject source target) :=
  gives_store fun _ _ => gives_ite (fun _ => keeps_pure) fun _ => keeps_fail _

theorem keeps_literalCheck (value : Literal) : Keeps (literal source target value) := by
  refine gives_ite (fun _ => keeps_pure) fun _ => ?_
  refine gives_store fun s _ => ?_
  exact gives_ite (fun _ => keeps_pure) fun _ => keeps_againstEmptyObject

theorem keeps_excess (source target : ObjectShape) : Keeps (excess source target) := by
  unfold excess
  split
  · exact keeps_fail _
  · exact keeps_pure

section components

variable (hi : ∀ source target, Keeps (inner source target))

include hi

theorem keeps_unionTarget (members : List TypeId) : Keeps (unionTarget inner source members) := by
  refine gives_ite (fun _ => keeps_pure) fun _ => ?_
  refine keeps_bind (fun _ => keeps_pure) fun saved => ?_
  refine keeps_bind (keeps_anyM (hi source)) fun found => ?_
  refine keeps_bind keeps_modify fun _ => ?_
  exact gives_ite (fun _ => keeps_pure) fun _ => keeps_fail _

theorem keeps_intersectionSource (members : List TypeId) :
    Keeps (intersectionSource inner source target members) := by
  refine keeps_bind (fun _ => keeps_pure) fun saved => ?_
  refine keeps_bind (keeps_anyM fun t => hi t target) fun found => ?_
  refine gives_ite (fun _ => ?_) fun _ => keeps_fail _
  exact keeps_bind keeps_modify fun _ => keeps_pure

theorem keeps_field (shape : ObjectShape) (f : Field) : Keeps (field inner shape f) := by
  unfold field
  cases shape.find? f.name with
  | none => exact gives_ite (fun _ => keeps_pure) fun _ => keeps_fail _
  | some g =>
      refine gives_ite (fun _ => keeps_fail _) fun _ => ?_
      exact keeps_bind (hi _ _) fun _ => gives_ite (fun _ => keeps_pure) fun _ => keeps_failWith _

theorem keeps_index (shape : ObjectShape) : Keeps (index inner shape target) := by
  refine keeps_bind (keeps_allM fun g => keeps_orFail (hi _ _) _) fun fields => ?_
  refine gives_ite (fun _ => keeps_pure) fun _ => ?_
  cases shape.stringIndex with
  | none => exact keeps_pure
  | some t => exact keeps_orFail (hi _ _) _

theorem keeps_objectCheck (source target : ObjectShape) : Keeps (object inner source target) := by
  refine keeps_bind (keeps_allM (keeps_field hi source)) fun fields => ?_
  refine gives_ite (fun _ => ?_) fun _ => keeps_pure
  cases target.stringIndex with
  | some t => exact keeps_index hi source
  | none =>
      refine keeps_bind keeps_get fun c => ?_
      exact gives_ite (fun _ => keeps_excess _ _) fun _ => keeps_pure

theorem keeps_functionCheck (source target : FunctionShape) :
    Keeps (function inner source target) := by
  refine gives_ite (fun _ => keeps_fail _) fun _ => ?_
  refine keeps_bind (keeps_allM fun x => keeps_orFail (hi _ _) _) fun params => ?_
  refine gives_ite (fun _ => keeps_pure) fun _ => ?_
  refine gives_ite (fun _ => keeps_pure) fun _ => ?_
  exact keeps_bind (hi _ _) fun _ => gives_ite (fun _ => keeps_pure) fun _ => keeps_failWith _

theorem keeps_shapes (m n : Node) : Keeps (shapes inner source target m n) := by
  unfold shapes
  split
  · exact keeps_literalCheck _
  · exact gives_ite (fun _ => keeps_pure) fun _ => keeps_againstEmptyObject
  · exact gives_ite (fun _ => keeps_pure) fun _ => keeps_fail _
  · exact gives_ite (fun _ => keeps_fail _) fun _ => keeps_orFail (hi _ _) _
  · exact keeps_objectCheck hi _ _
  · exact keeps_functionCheck hi _ _
  · exact keeps_orFail (hi _ _) _
  · exact keeps_againstEmptyObject
  · exact keeps_againstEmptyObject
  · exact keeps_fail _

theorem keeps_structures : Keeps (structures inner source target) := by
  refine Tidying.bind (Tidying.lift (gives_node source)) fun m _ => ?_
  refine Tidying.bind (Tidying.lift (gives_node target)) fun n _ => ?_
  split
  · exact keeps_allM fun t => hi t target
  · exact keeps_bind (hi _ _) fun _ => gives_ite (fun _ => hi _ _) fun _ => keeps_pure
  · exact keeps_unionTarget hi _
  · exact keeps_allM (hi source)
  · exact keeps_intersectionSource hi _
  · exact keeps_shapes hi _ _

theorem keeps_work : Keeps (work inner source target) := by
  refine keeps_bind (hi _ _) fun result => ?_
  refine keeps_bind keeps_modify fun _ => ?_
  exact gives_ite (fun _ => keeps_pure) fun _ => keeps_bind keeps_modify fun _ => keeps_pure

theorem keeps_pair (source target : TypeId) : Keeps (pair inner source target) := by
  have hlimit : Keeps (do
      Check.reportDepthExceeded source
      fail (.typeMismatch source target)) := by
    refine keeps_bind (keeps_bind keeps_get fun c => ?_) fun _ => keeps_fail _
    refine gives_ite (fun _ => keeps_pure) fun _ => ?_
    refine keeps_bind keeps_modify fun _ => keeps_bind keeps_get fun _ => ?_
    exact keeps_bind (Tidying.lift (keeps_origin _)) fun _ => keeps_checkReport _
  refine gives_ite (fun _ => keeps_pure) fun _ => ?_
  refine keeps_bind keeps_get fun c => ?_
  refine gives_ite (fun _ => keeps_fail _) fun _ => ?_
  refine keeps_bind (fun _ => keeps_pure) fun answer => ?_
  cases answer with
  | entered => exact keeps_work hi
  | cycle => exact keeps_pure
  | depthExceeded => exact hlimit
  | iterationExceeded => exact hlimit

end components

variable (hn : ∀ t, Keeps (nested.evaluate t))

include hn

theorem keeps_resolve (t : TypeId) : Keeps (resolve nested t) := by
  refine Tidying.bind (Tidying.lift (gives_node t)) fun n _ => ?_
  refine gives_ite (fun _ => ?_) fun _ => keeps_pure
  refine keeps_bind (Tidying.lift (keeps_of_gives (hn t nested.start))) fun x => ?_
  obtain ⟨result, e⟩ := x
  refine keeps_bind (keeps_arrayForM keeps_checkReport) fun _ => ?_
  cases result <;> exact keeps_pure

theorem keeps_rules (hi : ∀ source target, Keeps (inner source target)) (source target : TypeId) :
    Keeps (rules nested inner source target) := by
  refine gives_ite (fun _ => keeps_pure) fun _ => ?_
  refine gives_ite (fun _ => keeps_pure) fun _ => ?_
  refine gives_ite (fun _ => keeps_fail _) fun _ => ?_
  refine gives_ite (fun _ => keeps_pure) fun _ => ?_
  refine keeps_bind (keeps_resolve hn source) fun resolvedSource => ?_
  refine keeps_bind (keeps_resolve hn target) fun resolvedTarget => ?_
  exact gives_ite (fun _ => keeps_structures hi) fun _ => hi _ _

theorem keeps_subtypeAt (depth : Nat) (source target : TypeId) :
    Keeps (subtypeAt nested depth source target) := by
  induction depth generalizing source target with
  | zero => exact keeps_pair (fun _ _ => keeps_fail _) _ _
  | succ depth ih => exact keeps_pair (keeps_rules hn ih) _ _

theorem keeps_isAssignable (source target : TypeId) :
    Keeps (Check.isAssignable nested source target) := by
  refine keeps_bind keeps_modify fun _ => ?_
  exact keeps_bind keeps_get fun c => keeps_subtypeAt hn _ _ _

theorem keeps_checkAssignable (source target : TypeId) :
    Keeps (Check.checkAssignable nested source target) := by
  refine keeps_bind (keeps_isAssignable hn source target) fun b => ?_
  refine gives_ite (fun _ => keeps_pure) fun _ => ?_
  refine gives_store fun s _ => keeps_bind keeps_get fun c => ?_
  cases c.failure <;> exact keeps_pure

end check

section eval

open Eval

variable {inner : TypeId → Eval TypeId} {setting : Setting}

theorem keeps_evalGet : Keeps (get : Eval Evaluator) := fun _ => Tidying.pure fun _ _ => trivial

theorem keeps_evalModify {f : Evaluator → Evaluator} : Keeps (modify f : Eval PUnit) :=
  fun _ => Tidying.pure fun _ _ => trivial

theorem keeps_evalReport (d : Diagnostic) : Keeps (Eval.report d) := keeps_evalModify

theorem keeps_reportAll (ds : Array Diagnostic) : Keeps (reportAll ds) :=
  keeps_arrayForM keeps_evalReport

theorem keeps_poll : Keeps poll := by
  refine keeps_bind keeps_evalGet fun e => ?_
  rcases e.patience with _ | (_ | n)
  · exact keeps_pure
  · exact keeps_throw
  · exact keeps_evalModify

theorem keeps_between {α : Type} {before after : Evaluator → Evaluator} {step : Eval α}
    (h : Keeps step) : Keeps (between before after step) :=
  fun e => keeps_bind (keeps_of_gives (h (before e))) fun _ => Tidying.pure fun _ _ => trivial

theorem keeps_evalOrigin (t : TypeId) : Keeps (Eval.origin? t) := Tidying.lift (keeps_origin _)

theorem keeps_reporting {α : Type} {step : Reporting α} (h : Keeps step) :
    Keeps (Eval.reporting step) :=
  keeps_bind (Tidying.lift (keeps_of_gives (h #[]))) fun _ =>
    keeps_bind (keeps_reportAll _) fun _ => keeps_pure

theorem keeps_evalUnion (members : List TypeId) : Keeps (Eval.union members) :=
  Tidying.lift (keeps_union members)

theorem keeps_evalIntersection (site : Option SourceTag) (members : List TypeId) :
    Keeps (Eval.intersection site members) :=
  keeps_reporting (keeps_intersection members)

theorem keeps_evalInstantiate {α : Type} {f : TypeId → Eval α} (σ : Substitution) (t : TypeId)
    (h : ∀ t, Keeps (f t)) : Keeps (do f (← Build.instantiate σ t) : Eval α) :=
  keeps_bind (Tidying.lift (keeps_instantiate σ t)) h

theorem keeps_reenterAlias (frame : Frame) (lazy : TypeId) (site : Option SourceTag) :
    Keeps (reenterAlias frame lazy site) := by
  refine keeps_bind keeps_evalGet fun e => ?_
  refine gives_ite (fun _ => keeps_pure) fun _ => ?_
  refine gives_ite (fun _ => keeps_pure) fun _ => ?_
  exact keeps_bind keeps_evalModify fun _ => keeps_bind (keeps_evalReport _) fun _ => keeps_pure

theorem keeps_reenterCycle (t : TypeId) : Keeps (reenterCycle setting t) := by
  refine Tidying.bind (Tidying.lift (gives_node t)) fun n _ => ?_
  cases n with
  | reference name args =>
      refine keeps_bind keeps_evalGet fun e => ?_
      cases e.frames.find? (·.name = name) with
      | none => exact keeps_pure
      | some frame => exact keeps_bind (keeps_evalOrigin t) fun _ => keeps_reenterAlias _ _ _
  | _ => exact keeps_pure

theorem keeps_guarded {work : TypeId → Node → Eval TypeId}
    (h : ∀ t n numbers, n.Tidy numbers → Keeps (work t n)) (t : TypeId) : Keeps (guarded work setting t) := by
  have hlimit : Keeps (do Eval.reportDepthExceeded t; return t : Eval TypeId) := by
    refine keeps_bind (keeps_bind keeps_evalGet fun e => ?_) fun _ => keeps_pure
    refine gives_ite (fun _ => keeps_pure) fun _ => ?_
    refine keeps_bind keeps_evalModify fun _ => keeps_bind keeps_evalGet fun _ => ?_
    exact keeps_bind (keeps_evalOrigin t) fun _ => keeps_evalReport _
  refine gives_ite (fun _ => keeps_pure) fun _ => ?_
  refine keeps_bind keeps_poll fun _ => ?_
  refine keeps_bind keeps_evalGet fun e => ?_
  cases e.cache[t]? with
  | some known => exact keeps_pure
  | none =>
      refine keeps_bind keeps_evalGet fun e => ?_
      refine gives_ite (fun _ => keeps_pure) fun _ => ?_
      refine keeps_bind (fun _ => Tidying.pure fun _ _ => trivial) fun answer => ?_
      cases answer with
      | entered =>
          refine Tidying.bind (Tidying.lift (gives_node t)) fun n hn => ?_
          obtain ⟨numbers, hn⟩ := hn
          refine keeps_bind (keeps_between (h t n numbers hn)) fun result => ?_
          refine keeps_bind keeps_evalGet fun e => ?_
          exact gives_ite (fun _ => keeps_pure) fun _ => keeps_bind keeps_evalModify fun _ => keeps_pure
      | cycle => exact keeps_reenterCycle t
      | depthExceeded => exact hlimit
      | iterationExceeded => exact hlimit

theorem puts_putMapped (new : MappedField) (done : List MappedField) :
    Puts (·.field.name) new done (putMapped new done) := by
  induction done with
  | nil => exact puts_nil new rfl
  | cons old rest ih =>
      unfold putMapped
      split
      · exact puts_here ‹_› rfl
      · exact puts_later ‹_› ih

theorem keeps_reportCollision (source : TypeId) (first second target : String) :
    Keeps (reportCollision source first second target) := by
  refine gives_store fun s _ => ?_
  dsimp only
  cases s.origin? (.field source first) <;> exact keeps_evalReport _

theorem keeps_deferAccess (open_ : Bool) (object key : TypeId) :
    Keeps (deferAccess open_ object key) :=
  gives_ite (fun _ => Tidying.lift (keeps_indexAccess _ _)) fun _ => keeps_pure

section components

variable (hi : ∀ t, Keeps (inner t))

include hi

theorem keeps_evalReference (t : TypeId) (name : String) (args : List TypeId) :
    Keeps (Eval.reference inner setting t name args) := by
  unfold Eval.reference
  cases setting.environment.get? name with
  | none =>
      exact keeps_bind (keeps_evalOrigin t) fun _ => keeps_bind (keeps_evalReport _) fun _ => keeps_pure
  | some a =>
      refine keeps_bind (keeps_mapM hi) fun args => ?_
      refine keeps_bind keeps_evalGet fun e => ?_
      cases e.frames.find? fun f => f.name = name && f.args = args with
      | some frame =>
          refine keeps_bind (Tidying.lift (keeps_reference name args)) fun lazy => ?_
          exact keeps_bind (keeps_evalOrigin t) fun _ => keeps_reenterAlias _ _ _
      | none => exact keeps_evalInstantiate _ _ fun body => keeps_between (hi body)

theorem keeps_evalObject (t : TypeId) {shape : ObjectShape}
    (h : (shape.fields.map (·.name)).Nodup) : Keeps (Eval.object inner t shape) := by
  refine Tidying.bind (gives_mapFields hi h) fun fields hfields => ?_
  exact keeps_bind (keeps_optionMapM hi) fun index => Tidying.lift (keeps_rebuildObject hfields)

theorem keeps_evalFunction (shape : FunctionShape) : Keeps (Eval.function inner shape) := by
  refine keeps_bind (keeps_mapM hi) fun params => ?_
  exact keeps_bind (hi _) fun result => Tidying.lift (keeps_function params result)

theorem keeps_evalPerMember {place : TypeId → Build TypeId} (h : ∀ t, Keeps (place t))
    (members : List TypeId) : Keeps (Eval.perMember inner place members) := by
  refine keeps_bind (keeps_mapM fun t => ?_) fun results => keeps_evalUnion results
  exact keeps_bind (Tidying.lift (h t)) fun t => hi t

theorem keeps_evalIsAssignable (source target : TypeId) :
    Keeps (Eval.isAssignable inner setting source target) := by
  refine keeps_bind keeps_evalGet fun e => ?_
  have hcheck : Keeps (Check.isAssignable ⟨inner, .fresh setting.options e.guard.depth none⟩
      source target) := keeps_isAssignable hi source target
  refine keeps_bind (Tidying.lift (hcheck _)) fun x => ?_
  exact keeps_bind (keeps_reportAll _) fun _ => keeps_pure

theorem keeps_bothBranches (c : Conditional) : Keeps (bothBranches inner c) := by
  refine keeps_evalInstantiate _ _ fun whenTrue => ?_
  refine keeps_bind (hi _) fun whenTrue => ?_
  exact keeps_bind (hi _) fun whenFalse => keeps_evalUnion _

theorem keeps_fitBound (check pattern : TypeId) (bindings : Option Substitution) :
    Keeps (match bindings with
      | none => return none
      | some σ => do
          let pattern ←
            if σ.isEmpty then pure pattern
            else do
              let bound ← Build.instantiate σ pattern
              inner bound
          if ← Eval.isAssignable inner setting check pattern then return some σ else return none :
        Eval (Option Substitution)) := by
  cases bindings with
  | none => exact keeps_pure
  | some σ =>
      have hcheck : ∀ pattern, Keeps (do
          if ← Eval.isAssignable inner setting check pattern then return some σ else return none :
            Eval (Option Substitution)) := fun pattern =>
        keeps_bind (keeps_evalIsAssignable hi check pattern) fun _ =>
          gives_ite (fun _ => keeps_pure) fun _ => keeps_pure
      refine gives_ite (fun _ => keeps_bind keeps_pure fun _ => hcheck _) fun _ => ?_
      exact keeps_evalInstantiate _ _ fun bound => keeps_bind (hi bound) fun _ => hcheck _

theorem keeps_fit (check pattern : TypeId) (infer : List String) :
    Keeps (fit inner setting check pattern infer) := by
  have hrest := @keeps_fitBound inner setting hi check pattern
  refine gives_ite (fun _ => keeps_bind keeps_pure hrest) fun _ => ?_
  exact keeps_bind (Tidying.lift (keeps_matchPattern _ _ _ _ _)) hrest

theorem keeps_falseBranch (t : TypeId) (c : Conditional) : Keeps (falseBranch inner t c) := by
  refine gives_store fun s _ => ?_
  refine keeps_bind (keeps_forM fun name => keeps_evalReport _) fun _ => ?_
  exact keeps_evalInstantiate _ _ hi

theorem keeps_choose (t : TypeId) (c : Conditional) (check : TypeId) :
    Keeps (choose inner setting t c check) := by
  refine keeps_bind (hi _) fun pattern => ?_
  refine gives_store fun s _ => ?_
  refine gives_ite (fun _ => Tidying.lift (keeps_conditional _)) fun _ => ?_
  refine keeps_bind (keeps_fit hi _ _ _) fun σ => ?_
  cases σ with
  | some σ => exact keeps_evalInstantiate _ _ hi
  | none => exact keeps_falseBranch hi t c

theorem keeps_evalConditional (t : TypeId) (c : Conditional) :
    Keeps (Eval.conditional inner setting t c) := by
  refine keeps_bind (hi _) fun check => ?_
  refine gives_ite (fun _ => keeps_bothBranches hi c) fun _ => ?_
  refine gives_ite (fun _ => keeps_pure) fun _ => ?_
  refine Tidying.bind (Tidying.lift (gives_node check)) fun n _ => ?_
  split
  · exact keeps_evalPerMember hi (fun m => keeps_conditional _) _
  · exact keeps_choose hi t c check

theorem keeps_mappedName (m : Mapped) (σ : Substitution) (key : String) :
    Keeps (mappedName inner m σ key) := by
  unfold mappedName
  cases m.nameType with
  | none => exact keeps_pure
  | some t =>
      refine keeps_evalInstantiate _ _ fun instantiated => ?_
      refine keeps_bind (hi _) fun renamed => ?_
      exact gives_ite (fun _ => keeps_pure) fun _ => gives_store fun _ _ => keeps_pure

theorem keeps_keeps (m : Mapped) (σ : Substitution) : Keeps (keeps inner m σ) := by
  unfold keeps
  cases m.keyFilter with
  | none => exact keeps_pure
  | some t =>
      exact keeps_evalInstantiate _ _ fun instantiated => keeps_bind (hi _) fun _ => keeps_pure

theorem keeps_mapField (m : Mapped) (f : Field) : Keeps (mapField inner m f) := by
  refine keeps_bind keeps_poll fun _ => ?_
  refine keeps_bind (Tidying.lift (keeps_stringLiteral _)) fun key => ?_
  refine keeps_bind (keeps_keeps hi m _) fun kept => ?_
  refine gives_ite (fun _ => ?_) fun _ => keeps_pure
  refine keeps_bind (keeps_mappedName hi m _ _) fun name => ?_
  cases name with
  | none => exact keeps_pure
  | some name =>
      exact keeps_evalInstantiate _ _ fun instantiated => keeps_bind (hi _) fun _ => keeps_pure

theorem gives_mapFieldsTo (m : Mapped) (source : TypeId) (fields : List Field)
    {done : List MappedField} (h : (done.map (·.field.name)).Nodup) :
    Gives (mapFields inner m source fields done) fun mapped =>
      (mapped.map (·.field.name)).Nodup := by
  induction fields generalizing done with
  | nil => exact Tidying.pure h
  | cons f rest ih =>
      refine keeps_bind (keeps_mapField hi m f) fun new => ?_
      cases new with
      | none => exact ih h
      | some new =>
          have hput := ih ((puts_putMapped new done).nodup h)
          dsimp only
          split
          · exact keeps_bind (keeps_reportCollision source _ _ _) fun _ => hput
          · exact hput

omit hi in
theorem keeps_mapResult {fields : List MappedField} (h : (fields.map (·.field.name)).Nodup)
    (source : TypeId) (index : Option TypeId) : Keeps (do
      let result ← Build.object ⟨fields.map (·.field), index⟩
      fields.forM fun f => do
        if let some tag ← Build.origin? (.field source f.key) then
          Build.recordOrigin (.field result f.field.name) tag
      return result : Eval TypeId) := by
  have hnames : ((fields.map (·.field)).map (·.name)).Nodup := by
    rw [List.map_map]
    exact h
  refine keeps_bind (Tidying.lift (keeps_object hnames)) fun result => ?_
  refine keeps_bind (keeps_forM fun f => ?_) fun _ => keeps_pure
  refine keeps_bind (Tidying.lift (keeps_origin _)) fun tag => ?_
  cases tag with
  | none => exact keeps_pure
  | some tag => exact Tidying.lift (keeps_recordOrigin _ _)

theorem keeps_mapObject (m : Mapped) (source : TypeId) (shape : ObjectShape) :
    Keeps (mapObject inner m source shape) := by
  refine Tidying.bind (gives_mapFieldsTo hi m source shape.fields List.nodup_nil) fun fields h => ?_
  have hrest := keeps_mapResult h source
  refine gives_ite (fun _ => ?_) fun _ => keeps_bind keeps_pure hrest
  refine keeps_evalInstantiate _ _ fun instantiated => keeps_bind (hi _) fun t => ?_
  exact keeps_bind keeps_pure hrest

theorem keeps_evalMapped (m : Mapped) : Keeps (Eval.mapped inner m) := by
  refine keeps_bind (hi _) fun source => ?_
  refine Tidying.bind (Tidying.lift (gives_node source)) fun n _ => ?_
  cases n with
  | union members => exact keeps_evalPerMember hi (fun t => keeps_mapped _) members
  | object shape => exact keeps_mapObject hi m source shape
  | intrinsic _ | literal _ | array _ | function _ | error => exact keeps_pure
  | _ => exact Tidying.lift (keeps_mapped _)

theorem keeps_accessKey (t object key : TypeId) : Keeps (accessKey inner t object key) := by
  refine gives_store fun s _ => ?_
  split
  · exact keeps_evalPerMember hi (fun t => keeps_indexAccess t key) _
  · refine keeps_bind (keeps_bind (keeps_mapM fun m => ?_) fun _ => keeps_pure) fun found => ?_
    · exact keeps_bind (Tidying.lift (keeps_indexAccess m key)) fun t => hi t
    · refine gives_ite (fun _ => keeps_pure) fun _ => ?_
      exact keeps_bind (keeps_evalOrigin t) fun site => keeps_evalIntersection site found
  · exact keeps_pure
  · exact keeps_pure
  · exact keeps_deferAccess _ _ _
  · exact keeps_pure
  · exact keeps_pure
  · exact gives_ite (fun _ => keeps_pure) fun _ => keeps_pure
  · exact keeps_deferAccess _ _ _
  · exact keeps_deferAccess _ _ _

theorem keeps_evalIndexAccess (t object key : TypeId) :
    Keeps (Eval.indexAccess inner t object key) := by
  refine keeps_bind (hi _) fun object => ?_
  refine keeps_bind (hi _) fun key => ?_
  refine gives_ite (fun _ => keeps_pure) fun _ => ?_
  refine gives_ite (fun _ => keeps_pure) fun _ => ?_
  refine Tidying.bind (Tidying.lift (gives_node key)) fun n _ => ?_
  split
  · exact keeps_evalPerMember hi (keeps_indexAccess object) _
  · exact keeps_accessKey hi t object key

theorem keeps_evaluateSpans (spans : List Span) (texts : Option (List String)) :
    Keeps (evaluateSpans inner spans texts) := by
  induction spans generalizing texts with
  | nil => exact keeps_pure
  | cons span rest ih =>
      cases span with
      | text a => exact keeps_bind (ih _) fun _ => keeps_pure
      | hole t =>
          refine keeps_bind (hi t) fun value => ?_
          refine gives_ite (fun _ => keeps_pure) fun _ => ?_
          exact gives_store fun s _ => keeps_bind (ih _) fun _ => keeps_pure

theorem keeps_evalTemplate (spans : List Span) : Keeps (Eval.template inner spans) := by
  refine keeps_bind (keeps_evaluateSpans hi spans _) fun found => ?_
  rcases found with _ | ⟨spans, _ | texts⟩
  · exact keeps_pure
  · exact Tidying.lift (keeps_template spans)
  · refine gives_ite (fun _ => ?_) fun _ => Tidying.lift (keeps_template spans)
    refine keeps_bind (keeps_mapM fun text => Tidying.lift (keeps_stringLiteral text)) fun literals => ?_
    exact keeps_evalUnion literals

theorem keeps_evalStringMap (kind : StringMap) (arg : TypeId) :
    Keeps (Eval.stringMap inner kind arg) := by
  refine keeps_bind (hi arg) fun arg => ?_
  refine Tidying.bind (Tidying.lift (gives_node arg)) fun n _ => ?_
  split
  · exact Tidying.lift (keeps_stringLiteral _)
  · exact keeps_evalPerMember hi (keeps_stringMap kind) _
  · exact gives_ite (fun _ => keeps_pure) fun _ => Tidying.lift (keeps_stringMap _ _)

theorem keeps_evalNode (t : TypeId) (n : Node) (numbers : Numbering) (hn : n.Tidy numbers) :
    Keeps (Eval.node inner setting t n) := by
  cases n with
  | error | intrinsic _ | literal _ | param _ => exact keeps_pure
  | union members => exact keeps_bind (keeps_mapM hi) fun members => keeps_evalUnion members
  | intersection members =>
      refine keeps_bind (keeps_mapM hi) fun members => ?_
      exact keeps_bind (keeps_evalOrigin t) fun site => keeps_evalIntersection site members
  | object shape => exact keeps_between (keeps_evalObject hi t hn)
  | function shape => exact keeps_between (keeps_evalFunction hi shape)
  | array element =>
      exact keeps_bind (keeps_between (hi element)) fun t => Tidying.lift (keeps_array t)
  | reference name args => exact keeps_evalReference hi t name args
  | conditional c => exact keeps_evalConditional hi t c
  | mapped m => exact keeps_evalMapped hi m
  | indexAccess object key => exact keeps_evalIndexAccess hi t object key
  | template spans => exact keeps_evalTemplate hi spans
  | stringMap kind arg => exact keeps_evalStringMap hi kind arg

end components

variable (setting)

theorem keeps_evaluateAt (depth : Nat) (t : TypeId) : Keeps (evaluateAt setting depth t) := by
  induction depth generalizing t with
  | zero => exact keeps_guarded (fun _ _ _ _ => keeps_pure) t
  | succ depth ih => exact keeps_guarded (keeps_evalNode ih) t

theorem keeps_evaluate (t : TypeId) : Keeps (Eval.evaluate setting t) :=
  keeps_bind (keeps_bind keeps_evalGet fun _ => keeps_pure) fun _ => keeps_evaluateAt setting _ t

theorem keeps_evaluateNormalized (t : TypeId) : Keeps (evaluateNormalized setting t) := by
  refine keeps_bind (keeps_evaluate setting t) fun evaluated => ?_
  exact keeps_bind (keeps_evalOrigin t) fun site => keeps_reporting (keeps_normalize site evaluated)

theorem keeps_evaluateConditional (c : Conditional) (σ : Substitution) :
    Keeps (evaluateConditional setting c σ) := by
  refine keeps_bind (Tidying.lift (keeps_conditional c)) fun raw => ?_
  exact keeps_evalInstantiate σ raw (keeps_evaluate setting)

theorem keeps_evaluateMapped (m : Mapped) (σ : Substitution) :
    Keeps (evaluateMapped setting m σ) := by
  refine keeps_bind (Tidying.lift (keeps_mapped m)) fun raw => ?_
  exact keeps_evalInstantiate σ raw (keeps_evaluate setting)

end eval

section narrowing

open Narrowing

variable (setting : Setting) (branch : Branch) (t : TypeId)

theorem keeps_narrowResolve : Keeps (Narrowing.resolve setting t) := by
  refine gives_ite (fun _ => keeps_pure) fun _ => ?_
  refine keeps_bind (Tidying.lift (keeps_of_gives (keeps_evaluate setting t _))) fun x => ?_
  obtain ⟨result, e⟩ := x
  refine keeps_bind (keeps_arrayForM keeps_report) fun _ => ?_
  cases result <;> exact keeps_pure

theorem keeps_nested (depth : Nat) (t : TypeId) : Keeps ((setting.nested depth).evaluate t) :=
  keeps_evaluateAt setting _ t

theorem keeps_narrowIsAssignable (source target : TypeId) :
    Keeps (Narrowing.isAssignable setting source target) := by
  refine keeps_bind (Tidying.lift (keeps_isAssignable (keeps_nested _ 0) _ _ _)) fun x => ?_
  exact keeps_bind (keeps_arrayForM fun _ => keeps_modify) fun _ => keeps_pure

theorem keeps_ofKind (kind : TypeofKind) : Keeps (ofKind kind t) := by
  unfold ofKind
  cases kind.primitive? with
  | some primitive => exact keeps_pure
  | none =>
      refine gives_ite (fun _ => ?_) fun _ => keeps_pure
      exact keeps_bind (keeps_object List.nodup_nil) fun empty => keeps_union _

theorem keeps_cutToKind (kind : TypeofKind) : Keeps (cutToKind kind t) := by
  unfold cutToKind
  cases kind.primitive? with
  | some primitive => exact keeps_rawIntersection _
  | none => exact keeps_pure

theorem keeps_byTypeof (kind : TypeofKind) : Keeps (byTypeof kind branch t) := by
  refine gives_ite (fun _ => gives_ite (fun _ => keeps_ofKind t kind) fun _ => keeps_pure) fun _ => ?_
  refine gives_store fun s _ => keeps_bind (keeps_mapM fun m => ?_) fun _ => keeps_union _
  exact gives_ite (fun _ => keeps_cutToKind _ kind) fun _ => keeps_pure

theorem keeps_byLiteral (literal : TypeId) : Keeps (byLiteral setting literal branch t) := by
  refine gives_ite (fun _ => keeps_pure) fun _ => ?_
  refine gives_store fun s _ => gives_ite (fun _ => ?_) fun _ => Tidying.lift (keeps_union _)
  refine keeps_bind (keeps_filterM fun m => ?_) fun _ => Tidying.lift (keeps_union _)
  exact gives_ite (fun _ => keeps_pure) fun _ => keeps_narrowIsAssignable setting literal m

theorem keeps_byNullish : Keeps (byNullish branch t) := by
  refine gives_ite (fun _ => gives_ite (fun _ => keeps_union _) fun _ => keeps_pure) fun _ => ?_
  exact gives_store fun s _ => keeps_union _

theorem keeps_cutToTruth : Keeps (cutToTruth branch t) := by
  refine gives_ite (fun _ => keeps_pure) fun _ => ?_
  refine gives_ite (fun _ => keeps_stringLiteral "") fun _ => ?_
  exact gives_ite (fun _ => keeps_intern fun _ => trivial) fun _ => keeps_pure

theorem keeps_byTruth : Keeps (byTruth branch t) := by
  refine gives_store fun s _ => keeps_bind (keeps_mapM fun m => ?_) fun _ => keeps_union _
  exact gives_ite (fun _ => keeps_cutToTruth branch _) fun _ => keeps_pure

theorem names_withFieldType (fields : List Field) (name : String) :
    (fields.map fun f => if f.name = name then { f with type := t } else f).map (·.name)
      = fields.map (·.name) := by
  rw [List.map_map]
  refine List.map_congr_left fun f _ => ?_
  dsimp only [Function.comp]
  split <;> rfl

theorem keeps_agrees (value c : TypeId) : Keeps (agrees setting value branch c) := by
  refine gives_ite (fun _ => keeps_pure) fun _ => ?_
  refine gives_ite (fun _ => keeps_pure) fun _ => ?_
  refine keeps_bind (keeps_narrowIsAssignable setting value c) fun _ => ?_
  exact gives_ite (fun _ => keeps_pure) fun _ => keeps_narrowIsAssignable setting c value

theorem keeps_discriminate (property : String) (value member : TypeId) :
    Keeps (discriminate setting property value branch member) := by
  refine gives_store fun s hs => ?_
  dsimp only
  split
  · rename_i shape f hshape _
    refine keeps_bind (keeps_narrowResolve setting f.type) fun field => ?_
    refine gives_store fun s₁ _ => ?_
    refine keeps_bind (keeps_filterM (keeps_agrees setting branch value)) fun fitting => ?_
    refine gives_ite (fun _ => keeps_pure) fun _ => ?_
    refine gives_ite (fun _ => keeps_pure) fun _ => ?_
    refine keeps_bind (Tidying.lift (keeps_union fitting)) fun narrowed => ?_
    refine keeps_bind (Tidying.lift (keeps_object ?_)) fun _ => keeps_pure
    rw [names_withFieldType]
    exact hs.nodup_names hshape
  · exact keeps_pure

theorem keeps_byDiscriminant (property : String) (value : TypeId) :
    Keeps (byDiscriminant setting property value branch t) := by
  refine gives_store fun s _ => ?_
  refine keeps_bind (keeps_mapM (keeps_discriminate setting branch property value)) fun kept => ?_
  exact Tidying.lift (keeps_union _)

theorem keeps_byPresence (name : String) : Keeps (byPresence name branch t) := by
  refine gives_ite (fun _ => keeps_pure) fun _ => ?_
  exact gives_store fun s _ => keeps_union _

theorem keeps_mayOverlap (left right : TypeId) : Keeps (mayOverlap left right) := by
  refine keeps_bind (keeps_buildIntersection _) fun met => ?_
  refine gives_ite (fun _ => keeps_pure) fun _ => gives_store fun s _ => ?_
  cases s.objectShape? met <;> exact keeps_pure

theorem keeps_asserted (asserts member : TypeId) : Keeps (asserted setting asserts member) := by
  refine keeps_bind (keeps_narrowIsAssignable setting _ _) fun _ => ?_
  refine gives_ite (fun _ => keeps_pure) fun _ => ?_
  refine keeps_bind (keeps_narrowIsAssignable setting _ _) fun _ => ?_
  refine gives_ite (fun _ => keeps_pure) fun _ => ?_
  refine keeps_bind (Tidying.lift (keeps_mayOverlap _ _)) fun _ => ?_
  refine gives_ite (fun _ => ?_) fun _ => keeps_pure
  exact keeps_bind (Tidying.lift (keeps_buildIntersection _)) fun _ => keeps_pure

theorem keeps_excluded (asserts : TypeId) (members : List TypeId) :
    Keeps (excluded setting asserts members) := by
  induction members with
  | nil => exact keeps_pure
  | cons m rest ih =>
      refine keeps_bind (keeps_narrowIsAssignable setting _ _) fun _ => ?_
      refine gives_ite (fun _ => ih) fun _ => ?_
      refine keeps_bind (Tidying.lift (keeps_mayOverlap _ _)) fun _ => ?_
      exact gives_ite (fun _ => keeps_pure) fun _ => keeps_bind ih fun _ => keeps_pure

theorem keeps_byPredicate (asserts : TypeId) : Keeps (byPredicate setting asserts branch t) := by
  refine gives_ite (fun _ => keeps_pure) fun _ => ?_
  refine gives_store fun s _ => gives_ite (fun _ => ?_) fun _ => ?_
  · exact keeps_bind (keeps_mapM (keeps_asserted setting asserts)) fun kept =>
      Tidying.lift (keeps_union _)
  · refine keeps_bind (keeps_excluded setting asserts _) fun kept => ?_
    cases kept with
    | some kept => exact Tidying.lift (keeps_union kept)
    | none => exact gives_store fun s _ => keeps_bind (keeps_report _) fun _ => keeps_pure

theorem keeps_narrow (guard : TypeGuard) : Keeps (narrow setting t guard branch) := by
  refine keeps_bind (keeps_narrowResolve setting t) fun t => ?_
  cases guard with
  | typeof kind => exact Tidying.lift (keeps_byTypeof branch t kind)
  | literalEquality value => exact keeps_byLiteral setting branch t value
  | nullishEquality => exact Tidying.lift (keeps_byNullish branch t)
  | truthy => exact Tidying.lift (keeps_byTruth branch t)
  | discriminant property value => exact keeps_byDiscriminant setting branch t property value
  | inProperty property => exact Tidying.lift (keeps_byPresence branch t property)
  | predicate asserts =>
      exact keeps_bind (keeps_narrowResolve setting asserts) (keeps_byPredicate setting branch t)

theorem keeps_discriminants : Keeps (discriminants setting t) := by
  refine keeps_bind (keeps_narrowResolve setting t) fun t => gives_store fun s _ => ?_
  split
  · cases List.mapM (fun m => (s.objectShape? m).map (m, ·)) _ with
    | none => exact keeps_pure
    | some shapes =>
        dsimp only
        split <;> exact keeps_pure
  · exact keeps_pure

end narrowing

end TypeResolution.Tidy
