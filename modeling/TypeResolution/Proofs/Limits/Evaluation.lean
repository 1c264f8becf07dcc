import TypeResolution.Evaluation.Evaluate
import TypeResolution.Proofs.Limits.Assignability

/-!
Evaluations side by side. Evaluating a node keeps two runs together, if the evaluations of components
and the questions of assignability do; the guard of an evaluation keeps them together as well.
-/

namespace TypeResolution.Limits

open Recursion Eval

variable {D : Diagnostic → Prop} {G G₁ : GuardRel TypeId} {α : Type}

/-- How an evaluator may differ later: it forgets neither a report nor a result nor that it hit a
limit, and does not become more patient. -/
structure Later (e e' : Evaluator) : Prop where
  diagnostics : ∀ d ∈ e.diagnostics, d ∈ e'.diagnostics
  known : ∀ t ∈ e.cache, t ∈ e'.cache
  exceeded : e.guard.exceeded → e'.guard.exceeded
  patience : e'.patience = none → e.patience = none

/-- What marks an evaluator and lasts. -/
structure Mark where
  holds : Evaluator → Prop
  lasts {e e' : Evaluator} : Later e e' → holds e → holds e'

/-- A diagnostic in `D` was reported. -/
def reported (D : Diagnostic → Prop) : Mark where
  holds e := ∃ d ∈ e.diagnostics, D d
  lasts h := fun ⟨d, hd, hD⟩ => ⟨d, h.diagnostics d hd, hD⟩

/-- Two evaluators that differ only in their guards. The first one may be marked. -/
def evaluatorsUpTo (P : Mark) (G : GuardRel TypeId) : Coupling Evaluator where
  rel e e' := ∃ g, e' = { e with guard := g } ∧ G e.guard g e.depthReported
  marked := P.holds

/-- Two evaluators that differ only in their guards. A diagnostic in `D` marks the first one. -/
abbrev evaluators (D : Diagnostic → Prop) (G : GuardRel TypeId) : Coupling Evaluator :=
  evaluatorsUpTo (reported D) G

variable {P : Mark}

theorem Later.refl (e : Evaluator) : Later e e := ⟨fun _ h => h, fun _ h => h, id, id⟩

section state

theorem together_evalGet {f f' : Evaluator → Eval α}
    (h : ∀ e g, Together (evaluatorsUpTo P G) (f e) (f' { e with guard := g })) :
    Together (evaluatorsUpTo P G) (get >>= f) (get >>= f') := by
  refine together_get (fun e e' => ∃ g, e' = { e with guard := g }) (fun e => ⟨_, rfl⟩)
    ?_ ?_
  · rintro e e' ⟨g, rfl, _⟩
    exact ⟨g, rfl⟩
  · rintro e _ ⟨g, rfl⟩
    exact h e g

theorem together_evalModify {f : Evaluator → Evaluator}
    (hguard : ∀ e g, f { e with guard := g } = { f e with guard := g })
    (hkept : ∀ e, (f e).guard = e.guard ∧ (f e).depthReported = e.depthReported)
    (hlater : ∀ e, Later e (f e)) :
    Together (evaluatorsUpTo P G) (modify f : Eval PUnit) (modify f) where
  stays e s he := P.lasts (hlater e) he
  same := by
    rintro e _ s ⟨g, rfl, hg⟩
    refine .inr ⟨rfl, rfl, g, hguard e g, ?_⟩
    change G (f e).guard g (f e).depthReported
    rw [(hkept e).1, (hkept e).2]
    exact hg

theorem together_evalReport (d : Diagnostic) :
    Together (evaluatorsUpTo P G) (Eval.report d) (Eval.report d) := by
  refine together_evalModify (fun e g => ?_) (fun e => ?_) fun e => ?_
  · dsimp only
    split <;> rfl
  · split <;> exact ⟨rfl, rfl⟩
  · split
    · exact .refl e
    · exact { Later.refl e with diagnostics := fun d hd => Array.mem_push_of_mem _ hd }

theorem mem_evalReport (d : Diagnostic) (e : Evaluator) (s : Store) :
    d ∈ (Eval.report d e s).1.2.diagnostics := by
  change d ∈ (if e.diagnostics.contains d then e
    else { e with diagnostics := e.diagnostics.push d }).diagnostics
  split
  · exact Array.contains_iff_mem.mp ‹_›
  · exact Array.mem_push_self

theorem together_reportAll (ds : Array Diagnostic) :
    Together (evaluatorsUpTo P G) (reportAll ds) (reportAll ds) :=
  together_arrayForM together_evalReport

/-- Reporting a marked diagnostic, among others, marks the evaluator. -/
theorem marked_reportAll {ds : Array Diagnostic} (h : ∃ d ∈ ds, D d) (e : Evaluator) (s : Store) :
    (evaluators D G).marked (reportAll ds e s).1.2 := by
  obtain ⟨l⟩ := ds
  unfold reportAll
  rw [Array.forM_eq_forM, List.forM_toArray]
  have hstays : ∀ l : List Diagnostic, Together (evaluators D G) (l.forM Eval.report)
      (l.forM Eval.report) := fun l => together_forM together_evalReport
  obtain ⟨d, hd, hD⟩ := h
  replace hd : d ∈ l := List.mem_toArray.mp hd
  induction l generalizing e s with
  | nil => cases hd
  | cons a rest ih =>
      rcases List.mem_cons.mp hd with rfl | hd
      · exact (hstays rest).stays _ _ ⟨d, mem_evalReport d e s, hD⟩
      · exact ih _ _ hd

/-- What follows a marked state leaves it marked. -/
theorem marked_bind {β : Type} {m : Eval α} {f : α → Eval β} {e : Evaluator} {s : Store}
    (h : (evaluatorsUpTo P G).marked (m e s).1.2) (hf : ∀ a, Together (evaluatorsUpTo P G) (f a) (f a)) :
    (evaluatorsUpTo P G).marked ((m >>= f) e s).1.2 := by
  have hstays : ∀ r e s, (evaluatorsUpTo P G).marked e →
      (evaluatorsUpTo P G).marked (ExceptT.bindCont f r e s).1.2 := by
    intro r
    cases r with
    | ok a => exact (hf a).stays
    | error c => exact fun _ _ h => h
  exact hstays _ _ _ h

theorem meet_evalBind {β : Type} {m m' : Eval α} {f f' : α → Eval β} {e e' : Evaluator} {s : Store}
    (h : Meet (evaluatorsUpTo P G) (m e s) (m' e' s))
    (hf : ∀ a, Together (evaluatorsUpTo P G) (f a) (f' a)) :
    Meet (evaluatorsUpTo P G) ((m >>= f) e s) ((m' >>= f') e' s) := by
  have hcont : ∀ r, StateTogether (evaluatorsUpTo P G) (ExceptT.bindCont f r)
      (ExceptT.bindCont f' r) := by
    intro r
    cases r with
    | ok a => exact hf a
    | error c => exact stateTogether_pure (Except.error c)
  exact meet_bind m m' h (fun r => (hcont r).stays) fun r => (hcont r).same

theorem together_throw (c : Cancelled) :
    Together (evaluatorsUpTo P G) (throw c : Eval α) (throw c) :=
  stateTogether_pure (Except.error c)

theorem together_poll : Together (evaluatorsUpTo P G) poll poll := by
  refine together_evalGet fun e g => ?_
  dsimp only
  rcases e.patience with _ | (_ | n)
  · exact Pairs.pure ()
  · exact together_throw _
  · exact together_evalModify (fun _ _ => rfl) (fun _ => ⟨rfl, rfl⟩) fun e =>
      { Later.refl e with patience := nofun }

theorem meet_between {C C' : Coupling Evaluator} {before after : Evaluator → Evaluator}
    {step step' : Eval α} {e e' : Evaluator} {s : Store}
    (h : Meet C (step (before e) s) (step' (before e') s))
    (hstays : ∀ e, C.marked e → C'.marked (after e))
    (hafter : ∀ e e', C.rel e e' → C'.rel (after e) (after e')) :
    Meet C' (between before after step e s) (between before after step' e' s) := by
  rcases h with hmark | ⟨hresult, hstore, hrel⟩
  · exact .inl (hstays _ hmark)
  · exact .inr ⟨hresult, hstore, hafter _ _ hrel⟩

theorem together_between {before after : Evaluator → Evaluator} {step step' : Eval α}
    (hbefore : ∀ e e', (evaluatorsUpTo P G).rel e e' → (evaluatorsUpTo P G).rel (before e) (before e'))
    (hafter : ∀ e e', (evaluatorsUpTo P G).rel e e' → (evaluatorsUpTo P G).rel (after e) (after e'))
    (hlater : ∀ e, Later e (before e) ∧ Later e (after e))
    (h : Together (evaluatorsUpTo P G) step step') :
    Together (evaluatorsUpTo P G) (between before after step) (between before after step') := by
  have hstays : ∀ e, (evaluatorsUpTo P G).marked e → (evaluatorsUpTo P G).marked (after e) :=
    fun e => P.lasts (hlater e).2
  refine ⟨fun e s he => hstays _ (h.stays _ s (P.lasts (hlater e).1 he)), ?_⟩
  exact fun e e' s hrel => meet_between (h.same _ _ s (hbefore e e' hrel)) hstays hafter

theorem together_productively {step step' : Eval α} (h : Together (evaluatorsUpTo P G) step step') :
    Together (evaluatorsUpTo P G) (productively step) (productively step') := by
  refine together_between ?_ ?_ (fun e => ⟨{ Later.refl e with }, { Later.refl e with }⟩) h
  · rintro e _ ⟨g, rfl, hg⟩
    exact ⟨g, rfl, hg⟩
  · rintro e _ ⟨g, rfl, hg⟩
    exact ⟨g, rfl, hg⟩

theorem together_expanding (name : String) (args : List TypeId) {step step' : Eval α}
    (h : Together (evaluatorsUpTo P G) step step') :
    Together (evaluatorsUpTo P G) (expanding name args step) (expanding name args step') := by
  refine together_between ?_ ?_ (fun e => ⟨{ Later.refl e with }, { Later.refl e with }⟩) h
  · rintro e _ ⟨g, rfl, hg⟩
    exact ⟨g, rfl, hg⟩
  · rintro e _ ⟨g, rfl, hg⟩
    exact ⟨g, rfl, hg⟩

theorem together_reporting (step : Reporting α) :
    Together (evaluatorsUpTo P G) (Eval.reporting step) (Eval.reporting step) :=
  Pairs.bind (Pairs.lift _) fun _ => Pairs.bind (together_reportAll _) fun _ => Pairs.pure _

theorem together_union (members : List TypeId) :
    Together (evaluatorsUpTo P G) (Eval.union members) (Eval.union members) :=
  Pairs.lift _

theorem together_instantiate {f f' : TypeId → Eval α} (σ : Substitution) (t : TypeId)
    (h : ∀ t, Together (evaluatorsUpTo P G) (f t) (f' t)) :
    Together (evaluatorsUpTo P G) (do f (← Build.instantiate σ t) : Eval α)
      (do f' (← Build.instantiate σ t)) :=
  Pairs.bind (Pairs.lift _) h

theorem together_reenterAlias (frame : Frame) (lazy : TypeId) (site : Option SourceTag) :
    Together (evaluatorsUpTo P G) (reenterAlias frame lazy site) (reenterAlias frame lazy site) := by
  refine together_evalGet fun e g => ?_
  refine together_ite (Pairs.pure lazy) (together_ite (Pairs.pure _) ?_)
  refine Pairs.bind (together_evalModify (fun _ _ => rfl) (fun _ => ⟨rfl, rfl⟩) fun e =>
    { Later.refl e with }) ?_
  exact fun _ => Pairs.bind (together_evalReport _) fun _ => Pairs.pure _

end state

section nodes

variable {env : Environment} {o o' : Options} {inner inner' : TypeId → Eval TypeId}

theorem together_reenterCycle (t : TypeId) :
    Together (evaluatorsUpTo P G) (reenterCycle ⟨env, o⟩ t) (reenterCycle ⟨env, o'⟩ t) := by
  refine Pairs.bind (Pairs.lift _) fun n => ?_
  cases n with
  | reference name args =>
      refine together_evalGet fun e g => ?_
      dsimp only
      cases e.frames.find? (·.name = name) with
      | none => exact Pairs.pure t
      | some frame => exact Pairs.bind (Pairs.lift _) fun _ => together_reenterAlias _ _ _
  | _ => exact Pairs.pure t

theorem together_reportCollision (source : TypeId) (first second target : String) :
    Together (evaluatorsUpTo P G) (reportCollision source first second target)
      (reportCollision source first second target) := by
  refine together_store fun s => ?_
  dsimp only
  cases s.origin? (.field source first) <;> exact together_evalReport _

theorem together_deferAccess (open_ : Bool) (object key : TypeId) :
    Together (evaluatorsUpTo P G) (deferAccess open_ object key) (deferAccess open_ object key) :=
  together_ite (Pairs.lift _) (Pairs.pure _)

section components

variable (hi : ∀ t, Together (evaluatorsUpTo P G) (inner t) (inner' t))

include hi

theorem together_reference (t : TypeId) (name : String) (args : List TypeId) :
    Together (evaluatorsUpTo P G) (Eval.reference inner ⟨env, o⟩ t name args)
      (Eval.reference inner' ⟨env, o'⟩ t name args) := by
  unfold Eval.reference
  cases env.get? name with
  | none =>
      exact Pairs.bind (Pairs.lift _) fun _ =>
        Pairs.bind (together_evalReport _) fun _ => Pairs.pure _
  | some a =>
      refine Pairs.bind (together_mapM hi) fun args => ?_
      refine together_evalGet fun e g => ?_
      dsimp only
      cases e.frames.find? fun f => f.name = name && f.args = args with
      | some frame =>
          refine Pairs.bind (Pairs.lift _) fun lazy => ?_
          exact Pairs.bind (Pairs.lift _) fun _ => together_reenterAlias _ _ _
      | none => exact together_instantiate _ _ fun body => together_expanding name args (hi body)

theorem together_evalObject (t : TypeId) (shape : ObjectShape) :
    Together (evaluatorsUpTo P G) (Eval.object inner t shape) (Eval.object inner' t shape) := by
  refine Pairs.bind (together_mapM fun f => ?_) fun fields => ?_
  · exact Pairs.bind (hi f.type) fun _ => Pairs.pure _
  · exact Pairs.bind (together_optionMapM hi) fun index => Pairs.lift _

theorem together_evalFunction (shape : FunctionShape) :
    Together (evaluatorsUpTo P G) (Eval.function inner shape) (Eval.function inner' shape) :=
  Pairs.bind (together_mapM hi) fun _ => Pairs.bind (hi _) fun _ => Pairs.lift _

theorem together_perMember (place : TypeId → Build TypeId) (members : List TypeId) :
    Together (evaluatorsUpTo P G) (Eval.perMember inner place members)
      (Eval.perMember inner' place members) := by
  refine Pairs.bind (together_mapM fun t => ?_) fun results => together_union results
  exact Pairs.bind (Pairs.lift _) hi

theorem together_bothBranches (c : Conditional) :
    Together (evaluatorsUpTo P G) (bothBranches inner c) (bothBranches inner' c) := by
  refine together_instantiate _ _ fun whenTrue => Pairs.bind (hi whenTrue) fun whenTrue => ?_
  exact Pairs.bind (hi _) fun whenFalse => together_union _

theorem together_falseBranch (t : TypeId) (c : Conditional) :
    Together (evaluatorsUpTo P G) (falseBranch inner t c) (falseBranch inner' t c) := by
  refine together_store fun s => ?_
  refine Pairs.bind (together_forM fun name => together_evalReport _) fun _ => ?_
  exact together_instantiate _ _ hi

theorem together_mappedName (m : Mapped) (σ : Substitution) (key : String) :
    Together (evaluatorsUpTo P G) (mappedName inner m σ key) (mappedName inner' m σ key) := by
  unfold mappedName
  cases m.nameType with
  | none => exact Pairs.pure _
  | some t =>
      refine together_instantiate _ _ fun instantiated => Pairs.bind (hi _) fun renamed => ?_
      exact together_ite (Pairs.pure none) (together_store fun _ => Pairs.pure _)

theorem together_keeps (m : Mapped) (σ : Substitution) :
    Together (evaluatorsUpTo P G) (Eval.keeps inner m σ) (Eval.keeps inner' m σ) := by
  unfold Eval.keeps
  cases m.keyFilter with
  | none => exact Pairs.pure true
  | some t =>
      exact together_instantiate _ _ fun instantiated => Pairs.bind (hi _) fun _ => Pairs.pure _

theorem together_mapField (m : Mapped) (f : Field) :
    Together (evaluatorsUpTo P G) (mapField inner m f) (mapField inner' m f) := by
  refine Pairs.bind together_poll fun _ => ?_
  refine Pairs.bind (Pairs.lift _) fun key => ?_
  refine Pairs.bind (together_keeps hi m _) fun kept => ?_
  refine together_ite ?_ (Pairs.pure none)
  refine Pairs.bind (together_mappedName hi m _ _) fun name => ?_
  cases name with
  | none => exact Pairs.pure none
  | some name =>
      exact together_instantiate _ _ fun instantiated => Pairs.bind (hi _) fun _ => Pairs.pure _

theorem together_mapFields (m : Mapped) (source : TypeId) (fields : List Field)
    (done : List MappedField) :
    Together (evaluatorsUpTo P G) (mapFields inner m source fields done)
      (mapFields inner' m source fields done) := by
  induction fields generalizing done with
  | nil => exact Pairs.pure done
  | cons f rest ih =>
      refine Pairs.bind (together_mapField hi m f) fun new => ?_
      cases new with
      | none => exact ih done
      | some new =>
          dsimp only
          split
          · exact Pairs.bind (together_reportCollision source _ _ _) fun _ => ih _
          · exact ih _

omit hi in
theorem together_mapResult (source : TypeId) (fields : List MappedField) (index : Option TypeId) :
    Together (evaluatorsUpTo P G) (do
      let result ← Build.object ⟨fields.map (·.field), index⟩
      fields.forM fun f => do
        if let some tag ← Build.origin? (.field source f.key) then
          Build.recordOrigin (.field result f.field.name) tag
      return result : Eval TypeId) (do
      let result ← Build.object ⟨fields.map (·.field), index⟩
      fields.forM fun f => do
        if let some tag ← Build.origin? (.field source f.key) then
          Build.recordOrigin (.field result f.field.name) tag
      return result) := by
  refine Pairs.bind (Pairs.lift _) fun result => ?_
  refine Pairs.bind (together_forM fun f => ?_) fun _ => Pairs.pure result
  refine Pairs.bind (Pairs.lift _) fun tag => ?_
  cases tag with
  | none => exact Pairs.pure _
  | some tag => exact Pairs.lift _

theorem together_mapObject (m : Mapped) (source : TypeId) (shape : ObjectShape) :
    Together (evaluatorsUpTo P G) (mapObject inner m source shape)
      (mapObject inner' m source shape) := by
  refine Pairs.bind (together_mapFields hi m source shape.fields []) fun fields => ?_
  have hrest := together_mapResult (P := P) (G := G) source fields
  refine together_ite ?_ (Pairs.bind (Pairs.pure _) hrest)
  refine together_instantiate _ _ fun instantiated => Pairs.bind (hi _) fun t => ?_
  exact Pairs.bind (Pairs.pure _) hrest

theorem together_mappedFrom (m : Mapped) (source : TypeId) :
    Together (evaluatorsUpTo P G) (do
      match ← Build.node source with
      | .union members => perMember inner (fun t => Build.mapped { m with source := t }) members
      | .object shape => mapObject inner m source shape
      | .intrinsic _ | .literal _ | .array _ | .function _ | .error => return source
      | _ => Build.mapped { m with source := source } : Eval TypeId) (do
      match ← Build.node source with
      | .union members => perMember inner' (fun t => Build.mapped { m with source := t }) members
      | .object shape => mapObject inner' m source shape
      | .intrinsic _ | .literal _ | .array _ | .function _ | .error => return source
      | _ => Build.mapped { m with source := source }) := by
  refine Pairs.bind (Pairs.lift _) fun n => ?_
  cases n with
  | union members => exact together_perMember hi _ members
  | object shape => exact together_mapObject hi m source shape
  | intrinsic _ | literal _ | array _ | function _ | error => exact Pairs.pure source
  | _ => exact Pairs.lift _

theorem together_mapped (m : Mapped) :
    Together (evaluatorsUpTo P G) (Eval.mapped inner m) (Eval.mapped inner' m) :=
  Pairs.bind (hi _) fun source => together_mappedFrom hi m source

theorem together_accessKey (t object key : TypeId) :
    Together (evaluatorsUpTo P G) (accessKey inner t object key) (accessKey inner' t object key) := by
  refine together_store fun s => ?_
  split
  · exact together_perMember hi _ _
  · refine Pairs.bind (Pairs.bind (together_mapM fun m => ?_) fun _ => Pairs.pure _) fun found => ?_
    · exact Pairs.bind (Pairs.lift _) hi
    · refine together_ite (Pairs.pure _) ?_
      exact Pairs.bind (Pairs.lift _) fun site => together_reporting _
  · exact Pairs.pure _
  · exact Pairs.pure _
  · exact together_deferAccess _ _ _
  · exact Pairs.pure _
  · exact Pairs.pure _
  · exact together_ite (Pairs.pure _) (Pairs.pure _)
  · exact together_deferAccess _ _ _
  · exact together_deferAccess _ _ _

theorem together_indexAccess (t object key : TypeId) :
    Together (evaluatorsUpTo P G) (Eval.indexAccess inner t object key)
      (Eval.indexAccess inner' t object key) := by
  refine Pairs.bind (hi _) fun object => Pairs.bind (hi _) fun key => ?_
  refine together_ite (Pairs.pure _) (together_ite (Pairs.pure _) ?_)
  refine Pairs.bind (Pairs.lift _) fun n => ?_
  cases n with
  | union keys => exact together_perMember hi _ keys
  | _ => exact together_accessKey hi t object key

theorem together_evaluateSpans (spans : List Span) (texts : Option (List String)) :
    Together (evaluatorsUpTo P G) (evaluateSpans inner spans texts)
      (evaluateSpans inner' spans texts) := by
  induction spans generalizing texts with
  | nil => exact Pairs.pure _
  | cons span rest ih =>
      cases span with
      | text a => exact Pairs.bind (ih _) fun _ => Pairs.pure _
      | hole t =>
          refine Pairs.bind (hi t) fun value => together_ite (Pairs.pure none) ?_
          exact together_store fun s => Pairs.bind (ih _) fun _ => Pairs.pure _

theorem together_template (spans : List Span) :
    Together (evaluatorsUpTo P G) (Eval.template inner spans) (Eval.template inner' spans) := by
  refine Pairs.bind (together_evaluateSpans hi spans _) fun found => ?_
  rcases found with _ | ⟨spans, _ | texts⟩
  · exact Pairs.pure _
  · exact Pairs.lift _
  · refine together_ite ?_ (Pairs.lift _)
    exact Pairs.bind (together_mapM fun text => Pairs.lift _) fun literals => together_union literals

theorem together_stringMap (kind : StringMap) (arg : TypeId) :
    Together (evaluatorsUpTo P G) (Eval.stringMap inner kind arg) (Eval.stringMap inner' kind arg) := by
  refine Pairs.bind (hi arg) fun arg => Pairs.bind (Pairs.lift _) fun n => ?_
  split
  · exact Pairs.lift _
  · exact together_perMember hi _ _
  · exact together_ite (Pairs.pure arg) (Pairs.lift _)

end components

section conditional

variable (hi : ∀ t, Together (evaluatorsUpTo P G) (inner t) (inner' t))
  (ha : ∀ source target, Together (evaluatorsUpTo P G) (Eval.isAssignable inner ⟨env, o⟩ source target)
    (Eval.isAssignable inner' ⟨env, o'⟩ source target))
  (ho : o'.preserveLiterals = o.preserveLiterals)

include hi ha ho

omit ho in
theorem together_fitBound (check pattern : TypeId) (bindings : Option Substitution) :
    Together (evaluatorsUpTo P G) (match bindings with
      | none => return none
      | some σ => do
          let pattern ←
            if σ.isEmpty then pure pattern
            else do
              let bound ← Build.instantiate σ pattern
              inner bound
          if ← Eval.isAssignable inner ⟨env, o⟩ check pattern then return some σ else return none :
        Eval (Option Substitution)) (match bindings with
      | none => return none
      | some σ => do
          let pattern ←
            if σ.isEmpty then pure pattern
            else do
              let bound ← Build.instantiate σ pattern
              inner' bound
          if ← Eval.isAssignable inner' ⟨env, o'⟩ check pattern then return some σ
          else return none) := by
  cases bindings with
  | none => exact Pairs.pure none
  | some σ =>
      have hcheck : ∀ pattern, Together (evaluatorsUpTo P G)
          (do if ← Eval.isAssignable inner ⟨env, o⟩ check pattern then return some σ
              else return none)
          (do if ← Eval.isAssignable inner' ⟨env, o'⟩ check pattern then return some σ
              else return none) := fun pattern =>
        Pairs.bind (ha check pattern) fun _ => together_ite (Pairs.pure _) (Pairs.pure _)
      refine together_ite (Pairs.bind (Pairs.pure _) fun _ => hcheck _) ?_
      exact together_instantiate _ _ fun bound => Pairs.bind (hi bound) fun _ => hcheck _

theorem together_fit (check pattern : TypeId) (infer : List String) :
    Together (evaluatorsUpTo P G) (fit inner ⟨env, o⟩ check pattern infer)
      (fit inner' ⟨env, o'⟩ check pattern infer) := by
  have hrest := together_fitBound hi ha check pattern
  unfold fit
  dsimp only
  rw [ho]
  refine together_ite (Pairs.bind (Pairs.pure _) hrest) ?_
  exact Pairs.bind (Pairs.lift _) hrest

theorem together_choose (t : TypeId) (c : Conditional) (check : TypeId) :
    Together (evaluatorsUpTo P G) (choose inner ⟨env, o⟩ t c check)
      (choose inner' ⟨env, o'⟩ t c check) := by
  refine Pairs.bind (hi _) fun pattern => together_store fun s => ?_
  refine together_ite (Pairs.lift _) ?_
  refine Pairs.bind (together_fit hi ha ho _ _ _) fun σ => ?_
  cases σ with
  | some σ => exact together_instantiate _ _ hi
  | none => exact together_falseBranch hi t c

theorem together_conditional (t : TypeId) (c : Conditional) :
    Together (evaluatorsUpTo P G) (Eval.conditional inner ⟨env, o⟩ t c)
      (Eval.conditional inner' ⟨env, o'⟩ t c) := by
  refine Pairs.bind (hi _) fun check => together_ite (together_bothBranches hi c) ?_
  refine together_ite (Pairs.pure _) (Pairs.bind (Pairs.lift _) fun n => ?_)
  split
  · exact together_perMember hi _ _
  · exact together_choose hi ha ho t c check

theorem together_node (t : TypeId) (n : Node) :
    Together (evaluatorsUpTo P G) (Eval.node inner ⟨env, o⟩ t n) (Eval.node inner' ⟨env, o'⟩ t n) := by
  cases n with
  | error | intrinsic _ | literal _ | param _ => exact Pairs.pure t
  | union members => exact Pairs.bind (together_mapM hi) fun members => together_union members
  | intersection members =>
      refine Pairs.bind (together_mapM hi) fun members => ?_
      exact Pairs.bind (Pairs.lift _) fun site => together_reporting _
  | object shape => exact together_productively (together_evalObject hi t shape)
  | function shape => exact together_productively (together_evalFunction hi shape)
  | array element =>
      exact Pairs.bind (together_productively (hi element)) fun t => Pairs.lift _
  | reference name args => exact together_reference hi t name args
  | conditional c => exact together_conditional hi ha ho t c
  | mapped m => exact together_mapped hi m
  | indexAccess object key => exact together_indexAccess hi t object key
  | template spans => exact together_template hi spans
  | stringMap kind arg => exact together_stringMap hi kind arg

end conditional

end nodes

section assignable

variable {env : Environment} {o o' : Options} {inner inner' : TypeId → Eval TypeId}

/-- Two checks that an evaluation asks for: the first one reports a marked diagnostic, or both give
the same answer, make the same types and report the same diagnostics. -/
def CheckTogether (D : Diagnostic → Prop) (m m' : Build (Bool × Checker)) : Prop :=
  ∀ s, (∃ d ∈ (m s).1.2.diagnostics, D d) ∨
    (m' s).1.1 = (m s).1.1 ∧ (m' s).2 = (m s).2 ∧
      (m' s).1.2.diagnostics = (m s).1.2.diagnostics

/-- What an evaluation does with the answer of a check. -/
def conclude (answer : Bool × Checker) : Eval Bool := do
  reportAll answer.2.diagnostics
  return answer.1

theorem isAssignable_run (source target : TypeId) (e : Evaluator) (s : Store) :
    Eval.isAssignable inner ⟨env, o⟩ source target e s =
      let r := Check.isAssignable ⟨inner, .fresh o e.guard.depth none⟩ source target (.fresh o) s
      conclude r.1 e r.2 :=
  rfl

theorem together_conclude (answer : Bool × Checker) :
    Together (evaluatorsUpTo P G) (conclude answer) (conclude answer) :=
  Pairs.bind (together_reportAll _) fun _ => Pairs.pure answer.1

theorem together_isAssignable (hP : ∀ e, (reported D).holds e → P.holds e) {source target : TypeId}
    (h : ∀ g g' reported, G g g' reported → CheckTogether D
      (Check.isAssignable ⟨inner, .fresh o g.depth none⟩ source target (.fresh o))
      (Check.isAssignable ⟨inner', .fresh o' g'.depth none⟩ source target (.fresh o'))) :
    Together (evaluatorsUpTo P G) (Eval.isAssignable inner ⟨env, o⟩ source target)
      (Eval.isAssignable inner' ⟨env, o'⟩ source target) := by
  refine ⟨fun e s he => (together_conclude _).stays e _ he, ?_⟩
  rintro e _ s ⟨g, rfl, hg⟩
  have hs := h _ _ _ hg s
  change Meet _ (Eval.isAssignable inner ⟨env, o⟩ source target e s)
    (Eval.isAssignable inner' ⟨env, o'⟩ source target { e with guard := g } s)
  rw [isAssignable_run, isAssignable_run]
  dsimp only
  generalize Check.isAssignable ⟨inner, .fresh o e.guard.depth none⟩ source target (.fresh o) s = r
    at hs
  generalize Check.isAssignable ⟨inner', .fresh o' g.depth none⟩ source target (.fresh o') s = r'
    at hs
  obtain ⟨⟨b, c⟩, s₁⟩ := r
  obtain ⟨⟨b', c'⟩, s₁'⟩ := r'
  rcases hs with hmark | ⟨rfl, rfl, hds⟩
  · exact .inl (hP _ (marked_bind (P := reported D) (G := G) (marked_reportAll hmark e s₁) fun _ => Pairs.pure b))
  · simp only [conclude] at hds ⊢
    rw [hds]
    exact (together_conclude (P := P) (G := G) (b', c)).same _ _ _ ⟨g, rfl, hg⟩

end assignable

section guarded

variable {env : Environment} {o o' : Options} {work work' : TypeId → Node → Eval TypeId} {t : TypeId}

theorem guard_evalReport (d : Diagnostic) (e : Evaluator) (s : Store) :
    (Eval.report d e s).1.2.guard = e.guard := by
  change (if e.diagnostics.contains d then e
    else { e with diagnostics := e.diagnostics.push d }).guard = e.guard
  split <;> rfl

/-- What an evaluation does when the guard refuses a type at a limit. -/
def leaveAsIs (t : TypeId) : Eval TypeId := do
  Eval.reportDepthExceeded t
  return t

theorem leaveAsIs_run (t : TypeId) (e : Evaluator) (s : Store) :
    leaveAsIs t e s = ((.ok t, if e.depthReported then e else
      (Eval.report ((Diagnostic.of .evaluationDepthExceeded [toString e.guard.maxDepth]).withLocation
        (s.origin? (.type t))) { e with depthReported := true } s).1.2), s) := by
  obtain ⟨guard, cache, frames, productive, reportedCycles, depthReported, diagnostics, patience⟩ := e
  cases depthReported <;> rfl

theorem guard_leaveAsIs (t : TypeId) (e : Evaluator) (s : Store) :
    (leaveAsIs t e s).1.2.guard = e.guard := by
  rw [leaveAsIs_run]
  dsimp only
  split
  · rfl
  · exact guard_evalReport _ _ s

theorem meet_leaveAsIs (t : TypeId) {e : Evaluator} (h : ∀ reported, G e.guard e.guard reported)
    (s : Store) : Meet (evaluators D G) (leaveAsIs t e s) (leaveAsIs t e s) := by
  refine .inr ⟨rfl, rfl, (leaveAsIs t e s).1.2.guard, rfl, ?_⟩
  rw [guard_leaveAsIs]
  exact h _

theorem stays_leaveAsIs (t : TypeId) (e : Evaluator) (s : Store)
    (h : (evaluatorsUpTo P G).marked e) : (evaluatorsUpTo P G).marked (leaveAsIs t e s).1.2 := by
  rw [leaveAsIs_run]
  dsimp only
  split
  · exact h
  · exact (together_evalReport (G := G) _).stays _ s (P.lasts { Later.refl e with } h)

/-- A limit that is not yet reported gets reported. -/
theorem marked_leaveAsIs
    (hD : ∀ args site, D ((Diagnostic.of .evaluationDepthExceeded args).withLocation site))
    (t : TypeId) {e : Evaluator} (he : e.depthReported = false) (s : Store) :
    (evaluators D G).marked (leaveAsIs t e s).1.2 := by
  rw [leaveAsIs_run]
  simp only [he]
  exact ⟨_, mem_evalReport _ _ s, hD _ _⟩

theorem together_exceeded {f f' : Evaluator → Eval α}
    (hG : ∀ g g' reported, G g g' reported → g'.exceeded = g.exceeded)
    (h : ∀ e e', e'.guard.exceeded = e.guard.exceeded → Together (evaluatorsUpTo P G) (f e) (f' e')) :
    Together (evaluatorsUpTo P G) (get >>= f) (get >>= f') := by
  refine together_get (fun e e' => e'.guard.exceeded = e.guard.exceeded) (fun _ => rfl)
    ?_ h
  rintro e _ ⟨g, rfl, hg⟩
  exact hG _ _ _ hg

theorem together_remember (hG : ∀ g g' reported, G g g' reported → g'.exceeded = g.exceeded)
    (t result : TypeId) :
    Together (evaluatorsUpTo P G)
      (do unless (← get).guard.exceeded do
            remember t result
          return result : Eval TypeId)
      (do unless (← get).guard.exceeded do
            remember t result
          return result) := by
  refine together_exceeded hG fun e e' hexceeded => ?_
  rw [hexceeded]
  refine together_ite (Pairs.pure result) (Pairs.bind ?_ fun _ => Pairs.pure result)
  exact together_evalModify (fun _ _ => rfl) (fun _ => ⟨rfl, rfl⟩) fun e =>
    { Later.refl e with known := fun u hu => Std.HashMap.mem_insert.mpr (.inr hu) }

/-- What an evaluation does with a type that was entered. -/
def workOn (work : TypeId → Node → Eval TypeId) (t : TypeId) : Eval TypeId := do
  let n ← Build.node t
  let result ← leaving t (work t n)
  unless (← get).guard.exceeded do
    remember t result
  return result

theorem later_leave (t : TypeId) (e : Evaluator) : Later e { e with guard := e.guard.leave t } :=
  { Later.refl e with }

theorem stays_workOn (hG : ∀ g g' reported, G g g' reported → g'.exceeded = g.exceeded)
    (hw : ∀ n, Together (evaluatorsUpTo P G₁) (work t n) (work' t n)) (e : Evaluator) (s : Store)
    (h : (evaluatorsUpTo P G).marked e) : (evaluatorsUpTo P G).marked (workOn work t e s).1.2 := by
  have hleft : (evaluatorsUpTo P G).marked (leaving t (work t (s.node t)) e s).1.2 :=
    P.lasts (later_leave t _) ((hw _).stays e s h)
  have hrest := marked_bind hleft (together_remember hG t)
  exact hrest

theorem meet_workOn (hG : Releasing G G₁ t)
    (hw : ∀ n, Together (evaluatorsUpTo P G₁) (work t n) (work' t n)) {e e' : Evaluator} {s : Store}
    (h : (evaluatorsUpTo P G₁).rel e e') :
    Meet (evaluatorsUpTo P G) (workOn work t e s) (workOn work' t e' s) := by
  have hleft : Meet (evaluatorsUpTo P G) (leaving t (work t (s.node t)) e s)
      (leaving t (work' t (s.node t)) e' s) := by
    refine meet_between ((hw _).same e e' s h) (fun e => P.lasts (later_leave t e)) ?_
    rintro e _ ⟨g, rfl, hg⟩
    exact ⟨_, rfl, hG.leave _ _ _ hg⟩
  have hrest := meet_evalBind hleft (together_remember hG.exceeded t)
  exact hrest

/-- What follows the guard's answer. -/
def afterEnterType (work : TypeId → Node → Eval TypeId) (setting : Setting) (t : TypeId) :
    Answer → Eval TypeId
  | .entered => workOn work t
  | .cycle => reenterCycle setting t
  | _ => leaveAsIs t

theorem later_enter (t : TypeId) (e : Evaluator) :
    Later e { e with guard := (e.guard.enter t).2 } := by
  refine { Later.refl e with exceeded := fun h => ?_ }
  change (e.guard.enter t).2.exceeded = true
  unfold Guard.enter
  dsimp only
  split
  · rfl
  split
  · rfl
  split <;> exact h

theorem stays_enterType (hG : ∀ g g' reported, G g g' reported → g'.exceeded = g.exceeded)
    (hw : ∀ n, Together (evaluatorsUpTo P G₁) (work t n) (work' t n)) (e : Evaluator) (s : Store)
    (h : (evaluatorsUpTo P G).marked e) :
    (evaluatorsUpTo P G).marked
      ((Eval.enter t >>= afterEnterType work ⟨env, o⟩ t) e s).1.2 := by
  have hstays : ∀ a e s, (evaluatorsUpTo P G).marked e →
      (evaluatorsUpTo P G).marked (afterEnterType work ⟨env, o⟩ t a e s).1.2 := by
    intro a
    cases a with
    | entered => exact stays_workOn hG hw
    | cycle =>
        have hreenter : Together (evaluatorsUpTo P G) (reenterCycle ⟨env, o⟩ t)
            (reenterCycle ⟨env, o⟩ t) := together_reenterCycle t
        exact hreenter.stays
    | depthExceeded => exact stays_leaveAsIs t
    | iterationExceeded => exact stays_leaveAsIs t
  exact hstays _ _ s (P.lasts (later_enter t e) h)

theorem together_enterType (hG : Guarding D G G₁)
    (hw : ∀ n, Together (evaluators D G₁) (work t n) (work' t n)) :
    Together (evaluators D G) (Eval.enter t >>= afterEnterType work ⟨env, o⟩ t)
      (Eval.enter t >>= afterEnterType work' ⟨env, o'⟩ t) := by
  refine ⟨stays_enterType hG.exceeded hw, ?_⟩
  rintro e _ s ⟨g, rfl, hg⟩
  have henter := hG.enter _ _ _ t hg
  change Meet _ (afterEnterType work ⟨env, o⟩ t (e.guard.enter t).1
      { e with guard := (e.guard.enter t).2 } s)
    (afterEnterType work' ⟨env, o'⟩ t (g.enter t).1 { e with guard := (g.enter t).2 } s)
  generalize e.guard.enter t = r at henter
  generalize g.enter t = r' at henter
  cases henter with
  | entered h => exact meet_workOn (hG.releasing t) hw ⟨_, rfl, h⟩
  | cycle h => exact (together_reenterCycle t).same _ _ _ ⟨_, rfl, h⟩
  | @marked _ g₁ _ ha hreported hD =>
      have hmark : (evaluators D G).marked (leaveAsIs t { e with guard := g₁ } s).1.2 :=
        marked_leaveAsIs hD t (e := { e with guard := g₁ }) hreported s
      rcases ha with rfl | rfl <;> exact .inl hmark
  | @exceeded _ g₁ ha h =>
      have hrel := meet_leaveAsIs (D := D) t (e := { e with guard := g₁ }) h s
      rcases ha with rfl | rfl <;> exact hrel

/-- What is remembered is asked before the guard. -/
theorem together_guardedOf (hG : ∀ g g' reported, G g g' reported → g'.exceeded = g.exceeded)
    (henter : Together (evaluatorsUpTo P G) (Eval.enter t >>= afterEnterType work ⟨env, o⟩ t)
      (Eval.enter t >>= afterEnterType work' ⟨env, o'⟩ t)) :
    Together (evaluatorsUpTo P G) (guarded work ⟨env, o⟩ t) (guarded work' ⟨env, o'⟩ t) := by
  refine together_ite (Pairs.pure t) (Pairs.bind together_poll fun _ => ?_)
  refine together_evalGet fun e g => ?_
  dsimp only
  cases e.cache[t]? with
  | some known => exact Pairs.pure known
  | none =>
      refine together_exceeded hG fun e e' hexceeded => ?_
      rw [hexceeded]
      exact together_ite (Pairs.pure t) henter

theorem together_guarded (hG : Guarding D G G₁)
    (hw : ∀ n, Together (evaluators D G₁) (work t n) (work' t n)) :
    Together (evaluators D G) (guarded work ⟨env, o⟩ t) (guarded work' ⟨env, o'⟩ t) :=
  together_guardedOf hG.exceeded (together_enterType hG hw)

end guarded

end TypeResolution.Limits
