import TypeResolution.Proofs.Evaluation.Steps
import TypeResolution.Proofs.Tags.Assignability

/-!
Evaluation and narrowing give the same whatever the source tags are, and tell the same. Where an
alias is declared only says where a problem is reported.
-/

namespace TypeResolution.Tags

open Diagnostic

/-- Two settings whose aliases differ only in where they are declared. -/
structure SameSetting (setting setting' : Setting) : Prop where
  environment : SameEnvironment setting.environment setting'.environment
  options : setting'.options = setting.options

section eval

open Eval

variable {inner inner' : TypeId → Eval TypeId} {setting setting' : Setting} {α : Type}
  {R : α → α → Prop}

/-- A change of an evaluator that has nothing to do with its diagnostics. -/
structure Silent (f : Evaluator → Evaluator) : Prop where
  apply_with : ∀ e ds, f { e with diagnostics := ds } = { f e with diagnostics := ds }
  kept : ∀ e, (f e).diagnostics = e.diagnostics

theorem Silent.same {f : Evaluator → Evaluator} (hf : Silent f) {e e' : Evaluator}
    (h : Same e e') : Same (f e) (f e') := by
  obtain ⟨ds, rfl, hds⟩ := h
  refine ⟨ds, hf.apply_with e ds, ?_⟩
  rw [hf.kept]
  exact hds

theorem beside_evalGet : Beside Same (get : Eval Evaluator) get :=
  fun _ _ h => Blind.pure ⟨.ok h, h⟩

theorem agree_evalModify {f : Evaluator → Evaluator} (hf : Silent f) :
    Agree (modify f : Eval PUnit) (modify f) :=
  fun _ _ he => Blind.pure ⟨.ok rfl, hf.same he⟩

theorem report_run (d : Diagnostic) (e : Evaluator) (s : Store) :
    (Eval.report d).run e s =
      ((.ok (), { e with diagnostics := addNew e.diagnostics d }), s) := by
  change ((Except.ok (), if e.diagnostics.contains d then e
    else { e with diagnostics := e.diagnostics.push d }), s) = _
  unfold addNew
  split <;> rfl

theorem reportAll_run (ds : Array Diagnostic) (e : Evaluator) (s : Store) :
    (reportAll ds).run e s =
      ((.ok (), { e with diagnostics := ds.toList.foldl addNew e.diagnostics }), s) := by
  obtain ⟨l⟩ := ds
  unfold reportAll
  rw [Array.forM_eq_forM, List.forM_toArray]
  induction l generalizing e with
  | nil => rfl
  | cons d rest ih =>
      change ((Eval.report d >>= fun _ => rest.forM Eval.report : Eval PUnit)).run e s = _
      rw [run_bind, report_run]
      exact ih _

/-- Steps that change only what was reported. -/
theorem agree_of_reports {m m' : Eval Unit} {told told' : Array Diagnostic → Array Diagnostic}
    (hm : ∀ e s, m.run e s = ((.ok (), { e with diagnostics := told e.diagnostics }), s))
    (hm' : ∀ e s, m'.run e s = ((.ok (), { e with diagnostics := told' e.diagnostics }), s))
    (h : ∀ ds ds', Same ds ds' → Same (told ds) (told' ds')) : Agree m m' := by
  rintro e _ ⟨ds, rfl, hds⟩ s s' hs
  change (m.run e s).2.Alike (m'.run _ s').2 ∧
    (Both Eq (m.run e s).1.1 (m'.run _ s').1.1 ∧ Same (m.run e s).1.2 (m'.run _ s').1.2)
  rw [hm, hm']
  exact ⟨hs, .ok rfl, _, rfl, h _ _ hds⟩

theorem agree_evalReport {d d' : Diagnostic} (h : d.said = d'.said) :
    Agree (Eval.report d) (Eval.report d') :=
  agree_of_reports (report_run d) (report_run d') fun _ _ hds => same_addNew hds h

theorem agree_reportAll {ds ds' : Array Diagnostic} (h : Same ds ds') :
    Agree (reportAll ds) (reportAll ds') :=
  agree_of_reports (reportAll_run ds) (reportAll_run ds') fun _ _ hds => same_foldl told_addNew hds h

theorem agree_poll : Agree poll poll := by
  refine Blind.bind beside_evalGet ?_
  rintro e _ ⟨ds, rfl, _⟩
  dsimp only
  rcases e.patience with _ | (_ | n)
  · exact agree_pure _
  · exact agree_throw _
  · exact agree_evalModify ⟨fun _ _ => rfl, fun _ => rfl⟩

theorem beside_between {before after : Evaluator → Evaluator} {step step' : Eval α}
    (hbefore : Silent before) (hafter : Silent after) (h : Beside R step step') :
    Beside R (between before after step) (between before after step') :=
  fun _ _ he => Blind.bind (h _ _ (hbefore.same he)) fun _ _ hab =>
    Blind.pure ⟨hab.1, hafter.same hab.2⟩

theorem beside_productively {step step' : Eval α} (h : Beside R step step') :
    Beside R (productively step) (productively step') :=
  beside_between ⟨fun _ _ => rfl, fun _ => rfl⟩ ⟨fun _ _ => rfl, fun _ => rfl⟩ h

theorem beside_expanding (name : String) (args : List TypeId) {step step' : Eval α}
    (h : Beside R step step') :
    Beside R (expanding name args step) (expanding name args step') :=
  beside_between ⟨fun _ _ => rfl, fun _ => rfl⟩ ⟨fun _ _ => rfl, fun _ => rfl⟩ h

theorem beside_leaving (t : TypeId) {step step' : Eval α} (h : Beside R step step') :
    Beside R (leaving t step) (leaving t step') :=
  beside_between ⟨fun _ _ => rfl, fun _ => rfl⟩ ⟨fun _ _ => rfl, fun _ => rfl⟩ h

theorem settle_evalOrigin (t : TypeId) : Settle (Eval.origin? t) (Eval.origin? t) :=
  Blind.lift (settle_origin _)

theorem beside_reporting {step step' : Reporting α} (h : Beside R step step') :
    Beside R (Eval.reporting step) (Eval.reporting step') :=
  Blind.bind (Blind.lift (h #[] #[] rfl)) fun _ _ hab =>
    agree_bind (agree_reportAll hab.2) fun _ => Blind.pure hab.1

theorem agree_evalUnion (members : List TypeId) :
    Agree (Eval.union members) (Eval.union members) :=
  agree_lift (agree_union members)

theorem agree_evalIntersection {site site' : Option SourceTag} (members : List TypeId) :
    Agree (Eval.intersection site members) (Eval.intersection site' members) :=
  beside_reporting (agree_intersection members)

theorem beside_evalInstantiate {f f' : TypeId → Eval α} (σ : Substitution) (t : TypeId)
    (h : ∀ t, Beside R (f t) (f' t)) :
    Beside R (do f (← Build.instantiate σ t) : Eval α) (do f' (← Build.instantiate σ t)) :=
  agree_bind (agree_lift (agree_instantiate σ t)) h

theorem agree_reenterAlias (frame : Frame) (lazy : TypeId) (site site' : Option SourceTag) :
    Agree (reenterAlias frame lazy site) (reenterAlias frame lazy site') := by
  refine Blind.bind beside_evalGet ?_
  rintro e _ ⟨ds, rfl, _⟩
  refine beside_ite (agree_pure _) (beside_ite (agree_pure _) ?_)
  refine agree_bind (agree_evalModify ⟨fun _ _ => rfl, fun _ => rfl⟩) fun _ => ?_
  exact agree_bind (agree_evalReport (by simp)) fun _ => agree_pure _

theorem agree_reenterCycle (t : TypeId) :
    Agree (reenterCycle setting t) (reenterCycle setting' t) := by
  refine agree_bind (agree_lift (agree_node t)) fun n => ?_
  cases n with
  | reference name args =>
      refine Blind.bind beside_evalGet ?_
      rintro e _ ⟨ds, rfl, _⟩
      dsimp only
      cases e.frames.find? (·.name = name) with
      | none => exact agree_pure _
      | some frame =>
          exact settle_bind (settle_evalOrigin t) fun _ _ => agree_reenterAlias _ _ _ _
  | _ => exact agree_pure _

theorem agree_evalDepthExceeded (t : TypeId) :
    Agree (Eval.reportDepthExceeded t) (Eval.reportDepthExceeded t) := by
  refine Blind.bind beside_evalGet ?_
  rintro e _ ⟨ds, rfl, _⟩
  refine beside_ite (agree_pure _) ?_
  refine agree_bind (agree_evalModify ⟨fun _ _ => rfl, fun _ => rfl⟩) fun _ => ?_
  refine Blind.bind beside_evalGet ?_
  rintro e _ ⟨ds, rfl, _⟩
  exact settle_bind (settle_evalOrigin t) fun _ _ => agree_evalReport (by simp)

theorem agree_guarded {work work' : TypeId → Node → Eval TypeId}
    (h : ∀ t n, Agree (work t n) (work' t n)) (t : TypeId) :
    Agree (guarded work setting t) (guarded work' setting' t) := by
  have hlimit : Agree (do Eval.reportDepthExceeded t; return t : Eval TypeId)
      (do Eval.reportDepthExceeded t; return t) :=
    agree_bind (agree_evalDepthExceeded t) fun _ => agree_pure t
  have henter : Agree (Eval.enter t) (Eval.enter t) := by
    rintro e _ ⟨ds, rfl, hds⟩
    exact Blind.pure ⟨.ok rfl, ds, rfl, hds⟩
  refine beside_ite (agree_pure _) (agree_bind agree_poll fun _ => Blind.bind beside_evalGet ?_)
  rintro e _ ⟨ds, rfl, _⟩
  dsimp only
  cases e.cache[t]? with
  | some known => exact agree_pure _
  | none =>
      refine Blind.bind beside_evalGet ?_
      rintro e _ ⟨ds, rfl, _⟩
      refine beside_ite (agree_pure _) (agree_bind henter fun answer => ?_)
      cases answer with
      | entered =>
          refine agree_bind (agree_lift (agree_node t)) fun n => ?_
          refine agree_bind (beside_leaving t (h t n)) fun result => ?_
          refine Blind.bind beside_evalGet ?_
          rintro e _ ⟨ds, rfl, _⟩
          refine beside_ite (agree_pure _) ?_
          exact agree_bind (agree_evalModify ⟨fun _ _ => rfl, fun _ => rfl⟩) fun _ => agree_pure _
      | cycle => exact agree_reenterCycle t
      | depthExceeded => exact hlimit
      | iterationExceeded => exact hlimit

theorem agree_reportCollision (source : TypeId) (first second target : String) :
    Agree (reportCollision source first second target)
      (reportCollision source first second target) := by
  refine beside_store fun s s' hs => ?_
  dsimp only
  cases s.origin? (.field source first) <;> cases s'.origin? (.field source first) <;>
    exact agree_evalReport (by simp)

theorem agree_deferAccess (open_ : Bool) (object key : TypeId) :
    Agree (deferAccess open_ object key) (deferAccess open_ object key) :=
  beside_ite (agree_lift (agree_intern _)) (agree_pure _)

section components

variable (hset : SameSetting setting setting') (hi : ∀ t, Agree (inner t) (inner' t))

include hi

theorem agree_evalObject (t : TypeId) (shape : ObjectShape) :
    Agree (Eval.object inner t shape) (Eval.object inner' t shape) := by
  refine agree_bind (agree_mapM fun f => ?_) fun fields => ?_
  · exact agree_bind (hi _) fun _ => agree_pure _
  · exact agree_bind (agree_optionMapM hi) fun index => agree_lift (agree_rebuildObject _ _ _)

theorem agree_evalFunction (shape : FunctionShape) :
    Agree (Eval.function inner shape) (Eval.function inner' shape) := by
  refine agree_bind (agree_mapM hi) fun params => ?_
  exact agree_bind (hi _) fun result => agree_lift (agree_intern _)

theorem agree_evalPerMember {place : TypeId → Build TypeId} (h : ∀ t, Agree (place t) (place t))
    (members : List TypeId) :
    Agree (Eval.perMember inner place members) (Eval.perMember inner' place members) := by
  refine agree_bind (agree_mapM fun t => ?_) fun results => agree_evalUnion results
  exact agree_bind (agree_lift (h t)) fun t => hi t

theorem agree_bothBranches (c : Conditional) :
    Agree (bothBranches inner c) (bothBranches inner' c) := by
  refine beside_evalInstantiate _ _ fun whenTrue => ?_
  refine agree_bind (hi _) fun whenTrue => ?_
  exact agree_bind (hi _) fun whenFalse => agree_evalUnion _

theorem agree_falseBranch (t : TypeId) (c : Conditional) :
    Agree (falseBranch inner t c) (falseBranch inner' t c) := by
  refine beside_store fun s s' hs => ?_
  dsimp only
  rw [hs.referencesParam]
  refine agree_bind (agree_forM fun name => agree_evalReport (by simp)) fun _ => ?_
  exact beside_evalInstantiate _ _ hi

theorem agree_mappedName (m : Mapped) (σ : Substitution) (key : String) :
    Agree (mappedName inner m σ key) (mappedName inner' m σ key) := by
  unfold mappedName
  cases m.nameType with
  | none => exact agree_pure _
  | some t =>
      refine beside_evalInstantiate _ _ fun instantiated => ?_
      refine agree_bind (hi _) fun renamed => ?_
      refine beside_ite (agree_pure _) (beside_store fun s s' hs => ?_)
      rw [hs.stringLiteral?]
      exact agree_pure _

theorem agree_keeps (m : Mapped) (σ : Substitution) :
    Agree (keeps inner m σ) (keeps inner' m σ) := by
  unfold keeps
  cases m.keyFilter with
  | none => exact agree_pure _
  | some t =>
      exact beside_evalInstantiate _ _ fun instantiated => agree_bind (hi _) fun _ => agree_pure _

theorem agree_mapField (m : Mapped) (f : Field) :
    Agree (mapField inner m f) (mapField inner' m f) := by
  refine agree_bind agree_poll fun _ => ?_
  refine agree_bind (agree_lift (agree_intern _)) fun key => ?_
  refine agree_bind (agree_keeps hi m _) fun kept => ?_
  refine beside_ite ?_ (agree_pure _)
  refine agree_bind (agree_mappedName hi m _ _) fun name => ?_
  cases name with
  | none => exact agree_pure _
  | some name =>
      exact beside_evalInstantiate _ _ fun instantiated => agree_bind (hi _) fun _ => agree_pure _

theorem agree_mapFields (m : Mapped) (source : TypeId) (fields : List Field)
    (done : List MappedField) :
    Agree (mapFields inner m source fields done) (mapFields inner' m source fields done) := by
  induction fields generalizing done with
  | nil => exact agree_pure _
  | cons f rest ih =>
      refine agree_bind (agree_mapField hi m f) fun new => ?_
      cases new with
      | none => exact ih done
      | some new =>
          dsimp only
          split
          · exact agree_bind (agree_reportCollision source _ _ _) fun _ => ih _
          · exact ih _

omit hi in
/-- The tags of the source's fields are given to the fields of the result. -/
theorem agree_mapResult (fields : List MappedField) (source : TypeId) (index : Option TypeId) :
    Agree (do
      let result ← Build.object ⟨fields.map (·.field), index⟩
      fields.forM fun f => do
        if let some tag ← Build.origin? (.field source f.key) then
          Build.recordOrigin (.field result f.field.name) tag
      return result : Eval TypeId)
      (do
      let result ← Build.object ⟨fields.map (·.field), index⟩
      fields.forM fun f => do
        if let some tag ← Build.origin? (.field source f.key) then
          Build.recordOrigin (.field result f.field.name) tag
      return result) := by
  refine agree_bind (agree_lift (agree_intern _)) fun result => ?_
  refine agree_bind (agree_forM fun f => ?_) fun _ => agree_pure _
  refine settle_bind (Blind.lift (settle_origin _)) fun tag tag' => ?_
  have hrecord := agree_record (M := Eval) (.field result f.field.name)
    (.field result f.field.name) tag tag'
  cases tag <;> cases tag' <;> exact hrecord

theorem agree_mapObject (m : Mapped) (source : TypeId) (shape : ObjectShape) :
    Agree (mapObject inner m source shape) (mapObject inner' m source shape) := by
  refine agree_bind (agree_mapFields hi m source shape.fields _) fun fields => ?_
  have hrest := agree_mapResult fields source
  refine beside_ite ?_ (agree_bind (agree_pure _) hrest)
  refine beside_evalInstantiate _ _ fun instantiated => agree_bind (hi _) fun t => ?_
  exact agree_bind (agree_pure _) hrest

theorem agree_evalMapped (m : Mapped) : Agree (Eval.mapped inner m) (Eval.mapped inner' m) := by
  refine agree_bind (hi _) fun source => ?_
  refine agree_bind (agree_lift (agree_node source)) fun n => ?_
  cases n with
  | union members => exact agree_evalPerMember hi (fun t => agree_intern _) members
  | object shape => exact agree_mapObject hi m source shape
  | intrinsic _ | literal _ | array _ | function _ | error => exact agree_pure _
  | _ => exact agree_lift (agree_intern _)

theorem agree_accessKey (t object key : TypeId) :
    Agree (accessKey inner t object key) (accessKey inner' t object key) := by
  refine beside_store fun s s' hs => ?_
  rw [hs.node, hs.node, hs.containsParams]
  split
  · exact agree_evalPerMember hi (fun t => agree_intern _) _
  · refine agree_bind (agree_bind (agree_mapM fun m => ?_) fun _ => agree_pure _) fun found => ?_
    · exact agree_bind (agree_lift (agree_intern _)) fun t => hi t
    · refine beside_ite (agree_pure _) ?_
      exact settle_bind (settle_evalOrigin t) fun _ _ => agree_evalIntersection found
  · exact agree_pure _
  · exact agree_pure _
  · exact agree_deferAccess _ _ _
  · exact agree_pure _
  · exact agree_pure _
  · exact beside_ite (agree_pure _) (agree_pure _)
  · exact agree_deferAccess _ _ _
  · exact agree_deferAccess _ _ _

theorem agree_evalIndexAccess (t object key : TypeId) :
    Agree (Eval.indexAccess inner t object key) (Eval.indexAccess inner' t object key) := by
  refine agree_bind (hi _) fun object => ?_
  refine agree_bind (hi _) fun key => ?_
  refine beside_ite (agree_pure _) (beside_ite (agree_pure _) ?_)
  refine agree_bind (agree_lift (agree_node key)) fun n => ?_
  split
  · exact agree_evalPerMember hi (fun key => agree_intern _) _
  · exact agree_accessKey hi t object key

theorem agree_evaluateSpans (spans : List Span) (texts : Option (List String)) :
    Agree (evaluateSpans inner spans texts) (evaluateSpans inner' spans texts) := by
  induction spans generalizing texts with
  | nil => exact agree_pure _
  | cons span rest ih =>
      cases span with
      | text a => exact agree_bind (ih _) fun _ => agree_pure _
      | hole t =>
          refine agree_bind (hi t) fun value => ?_
          refine beside_ite (agree_pure _) (beside_store fun s s' hs => ?_)
          rw [hs.literalTexts]
          exact agree_bind (ih _) fun _ => agree_pure _

theorem agree_evalTemplate (spans : List Span) :
    Agree (Eval.template inner spans) (Eval.template inner' spans) := by
  refine agree_bind (agree_evaluateSpans hi spans _) fun found => ?_
  rcases found with _ | ⟨spans, _ | texts⟩
  · exact agree_pure _
  · exact agree_lift (agree_template spans)
  · refine beside_ite ?_ (agree_lift (agree_template spans))
    refine agree_bind (agree_mapM fun text => agree_lift (agree_intern _)) fun literals => ?_
    exact agree_evalUnion literals

theorem agree_evalStringMap (kind : StringMap) (arg : TypeId) :
    Agree (Eval.stringMap inner kind arg) (Eval.stringMap inner' kind arg) := by
  refine agree_bind (hi arg) fun arg => ?_
  refine agree_bind (agree_lift (agree_node arg)) fun n => ?_
  split
  · exact agree_lift (agree_intern _)
  · exact agree_evalPerMember hi (fun t => agree_intern _) _
  · exact beside_ite (agree_pure _) (agree_lift (agree_intern _))

include hset

theorem agree_evalReference (t : TypeId) (name : String) (args : List TypeId) :
    Agree (Eval.reference inner setting t name args)
      (Eval.reference inner' setting' t name args) := by
  unfold Eval.reference
  have hget := hset.environment.get? name
  generalize setting.environment.get? name = a, setting'.environment.get? name = a' at hget
  cases hget with
  | none =>
      refine settle_bind (settle_evalOrigin t) fun _ _ => ?_
      exact agree_bind (agree_evalReport (by simp)) fun _ => agree_pure _
  | some ha =>
      dsimp only
      rw [ha.params, ha.body]
      refine agree_bind (agree_mapM hi) fun args => Blind.bind beside_evalGet ?_
      rintro e _ ⟨ds, rfl, _⟩
      dsimp only
      cases e.frames.find? fun f => f.name = name && f.args = args with
      | some frame =>
          refine agree_bind (agree_lift (agree_intern _)) fun lazy => ?_
          exact settle_bind (settle_evalOrigin t) fun _ _ => agree_reenterAlias _ _ _ _
      | none => exact beside_evalInstantiate _ _ fun body => beside_expanding _ _ (hi body)

theorem agree_evalIsAssignable (source target : TypeId) :
    Agree (Eval.isAssignable inner setting source target)
      (Eval.isAssignable inner' setting' source target) := by
  refine Blind.bind beside_evalGet ?_
  rintro e _ ⟨ds, rfl, _⟩
  have hnested : SameNested ⟨inner, .fresh setting.options e.guard.depth none⟩
      ⟨inner', .fresh setting'.options e.guard.depth none⟩ :=
    ⟨hi, by rw [hset.options]⟩
  have hcheck := agree_isAssignable hnested source target (.fresh setting.options)
    (.fresh setting'.options) ⟨#[], by rw [hset.options]; rfl, rfl⟩
  refine Blind.bind (Blind.lift hcheck) ?_
  rintro ⟨result, c⟩ ⟨result', c'⟩ ⟨rfl, ds', rfl, hds⟩
  exact agree_bind (agree_reportAll hds) fun _ => agree_pure _

theorem agree_fitBound (check pattern : TypeId) (bindings : Option Substitution) :
    Agree (match bindings with
      | none => return none
      | some σ => do
          let pattern ←
            if σ.isEmpty then pure pattern
            else do
              let bound ← Build.instantiate σ pattern
              inner bound
          if ← Eval.isAssignable inner setting check pattern then return some σ else return none :
        Eval (Option Substitution))
      (match bindings with
      | none => return none
      | some σ => do
          let pattern ←
            if σ.isEmpty then pure pattern
            else do
              let bound ← Build.instantiate σ pattern
              inner' bound
          if ← Eval.isAssignable inner' setting' check pattern then return some σ
          else return none) := by
  cases bindings with
  | none => exact agree_pure _
  | some σ =>
      have hcheck : ∀ pattern, Agree (do
          if ← Eval.isAssignable inner setting check pattern then return some σ else return none :
            Eval (Option Substitution))
          (do
            if ← Eval.isAssignable inner' setting' check pattern then return some σ
            else return none) := fun pattern =>
        agree_bind (agree_evalIsAssignable hset hi check pattern) fun _ =>
          beside_ite (agree_pure _) (agree_pure _)
      refine beside_ite (agree_bind (agree_pure _) hcheck) ?_
      exact beside_evalInstantiate _ _ fun bound => agree_bind (hi bound) hcheck

theorem agree_fit (check pattern : TypeId) (infer : List String) :
    Agree (fit inner setting check pattern infer) (fit inner' setting' check pattern infer) := by
  have hrest := agree_fitBound hset hi check pattern
  unfold fit
  rw [hset.options]
  refine beside_ite (agree_bind (agree_pure _) hrest) ?_
  exact agree_bind (agree_lift (agree_matchPattern hset.environment _ _ _ _)) hrest

theorem agree_choose (t : TypeId) (c : Conditional) (check : TypeId) :
    Agree (choose inner setting t c check) (choose inner' setting' t c check) := by
  refine agree_bind (hi _) fun pattern => ?_
  refine beside_store fun s s' hs => ?_
  rw [hs.containsParams, hs.containsParamsExcept]
  refine beside_ite (agree_lift (agree_intern _)) ?_
  refine agree_bind (agree_fit hset hi _ _ _) fun σ => ?_
  cases σ with
  | some σ => exact beside_evalInstantiate _ _ hi
  | none => exact agree_falseBranch hi t c

theorem agree_evalConditional (t : TypeId) (c : Conditional) :
    Agree (Eval.conditional inner setting t c) (Eval.conditional inner' setting' t c) := by
  refine agree_bind (hi _) fun check => ?_
  refine beside_ite (agree_bothBranches hi c) (beside_ite (agree_pure _) ?_)
  refine agree_bind (agree_lift (agree_node check)) fun n => ?_
  split
  · exact agree_evalPerMember hi (fun m => agree_intern _) _
  · exact agree_choose hset hi t c check

theorem agree_evalNode (t : TypeId) (n : Node) :
    Agree (Eval.node inner setting t n) (Eval.node inner' setting' t n) := by
  cases n with
  | error | intrinsic _ | literal _ | param _ => exact agree_pure _
  | union members => exact agree_bind (agree_mapM hi) fun members => agree_evalUnion members
  | intersection members =>
      refine agree_bind (agree_mapM hi) fun members => ?_
      exact settle_bind (settle_evalOrigin t) fun _ _ => agree_evalIntersection members
  | object shape => exact beside_productively (agree_evalObject hi t shape)
  | function shape => exact beside_productively (agree_evalFunction hi shape)
  | array element =>
      exact agree_bind (beside_productively (hi element)) fun t => agree_lift (agree_intern _)
  | reference name args => exact agree_evalReference hset hi t name args
  | conditional c => exact agree_evalConditional hset hi t c
  | mapped m => exact agree_evalMapped hi m
  | indexAccess object key => exact agree_evalIndexAccess hi t object key
  | template spans => exact agree_evalTemplate hi spans
  | stringMap kind arg => exact agree_evalStringMap hi kind arg

end components

variable (hset : SameSetting setting setting')

include hset

theorem agree_evaluateAt (depth : Nat) (t : TypeId) :
    Agree (evaluateAt setting depth t) (evaluateAt setting' depth t) := by
  induction depth generalizing t with
  | zero => exact agree_guarded (fun _ _ => agree_pure _) t
  | succ depth ih => exact agree_guarded (agree_evalNode hset ih) t

theorem agree_evaluate (t : TypeId) :
    Agree (Eval.evaluate setting t) (Eval.evaluate setting' t) := by
  refine agree_bind (Blind.bind beside_evalGet ?_) fun depth => agree_evaluateAt hset depth t
  rintro e _ ⟨ds, rfl, _⟩
  exact agree_pure _

theorem agree_evaluateNormalized (t : TypeId) :
    Agree (evaluateNormalized setting t) (evaluateNormalized setting' t) := by
  refine agree_bind (agree_evaluate hset t) fun evaluated => ?_
  exact settle_bind (settle_evalOrigin t) fun site site' =>
    beside_reporting (agree_normalize site site' evaluated)

end eval

section narrowing

open Narrowing

variable {setting setting' : Setting} (hset : SameSetting setting setting') (branch : Branch)
  (t : TypeId)

/-- Diagnostics that say the same are reported alike, however many they are. -/
theorem agree_reports {add : Array Diagnostic → Diagnostic → Array Diagnostic}
    (hadd : ∀ ds d, told (add ds d).toList = insert d.said (told ds.toList))
    {new new' : Array Diagnostic} (h : Same new new') :
    Agree (new.forM fun d => modify (add · d) : Reporting PUnit)
      (new'.forM fun d => modify (add · d)) := by
  have hrun : ∀ (l : List Diagnostic) (ds : Array Diagnostic) (s : Store),
      (l.forM fun d => modify (add · d) : Reporting PUnit) ds s = (((), l.foldl add ds), s) := by
    intro l
    induction l with
    | nil => exact fun _ _ => rfl
    | cons d rest ih => exact fun ds s => ih (add ds d) s
  intro ds ds' hds s s' hs
  obtain ⟨l⟩ := new
  obtain ⟨l'⟩ := new'
  rw [Array.forM_eq_forM, Array.forM_eq_forM, List.forM_toArray, List.forM_toArray, hrun, hrun]
  exact ⟨hs, rfl, same_foldl hadd hds h⟩

section

include hset

theorem agree_narrowResolve :
    Agree (Narrowing.resolve setting t) (Narrowing.resolve setting' t) := by
  refine beside_ite (agree_pure _) ?_
  have hrun := agree_evaluate hset t (.fresh setting.options 0 none) (.fresh setting'.options 0 none)
    (hset.options ▸ same_refl _)
  refine Blind.bind (Blind.lift hrun) ?_
  rintro ⟨r, e⟩ ⟨r', e'⟩ ⟨hr, ds, rfl, hds⟩
  refine agree_bind (agree_reports told_push hds) fun _ => ?_
  cases hr with
  | ok h =>
      subst h
      exact agree_pure _
  | error => exact agree_pure _

omit branch t in
theorem sameNested_nested (depth : Nat) :
    SameNested (setting.nested depth) (setting'.nested depth) where
  evaluate t := by
    unfold Setting.nested
    rw [hset.options]
    exact agree_evaluateAt hset _ t
  start := by rw [Setting.nested, Setting.nested, hset.options]

omit branch t in
theorem same_checker : Same (Checker.fresh setting.options) (Checker.fresh setting'.options) :=
  ⟨#[], by rw [hset.options]; rfl, rfl⟩

theorem agree_narrowIsAssignable (source target : TypeId) :
    Agree (Narrowing.isAssignable setting source target)
      (Narrowing.isAssignable setting' source target) := by
  have hquiet : SameSetting
      { setting with options := { setting.options with excessPropertyCheck := false } }
      { setting' with options := { setting'.options with excessPropertyCheck := false } } :=
    ⟨hset.environment, by rw [hset.options]⟩
  refine Blind.bind (Blind.lift (agree_isAssignable (sameNested_nested hquiet 0) source target _ _
    (same_checker hquiet))) ?_
  rintro ⟨result, c⟩ ⟨result', c'⟩ ⟨rfl, ds, rfl, hds⟩
  exact agree_bind (agree_reports told_addNew hds) fun _ => agree_pure _

end

theorem agree_ofKind (kind : TypeofKind) : Agree (ofKind kind t) (ofKind kind t) := by
  unfold ofKind
  cases kind.primitive? with
  | some primitive => exact agree_pure _
  | none =>
      refine beside_ite ?_ (agree_pure _)
      exact agree_bind (agree_intern _) fun empty => agree_union _

theorem agree_cutToKind (kind : TypeofKind) : Agree (cutToKind kind t) (cutToKind kind t) := by
  unfold cutToKind
  cases kind.primitive? with
  | some primitive => exact agree_rawIntersection _
  | none => exact agree_pure _

theorem agree_byTypeof (kind : TypeofKind) :
    Agree (byTypeof kind branch t) (byTypeof kind branch t) := by
  refine beside_ite (beside_ite (agree_ofKind t kind) (agree_pure _)) ?_
  refine beside_store (M := Build) fun s s' hs => ?_
  rw [hs.unionMembers, hs.typeofMatch]
  refine agree_bind (agree_mapM fun m => ?_) fun _ => agree_union _
  exact beside_ite (agree_cutToKind _ kind) (agree_pure _)

theorem agree_byNullish : Agree (byNullish branch t) (byNullish branch t) := by
  refine beside_ite (beside_ite (agree_union _) (agree_pure _)) ?_
  refine beside_store (M := Build) fun s s' hs => ?_
  rw [hs.unionMembers]
  exact agree_union _

theorem agree_cutToTruth : Agree (cutToTruth branch t) (cutToTruth branch t) := by
  refine beside_ite (agree_pure _) (beside_ite (agree_intern _) ?_)
  exact beside_ite (agree_intern _) (agree_pure _)

theorem agree_byTruth : Agree (byTruth branch t) (byTruth branch t) := by
  refine beside_store (M := Build) fun s s' hs => ?_
  rw [hs.unionMembers, hs.truthiness]
  refine agree_bind (agree_mapM fun m => ?_) fun _ => agree_union _
  exact beside_ite (agree_cutToTruth branch _) (agree_pure _)

theorem agree_byPresence (name : String) :
    Agree (byPresence name branch t) (byPresence name branch t) := by
  refine beside_ite (agree_pure _) (beside_store (M := Build) fun s s' hs => ?_)
  simp only [hs.unionMembers, hs.node]
  exact agree_union _

theorem agree_mayOverlap (left right : TypeId) :
    Agree (mayOverlap left right) (mayOverlap left right) := by
  refine agree_bind (agree_buildIntersection _) fun met => ?_
  refine beside_ite (agree_pure _) (beside_store (M := Build) fun s s' hs => ?_)
  rw [hs.objectShape?]
  cases s.objectShape? met <;> exact agree_pure _

include hset

theorem agree_byLiteral (literal : TypeId) :
    Agree (byLiteral setting literal branch t) (byLiteral setting' literal branch t) := by
  refine beside_ite (agree_pure _) (beside_store fun s s' hs => ?_)
  rw [hs.unionMembers]
  refine beside_ite ?_ (agree_lift (agree_union _))
  refine agree_bind (agree_filterM fun m => ?_) fun _ => agree_lift (agree_union _)
  exact beside_ite (agree_pure _) (agree_narrowIsAssignable hset literal m)

theorem agree_agrees (value c : TypeId) :
    Agree (agrees setting value branch c) (agrees setting' value branch c) := by
  refine beside_ite (agree_pure _) (beside_ite (agree_pure _) ?_)
  refine agree_bind (agree_narrowIsAssignable hset value c) fun _ => ?_
  exact beside_ite (agree_pure _) (agree_narrowIsAssignable hset c value)

theorem agree_discriminate (property : String) (value member : TypeId) :
    Agree (discriminate setting property value branch member)
      (discriminate setting' property value branch member) := by
  refine beside_store fun s s' hs => ?_
  dsimp only
  rw [hs.objectShape?]
  split
  · refine agree_bind (agree_narrowResolve hset _) fun field => ?_
    refine beside_store fun s₁ s₁' hs₁ => ?_
    rw [hs₁.unionMembers]
    refine agree_bind (agree_filterM (agree_agrees hset branch value)) fun fitting => ?_
    refine beside_ite (agree_pure _) (beside_ite (agree_pure _) ?_)
    refine agree_bind (agree_lift (agree_union fitting)) fun narrowed => ?_
    exact agree_bind (agree_lift (agree_intern _)) fun _ => agree_pure _
  · exact agree_pure _

theorem agree_byDiscriminant (property : String) (value : TypeId) :
    Agree (byDiscriminant setting property value branch t)
      (byDiscriminant setting' property value branch t) := by
  refine beside_store fun s s' hs => ?_
  rw [hs.unionMembers]
  refine agree_bind (agree_mapM (agree_discriminate hset branch property value)) fun kept => ?_
  exact agree_lift (agree_union _)

theorem agree_asserted (asserts member : TypeId) :
    Agree (asserted setting asserts member) (asserted setting' asserts member) := by
  refine agree_bind (agree_narrowIsAssignable hset _ _) fun _ => beside_ite (agree_pure _) ?_
  refine agree_bind (agree_narrowIsAssignable hset _ _) fun _ => beside_ite (agree_pure _) ?_
  refine agree_bind (agree_lift (agree_mayOverlap _ _)) fun _ => beside_ite ?_ (agree_pure _)
  exact agree_bind (agree_lift (agree_buildIntersection _)) fun _ => agree_pure _

theorem agree_excluded (asserts : TypeId) (members : List TypeId) :
    Agree (excluded setting asserts members) (excluded setting' asserts members) := by
  induction members with
  | nil => exact agree_pure _
  | cons m rest ih =>
      refine agree_bind (agree_narrowIsAssignable hset _ _) fun _ => beside_ite ih ?_
      refine agree_bind (agree_lift (agree_mayOverlap _ _)) fun _ => ?_
      exact beside_ite (agree_pure _) (agree_bind ih fun _ => agree_pure _)

theorem agree_byPredicate (asserts : TypeId) :
    Agree (byPredicate setting asserts branch t) (byPredicate setting' asserts branch t) := by
  refine beside_ite (agree_pure _) (beside_store fun s s' hs => ?_)
  rw [hs.unionMembers]
  refine beside_ite ?_ ?_
  · exact agree_bind (agree_mapM (agree_asserted hset asserts)) fun kept =>
      agree_lift (agree_union _)
  · refine agree_bind (agree_excluded hset asserts _) fun kept => ?_
    cases kept with
    | some kept => exact agree_lift (agree_union kept)
    | none =>
        refine beside_store fun s₁ s₁' hs₁ => ?_
        rw [hs₁.text]
        exact agree_bind (agree_report (by simp)) fun _ => agree_pure _

theorem agree_narrow (guard : TypeGuard) :
    Agree (narrow setting t guard branch) (narrow setting' t guard branch) := by
  refine agree_bind (agree_narrowResolve hset t) fun t => ?_
  cases guard with
  | typeof kind => exact agree_lift (agree_byTypeof branch t kind)
  | literalEquality value => exact agree_byLiteral hset branch t value
  | nullishEquality => exact agree_lift (agree_byNullish branch t)
  | truthy => exact agree_lift (agree_byTruth branch t)
  | discriminant property value => exact agree_byDiscriminant hset branch t property value
  | inProperty property => exact agree_lift (agree_byPresence branch t property)
  | predicate asserts =>
      exact agree_bind (agree_narrowResolve hset asserts) (agree_byPredicate hset branch t)

end narrowing

end TypeResolution.Tags
