import TypeResolution.Proofs.Evaluation.Steps

/-!
What the parts of an evaluation leave as it was. Each part, when it is done or cancelled, leaves the
evaluator at the types, expansions and nesting at which it found it, and remembers nothing for
types that are under evaluation. Two parts that evaluate their components alike end alike, unless a
component is cancelled.
-/

namespace TypeResolution

/-- The evaluator is back where it was. -/
structure Evaluator.Restored (e e' : Evaluator) : Prop where
  active : e'.guard.active = e.guard.active
  depth : e'.guard.depth = e.guard.depth
  frames : e'.frames = e.frames
  productive : e'.productive = e.productive

/-- The evaluator remembers all that it remembered, and has not forgotten that it hit a limit. -/
structure Evaluator.Grows (e e' : Evaluator) : Prop where
  remembered : ∀ t r : TypeId, e.cache[t]? = some r → e'.cache[t]? = some r
  exceeded : e.guard.exceeded → e'.guard.exceeded

theorem Evaluator.Grows.trans {e e₁ e₂ : Evaluator} (h₁ : e.Grows e₁) (h₂ : e₁.Grows e₂) :
    e.Grows e₂ where
  remembered t r h := h₂.remembered t r (h₁.remembered t r h)
  exceeded h := h₂.exceeded (h₁.exceeded h)

theorem Evaluator.Grows.of_eq {e e' : Evaluator} (hcache : e'.cache = e.cache)
    (hexceeded : e'.guard.exceeded = e.guard.exceeded) : e.Grows e' where
  remembered _ _ h := hcache ▸ h
  exceeded h := hexceeded ▸ h

/-- What holds between the evaluators before and after every part of an evaluation: types under
evaluation get no result meanwhile. -/
structure Evaluator.Kept (e e' : Evaluator) : Prop extends Evaluator.Restored e e' where
  baseDepth : e'.guard.baseDepth = e.guard.baseDepth
  patience : e.patience = none → e'.patience = none
  cache : ∀ t ∈ e.guard.active, e'.cache[t]? = e.cache[t]?
  grows : e.Grows e'

namespace Evaluator.Kept

variable {e e₁ e₂ : Evaluator}

theorem refl (e : Evaluator) : e.Kept e :=
  ⟨⟨rfl, rfl, rfl, rfl⟩, rfl, id, fun _ _ => rfl, .of_eq rfl rfl⟩

theorem trans (h₁ : e.Kept e₁) (h₂ : e₁.Kept e₂) : e.Kept e₂ where
  active := h₂.active.trans h₁.active
  depth := h₂.depth.trans h₁.depth
  frames := h₂.frames.trans h₁.frames
  productive := h₂.productive.trans h₁.productive
  baseDepth := h₂.baseDepth.trans h₁.baseDepth
  patience h := h₂.patience (h₁.patience h)
  cache t ht := (h₂.cache t (h₁.active ▸ ht)).trans (h₁.cache t ht)
  grows := h₁.grows.trans h₂.grows

theorem base_le (h : e.Kept e₁) (he : e.guard.baseDepth ≤ e.guard.depth) :
    e₁.guard.baseDepth ≤ e₁.guard.depth := by
  rw [h.baseDepth, h.depth]
  exact he

end Evaluator.Kept

namespace Eval

/-- What can befall a run and is not undone by what follows: a property of the evaluator that the run
ends with, and of whether the run is done or cancelled. -/
structure Breach where
  holds : Bool → Evaluator → Prop
  later {e e' : Evaluator} {done : Bool} : holds true e → e.Grows e' → holds done e'
  cancelled {e e' : Evaluator} : holds false e → e'.cache = e.cache →
    e'.guard.exceeded = e.guard.exceeded → holds false e'

def Breach.at {α : Type} (B : Breach) (r : End α) : Prop := B.holds r.1.1.isOk r.1.2

/-- The run was cancelled with this much remembered. -/
def Breach.stopped (known : Std.HashMap TypeId TypeId) : Breach where
  holds done e := done = false ∧ e.cache = known
  later h _ := nomatch h.1
  cancelled h hcache _ := ⟨rfl, hcache.trans h.2⟩

theorem Breach.stopped_at {α : Type} {known : Std.HashMap TypeId TypeId} {r : End α} :
    (Breach.stopped known).at r ↔ r.1.1 = .error .mk ∧ r.1.2.cache = known := by
  rcases r with ⟨⟨_ | _, _⟩, _⟩ <;> simp [Breach.at, stopped, Except.isOk, Except.toBool]

variable {α β γ : Type} {B : Breach} {setting : Setting}

/-- How two runs end that start at one evaluator: they differ only after a breach. -/
structure Ends (B : Breach) (e : Evaluator) (r r' : End α) : Prop where
  kept : e.Kept r.1.2
  calm : e.patience = none → r.1.1 ≠ .error .mk
  same : r' = r ∨ B.at r

/-- The first computation restores the evaluator, and the second one does the same as the first
unless there is a breach. -/
def Restores (B : Breach) (m m' : Eval α) : Prop :=
  ∀ e s, e.guard.baseDepth ≤ e.guard.depth → Ends B e (m.run e s) (m'.run e s)

section combinators

theorem restores_of_run {m : Eval α}
    (h : ∀ e s, ∃ a e' s', m.run e s = ((.ok a, e'), s') ∧ e.Kept e') : Restores B m m := by
  intro e s _
  obtain ⟨a, e', s', hrun, hkept⟩ := h e s
  rw [hrun]
  exact ⟨hkept, fun _ => nofun, .inl rfl⟩

theorem restores_pure (a : α) : Restores B (pure a : Eval α) (pure a) :=
  restores_of_run fun e s => ⟨a, e, s, rfl, .refl e⟩

theorem restores_lift (m : Build α) : Restores B (liftM m : Eval α) (liftM m) :=
  restores_of_run fun e s => ⟨(m s).1, e, (m s).2, rfl, .refl e⟩

theorem restores_get : Restores B (get : Eval Evaluator) get :=
  restores_of_run fun e s => ⟨e, e, s, rfl, .refl e⟩

theorem restores_bind {m m' : Eval α} {f f' : α → Eval β} (hm : Restores B m m')
    (hf : ∀ a, Restores B (f a) (f' a)) : Restores B (m >>= f) (m' >>= f') := by
  intro e s he
  obtain ⟨hkept, hcalm, hsame⟩ := hm e s he
  rw [run_bind, run_bind]
  rcases hr : m.run e s with ⟨⟨r, e₁⟩, s₁⟩
  rw [hr] at hkept hcalm hsame
  cases r with
  | error c =>
      exact ⟨hkept, fun h _ => hcalm h rfl, hsame.imp_left fun heq => by rw [heq]⟩
  | ok a =>
      have hnext := hf a e₁ s₁ (hkept.base_le he)
      refine ⟨hkept.trans hnext.kept, fun h => hnext.calm (hkept.patience h), ?_⟩
      rcases hsame with heq | hbreach
      · rw [heq]
        exact hnext.same
      · exact .inr (B.later hbreach hnext.kept.grows)

theorem restores_ite {c : Prop} [Decidable c] {m m' k k' : Eval α} (hm : Restores B m m')
    (hk : Restores B k k') : Restores B (if c then m else k) (if c then m' else k') := by
  split
  · exact hm
  · exact hk

theorem restores_mapM {l : List γ} {f f' : γ → Eval α} (h : ∀ a, Restores B (f a) (f' a)) :
    Restores B (l.mapM f) (l.mapM f') := by
  induction l with
  | nil => exact restores_pure []
  | cons a rest ih =>
      simp only [List.mapM_cons]
      exact restores_bind (h a) fun b => restores_bind ih fun bs => restores_pure _

theorem restores_optionMapM {o : Option γ} {f f' : γ → Eval α}
    (h : ∀ a, Restores B (f a) (f' a)) : Restores B (o.mapM f) (o.mapM f') := by
  cases o with
  | none => exact restores_pure _
  | some a =>
      simp only [Option.mapM_some, map_eq_pure_bind]
      exact restores_bind (h a) fun _ => restores_pure _

theorem restores_forM {l : List γ} {f : γ → Eval PUnit} (h : ∀ a, Restores B (f a) (f a)) :
    Restores B (l.forM f) (l.forM f) := by
  induction l with
  | nil => exact restores_pure _
  | cons a rest ih => exact restores_bind (h a) fun _ => ih

/-- A breach is there after a change that leaves alone what is remembered. -/
theorem Breach.after {B : Breach} {done : Bool} {e e' : Evaluator} (h : B.holds done e) (hcache : e'.cache = e.cache)
    (hexceeded : e'.guard.exceeded = e.guard.exceeded) : B.holds done e' := by
  cases done with
  | false => exact B.cancelled h hcache hexceeded
  | true => exact B.later h (.of_eq hcache hexceeded)

/-- A step between two changes of the state, the second of which undoes the first. -/
theorem restores_between {before after : Evaluator → Evaluator} {m m' : Eval α}
    (hguard : ∀ e, (before e).guard = e.guard) (hpatience : ∀ e, (before e).patience = e.patience)
    (hback : ∀ e e', (before e).Kept e' → e.Kept (after e'))
    (hafter : ∀ e, (after e).cache = e.cache ∧ (after e).guard = e.guard) (hm : Restores B m m') :
    Restores B (between before after m) (between before after m') := by
  intro e s he
  obtain ⟨hkept, hcalm, hsame⟩ := hm (before e) s (by rw [hguard]; exact he)
  refine ⟨hback _ _ hkept, fun h => hcalm ((hpatience e).trans h), ?_⟩
  rcases hsame with heq | hbreach
  · exact .inl (congrArg (fun r : End α => ((r.1.1, after r.1.2), r.2)) heq)
  · obtain ⟨hcache, hguard⟩ := hafter ((m.run (before e) s).1.2)
    exact .inr (Breach.after hbreach hcache (congrArg (·.exceeded) hguard))

theorem restores_productively {m m' : Eval α} (hm : Restores B m m') :
    Restores B (productively m) (productively m') := by
  refine restores_between (fun _ => rfl) (fun _ => rfl) (fun e e' h => ?_) (fun _ => ⟨rfl, rfl⟩) hm
  have hproductive : e'.productive - 1 = e.productive := by
    rw [h.productive]
    exact Nat.add_sub_cancel _ _
  exact { h with productive := hproductive, grows := ⟨h.grows.remembered, h.grows.exceeded⟩ }

theorem restores_expanding {name : String} {args : List TypeId} {m m' : Eval α}
    (hm : Restores B m m') :
    Restores B (expanding name args m) (expanding name args m') := by
  refine restores_between (fun _ => rfl) (fun _ => rfl) (fun e e' h => ?_) (fun _ => ⟨rfl, rfl⟩) hm
  have hframes : e'.frames.tail = e.frames := by
    rw [h.frames]
    rfl
  exact { h with frames := hframes, grows := ⟨h.grows.remembered, h.grows.exceeded⟩ }

end combinators

section reports

/-- The computation does nothing but report. -/
def Reports (m : Eval α) : Prop :=
  ∀ e s, ∃ a cycles reported ds, m.run e s = ((.ok a, { e with
    reportedCycles := cycles, depthReported := reported, diagnostics := ds }), s)

theorem Reports.restores {m : Eval α} (h : Reports m) : Restores B m m := by
  refine restores_of_run fun e s => ?_
  obtain ⟨a, cycles, reported, ds, hrun⟩ := h e s
  exact ⟨a, _, s, hrun, { Evaluator.Kept.refl e with grows := .of_eq rfl rfl }⟩

theorem reports_pure (a : α) : Reports (pure a : Eval α) := fun _ _ => ⟨a, _, _, _, rfl⟩

theorem reports_get : Reports (get : Eval Evaluator) := fun e _ => ⟨e, _, _, _, rfl⟩

theorem reports_store : Reports (getThe Store : Eval Store) := fun _ s => ⟨s, _, _, _, rfl⟩

theorem reports_node (t : TypeId) : Reports (Build.node t : Eval Node) :=
  fun _ s => ⟨s.node t, _, _, _, rfl⟩

theorem reports_origin (t : TypeId) : Reports (origin? t) :=
  fun _ s => ⟨s.origin? (.type t), _, _, _, rfl⟩

theorem reports_bind {m : Eval α} {f : α → Eval β} (hm : Reports m) (hf : ∀ a, Reports (f a)) :
    Reports (m >>= f) := by
  intro e s
  obtain ⟨a, cycles, reported, ds, hrun⟩ := hm e s
  obtain ⟨b, cycles', reported', ds', hrun'⟩ := hf a { e with
    reportedCycles := cycles, depthReported := reported, diagnostics := ds } s
  refine ⟨b, cycles', reported', ds', ?_⟩
  rw [run_bind, hrun]
  exact hrun'

theorem reports_report (d : Diagnostic) : Reports (report d) := by
  intro e s
  by_cases h : e.diagnostics.contains d
  · refine ⟨(), e.reportedCycles, e.depthReported, e.diagnostics, ?_⟩
    change ((Except.ok (), if e.diagnostics.contains d then e else _), s) = _
    rw [if_pos h]
  · refine ⟨(), e.reportedCycles, e.depthReported, e.diagnostics.push d, ?_⟩
    change ((Except.ok (), if e.diagnostics.contains d then e else _), s) = _
    rw [if_neg h]

theorem reports_reportAll (ds : Array Diagnostic) : Reports (reportAll ds) := by
  obtain ⟨ds⟩ := ds
  unfold reportAll
  rw [Array.forM_eq_forM, List.forM_toArray]
  induction ds with
  | nil => exact reports_pure _
  | cons d rest ih => exact reports_bind (reports_report d) fun _ => ih

theorem reports_reenterAlias (frame : Frame) (lazy : TypeId) (site : Option SourceTag) :
    Reports (reenterAlias frame lazy site) := by
  refine reports_bind reports_get fun e => ?_
  split
  · exact reports_pure _
  split
  · exact reports_pure _
  · refine reports_bind (fun e _ => ⟨(), _, _, _, rfl⟩) fun _ => ?_
    exact reports_bind (reports_report _) fun _ => reports_pure _

theorem reports_reenterCycle (t : TypeId) : Reports (reenterCycle setting t) := by
  refine reports_bind (reports_node t) fun n => ?_
  cases n with
  | reference name args =>
      refine reports_bind reports_get fun e => ?_
      cases e.frames.find? (·.name = name) with
      | none => exact reports_pure _
      | some frame => exact reports_bind (reports_origin t) fun _ => reports_reenterAlias _ _ _
  | _ => exact reports_pure _

theorem reports_reportDepthExceeded (t : TypeId) : Reports (reportDepthExceeded t) := by
  refine reports_bind reports_get fun e => ?_
  split
  · exact reports_pure _
  · refine reports_bind (fun e _ => ⟨(), _, _, _, rfl⟩) fun _ => ?_
    refine reports_bind reports_get fun _ => ?_
    exact reports_bind (reports_origin t) fun _ => reports_report _

theorem reports_reportCollision (source : TypeId) (first second target : String) :
    Reports (reportCollision source first second target) := by
  refine reports_bind reports_store fun s => ?_
  dsimp only
  cases s.origin? (.field source first) <;> exact reports_report _

end reports

theorem poll_run (e : Evaluator) (s : Store) :
    poll.run e s =
      match e.patience with
      | none => ((.ok (), e), s)
      | some 0 => ((.error .mk, e), s)
      | some (n + 1) => ((.ok (), { e with patience := some n }), s) := by
  change (match e.patience with
    | none => pure ()
    | some 0 => throw .mk
    | some (n + 1) => modify ({ · with patience := some n }) : Eval Unit).run e s = _
  rcases e.patience with _ | _ | n <;> rfl

theorem restores_poll : Restores B poll poll := by
  intro e s _
  rw [poll_run]
  rcases hpatience : e.patience with _ | _ | n
  · exact ⟨.refl e, fun _ => nofun, .inl rfl⟩
  · exact ⟨.refl e, fun h => (Option.some_ne_none _ (hpatience.symm.trans h)).elim, .inl rfl⟩
  · refine ⟨{ Evaluator.Kept.refl e with patience := fun h => ?_, grows := .of_eq rfl rfl },
      fun _ => nofun, .inl rfl⟩
    exact (Option.some_ne_none _ (hpatience.symm.trans h)).elim

theorem restores_reporting (step : Reporting α) :
    Restores B (Eval.reporting step) (Eval.reporting step) :=
  restores_bind (restores_lift _) fun _ =>
    restores_bind (reports_reportAll _).restores fun _ => restores_pure _

section components

variable {inner inner' : TypeId → Eval TypeId}

/-- Checks evaluate types only in the evaluator that they create. -/
theorem isAssignable_congr {nested nested' : Check.Nested}
    (h : ∀ t, nested'.evaluate t nested'.start = nested.evaluate t nested.start) :
    Check.isAssignable nested' = Check.isAssignable nested := by
  have hresolve : Check.resolve nested' = Check.resolve nested := by
    funext t
    unfold Check.resolve
    rw [h]
  have hrules : Check.rules nested' = Check.rules nested := by
    funext inner source target
    unfold Check.rules
    rw [hresolve]
  have hsubtype : ∀ depth, Check.subtypeAt nested' depth = Check.subtypeAt nested depth := by
    intro depth
    induction depth with
    | zero => rfl
    | succ depth ih => unfold Check.subtypeAt; rw [hrules, ih]
  funext source target
  unfold Check.isAssignable
  simp only [hsubtype]

section

variable (hi : ∀ t, Restores B (inner t) (inner' t))

include hi

theorem restores_instantiated (σ : Substitution) (t : TypeId) {f f' : TypeId → Eval α}
    (hf : ∀ t, Restores B (f t) (f' t)) :
    Restores B (do f (← inner (← Build.instantiate σ t)))
      (do f' (← inner' (← Build.instantiate σ t))) :=
  restores_bind (restores_lift _) fun _ => restores_bind (hi _) hf

theorem restores_reference (t : TypeId) (name : String) (args : List TypeId) :
    Restores B (Eval.reference inner setting t name args)
      (Eval.reference inner' setting t name args) := by
  unfold Eval.reference
  cases setting.environment.get? name with
  | none =>
      refine restores_bind (reports_origin t).restores fun _ => ?_
      exact restores_bind (reports_report _).restores fun _ => restores_pure _
  | some a =>
      refine restores_bind (restores_mapM hi) fun args => ?_
      refine restores_bind restores_get fun e => ?_
      cases e.frames.find? fun f => f.name = name && f.args = args with
      | some frame =>
          refine restores_bind (restores_lift _) fun lazy => ?_
          exact restores_bind (reports_origin t).restores fun _ =>
            (reports_reenterAlias _ _ _).restores
      | none => exact restores_bind (restores_lift _) fun body => restores_expanding (hi body)

theorem restores_object (t : TypeId) (shape : ObjectShape) :
    Restores B (Eval.object inner t shape) (Eval.object inner' t shape) := by
  refine restores_bind (restores_mapM fun f => ?_) fun fields => ?_
  · exact restores_bind (hi f.type) fun _ => restores_pure _
  · exact restores_bind (restores_optionMapM hi) fun index => restores_lift _

theorem restores_function (shape : FunctionShape) :
    Restores B (Eval.function inner shape) (Eval.function inner' shape) := by
  refine restores_bind (restores_mapM hi) fun params => ?_
  exact restores_bind (hi shape.result) fun result => restores_lift _

theorem restores_perMember (place : TypeId → Build TypeId) (members : List TypeId) :
    Restores B (Eval.perMember inner place members) (Eval.perMember inner' place members) := by
  refine restores_bind (restores_mapM fun t => ?_) fun results => restores_lift _
  exact restores_bind (restores_lift _) fun t => hi t

theorem restores_bothBranches (c : Conditional) :
    Restores B (bothBranches inner c) (bothBranches inner' c) := by
  refine restores_instantiated hi _ _ fun whenTrue => ?_
  exact restores_bind (hi c.whenFalse) fun whenFalse => restores_lift _

theorem restores_falseBranch (t : TypeId) (c : Conditional) :
    Restores B (falseBranch inner t c) (falseBranch inner' t c) := by
  refine restores_bind reports_store.restores fun s => ?_
  refine restores_bind (restores_forM fun name => (reports_report _).restores) fun _ => ?_
  exact restores_bind (restores_lift _) fun whenFalse => hi whenFalse

theorem restores_mappedName (m : Mapped) (σ : Substitution) (key : String) :
    Restores B (mappedName inner m σ key) (mappedName inner' m σ key) := by
  unfold mappedName
  cases m.nameType with
  | none => exact restores_pure _
  | some t =>
      refine restores_instantiated hi _ _ fun renamed => ?_
      refine restores_ite (restores_pure _) ?_
      exact restores_bind reports_store.restores fun s => restores_pure _

theorem restores_keeps (m : Mapped) (σ : Substitution) :
    Restores B (keeps inner m σ) (keeps inner' m σ) := by
  unfold keeps
  cases m.keyFilter with
  | none => exact restores_pure _
  | some t => exact restores_instantiated hi _ _ fun _ => restores_pure _

theorem restores_mapField (m : Mapped) (f : Field) :
    Restores B (mapField inner m f) (mapField inner' m f) := by
  refine restores_bind restores_poll fun _ => ?_
  refine restores_bind (restores_lift _) fun key => ?_
  refine restores_bind (restores_keeps hi m _) fun kept => ?_
  refine restores_ite ?_ (restores_pure _)
  refine restores_bind (restores_mappedName hi m _ _) fun name => ?_
  cases name with
  | none => exact restores_pure _
  | some name => exact restores_instantiated hi _ _ fun _ => restores_pure _

theorem restores_mapFields (m : Mapped) (source : TypeId) (fields : List Field)
    (done : List MappedField) :
    Restores B (mapFields inner m source fields done) (mapFields inner' m source fields done) := by
  induction fields generalizing done with
  | nil => exact restores_pure _
  | cons f rest ih =>
      refine restores_bind (restores_mapField hi m f) fun new => ?_
      cases new with
      | none => exact ih done
      | some new =>
          dsimp only
          split
          · exact restores_bind (reports_reportCollision _ _ _ _).restores fun _ => ih _
          · exact ih _

omit hi in
theorem restores_mapResult (source : TypeId) (fields : List MappedField) (index : Option TypeId) :
    Restores B (do
      let result ← Build.object ⟨fields.map (·.field), index⟩
      fields.forM fun f => do
        if let some tag ← Build.origin? (.field source f.key) then
          Build.recordOrigin (.field result f.field.name) tag
      return result : Eval TypeId) (do
      let result ← Build.object ⟨fields.map (·.field), index⟩
      fields.forM fun f => do
        if let some tag ← Build.origin? (.field source f.key) then
          Build.recordOrigin (.field result f.field.name) tag
      return result) := by
  refine restores_bind (restores_lift _) fun result => ?_
  refine restores_bind (restores_forM fun f => ?_) fun _ => restores_pure _
  refine restores_bind (restores_lift _) fun tag => ?_
  cases tag with
  | none => exact restores_pure _
  | some tag => exact restores_lift _

theorem restores_mapObject (m : Mapped) (source : TypeId) (shape : ObjectShape) :
    Restores B (mapObject inner m source shape) (mapObject inner' m source shape) := by
  refine restores_bind (restores_mapFields hi m source _ _) fun fields => ?_
  refine restores_ite ?_ (restores_bind (restores_pure _) (restores_mapResult source fields))
  exact restores_instantiated hi _ _ fun t =>
    restores_bind (restores_pure _) (restores_mapResult source fields)

theorem restores_mapped (m : Mapped) :
    Restores B (Eval.mapped inner m) (Eval.mapped inner' m) := by
  refine restores_bind (hi m.source) fun source => ?_
  refine restores_bind (reports_node source).restores fun n => ?_
  cases n with
  | union members => exact restores_perMember hi _ members
  | object shape => exact restores_mapObject hi m source shape
  | intrinsic _ | literal _ | array _ | function _ | error => exact restores_pure _
  | _ => exact restores_lift _

theorem restores_accessKey (t object key : TypeId) :
    Restores B (accessKey inner t object key) (accessKey inner' t object key) := by
  have hdefer : ∀ open_, Restores B (deferAccess open_ object key)
      (deferAccess open_ object key) :=
    fun _ => restores_ite (restores_lift _) (restores_pure _)
  refine restores_bind reports_store.restores fun s => ?_
  split
  · exact restores_perMember hi _ _
  · refine restores_bind (restores_bind (restores_mapM fun m => ?_) fun _ => restores_pure _)
      fun found => restores_ite (restores_pure _) ?_
    · exact restores_bind (restores_lift _) fun t => hi t
    · exact restores_bind (reports_origin t).restores fun site => restores_reporting _
  · exact restores_pure _
  · exact restores_pure _
  · exact hdefer _
  · exact restores_pure _
  · exact restores_pure _
  · exact restores_ite (restores_pure _) (restores_pure _)
  · exact hdefer _
  · exact hdefer _

theorem restores_indexAccess (t object key : TypeId) :
    Restores B (Eval.indexAccess inner t object key) (Eval.indexAccess inner' t object key) := by
  refine restores_bind (hi object) fun object => ?_
  refine restores_bind (hi key) fun key => ?_
  refine restores_ite (restores_pure _) (restores_ite (restores_pure _) ?_)
  refine restores_bind (reports_node key).restores fun n => ?_
  split
  · exact restores_perMember hi _ _
  · exact restores_accessKey hi t object key

theorem restores_evaluateSpans (spans : List Span) (texts : Option (List String)) :
    Restores B (evaluateSpans inner spans texts) (evaluateSpans inner' spans texts) := by
  induction spans generalizing texts with
  | nil => exact restores_pure _
  | cons span rest ih =>
      cases span with
      | text a => exact restores_bind (ih _) fun _ => restores_pure _
      | hole t =>
          refine restores_bind (hi t) fun value => ?_
          refine restores_ite (restores_pure _) ?_
          refine restores_bind reports_store.restores fun s => ?_
          exact restores_bind (ih _) fun _ => restores_pure _

theorem restores_template (spans : List Span) :
    Restores B (Eval.template inner spans) (Eval.template inner' spans) := by
  refine restores_bind (restores_evaluateSpans hi spans _) fun found => ?_
  rcases found with _ | ⟨spans, _ | texts⟩
  · exact restores_pure _
  · exact restores_lift _
  · refine restores_ite ?_ (restores_lift _)
    exact restores_bind (restores_mapM fun text => restores_lift _) fun literals => restores_lift _

theorem restores_stringMap (kind : StringMap) (arg : TypeId) :
    Restores B (Eval.stringMap inner kind arg) (Eval.stringMap inner' kind arg) := by
  refine restores_bind (hi arg) fun arg => ?_
  refine restores_bind (reports_node arg).restores fun n => ?_
  split
  · exact restores_lift _
  · exact restores_perMember hi _ _
  · exact restores_ite (restores_pure _) (restores_lift _)

end

variable (hi : ∀ t, Restores B (inner t) (inner' t))
  (hfresh : ∀ o depth t, inner' t (.fresh o depth none) = inner t (.fresh o depth none))

include hi hfresh

omit hi in
theorem restores_isAssignable (source target : TypeId) :
    Restores B (Eval.isAssignable inner setting source target)
      (Eval.isAssignable inner' setting source target) := by
  refine restores_bind restores_get fun e => ?_
  have hcheck : Check.isAssignable ⟨inner', .fresh setting.options e.guard.depth none⟩ =
      Check.isAssignable ⟨inner, .fresh setting.options e.guard.depth none⟩ :=
    isAssignable_congr fun t => hfresh _ _ t
  dsimp only
  rw [hcheck]
  refine restores_bind (restores_lift _) fun x => ?_
  exact restores_bind (reports_reportAll _).restores fun _ => restores_pure _

theorem restores_fitBound (check pattern : TypeId) (bindings : Option Substitution) :
    Restores B
      (match bindings with
      | none => return none
      | some σ => do
          let pattern ←
            if σ.isEmpty then pure pattern
            else do
              let bound ← Build.instantiate σ pattern
              inner bound
          if ← Eval.isAssignable inner setting check pattern then return some σ else return none :
        Eval (Option Substitution))
      (match bindings with
      | none => return none
      | some σ => do
          let pattern ←
            if σ.isEmpty then pure pattern
            else do
              let bound ← Build.instantiate σ pattern
              inner' bound
          if ← Eval.isAssignable inner' setting check pattern then return some σ
          else return none) := by
  cases bindings with
  | none => exact restores_pure _
  | some σ =>
      have hcheck : ∀ pattern, Restores B
          (do if ← Eval.isAssignable inner setting check pattern then return some σ else return none :
            Eval (Option Substitution))
          (do if ← Eval.isAssignable inner' setting check pattern then return some σ
              else return none) := fun pattern =>
        restores_bind (restores_isAssignable hfresh check pattern) fun _ =>
          restores_ite (restores_pure _) (restores_pure _)
      refine restores_ite (restores_bind (restores_pure _) hcheck) ?_
      exact restores_instantiated hi _ _ hcheck

theorem restores_fit (check pattern : TypeId) (infer : List String) :
    Restores B (fit inner setting check pattern infer)
      (fit inner' setting check pattern infer) := by
  refine restores_ite (restores_bind (restores_pure _) ?_) (restores_bind (restores_lift _) ?_)
  · exact restores_fitBound hi hfresh check pattern
  · exact restores_fitBound hi hfresh check pattern

theorem restores_choose (t : TypeId) (c : Conditional) (check : TypeId) :
    Restores B (choose inner setting t c check) (choose inner' setting t c check) := by
  refine restores_bind (hi c.pattern) fun pattern => ?_
  refine restores_bind reports_store.restores fun s => ?_
  refine restores_ite (restores_lift _) ?_
  refine restores_bind (restores_fit hi hfresh _ _ _) fun σ => ?_
  cases σ with
  | some σ => exact restores_bind (restores_lift _) fun whenTrue => hi whenTrue
  | none => exact restores_falseBranch hi t c

theorem restores_conditional (t : TypeId) (c : Conditional) :
    Restores B (Eval.conditional inner setting t c) (Eval.conditional inner' setting t c) := by
  refine restores_bind (hi c.check) fun check => ?_
  refine restores_ite (restores_bothBranches hi c) (restores_ite (restores_pure _) ?_)
  refine restores_bind (reports_node check).restores fun n => ?_
  split
  · exact restores_perMember hi _ _
  · exact restores_choose hi hfresh t c check

theorem restores_node (t : TypeId) (n : Node) :
    Restores B (node inner setting t n) (node inner' setting t n) := by
  cases n with
  | error | intrinsic _ | literal _ | param _ => exact restores_pure _
  | union members => exact restores_bind (restores_mapM hi) fun members => restores_lift _
  | intersection members =>
      refine restores_bind (restores_mapM hi) fun members => ?_
      exact restores_bind (reports_origin t).restores fun site => restores_reporting _
  | object shape => exact restores_productively (restores_object hi t shape)
  | function shape => exact restores_productively (restores_function hi shape)
  | array element =>
      exact restores_bind (restores_productively (hi element)) fun t => restores_lift _
  | reference name args => exact restores_reference hi t name args
  | conditional c => exact restores_conditional hi hfresh t c
  | mapped m => exact restores_mapped hi m
  | indexAccess object key => exact restores_indexAccess hi t object key
  | template spans => exact restores_template hi spans
  | stringMap kind arg => exact restores_stringMap hi kind arg

end components

end Eval

end TypeResolution
