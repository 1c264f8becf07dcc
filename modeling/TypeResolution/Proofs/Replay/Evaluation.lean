import TypeResolution.Evaluation.Evaluate
import TypeResolution.Proofs.Replay.Assignability
import TypeResolution.Proofs.Replay.Inference

/-!
Evaluation follows, also in an environment that agrees on the aliases that can be reached. The
results of an evaluation therefore depend only on the types and the aliases that it can reach, and
evaluating again later gives the same types again.
-/

namespace TypeResolution.Replay

open Store Eval

variable {P : String → Prop} {L : Link} {s s' : Store} {t : TypeId} {ts : List TypeId}
  {inner inner' : TypeId → Eval TypeId}

section comparison

variable [Runs L Eval]

/-- Evaluating components follows from `s` on. -/
def Evaluates (L : Link) [Runs L Eval] (s : Store) (inner inner' : TypeId → Eval TypeId) : Prop :=
  ∀ s₁, s.Extends s₁ → ∀ t, s₁.Closed L.names t → Follows L s₁ (inner t) (inner' (L t))

theorem Evaluates.mono (h : Evaluates L s inner inner') (hs : s.Extends s') :
    Evaluates L s' inner inner' :=
  fun s₁ h₁ => h s₁ (hs.trans h₁)

/-- Asking for assignability follows from `s` on. -/
def Decides (L : Link) [Runs L Eval] (s : Store) (ask ask' : TypeId → TypeId → Eval Bool) : Prop :=
  ∀ s₁, s.Extends s₁ → ∀ source target, s₁.Closed L.names source → s₁.Closed L.names target →
    Follows L s₁ (ask source target) (ask' (L source) (L target))

theorem Decides.mono {ask ask' : TypeId → TypeId → Eval Bool} (h : Decides L s ask ask')
    (hs : s.Extends s') : Decides L s' ask ask' :=
  fun s₁ h₁ => h s₁ (hs.trans h₁)

/-- Reports, polls and the entering of objects, arrays and functions do not drive two runs apart. -/
class Steady (L : Link) [Runs L Eval] : Prop where
  report {s : Store} (d : Diagnostic) : Follows L s (Eval.report d) (Eval.report d)
  report_pure {s : Store} (hexact : ¬L.exact) (d : Diagnostic) :
    Follows L s (Eval.report d) (pure ())
  pure_report {s : Store} (hexact : ¬L.exact) (d : Diagnostic) :
    Follows L s (pure ()) (Eval.report d)
  poll {s : Store} : Follows L s poll poll
  productively {α : Type} [Paired L α] {s : Store} {step step' : Eval α} :
    Follows L s step step' → Follows L s (productively step) (productively step')

end comparison

section state

theorem follows_evalGet : Follows L s (get : Eval Evaluator) get :=
  fun _ _ h => Runs.pure ⟨.ok h, h⟩

theorem follows_modifyEvaluator {f f' : Evaluator → Evaluator}
    (h : ∀ e e', EvaluatorSame L s e e' → EvaluatorSame L s (f e) (f' e')) :
    Follows L s (modify f : Eval PUnit) (modify f') :=
  fun e e' he => Runs.pure ⟨.ok ⟨rfl, trivial⟩, h e e' he⟩

theorem follows_sameReport (d : Diagnostic) : Follows L s (Eval.report d) (Eval.report d) := by
  refine follows_modifyEvaluator fun e e' he => ?_
  by_cases hexact : L.exact
  · rw [he.diagnostics hexact]
    split
    · exact he
    · exact { he with diagnostics := fun _ => rfl }
  · split <;> split <;> exact { he with diagnostics := fun h => absurd h hexact }

theorem follows_evalReport_pure (hexact : ¬L.exact) (d : Diagnostic) :
    Follows L s (Eval.report d) (pure ()) := by
  intro e e' he
  refine Runs.pure ⟨.ok ⟨rfl, trivial⟩, ?_⟩
  dsimp only
  split
  · exact he
  · exact { he with diagnostics := fun h => absurd h hexact }

theorem follows_pure_evalReport (hexact : ¬L.exact) (d : Diagnostic) :
    Follows L s (pure ()) (Eval.report d) := by
  intro e e' he
  refine Runs.pure ⟨.ok ⟨rfl, trivial⟩, ?_⟩
  dsimp only
  split
  · exact he
  · exact { he with diagnostics := fun h => absurd h hexact }

theorem follows_poll : Follows L s poll poll := by
  refine Runs.bind follows_evalGet fun s₁ _ _ e e' he => ?_
  rw [he.patience]
  cases hp : e.patience with
  | none => exact pure_plain
  | some n =>
      have hL : ¬L.calm := fun h => by simp [he.calm h] at hp
      cases n with
      | zero => exact follows_throw hL
      | succ n =>
          exact follows_modifyEvaluator fun e e' he =>
            { he with patience := rfl, calm := fun h => absurd h hL }

theorem follows_between {α : Type} [Paired L α] {before after before' after' : Evaluator → Evaluator}
    {step step' : Eval α}
    (hbefore : ∀ s e e', EvaluatorSame L s e e' → EvaluatorSame L s (before e) (before' e'))
    (hafter : ∀ s e e', EvaluatorSame L s e e' → EvaluatorSame L s (after e) (after' e'))
    (h : Follows L s step step') :
    Follows L s (between before after step) (between before' after' step') := by
  intro e e' he
  refine Runs.bind (h _ _ (hbefore s e e' he)) fun s₁ _ _ a b hab => ?_
  exact Runs.pure ⟨hab.1, hafter s₁ a.2 b.2 hab.2⟩

theorem follows_productively {α : Type} [Paired L α] {step step' : Eval α}
    (h : Follows L s step step') : Follows L s (productively step) (productively step') :=
  follows_between (fun _ _ _ he => { he with productive := congrArg (· + 1) he.productive })
    (fun _ _ _ he => { he with productive := congrArg (· - 1) he.productive }) h

theorem follows_expanding {α : Type} [Paired L α] {step step' : Eval α} (name : String)
    (args : List TypeId) (h : Follows L s step step') :
    Follows L s (expanding name args step) (expanding name (args.map L) step') := by
  refine follows_between (fun _ e e' he => { he with frames := ?_ })
    (fun _ e e' he => { he with frames := ?_ }) h
  · rw [he.frames, he.productive]
    rfl
  · rw [he.frames, List.map_tail]

theorem follows_leaving {α : Type} [Paired L α] {step step' : Eval α} (t : TypeId)
    (h : Follows L s step step') : Follows L s (leaving t step) (leaving (L t) step') :=
  follows_between (fun _ _ _ he => he) (fun _ e _ he => { he with
    guard := (congrArg (·.leave (L t)) he.guard).trans
      (Recursion.Guard.leave_map L.rename.injective e.guard t) }) h

theorem follows_evalEnter (t : TypeId) : Follows L s (Eval.enter t) (Eval.enter (L t)) := by
  intro e e' he
  have hguard := Recursion.Guard.enter_map L.rename.injective e.guard t
  rw [← he.guard] at hguard
  have hrun : (Eval.enter (L t)).run e' = (pure (Except.ok (e.guard.enter t).1,
      { e' with guard := (e.guard.enter t).2.map L }) : Build _) := by
    change (pure (Except.ok (e'.guard.enter (L t)).1,
      { e' with guard := (e'.guard.enter (L t)).2 }) : Build _) = _
    rw [hguard]
  rw [hrun]
  exact Runs.pure ⟨.ok ⟨rfl, trivial⟩, { he with guard := rfl }⟩

theorem follows_remember {r : TypeId} (hr : s.Closed L.names r) :
    Follows L s (Eval.remember t r) (Eval.remember (L t) (L r)) :=
  follows_modifyEvaluator fun _ _ he => { he with cache := CacheSame.insert he.cache hr }

instance : Steady L where
  report := follows_sameReport
  report_pure := follows_evalReport_pure
  pure_report := follows_pure_evalReport
  poll := follows_poll
  productively := follows_productively

end state

section reports

variable [Runs L Eval]

theorem follows_evalOrigin (ht : s.Closed L.names t) :
    Follows L s (Eval.origin? t) (Eval.origin? (L t)) :=
  Runs.lift (follows_origin (p := .type t) ht)

variable [Steady L]

theorem follows_evalReport {d d' : Diagnostic} (hd : L.exact → d' = d) :
    Follows L s (Eval.report d) (Eval.report d') := by
  by_cases hexact : L.exact
  · rw [hd hexact]
    exact Steady.report d
  · rw [← bind_pure_unit (x := Eval.report d), ← pure_bind () fun _ => Eval.report d']
    exact bind_value (Steady.report_pure hexact d) fun s₁ _ _ _ _ => Steady.pure_report hexact d'

theorem follows_reportAll {ds ds' : Array Diagnostic} (hds : L.exact → ds' = ds) :
    Follows L s (reportAll ds) (reportAll ds') := by
  by_cases hexact : L.exact
  · rw [hds hexact]
    exact follows_arrayForM fun d _ _ => Steady.report d
  · exact follows_arrayForM_quiet (fun d _ => Steady.report_pure hexact d)
      fun d _ => Steady.pure_report hexact d

theorem follows_reporting {α : Type} [Value L.names α] {step step' : Reporting α}
    (h : Follows L s step step') : Follows L s (Eval.reporting step) (Eval.reporting step') := by
  have hstart : Same L s (#[] : Array Diagnostic) #[] := fun _ => rfl
  refine Runs.bind (Runs.lift (follows_run h hstart)) fun s₁ _ _ a b hab => ?_
  obtain ⟨a, ds⟩ := a
  obtain ⟨b, ds'⟩ := b
  obtain ⟨⟨rfl, ha⟩, hds⟩ := hab
  exact bind_value (follows_reportAll hds) fun s₂ h₂ _ _ _ => pure_value (Value.mono h₂ ha)

end reports

section nodes

variable {env env' : Environment} {options : Options} [Runs L Eval]

theorem follows_evalObject (hi : Evaluates L s inner inner') (ht : s.Closed L.names t)
    {o : ObjectShape} (ho : (Node.object o).Closed L.names s) :
    Follows L s (Eval.object inner t o) (Eval.object inner' (L t) (o.mapIds L)) := by
  refine bind_value (follows_mapM_map fun f hf s₁ h₁ => ?_) fun s₁ h₁ _ fields hfields => ?_
  · exact bind_value (hi s₁ h₁ _ (h₁.closed (closed_fieldType ho hf))) fun s₂ _ _ u hu =>
      pure_value (a := { f with type := u }) hu
  · refine bind_value (follows_optionMapM_map fun u hu =>
      hi s₁ h₁ u (h₁.closed (closed_stringIndex ho hu))) fun s₂ h₂ _ index hindex => ?_
    exact Runs.lift (follows_rebuildObject _ ⟨fields, index⟩ ((h₁.trans h₂).closed ht)
      (Value.mono h₂ hfields) hindex)

theorem follows_evalFunction (hi : Evaluates L s inner inner') {f : FunctionShape}
    (hf : (Node.function f).Closed L.names s) :
    Follows L s (Eval.function inner f) (Eval.function inner' (f.mapIds L)) := by
  have hpart : ∀ s₁, s.Extends s₁ → ∀ u ∈ (Node.function f).components,
      Follows L s₁ (inner u) (inner' (L u)) :=
    fun s₁ h₁ u hu => hi s₁ h₁ u (h₁.closed (hf.components u hu))
  refine bind_value (follows_mapM_map fun u hu s₁ h₁ => hpart s₁ h₁ u (List.mem_append_left _ hu))
    fun s₁ h₁ _ params hparams => ?_
  refine bind_value (hpart s₁ h₁ f.result (List.mem_append_right _ (by simp)))
    fun s₂ h₂ _ r hr => ?_
  exact Runs.lift (follows_function (Value.mono h₂ hparams) hr)

theorem ok_bindAll (ht : s.Closed P t) (names : List String) : Ok P s (bindAll names t) := by
  have hfold : ∀ (l : List String) (σ : Substitution), Ok P s σ →
      Ok P s (l.foldl (fun σ name => σ.insert name t) σ) := by
    intro l
    induction l with
    | nil => exact fun σ hσ => hσ
    | cons name rest ih => exact fun σ hσ => ih _ (ok_insertBinding hσ ht name)
  exact hfold names _ ok_emptySubstitution

theorem bindAll_mapIds (f : TypeId → TypeId) (names : List String) (t : TypeId) :
    bindAll names (f t) = (bindAll names t).mapIds f := by
  have hfold : ∀ (l : List String) (σ : Substitution),
      l.foldl (fun σ name => σ.insert name (f t)) (σ.mapIds f) =
        (l.foldl (fun σ name => σ.insert name t) σ).mapIds f := by
    intro l
    induction l with
    | nil => exact fun σ => rfl
    | cons name rest ih =>
        intro σ
        rw [List.foldl_cons, List.foldl_cons, ← ih, Substitution.insert_mapIds]
  exact hfold names .empty

omit [Runs L Eval] in
theorem bindAll_fixed (names : List String) {t : TypeId} (ht : t.isFixed) :
    bindAll names t = (bindAll names t).mapIds L := by
  rw [← bindAll_mapIds, L.rename.fixed ht]

/-- A type is instantiated and the result evaluated. -/
theorem follows_instantiateThen {α : Type} [Paired L α] (hi : Evaluates L s inner inner')
    {σ : Substitution} (hσ : Ok L.names s σ) (ht : s.Closed L.names t) {f f' : TypeId → Eval α}
    (hf : ∀ s₁, s.Extends s₁ → s₁.Formed → ∀ u, s₁.Closed L.names u →
      Follows L s₁ (f u) (f' (L u))) :
    Follows L s (do let u ← Build.instantiate σ t; let v ← inner u; f v : Eval α)
      (do let u ← Build.instantiate (σ.mapIds L) (L t); let v ← inner' u; f' v) := by
  refine bind_value (Runs.lift (follows_instantiate hσ ht)) fun s₁ h₁ _ u hu => ?_
  exact bind_value (hi s₁ h₁ u hu) fun s₂ h₂ hs₂ v hv => hf s₂ (h₁.trans h₂) hs₂ v hv

theorem follows_evalInstantiated (hi : Evaluates L s inner inner') {σ : Substitution}
    (hσ : Ok L.names s σ) (ht : s.Closed L.names t) :
    Follows L s (do let u ← Build.instantiate σ t; inner u : Eval TypeId)
      (do let u ← Build.instantiate (σ.mapIds L) (L t); inner' u) :=
  bind_value (Runs.lift (follows_instantiate hσ ht)) fun s₁ h₁ _ u hu => hi s₁ h₁ u hu

theorem follows_evalPerMember (hi : Evaluates L s inner inner')
    {place place' : TypeId → Build TypeId}
    (hplace : ∀ u ∈ ts, ∀ s₁, s.Extends s₁ → Follows L s₁ (place u) (place' (L u))) :
    Follows L s (Eval.perMember inner place ts) (Eval.perMember inner' place' (ts.map L)) := by
  refine bind_value (follows_mapM_map fun u hu s₁ h₁ => ?_) fun s₁ _ _ results hresults =>
    Runs.lift (follows_union hresults)
  exact bind_value (Runs.lift (hplace u hu s₁ h₁)) fun s₂ h₂ _ v hv => hi s₂ (h₁.trans h₂) v hv

theorem follows_bothBranches (hi : Evaluates L s inner inner') {c : Conditional}
    (hc : (Node.conditional c).Closed L.names s) :
    Follows L s (bothBranches inner c) (bothBranches inner' (c.mapIds L)) := by
  refine Runs.ofFormed fun hs => ?_
  have hunknown : Ok L.names s (bindAll c.infer .unknown) := ok_bindAll (hs.closed_fixed rfl) _
  have hfalse : s.Closed L.names c.whenFalse := hc.components _ (by simp [Node.components])
  have htrue := follows_instantiate hunknown
    (hc.components c.whenTrue (by simp [Node.components]))
  rw [← bindAll_fixed _ (t := .unknown) rfl] at htrue
  refine bind_value (Runs.lift htrue) fun s₁ h₁ _ u hu => ?_
  refine bind_value (hi s₁ h₁ u hu) fun s₂ h₂ _ v hv => ?_
  have h₁₂ := h₁.trans h₂
  refine bind_value (hi s₂ h₁₂ _ (h₁₂.closed hfalse)) fun s₃ h₃ _ w hw => ?_
  exact Runs.lift (follows_union (closed_pair (h₃.closed hv) hw))

theorem follows_fitBound (hi : Evaluates L s inner inner')
    (ha : Decides L s (isAssignable inner ⟨env, options⟩) (isAssignable inner' ⟨env', options⟩))
    {check pattern : TypeId} (hcheck : s.Closed L.names check) (hpattern : s.Closed L.names pattern)
    (o : Option Substitution) : Ok L.names s o →
    Follows L s
      (match o with
        | none => return none
        | some σ => do
            let pattern ←
              if σ.isEmpty then pure pattern
              else do
                let bound ← Build.instantiate σ pattern
                inner bound
            if ← Eval.isAssignable inner ⟨env, options⟩ check pattern then return some σ
            else return none : Eval (Option Substitution))
      (match o.map (·.mapIds L) with
        | none => return none
        | some σ => do
            let pattern ←
              if σ.isEmpty then pure (L pattern)
              else do
                let bound ← Build.instantiate σ (L pattern)
                inner' bound
            if ← Eval.isAssignable inner' ⟨env', options⟩ (L check) pattern then return some σ
            else return none) := by
  intro ho
  cases o with
  | none => exact pure_value (a := none) (by simp [Ok])
  | some σ =>
      have hσ : Ok L.names s σ := ho σ rfl
      have hanswer : ∀ s₁, s.Extends s₁ → ∀ u, s₁.Closed L.names u → Follows L s₁
          (do if ← Eval.isAssignable inner ⟨env, options⟩ check u then return some σ
              else return none)
          (do if ← Eval.isAssignable inner' ⟨env', options⟩ (L check) (L u) then
                return some (σ.mapIds L)
              else return none) := by
        intro s₁ h₁ u hu
        refine bind_value (ha s₁ h₁ _ _ (h₁.closed hcheck) hu) fun s₂ h₂ _ _ _ =>
          follows_ite (fun _ => pure_value (a := some σ) ?_) fun _ =>
            pure_value (a := none) (by simp [Ok])
        rintro _ ⟨⟩
        exact Value.mono (h₁.trans h₂) hσ
      simp only [Option.map_some, Substitution.isEmpty_mapIds]
      refine follows_ite (fun _ => ?_) fun _ => ?_
      · exact bind_value (pure_value hpattern) fun s₁ h₁ _ u hu => hanswer s₁ h₁ u hu
      · exact follows_instantiateThen hi hσ hpattern fun s₁ h₁ _ u hu => hanswer s₁ h₁ u hu

theorem follows_fit (henv : Agree L s env env') (hi : Evaluates L s inner inner')
    (ha : Decides L s (isAssignable inner ⟨env, options⟩) (isAssignable inner' ⟨env', options⟩))
    {check pattern : TypeId} {infer : List String} (hcheck : s.Closed L.names check)
    (hpattern : s.Closed L.names pattern) :
    Follows L s (fit inner ⟨env, options⟩ check pattern infer)
      (fit inner' ⟨env', options⟩ (L check) (L pattern) infer) := by
  unfold fit
  refine follows_ite (fun _ => ?_) fun _ => ?_
  · refine bind_value (pure_value (a := some Substitution.empty) ?_) fun s₁ h₁ _ o ho =>
      follows_fitBound (hi.mono h₁) (ha.mono h₁) (h₁.closed hcheck) (h₁.closed hpattern) o ho
    rintro _ ⟨⟩
    exact ok_emptySubstitution
  · exact bind_value (Runs.lift (follows_matchPattern henv hcheck hpattern)) fun s₁ h₁ _ o ho =>
      follows_fitBound (hi.mono h₁) (ha.mono h₁) (h₁.closed hcheck) (h₁.closed hpattern) o ho

theorem follows_falseBranch [Steady L] (hi : Evaluates L s inner inner') {c : Conditional}
    (ht : s.Closed L.names t) (hfalse : s.Closed L.names c.whenFalse) :
    Follows L s (falseBranch inner t c) (falseBranch inner' (L t) (c.mapIds L)) := by
  refine Runs.store fun s' hs' => ?_
  have hused : (c.mapIds L).infer.filter (s'.referencesParam · (c.mapIds L).whenFalse) =
      c.infer.filter (s.referencesParam · c.whenFalse) :=
    List.filter_congr fun name _ => hs'.hasFreeParam hfalse _
  simp only [hused]
  refine bind_value (follows_forM fun name _ s₁ _ => follows_evalReport fun hexact => ?_)
    fun s₁ h₁ hs₁ _ _ => ?_
  · rw [← hs'.origin_eq hexact (.type t) ht.known]
    rfl
  · have hbody := follows_evalInstantiated (hi.mono h₁)
      (ok_bindAll (hs₁.closed_fixed (t := .unknown) rfl) (c.infer.filter (s.referencesParam · c.whenFalse)))
      (h₁.closed hfalse)
    rw [← bindAll_fixed _ (t := .unknown) rfl] at hbody
    exact hbody

theorem follows_choose [Steady L] (henv : Agree L s env env')
    (hi : Evaluates L s inner inner')
    (ha : Decides L s (isAssignable inner ⟨env, options⟩) (isAssignable inner' ⟨env', options⟩))
    (ht : s.Closed L.names t) {c : Conditional} (hc : (Node.conditional c).Closed L.names s)
    {check : TypeId} (hcheck : s.Closed L.names check) :
    Follows L s (choose inner ⟨env, options⟩ t c check)
      (choose inner' ⟨env', options⟩ (L t) (c.mapIds L) (L check)) := by
  have hpart : ∀ u ∈ (Node.conditional c).components, s.Closed L.names u := hc.components
  simp only [Node.components, List.forall_mem_cons] at hpart
  obtain ⟨_, hpattern, htrue, hfalse, _⟩ := hpart
  refine bind_value (hi s (.refl s) c.pattern hpattern) fun s₁ h₁ _ pattern hpattern' => ?_
  refine Runs.store fun s' hs' => ?_
  have hcheck₁ := h₁.closed hcheck
  simp only [hs'.containsParams hcheck₁, containsParamsExcept, image_type,
    hs'.hasFreeParam hpattern']
  refine follows_ite (fun _ => ?_) fun _ => ?_
  · exact Runs.lift (follows_conditional (c := { c with check := check, pattern := pattern })
      hcheck₁ hpattern' (h₁.closed htrue) (h₁.closed hfalse))
  · refine bind_value (follows_fit (henv.mono h₁) (hi.mono h₁) (ha.mono h₁) hcheck₁ hpattern')
      fun s₂ h₂ _ o ho => ?_
    have h₁₂ := h₁.trans h₂
    cases o with
    | some σ => exact follows_evalInstantiated (hi.mono h₁₂) (ho σ rfl) (h₁₂.closed htrue)
    | none => exact follows_falseBranch (hi.mono h₁₂) (h₁₂.closed ht) (h₁₂.closed hfalse)

theorem follows_evalConditional [Steady L] (henv : Agree L s env env')
    (hi : Evaluates L s inner inner')
    (ha : Decides L s (isAssignable inner ⟨env, options⟩) (isAssignable inner' ⟨env', options⟩))
    (ht : s.Closed L.names t) {c : Conditional} (hc : (Node.conditional c).Closed L.names s) :
    Follows L s (Eval.conditional inner ⟨env, options⟩ t c)
      (Eval.conditional inner' ⟨env', options⟩ (L t) (c.mapIds L)) := by
  have hpart : ∀ u ∈ (Node.conditional c).components, s.Closed L.names u := hc.components
  simp only [Node.components, List.forall_mem_cons] at hpart
  obtain ⟨hcheck, hpattern, htrue, hfalse, _⟩ := hpart
  refine bind_value (hi s (.refl s) c.check hcheck) fun s₁ h₁ hs₁ check hcheck' => ?_
  refine follows_ite_iff (by simp) (fun _ => follows_bothBranches (hi.mono h₁) (h₁.closedNode hc))
    fun _ => ?_
  refine follows_ite_iff (by simp [Conditional.mapIds]) (fun _ => pure_fixed hs₁ rfl) fun _ => ?_
  refine bind_value (Runs.lift (follows_node hcheck')) fun s₂ h₂ _ n hn => ?_
  have h₁₂ := h₁.trans h₂
  have hchoose : Follows L s₂ (choose inner ⟨env, options⟩ t c check)
      (choose inner' ⟨env', options⟩ (L t) (c.mapIds L) (L check)) :=
    follows_choose (henv.mono h₁₂) (hi.mono h₁₂) (ha.mono h₁₂) (h₁₂.closed ht)
      (h₁₂.closedNode hc) (h₂.closed hcheck')
  have hdistributive : (c.mapIds L).distributive = c.distributive := rfl
  rw [hdistributive]
  cases hd : c.distributive with
  | false => exact hchoose
  | true =>
      cases n with
      | union members =>
          refine follows_evalPerMember (hi.mono h₁₂) fun u hu s₃ h₃ => ?_
          have h₁₃ := h₁₂.trans h₃
          exact follows_conditional (c := { c with check := u, distributive := true })
            (h₃.closed (hn.components u hu))
            (h₁₃.closed hpattern) (h₁₃.closed htrue) (h₁₃.closed hfalse)
      | _ => exact hchoose

instance : Value P MappedField where
  image f x := { x with field := x.field.mapIds f }
  Ok s x := s.Closed P x.field.type
  mono h hx := h.closed hx
  image_same _ := rfl

theorem follows_mappedName (hi : Evaluates L s inner inner') {m : Mapped}
    (hm : Ok L.names s m.nameType) {σ : Substitution} (hσ : Ok L.names s σ) (key : String) :
    Follows L s (mappedName inner m σ key)
      (mappedName inner' (m.mapIds L) (σ.mapIds L) key) := by
  have hplain : ∀ (s₁ : Store) (o : Option String), Follows L s₁ (pure o : Eval _) (pure o) :=
    fun s₁ o => Runs.pure ⟨(Option.map_id_apply).symm, fun _ _ => trivial⟩
  have hnameType : (m.mapIds L).nameType = m.nameType.map L := rfl
  unfold mappedName
  rw [hnameType]
  cases hname : m.nameType with
  | none => exact hplain s _
  | some u =>
      refine follows_instantiateThen hi hσ (hm u hname) fun s₁ _ _ v hv => ?_
      refine follows_ite_iff L.rename.eq_never (fun _ => hplain s₁ _) fun _ => ?_
      refine Runs.store fun s' hs' => ?_
      rw [hs'.stringLiteral? hv]
      exact hplain s₁ _

theorem follows_keeps (hi : Evaluates L s inner inner') {m : Mapped}
    (hm : Ok L.names s m.keyFilter) {σ : Substitution} (hσ : Ok L.names s σ) :
    Follows L s (keeps inner m σ) (keeps inner' (m.mapIds L) (σ.mapIds L)) := by
  have hkeyFilter : (m.mapIds L).keyFilter = m.keyFilter.map L := rfl
  unfold keeps
  rw [hkeyFilter]
  cases hfilter : m.keyFilter with
  | none => exact pure_plain
  | some u =>
      refine follows_instantiateThen hi hσ (hm u hfilter) fun s₁ _ _ v _ => ?_
      simp only [ne_eq, L.rename.eq_never]
      exact pure_plain

theorem follows_mapField [Steady L] (hi : Evaluates L s inner inner') {m : Mapped}
    (hm : (Node.mapped m).Closed L.names s) (f : Field) :
    Follows L s (mapField inner m f) (mapField inner' (m.mapIds L) (f.mapIds L)) := by
  obtain ⟨_, hfilter, htemplate, hname⟩ := closed_mapped hm
  refine bind_value Steady.poll fun s₁ h₁ _ _ _ => ?_
  refine bind_value (Runs.lift (follows_stringLiteral f.name)) fun s₂ h₂ _ key hkey => ?_
  have h₁₂ := h₁.trans h₂
  have hσ : Ok L.names s₂ (Substitution.empty.insert m.keyParam key) :=
    ok_insertBinding ok_emptySubstitution hkey _
  have hinsert : (Substitution.empty.insert m.keyParam key).mapIds L =
      Substitution.empty.insert (m.mapIds L).keyParam (L key) :=
    (Substitution.insert_mapIds ..).symm
  have hkeeps := follows_keeps (hi.mono h₁₂) (Value.mono h₁₂ hfilter) hσ
  rw [hinsert] at hkeeps
  refine bind_value hkeeps fun s₃ h₃ _ keep _ => ?_
  have h₁₃ := h₁₂.trans h₃
  have hσ₃ := Value.mono h₃ hσ
  have hdropped : ∀ s₄, Follows L s₄ (pure none : Eval (Option MappedField)) (pure none) :=
    fun s₄ => pure_value (a := none) (by simp [Ok])
  refine follows_ite (fun _ => ?_) fun _ => hdropped s₃
  have hmappedName := follows_mappedName (hi.mono h₁₃) (Value.mono h₁₃ hname) hσ₃ f.name
  rw [hinsert] at hmappedName
  refine bind_value hmappedName fun s₄ h₄ _ o _ => ?_
  cases o with
  | none => exact hdropped s₄
  | some name =>
      let field (u : TypeId) : MappedField := ⟨⟨name, u, Modifier.apply m.optional f.optional,
        Modifier.apply m.readonly f.readonly⟩, f.name⟩
      rw [image_type, ← hinsert]
      refine follows_instantiateThen (hi.mono (h₁₃.trans h₄)) (Value.mono h₄ hσ₃)
        ((h₁₃.trans h₄).closed htemplate) fun s₅ _ _ u hu => pure_value (a := some (field u)) ?_
      rintro _ ⟨⟩
      exact hu

theorem ok_putMapped {new : MappedField} (hnew : Ok P s new) {done : List MappedField}
    (hdone : Ok P s done) : Ok P s (putMapped new done) := by
  induction done with
  | nil => simpa [putMapped, Ok] using hnew
  | cons old rest ih =>
      obtain ⟨hold, hrest⟩ := List.forall_mem_cons.mp hdone
      unfold putMapped
      split
      · exact List.forall_mem_cons.mpr ⟨hnew, hrest⟩
      · exact List.forall_mem_cons.mpr ⟨hold, ih hrest⟩

theorem putMapped_map (f : TypeId → TypeId) (new : MappedField) (done : List MappedField) :
    putMapped { new with field := new.field.mapIds f }
        (done.map fun x => { x with field := x.field.mapIds f }) =
      (putMapped new done).map fun x => { x with field := x.field.mapIds f } := by
  induction done with
  | nil => rfl
  | cons old rest ih =>
      simp only [List.map_cons, putMapped, Field.mapIds]
      split
      · rfl
      · exact congrArg _ ih

theorem follows_reportCollision [Steady L] {source : TypeId} (hsource : s.Closed L.names source)
    (first second name : String) :
    Follows L s (reportCollision source first second name)
      (reportCollision (L source) first second name) := by
  refine Runs.store fun s' hs' => ?_
  by_cases hexact : L.exact
  · have horigin : ∀ name, s'.origin? (.field (L source) name) = s.origin? (.field source name) :=
      fun name => hs'.origin_eq hexact (.field source name) hsource.known
    simp only [horigin]
    cases s.origin? (.field source first) <;> exact follows_evalReport fun _ => rfl
  · dsimp only
    cases s.origin? (.field source first) <;> cases s'.origin? (.field (L source) first) <;>
      exact follows_evalReport fun h => absurd h hexact

theorem follows_mapFields [Steady L] (hi : Evaluates L s inner inner') {m : Mapped}
    (hm : (Node.mapped m).Closed L.names s) {source : TypeId} (hsource : s.Closed L.names source)
    (fields : List Field) (done : List MappedField) (hdone : Ok L.names s done) :
    Follows L s (mapFields inner m source fields done)
      (mapFields inner' (m.mapIds L) (L source) (fields.map (·.mapIds L)) (L.image done)) := by
  induction fields generalizing s done with
  | nil => exact pure_value hdone
  | cons f rest ih =>
      refine bind_value (follows_mapField hi hm f) fun s₁ h₁ _ o ho => ?_
      have hdone₁ := Value.mono h₁ hdone
      cases o with
      | none => exact ih (hi.mono h₁) (h₁.closedNode hm) (h₁.closed hsource) _ hdone₁
      | some new =>
          have hnext : ∀ s₂, s₁.Extends s₂ → Follows L s₂
              (mapFields inner m source rest (putMapped new done))
              (mapFields inner' (m.mapIds L) (L source) (rest.map (·.mapIds L))
                (putMapped (L.image new) (L.image done))) := by
            intro s₂ h₂
            have hput : putMapped (L.image new) (L.image done) = L.image (putMapped new done) :=
              putMapped_map L new done
            rw [hput]
            exact ih (hi.mono (h₁.trans h₂)) ((h₁.trans h₂).closedNode hm)
              ((h₁.trans h₂).closed hsource) _ (Value.mono h₂ (ok_putMapped (ho new rfl) hdone₁))
          have hfind : (L.image done).find? (·.field.name = (L.image new).field.name) =
              (done.find? (·.field.name = new.field.name)).map L.image := by
            change (done.map L.image).find? _ = _
            rw [List.find?_map]
            rfl
          have himage : L.image (some new) = some (L.image new) := rfl
          rw [himage]
          dsimp only
          rw [hfind]
          cases done.find? (·.field.name = new.field.name) with
          | none => exact hnext s₁ (.refl _)
          | some old =>
              exact bind_value (follows_reportCollision (h₁.closed hsource) _ _ _)
                fun s₂ h₂ _ _ _ => hnext s₂ h₂

theorem follows_copyMappedOrigin {source result : TypeId} (hsource : s.Closed L.names source)
    (hresult : s.Closed L.names result) (f : MappedField) :
    Follows L s
      (do
        if let some tag ← Build.origin? (.field source f.key) then
          Build.recordOrigin (.field result f.field.name) tag : Eval PUnit)
      (do
        if let some tag ← Build.origin? (.field (L source) f.key) then
          Build.recordOrigin (.field (L result) f.field.name) tag) := by
  refine Runs.bind (Runs.lift (follows_origin (p := .field source f.key) hsource))
    fun s₁ h₁ _ o o' ho => ?_
  have hfound := Runs.lift (M := Eval) (follows_recordFound (p := .field result f.field.name)
    (h₁.closed hresult) ho)
  cases o <;> cases o' <;> exact hfound

theorem follows_mapObject [Steady L] (hi : Evaluates L s inner inner') {m : Mapped}
    (hm : (Node.mapped m).Closed L.names s) {source : TypeId} (hsource : s.Closed L.names source)
    (o : ObjectShape) :
    Follows L s (mapObject inner m source o)
      (mapObject inner' (m.mapIds L) (L source) (o.mapIds L)) := by
  have hmade : ∀ s₁, s.Extends s₁ → ∀ fields : List MappedField, Ok L.names s₁ fields →
      ∀ index : Option TypeId, Ok L.names s₁ index → Follows L s₁
        (do
          let result ← Build.object ⟨fields.map (·.field), index⟩
          fields.forM fun f => do
            if let some tag ← Build.origin? (.field source f.key) then
              Build.recordOrigin (.field result f.field.name) tag
          return result : Eval TypeId)
        (do
          let result ← Build.object ⟨(L.image fields).map (·.field), L.image index⟩
          (L.image fields).forM fun f => do
            if let some tag ← Build.origin? (.field (L source) f.key) then
              Build.recordOrigin (.field result f.field.name) tag
          return result) := by
    intro s₁ h₁ fields hfields index hindex
    have hobject : (⟨(L.image fields).map (·.field), L.image index⟩ : ObjectShape) =
        (⟨fields.map (·.field), index⟩ : ObjectShape).mapIds L := by
      change (⟨(fields.map L.image).map (·.field), _⟩ : ObjectShape) = _
      rw [ObjectShape.mapIds, List.map_map, List.map_map]
      rfl
    rw [hobject]
    refine bind_value (Runs.lift (follows_object (fun f hf => ?_) hindex)) fun s₂ h₂ _ u hu => ?_
    · obtain ⟨g, hg, rfl⟩ := List.mem_map.mp hf
      exact hfields g hg
    · refine bind_value (follows_forM_map (g := L.image) fun f _ s₃ h₃ => ?_)
        fun s₃ h₃ _ _ _ => pure_value (h₃.closed hu)
      exact follows_copyMappedOrigin (((h₁.trans h₂).trans h₃).closed hsource) (h₃.closed hu) f
  refine bind_value (follows_mapFields hi hm hsource o.fields [] (by simp [Ok]))
    fun s₁ h₁ hs₁ fields hfields => ?_
  refine follows_ite_iff (by simp [ObjectShape.mapIds, Mapped.mapIds]) (fun _ => ?_) fun _ => ?_
  · have hinsert : (Substitution.empty.insert m.keyParam .string).mapIds L =
        Substitution.empty.insert (m.mapIds L).keyParam .string := by
      rw [← Substitution.insert_mapIds, L.rename.fixed rfl]
      rfl
    rw [← hinsert]
    refine follows_instantiateThen (hi.mono h₁)
      (ok_insertBinding ok_emptySubstitution (hs₁.closed_fixed rfl) m.keyParam)
      (h₁.closed (closed_mapped hm).2.2.1) fun s₂ h₂ _ u hu => ?_
    refine bind_value (pure_value (a := some u) ?_) fun s₃ h₃ _ index hindex => ?_
    · rintro _ ⟨⟩
      exact hu
    · exact hmade s₃ ((h₁.trans h₂).trans h₃) fields (Value.mono (h₂.trans h₃) hfields) index hindex
  · refine bind_value (pure_value (a := none) (by simp [Ok])) fun s₂ h₂ _ index hindex => ?_
    exact hmade s₂ (h₁.trans h₂) fields (Value.mono h₂ hfields) index hindex

theorem follows_evalMapped [Steady L] (hi : Evaluates L s inner inner') {m : Mapped}
    (hm : (Node.mapped m).Closed L.names s) :
    Follows L s (Eval.mapped inner m) (Eval.mapped inner' (m.mapIds L)) := by
  obtain ⟨hsource, hfilter, htemplate, hname⟩ := closed_mapped hm
  refine bind_value (hi s (.refl s) _ hsource) fun s₁ h₁ _ source hsource' => ?_
  refine bind_value (Runs.lift (follows_node hsource')) fun s₂ h₂ _ n hn => ?_
  have h₁₂ := h₁.trans h₂
  have hsource₂ := h₂.closed hsource'
  have hkeep : ∀ s₃, s₂.Extends s₃ → ∀ u, s₃.Closed L.names u → Follows L s₃
      (Build.mapped { m with source := u })
      (Build.mapped { m.mapIds L with source := L u }) := by
    intro s₃ h₃ u hu
    have h₁₃ := h₁₂.trans h₃
    exact follows_mapped (m := { m with source := u }) hu (Value.mono h₁₃ hfilter) (h₁₃.closed htemplate) (Value.mono h₁₃ hname)
  cases n with
  | union members =>
      exact follows_evalPerMember (hi.mono h₁₂) fun u hu s₃ h₃ =>
        hkeep s₃ h₃ u (h₃.closed (hn.components u hu))
  | object shape => exact follows_mapObject (hi.mono h₁₂) (h₁₂.closedNode hm) hsource₂ shape
  | intrinsic | literal | array | function | error => exact pure_value hsource₂
  | _ => exact Runs.lift (hkeep s₂ (.refl _) _ hsource₂)

theorem follows_deferAccess (hs : s.Formed) {open_ : Bool} {object key : TypeId}
    (hobject : s.Closed L.names object) (hkey : s.Closed L.names key) :
    Follows L s (deferAccess open_ object key) (deferAccess open_ (L object) (L key)) :=
  follows_ite (fun _ => Runs.lift (follows_indexAccess hobject hkey)) fun _ => pure_fixed hs rfl

theorem closed_fieldOf (hs : s.Formed) {o : ObjectShape} (ho : (Node.object o).Closed P s)
    (name : String) : s.Closed P (fieldType o name) := by
  unfold fieldType
  cases hfind : o.find? name with
  | some f => exact closed_fieldType ho (List.mem_of_find?_eq_some hfind)
  | none =>
      cases hindex : o.stringIndex with
      | some u => exact closed_stringIndex ho hindex
      | none => exact hs.closed_fixed rfl

theorem fieldType_map (f : Renaming) (o : ObjectShape) (name : String) :
    fieldType (o.mapIds f) name = f (fieldType o name) := by
  unfold fieldType
  rw [ObjectShape.find?_mapIds, ObjectShape.mapIds]
  cases o.find? name with
  | some x => rfl
  | none =>
      cases o.stringIndex with
      | some u => rfl
      | none => exact (f.fixed rfl).symm

theorem follows_accessKey [Steady L] (hi : Evaluates L s inner inner') (ht : s.Closed L.names t)
    {object key : TypeId}
    (hobject : s.Closed L.names object) (hkey : s.Closed L.names key) :
    Follows L s (accessKey inner t object key) (accessKey inner' (L t) (L object) (L key)) := by
  refine Runs.ofFormed fun hs => ?_
  refine Runs.store fun s' hs' => ?_
  simp only [hs'.node hobject, hs'.node hkey, hs'.containsParams hobject, hs'.containsParams hkey]
  have hm := hobject.node
  have hdefer : ∀ open_,
      Follows L s (deferAccess open_ object key) (deferAccess open_ (L object) (L key)) :=
    fun _ => follows_deferAccess hs hobject hkey
  have hunknown : Follows L s (pure .unknown : Eval TypeId) (pure .unknown) := pure_fixed hs rfl
  cases hn : s.node object with
  | union members =>
      rw [hn] at hm
      exact follows_evalPerMember hi fun u hu s₁ h₁ =>
        follows_indexAccess (h₁.closed (hm.components u hu)) (h₁.closed hkey)
  | intersection members =>
      rw [hn] at hm
      have hknown :
          Follows L s (knownMembers inner members key)
            (knownMembers inner' (members.map L) (L key)) := by
        refine bind_value (follows_mapM_map fun u hu s₁ h₁ => ?_) fun s₁ _ _ found hfound => ?_
        · refine bind_value (Runs.lift (follows_indexAccess (h₁.closed (hm.components u hu))
            (h₁.closed hkey))) fun s₂ h₂ _ v hv => hi s₂ (h₁.trans h₂) v hv
        · rw [image_types, TypeId.filter_map_ne_fixed L.rename (c := .unknown) rfl]
          exact pure_value fun u hu => hfound u (List.mem_of_mem_filter hu)
      refine bind_value hknown fun s₁ h₁ hs₁ found hfound => ?_
      refine follows_ite_iff (by simp) (fun _ => pure_fixed hs₁ rfl) fun _ => ?_
      refine Runs.bind (follows_evalOrigin (h₁.closed ht)) fun s₂ h₂ _ _ _ hsite => ?_
      exact follows_reporting (follows_intersection hsite (Value.mono h₂ hfound))
  | object shape =>
      rw [hn] at hm
      cases s.node key with
      | literal value =>
          cases value with
          | string name =>
              have hfield := pure_value (L := L) (M := Eval) (a := fieldType shape name)
                (closed_fieldOf hs hm name)
              rw [image_type, ← fieldType_map] at hfield
              exact hfield
          | _ => exact hdefer _
      | intrinsic kind =>
          cases kind with
          | string =>
              simp only [Node.mapIds, ObjectShape.mapIds]
              cases hindex : shape.stringIndex with
              | none => exact hunknown
              | some u => exact pure_value (closed_stringIndex hm hindex)
          | _ => exact hdefer _
      | _ => exact hdefer _
  | array element =>
      rw [hn] at hm
      have helement : s.Closed L.names element := hm.components _ (by simp [Node.components])
      cases s.node key with
      | literal value =>
          cases value with
          | string name =>
              exact follows_ite (fun _ => pure_fixed hs rfl) fun _ => hunknown
          | number _ => exact pure_value helement
          | _ => exact hdefer _
      | intrinsic kind =>
          cases kind with
          | number => exact pure_value helement
          | _ => exact hdefer _
      | _ => exact hdefer _
  | _ => exact hdefer _

theorem follows_evalIndexAccess [Steady L] (hi : Evaluates L s inner inner')
    (ht : s.Closed L.names t) {object key : TypeId} (hobject : s.Closed L.names object) (hkey : s.Closed L.names key) :
    Follows L s (Eval.indexAccess inner t object key)
      (Eval.indexAccess inner' (L t) (L object) (L key)) := by
  refine bind_value (hi s (.refl s) _ hobject) fun s₁ h₁ _ object' hobject' => ?_
  refine bind_value (hi s₁ h₁ _ (h₁.closed hkey)) fun s₂ h₂ hs₂ key' hkey' => ?_
  refine follows_ite_iff (by simp) (fun _ => pure_fixed hs₂ rfl) fun _ => ?_
  refine follows_ite_iff (by simp) (fun _ => pure_fixed hs₂ rfl) fun _ => ?_
  refine bind_value (Runs.lift (follows_node hkey')) fun s₃ h₃ _ n hn => ?_
  have hi₃ := hi.mono ((h₁.trans h₂).trans h₃)
  have hobject₃ := (h₂.trans h₃).closed hobject'
  cases n with
  | union keys =>
      exact follows_evalPerMember hi₃ fun u hu s₄ h₄ =>
        follows_indexAccess (h₄.closed hobject₃) (h₄.closed (hn.components u hu))
  | _ =>
      exact follows_accessKey hi₃ (((h₁.trans h₂).trans h₃).closed ht) hobject₃ (h₃.closed hkey')

instance : Value P (List Span × Option (List String)) where
  image f x := (x.1.map (·.mapIds f), x.2)
  Ok s x := Ok P s x.1
  mono h hx := Value.mono (α := List Span) h hx
  image_same x := congrArg (·, x.2) (Value.image_same (P := P) x.1)

theorem follows_evaluateSpans (hi : Evaluates L s inner inner') {spans : List Span}
    (hspans : Ok L.names s spans) (texts : Option (List String)) :
    Follows L s (evaluateSpans inner spans texts)
      (evaluateSpans inner' (spans.map (·.mapIds L)) texts) := by
  have hmap : ∀ (s₁ : Store) (span : Span), Ok L.names s₁ span →
      ∀ o : Option (List Span × Option (List String)), Ok L.names s₁ o → Follows L s₁
        (pure (o.map fun x => (span :: x.1, x.2)) : Eval _)
        (pure ((L.image o).map fun x => (span.mapIds L :: x.1, x.2))) := by
    intro s₁ span hspan o ho
    have himage : (L.image o).map (fun x => (span.mapIds L :: x.1, x.2)) =
        L.image (o.map fun x => (span :: x.1, x.2)) := by
      cases o <;> rfl
    rw [himage]
    refine pure_value ?_
    cases o with
    | none => simp [Ok]
    | some x =>
        rintro _ ⟨⟩
        exact List.forall_mem_cons.mpr ⟨hspan, ho x rfl⟩
  induction spans generalizing s texts with
  | nil =>
      refine pure_value (a := some ([], texts)) ?_
      rintro _ ⟨⟩
      exact hspans
  | cons span rest ih =>
      obtain ⟨hspan, hrest⟩ := List.forall_mem_cons.mp hspans
      cases span with
      | text a =>
          exact bind_value (ih hi hrest _) fun s₁ h₁ _ o ho =>
            hmap s₁ (.text a) (Value.mono h₁ hspan) o ho
      | hole u =>
          refine bind_value (hi s (.refl s) u (hspan u rfl)) fun s₁ h₁ hs₁ v hv => ?_
          refine follows_ite_iff L.rename.eq_never
            (fun _ => pure_value (a := none) (by simp [Ok])) fun _ => ?_
          refine Runs.store fun s' hs' => ?_
          rw [image_type, Template.literalTexts_mirror hs' hs₁ hv]
          refine bind_value (ih (hi.mono h₁) (Value.mono h₁ hrest) _) fun s₂ h₂ _ o ho => ?_
          refine hmap s₂ (.hole v) ?_ o ho
          rintro _ ⟨⟩
          exact h₂.closed hv

theorem follows_evalTemplate (hi : Evaluates L s inner inner') {spans : List Span}
    (hspans : Ok L.names s spans) :
    Follows L s (Eval.template inner spans) (Eval.template inner' (spans.map (·.mapIds L))) := by
  refine bind_value (follows_evaluateSpans hi hspans _) fun s₁ _ hs₁ o ho => ?_
  cases o with
  | none => exact pure_fixed hs₁ rfl
  | some x =>
      obtain ⟨spans', texts⟩ := x
      have hkeep := Runs.lift (M := Eval) (follows_template (ho _ rfl))
      cases texts with
      | none => exact hkeep
      | some texts =>
          refine follows_ite (fun _ => ?_) fun _ => hkeep
          exact bind_value (follows_mapM fun text _ s₂ _ => Runs.lift (follows_stringLiteral text))
            fun s₂ _ _ us hus => Runs.lift (follows_union hus)

theorem follows_evalStringMap (hi : Evaluates L s inner inner') {kind : StringMap}
    (ht : s.Closed L.names t) :
    Follows L s (Eval.stringMap inner kind t) (Eval.stringMap inner' kind (L t)) := by
  refine bind_value (hi s (.refl s) t ht) fun s₁ h₁ _ u hu => ?_
  refine bind_value (Runs.lift (follows_node hu)) fun s₂ h₂ _ n hn => ?_
  have hu₂ := h₂.closed hu
  have hkeep : Follows L s₂
      (if u = .never || u = .any then return u else Build.stringMap kind u : Eval TypeId)
      (if L u = .never || L u = .any then return L u else Build.stringMap kind (L u)) :=
    follows_ite_iff (by simp) (fun _ => pure_value hu₂) fun _ => Runs.lift (follows_stringMap kind hu₂)
  cases n with
  | literal value =>
      cases value with
      | string text => exact Runs.lift (follows_stringLiteral _)
      | _ => exact hkeep
  | union members =>
      exact follows_evalPerMember (hi.mono (h₁.trans h₂)) fun v hv s₃ h₃ =>
        follows_stringMap kind (h₃.closed (hn.components v hv))
  | _ => exact hkeep

/-- The evaluation of a node follows when that of its components, of references and the answers to
questions of assignability do. -/
theorem follows_evalNode [Steady L] (henv : Agree L s env env')
    (hi : Evaluates L s inner inner')
    (ha : Decides L s (isAssignable inner ⟨env, options⟩) (isAssignable inner' ⟨env', options⟩))
    (ht : s.Closed L.names t) {n : Node} (hn : n.Closed L.names s)
    (href : ∀ name args, n = .reference name args →
      Follows L s (Eval.reference inner ⟨env, options⟩ t name args)
        (Eval.reference inner' ⟨env', options⟩ (L t) name (args.map L))) :
    Follows L s (Eval.node inner ⟨env, options⟩ t n)
      (Eval.node inner' ⟨env', options⟩ (L t) (n.mapIds L)) := by
  have hpart : ∀ s₁, s.Extends s₁ → ∀ u ∈ n.components, Follows L s₁ (inner u) (inner' (L u)) :=
    fun s₁ h₁ u hu => hi s₁ h₁ u (h₁.closed (hn.components u hu))
  cases n with
  | error | intrinsic | literal | param => exact pure_value ht
  | union members =>
      exact bind_value (follows_mapM_map fun u hu s₁ h₁ => hpart s₁ h₁ u hu) fun s₁ _ _ us hus =>
        Runs.lift (follows_union hus)
  | intersection members =>
      refine bind_value (follows_mapM_map fun u hu s₁ h₁ => hpart s₁ h₁ u hu)
        fun s₁ h₁ _ us hus => ?_
      refine Runs.bind (follows_evalOrigin (h₁.closed ht)) fun s₂ h₂ _ _ _ hsite => ?_
      exact follows_reporting (follows_intersection hsite (Value.mono h₂ hus))
  | object shape => exact Steady.productively (follows_evalObject hi ht hn)
  | function shape => exact Steady.productively (follows_evalFunction hi hn)
  | array element =>
      exact bind_value (Steady.productively (hpart s (.refl s) element (by simp [Node.components])))
        fun s₁ _ _ u hu => Runs.lift (follows_array hu)
  | reference name args => exact href name args rfl
  | conditional c => exact follows_evalConditional henv hi ha ht hn
  | mapped m => exact follows_evalMapped hi hn
  | indexAccess object key =>
      exact follows_evalIndexAccess hi ht (hn.components _ (by simp [Node.components]))
        (hn.components _ (by simp [Node.components]))
  | template spans =>
      refine follows_evalTemplate hi fun span hspan u hu => hn.components u ?_
      exact List.mem_filterMap.mpr ⟨span, hspan, by rw [hu]⟩
  | stringMap kind arg =>
      exact follows_evalStringMap hi (hn.components _ (by simp [Node.components]))

end nodes

section guards

variable {env env' : Environment} {options : Options}

theorem follows_evalDepthExceeded (ht : s.Closed L.names t) :
    Follows L s (Eval.reportDepthExceeded t) (Eval.reportDepthExceeded (L t)) := by
  refine Runs.bind follows_evalGet fun s₁ h₁ _ e e' he => ?_
  rw [he.depthReported]
  refine follows_ite (fun _ => pure_plain) fun _ => ?_
  refine bind_value (follows_modifyEvaluator fun _ _ he => { he with depthReported := rfl })
    fun s₂ h₂ _ _ _ => ?_
  refine Runs.bind follows_evalGet fun s₃ h₃ _ e e' he => ?_
  refine Runs.bind (follows_evalOrigin (((h₁.trans h₂).trans h₃).closed ht))
    fun s₄ _ _ site site' hsite => follows_evalReport fun hexact => ?_
  rw [hsite hexact, he.guard]
  rfl

theorem follows_reenterAlias {frame : Frame} {site site' : Option SourceTag}
    (hsite : L.exact → site' = site) (ht : s.Closed L.names t) :
    Follows L s (reenterAlias frame t site) (reenterAlias (frame.mapIds L) (L t) site') := by
  refine Runs.bind follows_evalGet fun s₁ h₁ hs₁ e e' he => ?_
  rw [he.productive, he.reportedCycles]
  refine follows_ite (fun _ => pure_value (h₁.closed ht)) fun _ => ?_
  refine follows_ite (fun _ => pure_fixed hs₁ rfl) fun _ => ?_
  refine bind_value (follows_modifyEvaluator fun e e' he => ?_) fun s₂ _ _ _ _ => ?_
  · exact { he with reportedCycles := congrArg (frame.name :: ·) he.reportedCycles }
  · refine bind_value (follows_evalReport fun hexact => ?_) fun s₃ _ hs₃ _ _ => pure_fixed hs₃ rfl
    rw [hsite hexact]
    rfl

theorem follows_reenterCycle (henv : Agree L s env env') (ht : s.Closed L.names t) :
    Follows L s (reenterCycle ⟨env, options⟩ t) (reenterCycle ⟨env', options⟩ (L t)) := by
  refine bind_value (Runs.lift (follows_node ht)) fun s₁ h₁ _ n hn => ?_
  cases n with
  | reference name args =>
      refine Runs.bind follows_evalGet fun s₂ h₂ _ e e' he => ?_
      have ht₂ := (h₁.trans h₂).closed ht
      have hfind : e'.frames.find? (·.name = name) =
          (e.frames.find? (·.name = name)).map (·.mapIds L) := by
        rw [he.frames, List.find?_map]
        rfl
      rw [hfind]
      cases e.frames.find? (·.name = name) with
      | none => exact pure_value ht₂
      | some frame =>
          refine Runs.bind (follows_evalOrigin ht₂) fun s₃ h₃ _ _ _ hsite => ?_
          refine follows_reenterAlias (fun hexact => ?_) (h₃.closed ht₂)
          rw [hsite hexact, henv.get_eq name (hn.names name args rfl)]
          cases env.get? name <;> rfl
  | _ => exact pure_value (h₁.closed ht)

theorem find?_frames {e e' : Evaluator} (he : EvaluatorSame L s e e') (name : String)
    (args : List TypeId) :
    e'.frames.find? (fun f => f.name = name && f.args = args.map L) =
      (e.frames.find? fun f => f.name = name && f.args = args).map (·.mapIds L) := by
  rw [he.frames, List.find?_map]
  refine congrArg _ (congrArg (List.find? · _) (funext fun f => ?_))
  have hargs := (List.map_injective_iff.mpr L.rename.injective).eq_iff (a := f.args) (b := args)
  simp only [Function.comp_apply, Frame.mapIds, hargs]

theorem follows_evalReference (henv : Agree L s env env') (hi : Evaluates L s inner inner')
    (ht : s.Closed L.names t) {name : String} (hname : L.names name)
    (hts : ∀ t ∈ ts, s.Closed L.names t) :
    Follows L s (Eval.reference inner ⟨env, options⟩ t name ts)
      (Eval.reference inner' ⟨env', options⟩ (L t) name (ts.map L)) := by
  unfold Eval.reference
  simp only [henv.get_eq name hname]
  cases ha : env.get? name with
  | none =>
      refine Runs.bind (follows_evalOrigin ht) fun s₁ _ _ _ _ hsite => ?_
      refine bind_value (follows_evalReport fun hexact => ?_) fun s₂ _ hs₂ _ _ => pure_fixed hs₂ rfl
      rw [hsite hexact]
  | some a =>
      refine bind_value (follows_mapM_map fun u hu s₁ h₁ => hi s₁ h₁ u (h₁.closed (hts u hu)))
        fun s₁ h₁ _ args hargs => ?_
      refine Runs.bind follows_evalGet fun s₂ h₂ hs₂ e e' he => ?_
      have hargs₂ : ∀ u ∈ args, s₂.Closed L.names u := Value.mono h₂ hargs
      rw [image_types, find?_frames he]
      cases e.frames.find? fun f => f.name = name && f.args = args with
      | some frame =>
          refine bind_value (Runs.lift (follows_reference hname hargs₂)) fun s₃ h₃ _ lazy hlazy => ?_
          refine Runs.bind (follows_evalOrigin (((h₁.trans h₂).trans h₃).closed ht))
            fun s₄ h₄ _ _ _ hsite => follows_reenterAlias (fun hexact => ?_) (h₄.closed hlazy)
          rw [hsite hexact]
          rfl
      | none =>
          have henv₂ := henv.mono (h₁.trans h₂)
          have hσ := ok_ofArgs hs₂ (henv₂.default name a hname ha) hargs₂
          have hbody := follows_instantiate hσ (henv₂.body name a hname ha)
          rw [← Substitution.ofArgs_mapIds] at hbody
          refine bind_value (Runs.lift hbody) fun s₃ h₃ _ body hbody => ?_
          exact follows_expanding name args (hi s₃ ((h₁.trans h₂).trans h₃) body hbody)

theorem decides_isAssignable (hi : Evaluates L s inner inner') :
    Decides L s (isAssignable inner ⟨env, options⟩) (isAssignable inner' ⟨env', options⟩) := by
  intro s₀ h₀ source target hsource htarget
  refine Runs.bind follows_evalGet fun s₁ h₁ _ e e' he => ?_
  have hdepth : e'.guard.depth = e.guard.depth := congrArg (·.depth) he.guard
  rw [hdepth]
  have hnested : Resolves L s₁ ⟨inner, .fresh options e.guard.depth none⟩
      ⟨inner', .fresh options e.guard.depth none⟩ := fun s₂ h₂ t ht =>
    hi s₂ ((h₀.trans h₁).trans h₂) t ht _ _ (.fresh options e.guard.depth fun _ => rfl)
  have hcheck := follows_checkIsAssignable hnested (h₁.closed hsource) (h₁.closed htarget)
  refine Runs.bind (Runs.lift (follows_run hcheck (.fresh options))) fun s₂ _ _ a b hab => ?_
  obtain ⟨a, c⟩ := a
  obtain ⟨b, c'⟩ := b
  obtain ⟨⟨rfl, _⟩, hc⟩ := hab
  exact bind_value (follows_reportAll hc.diagnostics) fun s₃ _ _ _ _ => pure_plain

theorem follows_guarded (henv : Agree L s env env') {work work' : TypeId → Node → Eval TypeId}
    (ht : s.Closed L.names t)
    (hwork : ∀ s₁, s.Extends s₁ → ∀ n, n.Closed L.names s₁ →
      Follows L s₁ (work t n) (work' (L t) (n.mapIds L))) :
    Follows L s (guarded work ⟨env, options⟩ t) (guarded work' ⟨env', options⟩ (L t)) := by
  unfold guarded
  refine follows_ite_iff (by simp) (fun _ => pure_value ht) fun _ => ?_
  refine bind_value follows_poll fun s₁ h₁ _ _ _ => ?_
  refine Runs.bind follows_evalGet fun s₂ h₂ _ e e' he => ?_
  rw [he.cache.image]
  cases hk : e.cache[t]? with
  | some known => exact pure_value (he.cache.ok t known hk)
  | none =>
      refine Runs.bind follows_evalGet fun s₃ h₃ _ e e' he => ?_
      have hexceeded : e'.guard.exceeded = e.guard.exceeded := congrArg (·.exceeded) he.guard
      rw [hexceeded]
      have h₁₃ := (h₁.trans h₂).trans h₃
      refine follows_ite (fun _ => pure_value (h₁₃.closed ht)) fun _ => ?_
      refine bind_value (follows_evalEnter t) fun s₄ h₄ _ answer _ => ?_
      have h₁₄ := h₁₃.trans h₄
      have hexceeded : Follows L s₄ (do Eval.reportDepthExceeded t; return t)
          (do Eval.reportDepthExceeded (L t); return L t) :=
        bind_value (follows_evalDepthExceeded (h₁₄.closed ht)) fun s₅ h₅ _ _ _ =>
          pure_value ((h₁₄.trans h₅).closed ht)
      cases answer with
      | entered =>
          refine bind_value (Runs.lift (follows_node (h₁₄.closed ht))) fun s₅ h₅ _ n hn => ?_
          refine bind_value (follows_leaving t (hwork s₅ (h₁₄.trans h₅) n hn))
            fun s₆ _ _ r hr => ?_
          refine Runs.bind follows_evalGet fun s₇ h₇ _ e e' he => ?_
          have hexceeded : e'.guard.exceeded = e.guard.exceeded := congrArg (·.exceeded) he.guard
          rw [hexceeded]
          refine follows_ite (fun _ => pure_value (h₇.closed hr)) fun _ => ?_
          exact bind_value (follows_remember (h₇.closed hr)) fun s₈ h₈ _ _ _ =>
            pure_value ((h₇.trans h₈).closed hr)
      | cycle => exact follows_reenterCycle (henv.mono h₁₄) (h₁₄.closed ht)
      | depthExceeded => exact hexceeded
      | iterationExceeded => exact hexceeded

theorem evaluates_evaluateAt (henv : Agree L s env env') (depth : Nat) :
    Evaluates L s (evaluateAt ⟨env, options⟩ depth) (evaluateAt ⟨env', options⟩ depth) := by
  induction depth with
  | zero =>
      intro s₁ h₁ t ht
      exact follows_guarded (henv.mono h₁) ht fun s₂ h₂ n _ => pure_value (h₂.closed ht)
  | succ depth ih =>
      intro s₁ h₁ t ht
      refine follows_guarded (henv.mono h₁) ht fun s₂ h₂ n hn => ?_
      have hi := ih.mono (h₁.trans h₂)
      refine follows_evalNode (henv.mono (h₁.trans h₂)) hi (decides_isAssignable hi) (h₂.closed ht)
        hn ?_
      rintro name args rfl
      exact follows_evalReference (henv.mono (h₁.trans h₂)) hi (h₂.closed ht)
        (hn.names name args rfl) hn.components

theorem follows_evaluateNormalized (henv : Agree L s env env') (ht : s.Closed L.names t) :
    Follows L s (evaluateNormalized ⟨env, options⟩ t)
      (evaluateNormalized ⟨env', options⟩ (L t)) := by
  have hevaluate : Follows L s (evaluate ⟨env, options⟩ t) (evaluate ⟨env', options⟩ (L t)) := by
    refine bind_value (α := Nat) ?_ fun s₁ h₁ _ depth _ => ?_
    · refine Runs.bind follows_evalGet fun s₁ _ _ e e' he => ?_
      rw [he.guard]
      exact pure_plain
    · exact evaluates_evaluateAt henv depth s₁ h₁ t (h₁.closed ht)
  refine bind_value hevaluate fun s₁ h₁ _ u hu => ?_
  refine Runs.bind (follows_evalOrigin (h₁.closed ht)) fun s₂ h₂ _ _ _ hsite => ?_
  exact follows_reporting (follows_normalize hsite (h₂.closed hu))

end guards

end TypeResolution.Replay
