import TypeResolution.Proofs.Context.Alone

/-!
Invariants of evaluators. What idle steps and the expansion of aliases keep, beside a growing store,
every rule of an evaluation keeps, if the evaluation of components does.
-/

namespace TypeResolution.Replay

open Store Eval Limits Context

/-- A property of evaluators, beside a store, that has nothing to do with types. -/
structure Invariant where
  holds : Store → Evaluator → Prop
  mono {s s' : Store} {e : Evaluator} : s.Extends s' → holds s e → holds s' e
  idle {s : Store} {e e' : Evaluator} : Idle e e' → holds s e → holds s e'
  frames {s : Store} {e : Evaluator} (frames : List Frame) : holds s e →
    holds s { e with frames := frames }

namespace Invariant

variable (I : Invariant) {s s' : Store} {t : TypeId} {e e₀ : Evaluator} {α β : Type}

/-- Runs that keep the invariant; they are compared with nothing. -/
def regime : Regime anyLink where
  fit := I.holds
  clear _ := False
  ready _ := False
  mono := I.mono
  fit_idle := I.idle
  clear_idle _ h := h
  ready_idle _ h := h
  patience h := h.elim

/-- From the store on, `m` keeps the invariant, and what it gives goes with what `m'` may give. -/
abbrev Keeps [Paired anyLink α] (s : Store) (m m' : Eval α) : Prop :=
  @Follows anyLink Eval _ _ I.regime.runs α _ s m m'

variable {I}

/-- A run that has made types before. -/
theorem ends_after [Paired anyLink α] {m m' m₁ m₁' : Eval α} (h : I.regime.Ends s' m₁ m₁' e)
    (hs : s.Extends s') (hm : m e₀ s = m₁ e s') : I.regime.Ends s m m' e₀ := by
  refine ⟨?_, ?_, ?_, ?_, ?_, ?_⟩ <;> rw [hm]
  · exact hs.trans h.grows
  · exact h.formed
  · exact h.fit
  · exact h.clear
  · exact h.partner
  · exact fun hclear => hclear.elim

/-- Steps that look at the evaluator. -/
theorem keeps_get [Paired anyLink β] {f f' : Evaluator → Eval β} (h : ∀ e, I.Keeps s (f e) (f' e)) :
    I.Keeps s (get >>= f) (get >>= f') :=
  fun hs e he => ends_after (h e hs e he) (.refl s) rfl

theorem keeps_modify {f : Evaluator → Evaluator} (h : ∀ e, Idle e (f e)) :
    I.Keeps s (modify f : Eval PUnit) (modify f) :=
  fun hs e he => Regime.ends_idle hs he rfl (h e) ⟨rfl, trivial⟩ fun _ _ h => h.elim

theorem keeps_expanding [Paired anyLink α] {step step' : Eval α} (name : String)
    (args : List TypeId) (h : I.Keeps s step step') :
    I.Keeps s (expanding name args step) (expanding name args step') := by
  intro hs e he
  let e₁ := { e with frames := ⟨name, args, e.productive⟩ :: e.frames }
  have hstep := h hs e₁ (I.frames _ he)
  have hrun : expanding name args step e s =
      (((step e₁ s).1.1, { (step e₁ s).1.2 with frames := (step e₁ s).1.2.frames.tail }),
        (step e₁ s).2) := rfl
  refine ⟨?_, ?_, ?_, ?_, ?_, ?_⟩ <;> rw [hrun]
  · exact hstep.grows
  · exact hstep.formed
  · exact I.frames _ hstep.fit
  · exact fun hclear => hclear
  · exact hstep.partner
  · exact fun hclear => hclear.elim

section references

variable {env : Environment} {o : Options} {inner : TypeId → Eval TypeId} {args : List TypeId}

theorem keeps_reenterAlias {frame : Frame} {site site' : Option SourceTag}
    (ht : s.Closed AnyName t) :
    I.Keeps s (reenterAlias frame t site) (reenterAlias frame t site') := by
  let _ := I.regime.runs
  have _ := I.regime.steady
  refine keeps_get fun e => follows_ite (fun _ => pure_value ht) fun _ => Runs.ofFormed fun hs => ?_
  refine follows_ite (fun _ => pure_fixed hs rfl) fun _ => ?_
  refine bind_value (keeps_modify fun _ => ⟨rfl, rfl, rfl, rfl, fun _ h => h, id⟩)
    fun s₁ _ _ _ _ => ?_
  exact bind_value (follows_evalReport False.elim) fun s₂ _ hs₂ _ _ => pure_fixed hs₂ rfl

theorem keeps_reenterCycle (ht : s.Closed AnyName t) :
    I.Keeps s (reenterCycle ⟨env, o⟩ t) (reenterCycle ⟨env, o⟩ t) := by
  let _ := I.regime.runs
  have _ := I.regime.steady
  refine bind_value (Runs.lift (follows_node ht)) fun s₁ h₁ _ n _ => ?_
  cases n with
  | reference name args =>
      refine keeps_get fun e => ?_
      dsimp only
      cases e.frames.find? (·.name = name) with
      | none => exact pure_value (h₁.closed ht)
      | some frame =>
          refine Runs.bind (follows_evalOrigin (h₁.closed ht)) fun s₂ h₂ _ _ _ _ => ?_
          exact keeps_reenterAlias (h₂.closed (h₁.closed ht))
  | _ => exact pure_value (h₁.closed ht)

theorem keeps_reference (ht : s.Closed AnyName t) (henv : env.Agrees AnyName s env)
    (hi : @Evaluates anyLink I.regime.runs s inner inner) {name : String}
    (hargs : ∀ u ∈ args, s.Closed AnyName u) :
    I.Keeps s (Eval.reference inner ⟨env, o⟩ t name args)
      (Eval.reference inner ⟨env, o⟩ t name args) := by
  let _ := I.regime.runs
  have _ := I.regime.steady
  unfold Eval.reference
  dsimp only
  cases ha : env.get? name with
  | none =>
      refine Runs.bind (follows_evalOrigin ht) fun s₁ _ _ _ _ _ => ?_
      exact bind_value (follows_evalReport False.elim) fun s₂ _ hs₂ _ _ => pure_fixed hs₂ rfl
  | some a =>
      refine bind_value (follows_mapM fun u hu s₁ h₁ => hi s₁ h₁ u (h₁.closed (hargs u hu)))
        fun s₁ h₁ hs₁ args hargs => ?_
      rw [Link.image_plain]
      refine keeps_get fun e => ?_
      cases e.frames.find? fun f => f.name = name && f.args = args with
      | some frame =>
          have hmade : Follows anyLink s₁ (Build.reference name args)
              (Build.reference name (args.map anyLink)) := follows_reference trivial hargs
          rw [List.map_id' args] at hmade
          refine bind_value (Runs.lift hmade) fun s₂ h₂ _ lazy hlazy => ?_
          refine Runs.bind (follows_evalOrigin ((h₁.trans h₂).closed ht)) fun s₃ h₃ _ _ _ _ => ?_
          exact keeps_reenterAlias (h₃.closed hlazy)
      | none =>
          have henv₁ := henv.mono h₁
          have hσ := ok_ofArgs hs₁ (henv₁.default name a trivial ha) hargs
          have hmade := follows_instantiate (L := anyLink) hσ (henv₁.body name a trivial ha)
          rw [Substitution.mapIds_same] at hmade
          refine bind_value (Runs.lift hmade) fun s₂ h₂ _ body hbody => ?_
          exact keeps_expanding name args (hi s₂ (h₁.trans h₂) body hbody)

/-- A check that an evaluation asks for has evaluators of its own. -/
theorem keeps_isAssignable (hresolves : ∀ s₁, s.Extends s₁ → ∀ depth, Resolves anyLink s₁
      ⟨inner, .fresh o depth none⟩ ⟨inner, .fresh o depth none⟩) :
    @Decides anyLink I.regime.runs s (isAssignable inner ⟨env, o⟩) (isAssignable inner ⟨env, o⟩) := by
  intro s₁ h₁ source target hsource htarget hs₁ e he
  have hstart : Same anyLink s₁ (Checker.fresh o) (Checker.fresh o) := .fresh o
  obtain ⟨hgrows, hformed, -, -⟩ := follows_run
    (follows_checkIsAssignable (hresolves s₁ h₁ e.guard.depth) hsource htarget) hstart hs₁
  have hrun : isAssignable inner ⟨env, o⟩ source target e s₁ =
      let r := Check.isAssignable ⟨inner, .fresh o e.guard.depth none⟩ source target (.fresh o) s₁
      conclude r.1 e r.2 := isAssignable_run source target e s₁
  dsimp only at hrun
  exact ends_after (ends_conclude rfl hformed (I.mono hgrows he)) hgrows hrun

/-- The invariant is kept by every rule, if the evaluation of components keeps it. -/
theorem keeps_node (henv : env.Agrees AnyName s env)
    (hi : @Evaluates anyLink I.regime.runs s inner inner)
    (hresolves : ∀ s₁, s.Extends s₁ → ∀ depth, Resolves anyLink s₁
      ⟨inner, .fresh o depth none⟩ ⟨inner, .fresh o depth none⟩)
    (ht : s.Closed AnyName t) {n : Node} (hn : n.Closed AnyName s) :
    I.Keeps s (Eval.node inner ⟨env, o⟩ t n) (Eval.node inner ⟨env, o⟩ t n) := by
  let _ := I.regime.runs
  have _ := I.regime.steady
  have hnode : I.Keeps s (Eval.node inner ⟨env, o⟩ t n)
      (Eval.node inner ⟨env, o⟩ t (n.mapIds anyLink)) := by
    refine follows_evalNode (.of_agrees henv) hi (keeps_isAssignable hresolves) ht hn ?_
    rintro name args rfl
    rw [List.map_id' args]
    exact keeps_reference ht henv hi hn.components
  rwa [n.mapIds_same] at hnode

end references

end Invariant

end TypeResolution.Replay
