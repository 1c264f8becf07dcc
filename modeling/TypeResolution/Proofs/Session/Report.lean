import TypeResolution.Proofs.Replay.Requests
import TypeResolution.Proofs.Session.Environment

/-!
Checking a module follows: the queries and the aliases of a module ask for types that are in the
store, and a request that is not cancelled is answered.
-/

namespace TypeResolution

open Store Replay

variable {P : String → Prop} {L : Link} {s : Store} {t : TypeId} {α : Type}

/-- The answer with other ids. -/
def QueryResult.mapIds (f : TypeId → TypeId) : QueryResult → QueryResult
  | .evaluated t text => .evaluated (f t) text
  | .narrowed t text => .narrowed (f t) text
  | .inferred ts texts => .inferred (ts.map f) texts
  | .assignable verdict => .assignable verdict

theorem QueryResult.mapIds_same (r : QueryResult) : r.mapIds (fun t => t) = r := by
  cases r <;> simp [mapIds]

namespace Session

/-- The types of an answer are types of the store. -/
instance : Value P QueryResult where
  image := QueryResult.mapIds
  Ok s r := match r with
    | .evaluated t _ | .narrowed t _ => s.Closed P t
    | .inferred ts _ => ∀ t ∈ ts, s.Closed P t
    | .assignable _ => True
  mono {s s' r} h hr := by
    cases r with
    | evaluated | narrowed => exact h.closed hr
    | inferred => exact fun t ht => h.closed (hr t ht)
    | assignable => exact trivial
  image_same := QueryResult.mapIds_same

theorem follows_lowering [Paired L α] {m m' : Lowering α} (h : Follows L s m m') :
    Follows L s (liftM m : Checking α) (liftM m') := by
  have hstate : Follows L s (liftM m : StateT (Array Diagnostic) Lowering α) (liftM m') :=
    follows_stateLift h
  change Follows L s (Except.ok <$> (liftM m : StateT (Array Diagnostic) Lowering α))
    (Except.ok <$> (liftM m' : StateT (Array Diagnostic) Lowering α))
  simp only [map_eq_pure_bind]
  exact Runs.bind hstate fun s₁ _ _ a b hab => Runs.pure (.ok hab)

theorem follows_record {ds ds' : Array Diagnostic} (hds : L.exact → ds' = ds) :
    Follows L s (record ds) (record ds') := by
  intro x y hxy
  exact Runs.pure ⟨.ok ⟨rfl, trivial⟩, fun hexact => congrArg₂ (· ++ ·) (hxy hexact) (hds hexact)⟩

theorem follows_keep [Paired L α] {step step' : Build (Outcome α)} (h : Follows L s step step') :
    Follows L s (keep step) (keep step') := by
  refine Runs.bind (Runs.lift h) fun s₁ _ _ a b hab => ?_
  refine bind_value (follows_record hab.2) fun s₂ h₂ _ _ _ => Runs.pure ?_
  exact Paired.mono h₂ hab.1

theorem follows_display (ht : s.Closed L.names t) : Follows L s (display t) (display (L t)) :=
  Runs.lift (follows_text ht)

theorem follows_lowerExpr (hL : ∀ name, L.names name) (e : TypeExpr) :
    Follows L s (lowerExpr e) (lowerExpr e) :=
  follows_lowering (follows_lower hL e ok_noScope)

theorem follows_lowerGuard (hL : ∀ name, L.names name) (guard : GuardExpr) :
    Follows L s (guard.lower []) (guard.lower []) := by
  cases guard with
  | literalEquality value =>
      exact bind_value (follows_lower hL value ok_noScope) fun s₁ _ _ t ht =>
        pure_value (a := TypeGuard.literalEquality t) ht
  | discriminant name value =>
      exact bind_value (follows_lower hL value ok_noScope) fun s₁ _ _ t ht =>
        pure_value (a := TypeGuard.discriminant name t) ht
  | predicate value =>
      exact bind_value (follows_lower hL value ok_noScope) fun s₁ _ _ t ht =>
        pure_value (a := TypeGuard.predicate t) ht
  | typeof kind => exact pure_value (a := TypeGuard.typeof kind) trivial
  | nullishEquality => exact pure_value (a := TypeGuard.nullishEquality) trivial
  | inProperty name => exact pure_value (a := TypeGuard.inProperty name) trivial
  | truthy => exact pure_value (a := TypeGuard.truthy) trivial

section checks

variable {env env' : Environment} {options : Options} {cancelled : Bool}

theorem follows_evaluate (hcalm : L.calm → cancelled = false) (henv : Agree L s env env')
    (ht : s.Closed L.names t) :
    Follows L s (evaluate ⟨env, options⟩ cancelled t)
      (evaluate ⟨env', options⟩ cancelled (L t)) := by
  have hpatience : L.calm → patience cancelled = none := fun h => by rw [hcalm h]; rfl
  refine Runs.bind (follows_keep (Replay.follows_evaluate hpatience henv ht))
    fun s₁ _ _ a b hab => ?_
  cases hab with
  | ok h => exact Runs.pure h
  | error h => exact follows_throw h

theorem follows_runQuery (hL : ∀ name, L.names name) (hcalm : L.calm → cancelled = false)
    (henv : Agree L s env env') (q : Query) :
    Follows L s (run ⟨env, options⟩ cancelled q) (run ⟨env', options⟩ cancelled q) := by
  cases q with
  | evaluate type =>
      refine bind_value (follows_lowerExpr hL type) fun s₁ h₁ _ t ht => ?_
      refine bind_value (follows_evaluate hcalm (henv.mono h₁) ht) fun s₂ _ _ u hu => ?_
      exact bind_value (follows_display hu) fun s₃ h₃ _ text _ =>
        pure_value (a := QueryResult.evaluated u text) (h₃.closed hu)
  | assignable source target excess =>
      refine bind_value (follows_lowerExpr hL source) fun s₁ h₁ _ t ht => ?_
      refine bind_value (follows_lowerExpr hL target) fun s₂ h₂ _ u hu => ?_
      refine Runs.bind (follows_keep (follows_verdict (henv.mono (h₁.trans h₂)) (h₂.closed ht) hu))
        fun s₃ _ _ a b hab => ?_
      obtain ⟨hassignable, hreason⟩ := hab
      rw [hassignable]
      refine bind_value (follows_record fun hexact => by rw [hreason hexact]) fun s₄ _ _ _ _ => ?_
      exact pure_value (a := QueryResult.assignable a.assignable) trivial
  | narrow type guard branch =>
      refine bind_value (follows_lowering (follows_lowerGuard hL guard)) fun s₁ h₁ _ g hg => ?_
      refine bind_value (follows_lowerExpr hL type) fun s₂ h₂ _ t ht => ?_
      have hnarrow : Follows L s₂ (Narrowing.narrow ⟨env, options⟩ t g branch)
          (Narrowing.narrow ⟨env', options⟩ (L t) (g.mapIds L) branch) :=
        follows_narrow (henv.mono (h₁.trans h₂)) (Value.mono h₂ hg) ht
      refine bind_value (follows_keep (follows_outcome hnarrow)) fun s₃ _ _ u hu => ?_
      exact bind_value (follows_display hu) fun s₄ h₄ _ text _ =>
        pure_value (a := QueryResult.narrowed u text) (h₄.closed hu)
  | inferCall typeParams params args =>
      refine Runs.bind (follows_lowering (follows_bindParams hL typeParams ok_noScope))
        fun s₁ h₁ _ x y hxy => ?_
      obtain ⟨infos, scope⟩ := x
      obtain ⟨infos', scope'⟩ := y
      obtain ⟨⟨hinfos', hinfos⟩, hscope', hscope⟩ := hxy
      simp only at hinfos' hinfos hscope' hscope
      subst hinfos' hscope'
      refine bind_value (follows_lowering (follows_lowerAll hL params hscope))
        fun s₂ h₂ _ us hus => ?_
      refine bind_value (follows_lowering (follows_lowerAll hL args ok_noScope))
        fun s₃ h₃ _ vs hvs => ?_
      have harguments := follows_typeArguments options.preserveLiterals
        (henv.mono ((h₁.trans h₂).trans h₃))
        (fun p hp => Value.mono (h₂.trans h₃) (hinfos p hp)) (Value.mono h₃ hus) hvs
      refine bind_value (follows_keep (follows_outcome harguments)) fun s₄ _ _ ts hts => ?_
      refine bind_value (follows_mapM_map fun t ht s₅ h₅ => follows_display (h₅.closed (hts t ht)))
        fun s₅ h₅ _ texts _ => ?_
      have htexts : L.image texts = texts := List.map_id' texts
      rw [htexts]
      exact pure_value (a := QueryResult.inferred ts texts) fun t ht => h₅.closed (hts t ht)

theorem follows_runAll (hL : ∀ name, L.names name) (hcalm : L.calm → cancelled = false)
    (henv : Agree L s env env') (queries : List Query) :
    Follows L s (runAll ⟨env, options⟩ cancelled queries)
      (runAll ⟨env', options⟩ cancelled queries) := by
  refine follows_mapM fun q _ s₁ h₁ => ?_
  cases cancelled with
  | true => exact follows_throw fun h => Bool.noConfusion (hcalm h)
  | false => exact follows_runQuery hL hcalm (henv.mono h₁) q

theorem follows_surface (hL : ∀ name, L.names name) (hcalm : L.calm → cancelled = false)
    (henv : Agree L s env env') (own : List Alias) :
    Follows L s (surface ⟨env, options⟩ cancelled own)
      (surface ⟨env', options⟩ cancelled (own.map (·.mapIds L))) := by
  have hfilter : (own.map (·.mapIds L)).filter (·.params.isEmpty) =
      (own.filter (·.params.isEmpty)).map (·.mapIds L) :=
    filter_map_congr fun a _ => by simp [Alias.mapIds]
  unfold surface
  rw [hfilter]
  refine follows_forM_map fun a _ s₁ h₁ => ?_
  refine bind_value (Runs.lift (follows_reference (hL a.name) (by simp))) fun s₂ h₂ _ t ht => ?_
  simp only [discard, Functor.discard, Functor.mapConst, Function.comp_apply]
  exact bind_value (follows_evaluate hcalm (henv.mono (h₁.trans h₂)) ht) fun s₃ _ _ _ _ =>
    pure_value trivial

/-- The answers are the same; the diagnostics are where the link asks for it. -/
structure SameAnswers (L : Link) (s : Store) (r r' : ModuleReport) : Prop where
  name : r'.name = r.name
  results : r'.results = r.results.map (·.mapIds L)
  diagnostics : L.exact → r'.diagnostics = r.diagnostics
  ok : Ok L.names s r.results

instance : Paired L ModuleReport where
  Same s r r' := SameAnswers L s r r'
  mono h hr := { hr with ok := Value.mono h hr.ok }

/-- The module may have another number in the second session. -/
theorem follows_reportIn (config : SessionConfig) {g g' : ModuleGraph} {i : Nat} {m : Prepared}
    (hL : ∀ name, L.names name) (hcalm : L.calm → cancelled = false) (henv : Agree L s env env')
    (hcycle : L.exact →
      cycleDiagnostic g' i m.source.name = cycleDiagnostic g m.id m.source.name) :
    Follows L s (reportIn config cancelled g env m)
      (reportIn config cancelled g' env' { m.mapIds L with id := i }) := by
  have hchecks : Follows L s
      (do
        surface ⟨env, config.resolution⟩ cancelled m.own
        runAll ⟨env, config.resolution⟩ cancelled m.source.queries : Checking (List QueryResult))
      (do
        surface ⟨env', config.resolution⟩ cancelled (m.own.map (·.mapIds L))
        runAll ⟨env', config.resolution⟩ cancelled m.source.queries) :=
    bind_value (follows_surface hL hcalm henv m.own) fun s₁ h₁ _ _ _ =>
      follows_runAll hL hcalm (henv.mono h₁) m.source.queries
  have hstart : Same L s (#[] : Array Diagnostic) #[] := fun _ => rfl
  refine Runs.bind (hchecks #[] #[] hstart m.operations m.operations ⟨rfl, trivial⟩)
    fun s₁ _ _ a b hab => ?_
  obtain ⟨⟨results, ds⟩, n⟩ := a
  obtain ⟨⟨results', ds'⟩, n'⟩ := b
  refine Runs.pure ?_
  obtain ⟨⟨hresults, hds⟩, _⟩ := hab
  cases hresults with
  | ok h =>
      refine .ok ⟨rfl, h.1, fun hexact => ?_, h.2⟩
      exact congrArg₂ (fun x y : List Diagnostic => withoutRepeats (x ++ y)) (hcycle hexact)
        (congrArg Array.toList (hds hexact))
  | error h => exact .error h

/-- Where ids are kept, the same module is checked. -/
theorem follows_sameReportIn {P : String → Prop} {calm : Prop} (config : SessionConfig)
    (g : ModuleGraph) (hP : ∀ name, P name) (hcalm : calm → cancelled = false)
    (henv : env.Agrees P s env') (m : Prepared) :
    Follows (.plain P calm) s (reportIn config cancelled g env m)
      (reportIn config cancelled g env' m) := by
  have h := follows_reportIn (L := .plain P calm) (g := g) (m := m) config hP hcalm
    (.of_agrees henv) fun _ => rfl
  rwa [m.mapIds_same] at h

end checks

end Session

end TypeResolution
