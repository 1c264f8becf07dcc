import TypeResolution.Assignability.Check
import TypeResolution.Proofs.Replay.Substitution

/-!
Checking assignability follows when the nested evaluations do.
-/

namespace TypeResolution

variable {P : String → Prop} {L : Replay.Link} {s s' : Store} {t : TypeId} {ts : List TypeId}

namespace Recursion.Guard

variable {κ κ' : Type}

/-- The walk under other keys. -/
def map (f : κ → κ') (g : Guard κ) : Guard κ' := { g with active := g.active.map f }

theorem map_id (g : Guard κ) : g.map (fun key => key) = g := by
  simp [map]

variable [DecidableEq κ] [DecidableEq κ'] {f : κ → κ'}

theorem enter_map (hf : Function.Injective f) (g : Guard κ) (key : κ) :
    (g.map f).enter (f key) = ((g.enter key).1, (g.enter key).2.map f) := by
  have hmem : f key ∈ g.active.map f ↔ key ∈ g.active := List.mem_map_of_injective hf
  simp only [enter, map, tick, hmem]
  split_ifs <;> simp only [*, ↓reduceIte, List.map_cons]

theorem leave_map (hf : Function.Injective f) (g : Guard κ) (key : κ) :
    (g.map f).leave (f key) = (g.leave key).map f := by
  simp only [leave, map, List.map_erase hf]

end Recursion.Guard

namespace Failure

/-- The failure with other ids. -/
def mapIds (f : TypeId → TypeId) : Failure → Failure
  | .propertyTypeMismatch name source target => .propertyTypeMismatch name (f source) (f target)
  | .returnTypeMismatch source target => .returnTypeMismatch (f source) (f target)
  | .noMatchingUnionMember source => .noMatchingUnionMember (f source)
  | .typeMismatch source target => .typeMismatch (f source) (f target)
  | reason => reason

theorem mapIds_same (reason : Failure) : reason.mapIds (fun t => t) = reason := by
  cases reason <;> rfl

/-- The types that a failure names. -/
def types : Failure → List TypeId
  | .propertyTypeMismatch _ source target | .returnTypeMismatch source target
  | .typeMismatch source target => [source, target]
  | .noMatchingUnionMember source => [source]
  | _ => []

end Failure

/-- The expansion with other ids. -/
def Frame.mapIds (f : TypeId → TypeId) (frame : Frame) : Frame :=
  { frame with args := frame.args.map f }

theorem Frame.mapIds_same (frame : Frame) : frame.mapIds (fun t => t) = frame := by
  simp [mapIds]

namespace Replay

open Store

/-- The types that a failure names are types of the store. -/
def FailureOk (P : String → Prop) (s : Store) (reason : Failure) : Prop :=
  ∀ t ∈ reason.types, s.Closed P t

theorem FailureOk.mono {reason : Failure} (h : s.Extends s') (hreason : FailureOk P s reason) :
    FailureOk P s' reason :=
  fun t ht => h.closed (hreason t ht)

/-- The remembered failure matters for a diagnostic only. -/
structure FailureSame (L : Link) (s : Store) (a b : Option Failure) : Prop where
  image : b = a.map (·.mapIds L)
  ok (reason : Failure) : L.exact → a = some reason → FailureOk L.names s reason

instance : Paired L (Option Failure) where
  Same := FailureSame L
  mono h hab := { hab with ok := fun reason hexact hr => (hab.ok reason hexact hr).mono h }

theorem FailureSame.none : FailureSame L s none none := ⟨rfl, nofun⟩

/-- The checkers of two runs. -/
structure CheckerSame (L : Link) (s : Store) (c c' : Checker) : Prop where
  guard : c'.guard = c.guard.map L.both
  excessPropertyCheck : c'.excessPropertyCheck = c.excessPropertyCheck
  failures (pair : TypeId × TypeId) : c'.failures.contains (L.both pair) = c.failures.contains pair
  failure : Same L s c.failure c'.failure
  depthReported : c'.depthReported = c.depthReported
  diagnostics : L.exact → c'.diagnostics = c.diagnostics

instance : Paired L Checker where
  Same := CheckerSame L
  mono h hc := { hc with failure := Paired.mono h hc.failure }

theorem CheckerSame.fresh (o : Options) : CheckerSame L s (.fresh o) (.fresh o) where
  guard := rfl
  excessPropertyCheck := rfl
  failures _ := by simp [Checker.fresh]
  failure := .none
  depthReported := rfl
  diagnostics _ := rfl

/-- The evaluators of two runs. A calm one never gives up. -/
structure EvaluatorSame (L : Link) (s : Store) (e e' : Evaluator) : Prop where
  guard : e'.guard = e.guard.map L
  cache : Same L s e.cache e'.cache
  frames : e'.frames = e.frames.map (·.mapIds L)
  productive : e'.productive = e.productive
  reportedCycles : e'.reportedCycles = e.reportedCycles
  depthReported : e'.depthReported = e.depthReported
  diagnostics : L.exact → e'.diagnostics = e.diagnostics
  patience : e'.patience = e.patience
  calm : L.calm → e.patience = none

instance : Paired L Evaluator where
  Same := EvaluatorSame L
  mono h he := { he with cache := Paired.mono h he.cache }

theorem EvaluatorSame.fresh (o : Options) (depth : Nat) {patience : Option Nat}
    (h : L.calm → patience = none) :
    EvaluatorSame L s (.fresh o depth patience) (.fresh o depth patience) where
  guard := rfl
  cache := CacheSame.empty
  frames := rfl
  productive := rfl
  reportedCycles := rfl
  depthReported := rfl
  diagnostics _ := rfl
  patience := rfl
  calm := h

section plain

variable {calm : Prop}

theorem CheckerSame.refl (c : Checker) : CheckerSame (.plain P calm) s c c where
  guard := (Recursion.Guard.map_id c.guard).symm
  excessPropertyCheck := rfl
  failures _ := rfl
  failure := ⟨by simp [Failure.mapIds_same], fun _ => False.elim⟩
  depthReported := rfl
  diagnostics := False.elim

theorem EvaluatorSame.refl {e : Evaluator} (hcache : ∀ t r : TypeId, e.cache[t]? = some r → s.Closed P r)
    (h : calm → e.patience = none) : EvaluatorSame (.plain P calm) s e e where
  guard := (Recursion.Guard.map_id e.guard).symm
  cache := .refl hcache
  frames := (List.map_id'' Frame.mapIds_same e.frames).symm
  productive := rfl
  reportedCycles := rfl
  depthReported := rfl
  diagnostics := False.elim
  patience := rfl
  calm := h

end plain

/-- Calm runs are not cancelled. -/
instance : Paired L Cancelled where
  Same _ _ _ := ¬L.calm
  mono _ h := h

section checks

open Check

variable {nested nested' : Nested} {inner inner' : Check.Inner} {source target : TypeId}

/-- Checking components follows from `s` on. -/
def Checks (L : Link) (s : Store) (inner inner' : Check.Inner) : Prop :=
  ∀ s₁, s.Extends s₁ → ∀ source target, s₁.Closed L.names source → s₁.Closed L.names target →
    Follows L s₁ (inner source target) (inner' (L source) (L target))

theorem Checks.mono (h : Checks L s inner inner') (hs : s.Extends s') : Checks L s' inner inner' :=
  fun s₁ h₁ => h s₁ (hs.trans h₁)

/-- Nested evaluations follow from `s` on. -/
def Resolves (L : Link) (s : Store) (nested nested' : Nested) : Prop :=
  ∀ s₁, s.Extends s₁ → ∀ t, s₁.Closed L.names t →
    Follows L s₁ (nested.evaluate t nested.start : Build _) (nested'.evaluate (L t) nested'.start)

theorem Resolves.mono (h : Resolves L s nested nested') (hs : s.Extends s') :
    Resolves L s' nested nested' :=
  fun s₁ h₁ => h s₁ (hs.trans h₁)

section reports

variable {c c' : Checker} {d d' : Diagnostic}

theorem follows_checkReport_pure (hexact : ¬L.exact) (d : Diagnostic) :
    Follows L s (Check.report d) (pure ()) := by
  intro c c' hc
  refine Runs.pure ⟨⟨rfl, trivial⟩, ?_⟩
  dsimp only
  split
  · exact hc
  · exact { hc with diagnostics := fun h => absurd h hexact }

theorem follows_pure_checkReport (hexact : ¬L.exact) (d : Diagnostic) :
    Follows L s (pure ()) (Check.report d) := by
  intro c c' hc
  refine Runs.pure ⟨⟨rfl, trivial⟩, ?_⟩
  dsimp only
  split
  · exact hc
  · exact { hc with diagnostics := fun h => absurd h hexact }

theorem follows_checkReport (hd : L.exact → d' = d) :
    Follows L s (Check.report d) (Check.report d') := by
  by_cases hexact : L.exact
  · obtain rfl := hd hexact
    refine follows_modify fun c c' hc => ?_
    rw [hc.diagnostics hexact]
    split
    · exact hc
    · exact { hc with diagnostics := fun _ => rfl }
  · rw [← bind_pure_unit (x := Check.report d), ← pure_bind () fun _ => Check.report d']
    exact bind_value (follows_checkReport_pure hexact d) fun s₁ _ _ _ _ =>
      follows_pure_checkReport hexact d'

theorem follows_checkReports {ds ds' : Array Diagnostic} (hds : L.exact → ds' = ds) :
    Follows L s (ds.forM Check.report) (ds'.forM Check.report) := by
  by_cases hexact : L.exact
  · obtain rfl := hds hexact
    exact follows_arrayForM fun d _ _ => follows_checkReport fun _ => rfl
  · exact follows_arrayForM_quiet (fun d _ => follows_checkReport_pure hexact d)
      fun d _ => follows_pure_checkReport hexact d

end reports

theorem follows_fail (reason : Failure) (h : FailureOk L.names s reason) :
    Follows L s (fail reason) (fail (reason.mapIds L)) := by
  refine bind_value (follows_modify fun c c' hc => ?_) fun _ _ _ _ _ => pure_plain
  obtain ⟨hfailure, hok⟩ := hc.failure
  refine { hc with failure := ⟨?_, fun r hexact hr => ?_⟩ }
  · rw [hfailure]
    cases c.failure <;> rfl
  · dsimp only at hr
    cases hold : c.failure with
    | none =>
        rw [hold] at hr
        cases hr
        exact h
    | some old =>
        rw [hold] at hr
        exact hok r hexact (hold.trans hr)

theorem follows_failWith (reason : Failure) (h : FailureOk L.names s reason) :
    Follows L s (failWith reason) (failWith (reason.mapIds L)) := by
  refine bind_value (follows_modify fun c c' hc => ?_) fun _ _ _ _ _ => pure_plain
  refine { hc with failure := ⟨rfl, ?_⟩ }
  rintro _ _ ⟨⟩
  exact h

theorem follows_clearFailure : Follows L s clearFailure clearFailure := by
  intro c c' hc
  exact Runs.pure ⟨hc.failure, { hc with failure := .none }⟩

theorem follows_restoreFailure {saved saved' : Option Failure} (h : FailureSame L s saved saved') :
    Follows L s (restoreFailure saved) (restoreFailure saved') :=
  follows_modify fun _ _ hc => { hc with failure := h }

theorem ok_typeMismatch (hsource : s.Closed P source) (htarget : s.Closed P target) :
    FailureOk P s (Failure.typeMismatch source target) := by
  simp [FailureOk, Failure.types, hsource, htarget]

theorem follows_mismatch (hsource : s.Closed L.names source) (htarget : s.Closed L.names target) :
    Follows L s (fail (.typeMismatch source target)) (fail (.typeMismatch (L source) (L target))) :=
  follows_fail _ (ok_typeMismatch hsource htarget)

theorem follows_orFail {m m' : Check Bool} (reason : Failure) (h : Follows L s m m')
    (hreason : FailureOk L.names s reason) :
    Follows L s (do if ← m then return true else fail reason)
      (do if ← m' then return true else fail (reason.mapIds L)) :=
  bind_value h fun _ h₁ _ _ _ =>
    follows_ite (fun _ => pure_plain) fun _ => follows_fail _ (hreason.mono h₁)

theorem follows_orFailWith {m m' : Check Bool} (reason : Failure) (h : Follows L s m m')
    (hreason : FailureOk L.names s reason) :
    Follows L s (do if ← m then return true else failWith reason)
      (do if ← m' then return true else failWith (reason.mapIds L)) :=
  bind_value h fun _ h₁ _ _ _ =>
    follows_ite (fun _ => pure_plain) fun _ => follows_failWith _ (hreason.mono h₁)

theorem follows_againstEmptyObject (hsource : s.Closed L.names source)
    (htarget : s.Closed L.names target) :
    Follows L s (againstEmptyObject source target) (againstEmptyObject (L source) (L target)) := by
  refine Runs.store fun s' hs' => ?_
  simp only [hs'.isEmptyObject htarget, Renaming.isNullish, ne_eq, Renaming.eq_unknown]
  exact follows_ite (fun _ => pure_plain) fun _ => follows_mismatch hsource htarget

theorem follows_unionTarget (hi : Checks L s inner inner') (hsource : s.Closed L.names source)
    (hts : ∀ t ∈ ts, s.Closed L.names t) :
    Follows L s (unionTarget inner source ts) (unionTarget inner' (L source) (ts.map L)) := by
  unfold unionTarget
  rw [TypeId.contains_map]
  refine follows_ite (fun _ => pure_plain) fun _ => ?_
  refine Runs.bind follows_clearFailure fun s₁ h₁ _ saved saved' hsaved => ?_
  refine bind_value (follows_anyM_map fun t ht s₂ h₂ => ?_) fun s₂ h₂ _ found _ => ?_
  · exact hi s₂ (h₁.trans h₂) source t ((h₁.trans h₂).closed hsource)
      ((h₁.trans h₂).closed (hts t ht))
  · refine bind_value (follows_restoreFailure (Paired.mono h₂ hsaved)) fun s₃ h₃ _ _ _ => ?_
    refine follows_ite (fun _ => pure_plain) fun _ => ?_
    have hsource := ((h₁.trans h₂).trans h₃).closed hsource
    exact follows_fail (.noMatchingUnionMember source) (by simpa [FailureOk, Failure.types])

theorem follows_intersectionSource (hi : Checks L s inner inner')
    (hsource : s.Closed L.names source) (htarget : s.Closed L.names target)
    (hts : ∀ t ∈ ts, s.Closed L.names t) :
    Follows L s (intersectionSource inner source target ts)
      (intersectionSource inner' (L source) (L target) (ts.map L)) := by
  refine Runs.bind follows_clearFailure fun s₁ h₁ _ saved saved' hsaved => ?_
  refine bind_value (follows_anyM_map fun t ht s₂ h₂ => ?_) fun s₂ h₂ _ found _ => ?_
  · exact hi s₂ (h₁.trans h₂) t target ((h₁.trans h₂).closed (hts t ht))
      ((h₁.trans h₂).closed htarget)
  · refine follows_ite (fun _ => ?_) fun _ => ?_
    · exact bind_value (follows_restoreFailure (Paired.mono h₂ hsaved)) fun s₃ _ _ _ _ => pure_plain
    · exact follows_mismatch ((h₁.trans h₂).closed hsource) ((h₁.trans h₂).closed htarget)

theorem closed_fieldType {o : ObjectShape} (ho : (Node.object o).Closed P s) {f : Field}
    (hf : f ∈ o.fields) : s.Closed P f.type :=
  ho.components _ (List.mem_append_left _ (List.mem_map_of_mem hf))

theorem closed_stringIndex {o : ObjectShape} (ho : (Node.object o).Closed P s)
    (ht : o.stringIndex = some t) : s.Closed P t :=
  ho.components _ (List.mem_append_right _ (Option.mem_toList.mpr ht))

section shapes

variable (hi : Checks L s inner inner')

include hi

theorem follows_field {o : ObjectShape} {f : Field} (ho : (Node.object o).Closed L.names s)
    (hf : s.Closed L.names f.type) :
    Follows L s (field inner o f) (field inner' (o.mapIds L) (f.mapIds L)) := by
  unfold field
  have hfind' : (o.mapIds L).find? (f.mapIds L).name = (o.find? f.name).map (·.mapIds L) :=
    o.find?_mapIds L f.name
  rw [hfind']
  cases hfind : o.find? f.name with
  | none =>
      refine follows_ite (fun _ => pure_plain) fun _ => ?_
      exact follows_fail (.missingProperty f.name) (by simp [FailureOk, Failure.types])
  | some g =>
      have hg := closed_fieldType ho (List.mem_of_find?_eq_some hfind)
      refine follows_ite (fun _ => ?_) fun _ => ?_
      · exact follows_fail (.optionalProperty f.name) (by simp [FailureOk, Failure.types])
      · exact follows_orFailWith (.propertyTypeMismatch f.name g.type f.type)
          (hi s (.refl s) _ _ hg hf) (by simp [FailureOk, Failure.types, hg, hf])

theorem follows_index {o : ObjectShape} (ho : (Node.object o).Closed L.names s)
    (htarget : s.Closed L.names target) :
    Follows L s (index inner o target) (index inner' (o.mapIds L) (L target)) := by
  refine bind_value (follows_allM_map fun g hg s₁ h₁ => ?_) fun s₁ h₁ _ fields _ => ?_
  · have hg := h₁.closed (closed_fieldType ho hg)
    have htarget := h₁.closed htarget
    exact follows_orFail (.propertyTypeMismatch g.name g.type target)
      (hi s₁ h₁ _ _ hg htarget) (by simp [FailureOk, Failure.types, hg, htarget])
  · refine follows_ite (fun _ => pure_plain) fun _ => ?_
    simp only [ObjectShape.mapIds]
    cases hindex : o.stringIndex with
    | none => exact pure_plain
    | some t =>
        have ht := h₁.closed (closed_stringIndex ho hindex)
        exact follows_orFail (.typeMismatch t target) (hi s₁ h₁ _ _ ht (h₁.closed htarget))
          (ok_typeMismatch ht (h₁.closed htarget))

omit hi in
theorem follows_excess (o p : ObjectShape) :
    Follows L s (excess o p) (excess (o.mapIds L) (p.mapIds L)) := by
  have hfind : (o.mapIds L).fields.find? (fun g => ((p.mapIds L).find? g.name).isNone) =
      (o.fields.find? fun g => (p.find? g.name).isNone).map (·.mapIds L) := by
    have hmissing (g : Field) :
        ((p.mapIds L).find? (g.mapIds L).name).isNone = (p.find? g.name).isNone := by
      rw [Field.mapIds, p.find?_mapIds, Option.isNone_map]
    change (o.fields.map (·.mapIds L)).find? _ = _
    rw [List.find?_map]
    simp only [Function.comp_def, hmissing]
  unfold excess
  rw [hfind]
  cases o.fields.find? fun g => (p.find? g.name).isNone with
  | none => exact pure_plain
  | some g =>
      exact follows_fail (.excessProperty g.name) (by simp [FailureOk, Failure.types])

theorem follows_checkObject {o p : ObjectShape} (ho : (Node.object o).Closed L.names s)
    (hp : (Node.object p).Closed L.names s) :
    Follows L s (object inner o p) (object inner' (o.mapIds L) (p.mapIds L)) := by
  refine bind_value (follows_allM_map fun f hf s₁ h₁ => ?_) fun s₁ h₁ _ _ _ => ?_
  · exact follows_field (hi.mono h₁) (h₁.closedNode ho) (h₁.closed (closed_fieldType hp hf))
  · refine follows_ite (fun _ => ?_) fun _ => pure_plain
    have hstringIndex : (p.mapIds L).stringIndex = p.stringIndex.map L := rfl
    rw [hstringIndex]
    cases hindex : p.stringIndex with
    | some t =>
        exact follows_index (hi.mono h₁) (h₁.closedNode ho) (h₁.closed (closed_stringIndex hp hindex))
    | none =>
        refine Runs.bind follows_get fun s₂ _ _ c c' hc => ?_
        rw [hc.excessPropertyCheck]
        exact follows_ite (fun _ => follows_excess o p) fun _ => pure_plain

theorem follows_checkFunction {f g : FunctionShape} (hf : (Node.function f).Closed L.names s)
    (hg : (Node.function g).Closed L.names s) :
    Follows L s (function inner f g) (function inner' (f.mapIds L) (g.mapIds L)) := by
  have hzip : (f.mapIds L).params.zip (g.mapIds L).params = (f.params.zip g.params).map L.both := by
    simp [FunctionShape.mapIds, List.zip_map, Prod.map]
  have hlength : ∀ x : FunctionShape, (x.mapIds L).params.length = x.params.length :=
    fun x => List.length_map L.rename
  have hfr := hf.components f.result (List.mem_append_right _ (by simp))
  have hgr := hg.components g.result (List.mem_append_right _ (by simp))
  unfold function
  simp only [hzip, hlength]
  refine follows_ite (fun _ => ?_) fun _ => ?_
  · exact follows_fail (.tooManyParameters f.params.length g.params.length)
      (by simp [FailureOk, Failure.types])
  refine bind_value (follows_allM_map fun x hx s₁ h₁ => ?_) fun s₁ h₁ _ params _ => ?_
  · obtain ⟨hx₁, hx₂⟩ := List.of_mem_zip hx
    have hx₁ := h₁.closed (hf.components _ (List.mem_append_left _ hx₁))
    have hx₂ := h₁.closed (hg.components _ (List.mem_append_left _ hx₂))
    exact follows_orFail (.typeMismatch x.2 x.1) (hi s₁ h₁ _ _ hx₂ hx₁)
      (ok_typeMismatch hx₂ hx₁)
  · refine follows_ite (fun _ => pure_plain) fun _ => ?_
    refine follows_ite_iff L.rename.eq_void (fun _ => pure_plain) fun _ => ?_
    have hfr := h₁.closed hfr
    have hgr := h₁.closed hgr
    exact follows_orFailWith (.returnTypeMismatch f.result g.result)
      (hi s₁ h₁ _ _ hfr hgr) (by simp [FailureOk, Failure.types, hfr, hgr])

omit hi in
theorem follows_literal (hsource : s.Closed L.names source) (htarget : s.Closed L.names target)
    (value : Literal) :
    Follows L s (literal source target value) (literal (L source) (L target) value) := by
  refine Runs.ofFormed fun hs => ?_
  unfold literal
  refine follows_ite_iff ?_ (fun _ => pure_plain) fun _ => ?_
  · rw [eq_comm, L.rename.eq_primitive, eq_comm]
  refine Runs.store fun s' hs' => ?_
  simp only [hs'.node htarget]
  have hrest : ∀ b : Bool, Follows L s
      (if b then return true else againstEmptyObject source target)
      (if b then return true else againstEmptyObject (L source) (L target)) := fun b =>
    follows_ite (fun _ => pure_plain) fun _ => follows_againstEmptyObject hsource htarget
  cases value with
  | string text =>
      cases hn : s.node target with
      | template spans =>
          have hholes : ∀ t, Span.hole t ∈ spans → s.Closed L.names t := fun t ht =>
            htarget.of_mem_components hn (List.mem_filterMap.mpr ⟨_, ht, rfl⟩)
          simp only [Node.mapIds, Template.describes_mirror hs' hs hholes]
          exact hrest _
      | _ => exact hrest _
  | _ => exact hrest _

theorem follows_shapes (hsource : s.Closed L.names source) (htarget : s.Closed L.names target)
    {m n : Node} (hm : m.Closed L.names s) (hn : n.Closed L.names s) :
    Follows L s (shapes inner source target m n)
      (shapes inner' (L source) (L target) (m.mapIds L) (n.mapIds L)) := by
  have hempty : Follows L s (againstEmptyObject source target)
      (againstEmptyObject (L source) (L target)) := follows_againstEmptyObject hsource htarget
  have hfail := follows_mismatch hsource htarget
  cases m with
  | literal value => exact follows_literal hsource htarget value
  | intrinsic kind => exact follows_ite_iff (by simp) (fun _ => pure_plain) fun _ => hempty
  | template spans => exact follows_ite_iff L.rename.eq_string (fun _ => pure_plain) fun _ => hfail
  | param info =>
      have hconstraint : (info.mapIds L).constraint.getD .unknown =
          L (info.constraint.getD .unknown) := by
        cases hc : info.constraint with
        | none => simp [TypeParam.mapIds, hc, L.rename.fixed (rfl : TypeId.unknown.isFixed)]
        | some u => simp [TypeParam.mapIds, hc]
      simp only [Node.mapIds, shapes, hconstraint]
      refine follows_ite_iff L.rename.eq_unknown (fun _ => hfail) fun hne => ?_
      cases hc : info.constraint with
      | none => exact absurd (by rw [hc]; rfl) hne
      | some u =>
          have hu : s.Closed L.names u := hm.components u
            (List.mem_append_left _ (Option.mem_toList.mpr hc))
          exact follows_orFail (.typeMismatch source target)
            (hi s (.refl s) _ _ hu htarget) (ok_typeMismatch hsource htarget)
  | object o =>
      cases n with
      | object p => exact follows_checkObject hi hm hn
      | _ => exact hfail
  | function f =>
      cases n with
      | function g => exact follows_checkFunction hi hm hn
      | _ => exact hempty
  | array e =>
      cases n with
      | array d =>
          exact follows_orFail (.typeMismatch source target)
            (hi s (.refl s) _ _ (hm.components _ (by simp [Node.components]))
              (hn.components _ (by simp [Node.components]))) (ok_typeMismatch hsource htarget)
      | _ => exact hempty
  | _ => exact hfail

theorem follows_structures (hsource : s.Closed L.names source) (htarget : s.Closed L.names target) :
    Follows L s (structures inner source target) (structures inner' (L source) (L target)) := by
  refine bind_value (Runs.lift (follows_node hsource)) fun s₁ h₁ _ m hm => ?_
  refine bind_value (Runs.lift (follows_node (h₁.closed htarget))) fun s₂ h₂ hs₂ n hn => ?_
  have hm : m.Closed L.names s₂ := h₂.closedNode hm
  have hi := hi.mono (h₁.trans h₂)
  have hsource := (h₁.trans h₂).closed hsource
  have htarget := (h₁.trans h₂).closed htarget
  have hunion : ∀ members, n = .union members →
      Follows L s₂ (unionTarget inner source members)
        (unionTarget inner' (L source) (members.map L)) := by
    rintro members rfl
    exact follows_unionTarget hi hsource hn.components
  have hmeet : ∀ members, n = .intersection members →
      Follows L s₂ (members.allM (inner source)) ((members.map L).allM (inner' (L source))) := by
    rintro members rfl
    exact follows_allM_map fun t ht s₃ h₃ =>
      hi s₃ h₃ _ _ (h₃.closed hsource) (h₃.closed (hn.components t ht))
  cases m with
  | union members =>
      exact follows_allM_map fun t ht s₃ h₃ =>
        hi s₃ h₃ _ _ (h₃.closed (hm.components t ht)) (h₃.closed htarget)
  | intersection members =>
      cases n with
      | union others => exact hunion others rfl
      | intersection others => exact hmeet others rfl
      | _ => exact follows_intersectionSource hi hsource htarget hm.components
  | intrinsic kind =>
      cases n with
      | union others =>
          cases kind with
          | boolean =>
              have hliteral : ∀ s₃, s₂.Extends s₃ → s₃.Formed → ∀ u : TypeId, u.isFixed →
                  Follows L s₃ (inner u target) (inner' u (L target)) := by
                intro s₃ h₃ hs₃ u hu
                have h := hi s₃ h₃ u target (hs₃.closed_fixed hu) (h₃.closed htarget)
                rwa [L.rename.fixed hu] at h
              refine bind_value (hliteral s₂ (.refl _) hs₂ .trueLiteral rfl) fun s₃ h₃ hs₃ _ _ => ?_
              exact follows_ite (fun _ => hliteral s₃ h₃ hs₃ .falseLiteral rfl) fun _ => pure_plain
          | _ => exact hunion others rfl
      | intersection others =>
          cases kind with
          | _ => exact hmeet others rfl
      | _ => cases kind <;> exact follows_shapes hi hsource htarget hm hn
  | _ =>
      cases n with
      | union others => exact hunion others rfl
      | intersection others => exact hmeet others rfl
      | _ => exact follows_shapes hi hsource htarget hm hn

end shapes

theorem follows_resolve (hn : Resolves L s nested nested') (ht : s.Closed L.names t) :
    Follows L s (resolve nested t) (resolve nested' (L t)) := by
  refine bind_value (Runs.lift (follows_node ht)) fun s₁ h₁ _ n _ => ?_
  have ht₁ := h₁.closed ht
  refine follows_ite_iff (by simp) (fun _ => ?_) fun _ => pure_value ht₁
  refine Runs.bind (Runs.lift (hn s₁ h₁ t ht₁)) fun s₂ h₂ _ a b hab => ?_
  obtain ⟨result, e⟩ := a
  obtain ⟨result', e'⟩ := b
  obtain ⟨hresult, he⟩ := hab
  refine bind_value (follows_checkReports he.diagnostics) fun s₃ h₃ _ _ _ => ?_
  cases hresult with
  | ok h =>
      obtain ⟨rfl, hu⟩ := h
      exact pure_value (h₃.closed hu)
  | error _ => exact pure_value ((h₂.trans h₃).closed ht₁)

theorem follows_rules (hn : Resolves L s nested nested') (hi : Checks L s inner inner')
    (hsource : s.Closed L.names source) (htarget : s.Closed L.names target) :
    Follows L s (rules nested inner source target) (rules nested' inner' (L source) (L target)) := by
  unfold rules
  refine follows_ite_iff (by simp) (fun _ => pure_plain) fun _ => ?_
  refine follows_ite_iff (by simp) (fun _ => pure_plain) fun _ => ?_
  refine follows_ite_iff (by simp) (fun _ => follows_mismatch hsource htarget) fun _ => ?_
  refine follows_ite_iff (by simp) (fun _ => pure_plain) fun _ => ?_
  refine bind_value (follows_resolve hn hsource) fun s₁ h₁ _ a ha => ?_
  refine bind_value (follows_resolve (hn.mono h₁) (h₁.closed htarget)) fun s₂ h₂ _ b hb => ?_
  have h₁₂ := h₁.trans h₂
  refine follows_ite_iff (by simp) (fun _ => ?_) fun _ => hi s₂ h₁₂ _ _ (h₂.closed ha) hb
  exact follows_structures (hi.mono h₁₂) (h₁₂.closed hsource) (h₁₂.closed htarget)

instance : Value P Recursion.Answer := Value.plain

theorem follows_checkEnter (pair : TypeId × TypeId) :
    Follows L s (enter pair) (enter (L.both pair)) := by
  intro c c' hc
  have hguard := Recursion.Guard.enter_map L.both_injective c.guard pair
  rw [← hc.guard] at hguard
  have hrun : enter (L.both pair) c' = (pure ((c.guard.enter pair).1,
      { c' with guard := (c.guard.enter pair).2.map L.both }) : Build _) := by
    change (pure ((c'.guard.enter (L.both pair)).1,
      { c' with guard := (c'.guard.enter (L.both pair)).2 }) : Build _) = _
    rw [hguard]
  rw [hrun]
  exact Runs.pure ⟨⟨rfl, trivial⟩, { hc with guard := rfl }⟩

theorem follows_checkLeave (pair : TypeId × TypeId) :
    Follows L s (leave pair) (leave (L.both pair)) :=
  follows_modify fun c _ hc => { hc with
    guard := (congrArg (·.leave (L.both pair)) hc.guard).trans
      (Recursion.Guard.leave_map L.both_injective c.guard pair) }

theorem follows_checkDepthExceeded (hsource : s.Closed L.names source) :
    Follows L s (Check.reportDepthExceeded source) (Check.reportDepthExceeded (L source)) := by
  refine Runs.bind follows_get fun s₁ h₁ _ c c' hc => ?_
  rw [hc.depthReported]
  refine follows_ite (fun _ => pure_plain) fun _ => ?_
  refine bind_value (follows_modify fun _ _ hc => { hc with depthReported := rfl })
    fun s₂ h₂ _ _ _ => ?_
  refine Runs.bind follows_get fun s₃ h₃ _ c c' hc => ?_
  have hsource := ((h₁.trans h₂).trans h₃).closed hsource
  refine Runs.bind (Runs.lift (follows_origin (p := .type source) hsource))
    fun s₄ _ _ site site' hsite => follows_checkReport fun hexact => ?_
  rw [hsite hexact, hc.guard]
  rfl

theorem follows_work (hi : Checks L s inner inner') (hsource : s.Closed L.names source)
    (htarget : s.Closed L.names target) :
    Follows L s (work inner source target) (work inner' (L source) (L target)) := by
  refine bind_value (hi s (.refl s) _ _ hsource htarget) fun s₁ _ _ result _ => ?_
  refine bind_value (follows_checkLeave (source, target)) fun s₂ _ _ _ _ => ?_
  refine follows_ite (fun _ => pure_plain) fun _ => ?_
  refine bind_value (follows_modify fun c c' hc => ?_) fun s₃ _ _ _ _ => pure_plain
  refine { hc with failures := fun x => ?_ }
  simp only [Std.HashSet.contains_insert, hc.failures]
  congr 1
  exact Bool.eq_iff_iff.mpr (by simpa using L.both_injective.eq_iff (a := (source, target)) (b := x))

theorem follows_pair (hi : Checks L s inner inner') (hsource : s.Closed L.names source)
    (htarget : s.Closed L.names target) :
    Follows L s (pair inner source target) (pair inner' (L source) (L target)) := by
  unfold pair
  refine follows_ite_iff L.rename.eq_iff (fun _ => pure_plain) fun _ => ?_
  refine Runs.bind follows_get fun s₁ h₁ _ c c' hc => ?_
  have hfailures := hc.failures (source, target)
  rw [hfailures]
  refine follows_ite (fun _ => follows_mismatch (h₁.closed hsource) (h₁.closed htarget))
    fun _ => ?_
  refine bind_value (follows_checkEnter (source, target)) fun s₂ h₂ _ answer _ => ?_
  have h₁₂ := h₁.trans h₂
  have hsource := h₁₂.closed hsource
  have htarget := h₁₂.closed htarget
  have hexceeded : Follows L s₂
      (do Check.reportDepthExceeded source; fail (.typeMismatch source target))
      (do Check.reportDepthExceeded (L source); fail (.typeMismatch (L source) (L target))) :=
    bind_value (follows_checkDepthExceeded hsource) fun s₃ h₃ _ _ _ =>
      follows_mismatch (h₃.closed hsource) (h₃.closed htarget)
  cases answer with
  | entered => exact follows_work (hi.mono h₁₂) hsource htarget
  | cycle => exact pure_plain
  | depthExceeded => exact hexceeded
  | iterationExceeded => exact hexceeded

theorem checks_subtypeAt (hn : Resolves L s nested nested') (depth : Nat) :
    Checks L s (subtypeAt nested depth) (subtypeAt nested' depth) := by
  induction depth with
  | zero =>
      intro s₁ h₁ source target hsource htarget
      exact follows_pair (fun s₂ _ a b ha hb => follows_mismatch ha hb) hsource htarget
  | succ depth ih =>
      intro s₁ h₁ source target hsource htarget
      refine follows_pair (fun s₂ h₂ a b ha hb => ?_) hsource htarget
      exact follows_rules (hn.mono (h₁.trans h₂)) (ih.mono (h₁.trans h₂)) ha hb

theorem follows_checkIsAssignable (hn : Resolves L s nested nested') (hsource : s.Closed L.names source)
    (htarget : s.Closed L.names target) :
    Follows L s (Check.isAssignable nested source target)
      (Check.isAssignable nested' (L source) (L target)) := by
  refine bind_value (follows_restoreFailure .none) fun s₁ h₁ _ _ _ => ?_
  refine Runs.bind follows_get fun s₂ h₂ _ c c' hc => ?_
  have h₁₂ := h₁.trans h₂
  rw [hc.guard]
  exact checks_subtypeAt hn _ s₂ h₁₂ _ _ (h₁₂.closed hsource) (h₁₂.closed htarget)

end checks

end Replay

end TypeResolution
