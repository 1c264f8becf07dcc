import TypeResolution.Proofs.Replay.Evaluation
import TypeResolution.Resolution

/-!
Verdicts, narrowing and the inference of type arguments follow, and so do the requests made of them.
-/

namespace TypeResolution

variable {P : String → Prop} {L : Replay.Link} {exact : Prop} {f : Renaming} {s s' : Store}
  {t : TypeId} {ts : List TypeId}

namespace Failure

theorem message_mirror (h : s.Mirrors exact f s') {reason : Failure}
    (hreason : ∀ t ∈ reason.types, s.Closed P t) :
    (reason.mapIds f).message s' = reason.message s := by
  have htext : ∀ t ∈ reason.types, s'.text (f t) = s.text t := fun t ht => h.text (hreason t ht)
  unfold message mapIds
  cases reason with
  | propertyTypeMismatch name source target | returnTypeMismatch source target
  | typeMismatch source target =>
      dsimp only
      rw [htext source (by simp [types]), htext target (by simp [types])]
  | noMatchingUnionMember source =>
      dsimp only
      rw [htext source (by simp [types])]
  | _ => dsimp only

theorem location?_mirror (h : s.Mirrors exact f s') (hexact : exact) (reason : Failure)
    {source target : TypeId} (hsource : s.Closed P source) (htarget : s.Closed P target) :
    (reason.mapIds f).location? s' (f source) (f target) = reason.location? s source target := by
  cases reason with
  | missingProperty name | optionalProperty name | propertyTypeMismatch name _ _ =>
      exact h.origin_eq hexact (.field target name) htarget.known
  | excessProperty name => exact h.origin_eq hexact (.field source name) hsource.known
  | _ => rfl

end Failure

namespace Narrowing

theorem typeofMatchAt_mirror (h : s.Mirrors exact f s') {kind : TypeofKind} {fuel : Nat}
    (ht : s.Closed P t) : typeofMatchAt s' kind fuel (f t) = typeofMatchAt s kind fuel t := by
  induction fuel generalizing t with
  | zero => rfl
  | succ fuel ih =>
      have hkind : ∀ n : Node, kindOf? (n.mapIds f) = kindOf? n := fun n => by
        cases n <;> rfl
      unfold typeofMatchAt
      rw [h.node ht]
      cases hn : s.node t with
      | param info =>
          simp only [Node.mapIds, TypeParam.mapIds]
          cases hc : info.constraint with
          | none => rfl
          | some u => exact ih (ht.of_mem_components hn (by simp [Node.components, hc]))
      | _ =>
          have hkind := hkind (s.node t)
          rw [hn] at hkind
          simp only [Node.mapIds] at hkind
          simp only [Node.mapIds, hkind]

theorem typeofMatchAt_eq (h : s.Extends s') {kind : TypeofKind} {fuel : Nat} (ht : s.Closed P t) :
    typeofMatchAt s' kind fuel t = typeofMatchAt s kind fuel t :=
  typeofMatchAt_mirror (.of_extends h) ht

theorem typeofMatchAt_eq_typeofMatch (hs : s.Formed) {kind : TypeofKind} {fuel : Nat}
    (h : t.index < fuel) : typeofMatchAt s kind fuel t = typeofMatch s kind t := by
  refine hs.walk_eq (typeofMatchAt s kind) (fun fuel fuel' t h => ?_) h
  unfold typeofMatchAt
  cases hn : s.node t with
  | param info =>
      cases hc : info.constraint with
      | none => simp only [hc]
      | some u =>
          simp only [hc]
          exact h u (by simp [hn, Node.components, hc])
  | _ => rfl

theorem typeofMatch_mirror (h : s.Mirrors exact f s') (hs : s.Formed) {kind : TypeofKind}
    (ht : s.Closed P t) : typeofMatch s' kind (f t) = typeofMatch s kind t :=
  (typeofMatchAt_mirror h ht).trans
    (typeofMatchAt_eq_typeofMatch hs (Nat.lt_succ_of_le f.index_le))

theorem truthiness_mirror (h : s.Mirrors exact f s') (ht : s.Closed P t) :
    truthiness s' (f t) = truthiness s t := by
  rw [truthiness, h.node ht, truthiness]
  cases s.node t <;> rfl

theorem truthiness_eq (h : s.Extends s') (ht : s.Closed P t) : truthiness s' t = truthiness s t :=
  truthiness_mirror (.of_extends h) ht

theorem presence_mapIds (f : TypeId → TypeId) (name : String) (n : Node) :
    presence name (n.mapIds f) = presence name n := by
  cases n with
  | object shape =>
      simp only [Node.mapIds, presence, shape.find?_mapIds]
      cases shape.find? name with
      | none => simp [ObjectShape.mapIds]
      | some x => rfl
  | _ => rfl

theorem unlike_map (f : Renaming) (literal t : TypeId) :
    unlike (f literal) (f t) = (unlike literal t).map f := by
  simp only [unlike, f.eq_iff, f.eq_boolean, f.eq_trueLiteral, f.eq_falseLiteral]
  split
  · rfl
  · split
    · exact congrArg some (f.fixed rfl).symm
    · split
      · exact congrArg some (f.fixed rfl).symm
      · rfl

end Narrowing

/-- The guard with other ids. -/
def TypeGuard.mapIds (f : TypeId → TypeId) : TypeGuard → TypeGuard
  | .literalEquality value => .literalEquality (f value)
  | .discriminant property value => .discriminant property (f value)
  | .predicate asserts => .predicate (f asserts)
  | guard => guard

theorem TypeGuard.mapIds_same (guard : TypeGuard) : guard.mapIds (fun t => t) = guard := by
  cases guard <;> rfl

namespace Replay

open Store

section verdict

open Check

instance : Paired L Verdict where
  Same _ a b := b.assignable = a.assignable ∧ (L.exact → b.reason = a.reason)
  mono _ h := h

theorem follows_checkAssignable {nested nested' : Nested} {source target : TypeId}
    (hn : Resolves L s nested nested') (hsource : s.Closed L.names source)
    (htarget : s.Closed L.names target) :
    Follows L s (Check.checkAssignable nested source target)
      (Check.checkAssignable nested' (L source) (L target)) := by
  refine bind_value (follows_checkIsAssignable hn hsource htarget) fun s₁ h₁ _ b _ => ?_
  refine follows_ite (fun _ => Runs.pure ⟨rfl, fun _ => rfl⟩) fun _ => ?_
  refine Runs.store fun s' hs' => ?_
  have hsource := h₁.closed hsource
  have htarget := h₁.closed htarget
  have hd : L.exact →
      (Diagnostic.of .notAssignable [s'.text (L source), s'.text (L target)]).withLocation
          (s'.origin? (.type (L source))) =
        (Diagnostic.of .notAssignable [s₁.text source, s₁.text target]).withLocation
          (s₁.origin? (.type source)) := fun hexact => by
    rw [hs'.text hsource, hs'.text htarget, ← hs'.origin_eq hexact (.type source) hsource.known]
    rfl
  refine follows_getThen fun c c' hc => ?_
  obtain ⟨hfailure, hok⟩ := hc.failure
  rw [hfailure]
  cases hreason : c.failure with
  | none => exact Runs.pure ⟨⟨rfl, fun hexact => congrArg some (hd hexact)⟩, hc⟩
  | some reason =>
      refine Runs.pure ⟨⟨rfl, fun hexact => congrArg some ?_⟩, hc⟩
      have hlocation := Failure.location?_mirror hs' hexact reason hsource htarget
      have hmessage := Failure.message_mirror hs' (hok reason hexact hreason)
      change Diagnostic.withRelated _ ((reason.mapIds L).location? s' (L source) (L target))
        ((reason.mapIds L).message s') = _
      rw [hd hexact, hlocation, hmessage]

end verdict

section evaluation

variable {env env' : Environment} (options : Options)

theorem follows_evalEvaluate (henv : Agree L s env env') (ht : s.Closed L.names t) :
    Follows L s (Eval.evaluate ⟨env, options⟩ t) (Eval.evaluate ⟨env', options⟩ (L t)) := by
  refine bind_value (α := Nat) ?_ fun s₁ h₁ _ depth _ => ?_
  · refine Runs.bind follows_evalGet fun s₁ _ _ e e' he => ?_
    rw [he.guard]
    exact pure_plain
  · exact evaluates_evaluateAt henv depth s₁ h₁ t (h₁.closed ht)

theorem follows_evaluateConditional (henv : Agree L s env env') {c : Conditional}
    (hc : (Node.conditional c).Closed L.names s) {σ : Substitution} (hσ : Ok L.names s σ) :
    Follows L s (Eval.evaluateConditional ⟨env, options⟩ c σ)
      (Eval.evaluateConditional ⟨env', options⟩ (c.mapIds L) (σ.mapIds L)) := by
  refine bind_value (Runs.lift (follows_intern hc)) fun s₁ h₁ _ raw hraw => ?_
  refine bind_value (Runs.lift (follows_instantiate (Value.mono h₁ hσ) hraw)) fun s₂ h₂ _ u hu => ?_
  exact follows_evalEvaluate options (henv.mono (h₁.trans h₂)) hu

theorem follows_evaluateMapped (henv : Agree L s env env') {m : Mapped}
    (hm : (Node.mapped m).Closed L.names s) {σ : Substitution} (hσ : Ok L.names s σ) :
    Follows L s (Eval.evaluateMapped ⟨env, options⟩ m σ)
      (Eval.evaluateMapped ⟨env', options⟩ (m.mapIds L) (σ.mapIds L)) := by
  refine bind_value (Runs.lift (follows_intern hm)) fun s₁ h₁ _ raw hraw => ?_
  refine bind_value (Runs.lift (follows_instantiate (Value.mono h₁ hσ) hraw)) fun s₂ h₂ _ u hu => ?_
  exact follows_evalEvaluate options (henv.mono (h₁.trans h₂)) hu

theorem resolves_setting (henv : Agree L s env env') (depth : Nat) :
    Resolves L s (Setting.nested ⟨env, options⟩ depth) (Setting.nested ⟨env', options⟩ depth) :=
  fun s₁ h₁ t ht => evaluates_evaluateAt henv _ s₁ h₁ t ht _ _ (.fresh options depth fun _ => rfl)

end evaluation

section narrowing

open Narrowing

variable {env env' : Environment} {options : Options} {branch : Branch}

/-- Diagnostics are added one by one. -/
theorem follows_additions (add : Diagnostic → Array Diagnostic → Array Diagnostic)
    {ds ds' : Array Diagnostic} (hds : L.exact → ds' = ds) :
    Follows L s (ds.forM fun d => (modify (add d) : Reporting PUnit))
      (ds'.forM fun d => modify (add d)) := by
  by_cases hexact : L.exact
  · rw [hds hexact]
    refine follows_arrayForM fun d s₁ _ => follows_modify fun x y hxy _ => ?_
    rw [hxy hexact]
  · exact follows_arrayForM_quiet
      (fun _ _ _ _ _ => Runs.pure ⟨⟨rfl, trivial⟩, fun h => absurd h hexact⟩)
      fun _ _ _ _ _ => Runs.pure ⟨⟨rfl, trivial⟩, fun h => absurd h hexact⟩

theorem follows_narrowingResolve (henv : Agree L s env env') (ht : s.Closed L.names t) :
    Follows L s (resolve ⟨env, options⟩ t) (resolve ⟨env', options⟩ (L t)) := by
  refine follows_ite_iff (by simp) (fun _ => pure_value ht) fun _ => ?_
  have hrun := follows_evalEvaluate options henv ht
  refine Runs.bind (Runs.lift (hrun _ _ (.fresh options 0 fun _ => rfl)))
    fun s₁ h₁ _ a b hab => ?_
  obtain ⟨result, e⟩ := a
  obtain ⟨result', e'⟩ := b
  obtain ⟨hresult, he⟩ := hab
  refine bind_value (follows_additions (fun d ds => ds.push d) he.diagnostics)
    fun s₂ h₂ _ _ _ => ?_
  cases hresult with
  | ok h =>
      obtain ⟨rfl, hu⟩ := h
      exact pure_value (h₂.closed hu)
  | error _ => exact pure_value ((h₁.trans h₂).closed ht)

theorem follows_narrowingIsAssignable (henv : Agree L s env env') {source target : TypeId}
    (hsource : s.Closed L.names source) (htarget : s.Closed L.names target) :
    Follows L s (Narrowing.isAssignable ⟨env, options⟩ source target)
      (Narrowing.isAssignable ⟨env', options⟩ (L source) (L target)) := by
  have hrun := follows_checkIsAssignable
    (resolves_setting { options with excessPropertyCheck := false } henv 0) hsource htarget
  refine Runs.bind (Runs.lift (hrun _ _ (.fresh _))) fun s₁ _ _ a b hab => ?_
  obtain ⟨result, c⟩ := a
  obtain ⟨result', c'⟩ := b
  obtain ⟨⟨rfl, _⟩, hc⟩ := hab
  exact bind_value (follows_additions (fun d ds => if ds.contains d then ds else ds.push d)
    hc.diagnostics) fun s₂ _ _ _ _ => pure_plain

theorem isFixed_of_primitive? {kind : TypeofKind} {u : TypeId} (h : kind.primitive? = some u) :
    u.isFixed := by
  cases kind <;> cases h <;> rfl

theorem follows_cutToKind {kind : TypeofKind} (ht : s.Closed L.names t) :
    Follows L s (cutToKind kind t) (cutToKind kind (L t)) := by
  refine Runs.ofFormed fun hs => ?_
  unfold cutToKind
  cases hk : kind.primitive? with
  | none => exact pure_value ht
  | some u =>
      have hu := isFixed_of_primitive? hk
      have hmeet := follows_rawIntersection (L := L) (closed_pair ht (hs.closed_fixed hu))
      rwa [List.map_cons, List.map_singleton, L.rename.fixed hu] at hmeet

theorem follows_ofKind {kind : TypeofKind} (ht : s.Closed L.names t) :
    Follows L s (ofKind kind t) (ofKind kind (L t)) := by
  refine Runs.ofFormed fun hs => ?_
  unfold ofKind
  cases hk : kind.primitive? with
  | some u => exact pure_fixed hs (isFixed_of_primitive? hk)
  | none =>
      refine follows_ite (fun _ => ?_) fun _ => pure_value ht
      refine bind_value (follows_object (o := ⟨[], none⟩) (by simp) (by simp))
        fun s₁ _ hs₁ u hu => ?_
      have hunion := follows_union (L := L) (closed_pair hu (hs₁.closed_fixed (rfl : TypeId.null.isFixed)))
      rwa [List.map_cons, List.map_singleton, L.rename.fixed (rfl : TypeId.null.isFixed)] at hunion

/-- The members that pass a test are treated one by one and joined. -/
theorem follows_judged {judge judge' : TypeId → Match} {step step' : TypeId × Match → Build TypeId}
    (hts : ∀ t ∈ ts, s.Closed L.names t) (hjudge : ∀ t ∈ ts, judge' (L t) = judge t)
    (hstep : ∀ s₁ x, s.Extends s₁ → s₁.Closed L.names x.1 →
      Follows L s₁ (step x) (step' (L x.1, x.2))) :
    Follows L s
      (do
        let narrowed ← ((ts.map fun m => (m, judge m)).filter (·.2.keeps branch)).mapM step
        Build.union narrowed : Build TypeId)
      (do
        let narrowed ← (((ts.map L).map fun m => (m, judge' m)).filter (·.2.keeps branch)).mapM step'
        Build.union narrowed) := by
  have hjudged : (ts.map L).map (fun m => (m, judge' m)) =
      (ts.map fun m => (m, judge m)).map fun x => (L x.1, x.2) := by
    rw [List.map_map, List.map_map]
    exact List.map_congr_left fun t ht => Prod.ext rfl (hjudge t ht)
  have hkept : ((ts.map L).map fun m => (m, judge' m)).filter (·.2.keeps branch) =
      ((ts.map fun m => (m, judge m)).filter (·.2.keeps branch)).map fun x => (L x.1, x.2) := by
    rw [hjudged]
    exact filter_map_congr fun _ _ => rfl
  rw [hkept]
  refine bind_value (follows_mapM_map fun x hx s₁ h₁ => hstep s₁ x h₁ ?_) fun s₁ _ _ us hus =>
    follows_union hus
  obtain ⟨t, ht, rfl⟩ := List.mem_map.mp (List.mem_of_mem_filter hx)
  exact h₁.closed (hts t ht)

theorem follows_byTypeof {kind : TypeofKind} (ht : s.Closed L.names t) :
    Follows L s (byTypeof kind branch t) (byTypeof kind branch (L t)) := by
  refine Runs.ofFormed fun hs => ?_
  unfold byTypeof
  refine follows_ite_iff (by simp) (fun _ => ?_) fun _ => ?_
  · exact follows_ite (fun _ => follows_ofKind ht) fun _ => pure_value ht
  · refine Runs.store (M := Build) fun s' hs' => ?_
    rw [hs'.unionMembers ht]
    refine follows_judged (fun u hu => closed_of_mem_unionMembers ht hu)
      (fun u hu => typeofMatch_mirror hs' hs (closed_of_mem_unionMembers ht hu)) fun s₁ x _ hx => ?_
    exact follows_ite (fun _ => follows_cutToKind hx) fun _ => pure_value hx

theorem follows_cutToTruth (ht : s.Closed L.names t) :
    Follows L s (cutToTruth branch t) (cutToTruth branch (L t)) := by
  refine Runs.ofFormed fun hs => ?_
  have hboolean : ∀ u : TypeId, u.isFixed → Follows L s
      (pure (if t = .boolean then u else t) : Build TypeId)
      (pure (if L t = .boolean then u else L t)) := by
    intro u hu
    simp only [L.rename.eq_boolean]
    split
    · exact pure_fixed hs hu
    · exact pure_value ht
  unfold cutToTruth
  refine follows_ite (fun _ => hboolean .trueLiteral rfl) fun _ => ?_
  refine follows_ite_iff L.rename.eq_string (fun _ => follows_stringLiteral "") fun _ => ?_
  refine follows_ite_iff L.rename.eq_number (fun _ => ?_) fun _ => hboolean .falseLiteral rfl
  exact follows_leaf (n := .literal (.number Number.zero.canonical)) (by simp) rfl

theorem follows_byTruth (ht : s.Closed L.names t) :
    Follows L s (byTruth branch t) (byTruth branch (L t)) := by
  refine Runs.store (M := Build) fun s' hs' => ?_
  rw [hs'.unionMembers ht]
  refine follows_judged (fun u hu => closed_of_mem_unionMembers ht hu)
    (fun u hu => truthiness_mirror hs' (closed_of_mem_unionMembers ht hu)) fun s₁ x _ hx => ?_
  exact follows_ite (fun _ => follows_cutToTruth hx) fun _ => pure_value hx

theorem follows_filterM {M : Type → Type} [Monad M] [LawfulMonad M] [MonadLiftT Build M] [Runs L M]
    {f f' : TypeId → M Bool} (h : ∀ a ∈ ts, ∀ s₁, s.Extends s₁ → Follows L s₁ (f a) (f' (L a)))
    (hts : ∀ t ∈ ts, s.Closed L.names t) :
    Follows L s (ts.filterM f) ((ts.map L).filterM f') := by
  have haux : ∀ (l done : List TypeId) (s : Store), (∀ a ∈ l, ∀ s₁, s.Extends s₁ →
      Follows L s₁ (f a) (f' (L a))) → (∀ t ∈ l, s.Closed L.names t) →
      (∀ t ∈ done, s.Closed L.names t) →
      Follows L s (l.filterAuxM f done) ((l.map L).filterAuxM f' (done.map L)) := by
    intro l
    induction l with
    | nil => exact fun done s _ _ hdone => pure_value hdone
    | cons a rest ih =>
        intro done s h hl hdone
        simp only [List.filterAuxM, List.map_cons]
        refine bind_value (h a (by simp) s (.refl s)) fun s₁ h₁ _ b _ => ?_
        have hdone' : (match L.image b with | true => L a :: done.map L | false => done.map L) =
            (match b with | true => a :: done | false => done).map L := by
          cases b <;> rfl
        have hcond : (bif L.image b then L a :: done.map L else done.map L) =
            (bif b then a :: done else done).map L := by
          cases b <;> rfl
        rw [hcond]
        refine ih _ s₁ (fun c hc s₂ h₂ => h c (by simp [hc]) s₂ (h₁.trans h₂))
          (fun c hc => h₁.closed (hl c (by simp [hc]))) fun c hc => ?_
        cases b with
        | false => exact h₁.closed (hdone c hc)
        | true =>
            rcases List.mem_cons.mp hc with rfl | hc
            · exact h₁.closed (hl c (by simp))
            · exact h₁.closed (hdone c hc)
  refine bind_value (haux ts [] s h hts (by simp)) fun s₁ _ _ us hus => ?_
  rw [image_types, ← List.map_reverse]
  exact pure_value fun u hu => hus u (List.mem_reverse.mp hu)

theorem closed_unlike (hs : s.Formed) (ht : s.Closed P t) {literal u : TypeId}
    (h : unlike literal t = some u) : s.Closed P u := by
  unfold unlike at h
  split at h
  · cases h
  split at h
  · cases h
    exact hs.closed_fixed rfl
  split at h
  · cases h
    exact hs.closed_fixed rfl
  · cases h
    exact ht

theorem follows_byLiteral (henv : Agree L s env env') {literal : TypeId}
    (hliteral : s.Closed L.names literal) (ht : s.Closed L.names t) :
    Follows L s (byLiteral ⟨env, options⟩ literal branch t)
      (byLiteral ⟨env', options⟩ (L literal) branch (L t)) := by
  refine Runs.ofFormed fun hs => ?_
  unfold byLiteral
  refine follows_ite_iff (by simp) (fun _ => ?_) fun _ => ?_
  · split
    · exact pure_value hliteral
    · exact pure_value ht
  refine Runs.store fun s' hs' => ?_
  rw [hs'.unionMembers ht]
  have hmembers : ∀ u ∈ s.unionMembers t, s.Closed L.names u :=
    fun u hu => closed_of_mem_unionMembers ht hu
  refine follows_ite (fun _ => ?_) fun _ => ?_
  · refine bind_value (follows_filterM (fun u hu s₁ h₁ => ?_) hmembers) fun s₁ h₁ _ kept _ => ?_
    · refine follows_ite_iff L.rename.eq_iff (fun _ => pure_plain) fun _ => ?_
      exact follows_narrowingIsAssignable (henv.mono h₁) (h₁.closed hliteral)
        (h₁.closed (hmembers u hu))
    · have hliterals : (L.image kept).map (fun _ => L literal) =
          (kept.map fun _ => literal).map L := by
        rw [image_types, List.map_map, List.map_map]
        rfl
      rw [hliterals]
      refine Runs.lift (follows_union fun u hu => ?_)
      obtain ⟨_, _, rfl⟩ := List.mem_map.mp hu
      exact h₁.closed hliteral
  · have hrest : ((s.unionMembers t).map L).filterMap (unlike (L literal)) =
        ((s.unionMembers t).filterMap (unlike literal)).map L :=
      filterMap_map_congr fun u _ => unlike_map L.rename literal u
    rw [hrest]
    refine Runs.lift (follows_union fun u hu => ?_)
    obtain ⟨v, hv, hu⟩ := List.mem_filterMap.mp hu
    exact closed_unlike hs (hmembers v hv) hu

theorem follows_byNullish (ht : s.Closed L.names t) :
    Follows L s (byNullish branch t) (byNullish branch (L t)) := by
  refine Runs.ofFormed fun hs => ?_
  unfold byNullish
  refine follows_ite_iff (by simp) (fun _ => ?_) fun _ => ?_
  · have hnullish := follows_union (L := L) (closed_pair
      (hs.closed_fixed (rfl : TypeId.null.isFixed)) (hs.closed_fixed (rfl : TypeId.undefined.isFixed)))
    rw [List.map_cons, List.map_singleton, L.rename.fixed (rfl : TypeId.null.isFixed),
      L.rename.fixed (rfl : TypeId.undefined.isFixed)] at hnullish
    exact follows_ite (fun _ => hnullish) fun _ => pure_value ht
  · refine Runs.store (M := Build) fun s' hs' => ?_
    rw [hs'.unionMembers ht]
    have hmembers : ((s.unionMembers t).map L).filter (fun m => m.isNullish = branch.isTrue) =
        ((s.unionMembers t).filter fun m => m.isNullish = branch.isTrue).map L :=
      filter_map_congr fun u _ => by simp only [Renaming.isNullish]
    dsimp only
    rw [hmembers]
    exact follows_union fun u hu => closed_of_mem_unionMembers ht (List.mem_of_mem_filter hu)

theorem follows_agrees (henv : Agree L s env env') {value c : TypeId}
    (hvalue : s.Closed L.names value) (hc : s.Closed L.names c) :
    Follows L s (agrees ⟨env, options⟩ value branch c)
      (agrees ⟨env', options⟩ (L value) branch (L c)) := by
  refine follows_ite (fun _ => ?_) fun _ => ?_
  · simp only [ne_eq, L.rename.eq_iff]
    exact pure_plain
  refine follows_ite_iff L.rename.eq_iff (fun _ => pure_plain) fun _ => ?_
  refine bind_value (follows_narrowingIsAssignable henv hvalue hc) fun s₁ h₁ _ _ _ => ?_
  refine follows_ite (fun _ => pure_plain) fun _ => ?_
  exact follows_narrowingIsAssignable (henv.mono h₁) (h₁.closed hc) (h₁.closed hvalue)

theorem follows_withFieldType {o : ObjectShape} {name : String}
    (ho : (∀ f ∈ o.fields, s.Closed L.names f.type) ∧ ∀ u, o.stringIndex = some u → s.Closed L.names u)
    (ht : s.Closed L.names t) :
    Follows L s (withFieldType o name t) (withFieldType (o.mapIds L) name (L t)) := by
  have hfields : (o.mapIds L).fields.map (fun f => if f.name = name then { f with type := L t } else f) =
      (o.fields.map fun f => if f.name = name then { f with type := t } else f).map
        (·.mapIds L) := by
    rw [ObjectShape.mapIds, List.map_map, List.map_map]
    refine List.map_congr_left fun f _ => ?_
    simp only [Function.comp_apply, Field.mapIds]
    split <;> rfl
  unfold withFieldType
  rw [hfields]
  refine follows_object (o := { o with
    fields := o.fields.map fun f => if f.name = name then { f with type := t } else f })
    (fun f hf => ?_) ho.2
  obtain ⟨g, hg, rfl⟩ := List.mem_map.mp hf
  split
  · exact ht
  · exact ho.1 g hg

theorem follows_discriminate (henv : Agree L s env env') {property : String} {value : TypeId}
    (hvalue : s.Closed L.names value) (ht : s.Closed L.names t) :
    Follows L s (discriminate ⟨env, options⟩ property value branch t)
      (discriminate ⟨env', options⟩ property (L value) branch (L t)) := by
  have hkeep : ∀ s₁ (u : TypeId), s₁.Closed L.names u →
      Follows L s₁ (pure (some u) : Reporting (Option TypeId)) (pure (some (L u))) := by
    refine fun s₁ u hu => pure_value (a := some u) ?_
    rintro _ ⟨⟩
    exact hu
  have hnone : ∀ s₁, Follows L s₁ (pure none : Reporting (Option TypeId)) (pure none) :=
    fun s₁ => pure_value (a := none) (by simp [Ok])
  have hdrop : Follows L s (pure (if branch.isTrue then none else some t) : Reporting (Option TypeId))
      (pure (if branch.isTrue then none else some (L t))) := by
    split
    · exact hnone s
    · exact hkeep s t ht
  refine Runs.store fun s' hs' => ?_
  rw [hs'.objectShape? ht]
  cases ho : s.objectShape? t with
  | none => exact hdrop
  | some o =>
      have hclosed := closed_of_objectShape? ht ho
      simp only [Option.map_some, Option.bind_some, o.find?_mapIds]
      cases hf : o.find? property with
      | none => exact hdrop
      | some f =>
          have hfield := hclosed.1 f (List.mem_of_find?_eq_some hf)
          refine bind_value (follows_narrowingResolve henv hfield) fun s₁ h₁ _ u hu => ?_
          refine Runs.store fun s' hs' => ?_
          rw [image_type, hs'.unionMembers hu]
          have hparts : ∀ v ∈ s₁.unionMembers u, s₁.Closed L.names v :=
            fun v hv => closed_of_mem_unionMembers hu hv
          refine bind_value (follows_filterM (fun v hv s₂ h₂ => ?_) hparts)
            fun s₂ h₂ _ fitting hfit => ?_
          · have h₁₂ := h₁.trans h₂
            exact follows_agrees (henv.mono h₁₂) (h₁₂.closed hvalue) (h₂.closed (hparts v hv))
          have h₁₂ := h₁.trans h₂
          refine follows_ite_iff (by simp) (fun _ => hnone s₂) fun _ => ?_
          refine follows_ite_iff (by simp) (fun _ => hkeep s₂ t (h₁₂.closed ht)) fun _ => ?_
          · refine bind_value (Runs.lift (follows_union hfit)) fun s₃ h₃ _ v hv => ?_
            have h₁₃ := h₁₂.trans h₃
            refine bind_value (Runs.lift (follows_withFieldType
              ⟨fun g hg => h₁₃.closed (hclosed.1 g hg), fun w hw => h₁₃.closed (hclosed.2 w hw)⟩ hv))
              fun s₄ _ _ w hw => hkeep s₄ w hw

theorem filterMap_image (kept : List (Option TypeId)) :
    (L.image kept).filterMap id = (kept.filterMap id).map L :=
  filterMap_map_congr fun _ _ => rfl

theorem closed_of_mem_kept {kept : List (Option TypeId)} (h : Ok P s kept) :
    ∀ u ∈ kept.filterMap id, s.Closed P u := by
  intro u hu
  obtain ⟨o, ho, rfl⟩ := List.mem_filterMap.mp hu
  exact h _ ho u rfl

theorem follows_byDiscriminant (henv : Agree L s env env') {property : String}
    {value : TypeId} (hvalue : s.Closed L.names value) (ht : s.Closed L.names t) :
    Follows L s (byDiscriminant ⟨env, options⟩ property value branch t)
      (byDiscriminant ⟨env', options⟩ property (L value) branch (L t)) := by
  refine Runs.store fun s' hs' => ?_
  rw [hs'.unionMembers ht]
  refine bind_value (follows_mapM_map fun u hu s₁ h₁ => ?_) fun s₁ _ _ kept hkept => ?_
  · exact follows_discriminate (henv.mono h₁) (h₁.closed hvalue)
      (h₁.closed (closed_of_mem_unionMembers ht hu))
  · rw [filterMap_image]
    exact Runs.lift (follows_union (closed_of_mem_kept hkept))

theorem follows_byPresence {name : String} (ht : s.Closed L.names t) :
    Follows L s (byPresence name branch t) (byPresence name branch (L t)) := by
  unfold byPresence
  refine follows_ite_iff (by simp) (fun _ => pure_value ht) fun _ => ?_
  refine Runs.store (M := Build) fun s' hs' => ?_
  have hkept : (s'.unionMembers (L t)).filter (fun m => (presence name (s'.node m)).keeps branch) =
      ((s.unionMembers t).filter fun m => (presence name (s.node m)).keeps branch).map L := by
    rw [hs'.unionMembers ht]
    refine filter_map_congr fun u hu => ?_
    rw [hs'.node (closed_of_mem_unionMembers ht hu), presence_mapIds]
  simp only [hkept]
  exact follows_union fun u hu => closed_of_mem_unionMembers ht (List.mem_of_mem_filter hu)

theorem follows_buildIntersection (h : ∀ t ∈ ts, s.Closed L.names t) :
    Follows L s (Build.intersection ts) (Build.intersection (ts.map L)) := by
  have hrun : Follows L s (Reporting.intersection none ts) (Reporting.intersection none (ts.map L)) :=
    follows_intersection (fun _ => rfl) h
  have hstart : Same L s (#[] : Array Diagnostic) #[] := fun _ => rfl
  exact Runs.bind (follows_run hrun hstart) fun s₁ _ _ a b hab => Runs.pure hab.1

theorem follows_mayOverlap {u : TypeId} (ht : s.Closed L.names t) (hu : s.Closed L.names u) :
    Follows L s (mayOverlap t u) (mayOverlap (L t) (L u)) := by
  refine bind_value (follows_buildIntersection (closed_pair ht hu))
    fun s₁ _ _ v hv => ?_
  refine follows_ite_iff L.rename.eq_never (fun _ => pure_plain) fun _ => ?_
  refine Runs.store (M := Build) fun s' hs' => ?_
  rw [image_type, hs'.objectShape? hv]
  cases s₁.objectShape? v with
  | none => exact pure_plain
  | some o =>
      have hfields : (o.mapIds L).fields.any (fun f => f.type = .never && !f.optional) =
          o.fields.any fun f => f.type = .never && !f.optional :=
        any_map_congr fun f _ => by simp only [Field.mapIds, L.rename.eq_never]
      simp only [Option.map_some, hfields]
      exact pure_plain

theorem follows_asserted (henv : Agree L s env env') {asserts : TypeId}
    (hasserts : s.Closed L.names asserts) (ht : s.Closed L.names t) :
    Follows L s (asserted ⟨env, options⟩ asserts t)
      (asserted ⟨env', options⟩ (L asserts) (L t)) := by
  have hkeep : ∀ (s₁ : Store) (u : TypeId), s₁.Closed L.names u →
      Follows L s₁ (pure (some u) : Reporting (Option TypeId)) (pure (some (L u))) := by
    refine fun s₁ u hu => pure_value (a := some u) ?_
    rintro _ ⟨⟩
    exact hu
  refine bind_value (follows_narrowingIsAssignable henv ht hasserts) fun s₁ h₁ _ _ _ => ?_
  refine follows_ite (fun _ => hkeep _ _ (h₁.closed ht)) fun _ => ?_
  refine bind_value (follows_narrowingIsAssignable (henv.mono h₁) (h₁.closed hasserts)
    (h₁.closed ht)) fun s₂ h₂ _ _ _ => ?_
  have h₁₂ := h₁.trans h₂
  refine follows_ite (fun _ => hkeep _ _ (h₁₂.closed hasserts)) fun _ => ?_
  refine bind_value (Runs.lift (follows_mayOverlap (h₁₂.closed ht) (h₁₂.closed hasserts)))
    fun s₃ h₃ _ _ _ => ?_
  have h₁₃ := h₁₂.trans h₃
  refine follows_ite (fun _ => ?_) fun _ => pure_value (a := none) (by simp [Ok])
  exact bind_value (Runs.lift (follows_buildIntersection (closed_pair (h₁₃.closed ht)
    (h₁₃.closed hasserts)))) fun s₄ _ _ u hu => hkeep _ _ hu

theorem follows_excluded (henv : Agree L s env env') {asserts : TypeId}
    (hasserts : s.Closed L.names asserts) (hts : ∀ t ∈ ts, s.Closed L.names t) :
    Follows L s (excluded ⟨env, options⟩ asserts ts)
      (excluded ⟨env', options⟩ (L asserts) (ts.map L)) := by
  induction ts generalizing s with
  | nil =>
      refine pure_value (a := some []) ?_
      rintro _ ⟨⟩
      simp [Ok]
  | cons t rest ih =>
      obtain ⟨ht, hrest⟩ := List.forall_mem_cons.mp hts
      have hnext : ∀ s₁, s.Extends s₁ →
          Follows L s₁ (excluded ⟨env, options⟩ asserts rest)
            (excluded ⟨env', options⟩ (L asserts) (rest.map L)) :=
        fun s₁ h₁ => ih (henv.mono h₁) (h₁.closed hasserts) fun u hu => h₁.closed (hrest u hu)
      refine bind_value (follows_narrowingIsAssignable henv ht hasserts) fun s₁ h₁ _ _ _ => ?_
      refine follows_ite (fun _ => hnext s₁ h₁) fun _ => ?_
      refine bind_value (Runs.lift (follows_mayOverlap (h₁.closed ht) (h₁.closed hasserts)))
        fun s₂ h₂ _ _ _ => ?_
      have h₁₂ := h₁.trans h₂
      refine follows_ite (fun _ => pure_value (a := none) (by simp [Ok])) fun _ => ?_
      refine bind_value (hnext s₂ h₁₂) fun s₃ h₃ _ o ho => ?_
      have himage : (L.image o).map (L t :: ·) = L.image (o.map (t :: ·)) := by
        cases o <;> rfl
      rw [himage]
      refine pure_value ?_
      intro l hl
      obtain ⟨us, rfl, rfl⟩ := Option.map_eq_some_iff.mp hl
      exact List.forall_mem_cons.mpr ⟨(h₁₂.trans h₃).closed ht, ho us rfl⟩

theorem follows_byPredicate (henv : Agree L s env env') {asserts : TypeId}
    (hasserts : s.Closed L.names asserts) (ht : s.Closed L.names t) :
    Follows L s (byPredicate ⟨env, options⟩ asserts branch t)
      (byPredicate ⟨env', options⟩ (L asserts) branch (L t)) := by
  unfold byPredicate
  refine follows_ite_iff (by simp) (fun _ => ?_) fun _ => ?_
  · split
    · exact pure_value hasserts
    · exact pure_value ht
  refine Runs.store fun s' hs' => ?_
  rw [hs'.unionMembers ht]
  have hmembers : ∀ u ∈ s.unionMembers t, s.Closed L.names u :=
    fun u hu => closed_of_mem_unionMembers ht hu
  refine follows_ite (fun _ => ?_) fun _ => ?_
  · refine bind_value (follows_mapM_map fun u hu s₁ h₁ => ?_) fun s₁ _ _ kept hkept => ?_
    · exact follows_asserted (henv.mono h₁) (h₁.closed hasserts) (h₁.closed (hmembers u hu))
    · rw [filterMap_image]
      exact Runs.lift (follows_union (closed_of_mem_kept hkept))
  · refine bind_value (follows_excluded henv hasserts hmembers) fun s₁ h₁ _ o ho => ?_
    cases o with
    | some kept => exact Runs.lift (follows_union (ho kept rfl))
    | none =>
        refine Runs.store fun s' hs' => ?_
        refine bind_value (follows_report fun hexact => ?_) fun s₂ h₂ _ _ _ =>
          pure_value ((h₁.trans h₂).closed ht)
        have ht := h₁.closed ht
        rw [hs'.text (h₁.closed hasserts), hs'.text ht, ← hs'.origin_eq hexact (.type t) ht.known]
        rfl

/-- The types of a guard are types of the store. -/
instance : Value P TypeGuard where
  image := TypeGuard.mapIds
  Ok s guard := match guard with
    | .literalEquality value | .discriminant _ value | .predicate value => s.Closed P value
    | _ => True
  mono {s s' guard} h hg := by
    cases guard with
    | literalEquality | discriminant | predicate => exact h.closed hg
    | _ => exact trivial
  image_same := TypeGuard.mapIds_same

theorem follows_narrow (henv : Agree L s env env') {guard : TypeGuard}
    (hguard : Ok L.names s guard) (ht : s.Closed L.names t) :
    Follows L s (Narrowing.narrow ⟨env, options⟩ t guard branch)
      (Narrowing.narrow ⟨env', options⟩ (L t) (guard.mapIds L) branch) := by
  refine bind_value (follows_narrowingResolve henv ht) fun s₁ h₁ _ u hu => ?_
  have henv₁ := henv.mono h₁
  cases guard with
  | typeof kind => exact Runs.lift (follows_byTypeof hu)
  | literalEquality value => exact follows_byLiteral henv₁ (h₁.closed hguard) hu
  | nullishEquality => exact Runs.lift (follows_byNullish hu)
  | truthy => exact Runs.lift (follows_byTruth hu)
  | discriminant property value => exact follows_byDiscriminant henv₁ (h₁.closed hguard) hu
  | inProperty property => exact Runs.lift (follows_byPresence hu)
  | predicate asserts =>
      refine bind_value (follows_narrowingResolve henv₁ (h₁.closed hguard)) fun s₂ h₂ _ v hv => ?_
      exact follows_byPredicate (henv₁.mono h₂) hv (h₂.closed hu)

end narrowing

section arguments

open Inference

variable {env env' : Environment}

theorem follows_collect (params : List TypeParam) (literals : Bool) (henv : Agree L s env env')
    {targets sources : List TypeId} (htargets : ∀ t ∈ targets, s.Closed L.names t)
    (hsources : ∀ t ∈ sources, s.Closed L.names t) :
    Follows L s (collect ⟨env, params, literals⟩ targets sources)
      (collect (renamed L env' params literals) (targets.map L) (sources.map L)) := by
  have hzip : (targets.map L).zip (sources.map L) = (targets.zip sources).map L.both := by
    simp [List.zip_map, Prod.map]
  unfold collect
  rw [hzip]
  refine follows_forM_map fun x hx s₁ h₁ => ?_
  obtain ⟨hx₁, hx₂⟩ := List.of_mem_zip hx
  have hwalk := follows_inferFrom params literals false
    (henv.mono h₁) (h₁.closed (htargets _ hx₁)) (h₁.closed (hsources _ hx₂))
  change Follows L s₁ (inferFrom ⟨env, params, literals⟩ false x.1 x.2 >>= fun _ => pure ())
    (inferFrom (renamed L env' params literals) false (L x.1) (L x.2) >>= fun _ => pure ())
  exact bind_value hwalk fun s₂ _ _ _ _ => pure_plain

theorem follows_argument {pools : List Pool} (hp : Ok L.names s pools) {info : TypeParam}
    (hc : Ok L.names s info.constraint) (hd : Ok L.names s info.default) :
    Follows L s (argument pools info) (argument (L.image pools) (info.mapIds L)) := by
  refine Runs.bind (Runs.lift (follows_solve false info.name hp)) fun s₁ h₁ hs₁ r r' hr => ?_
  cases hr with
  | ok h =>
      obtain ⟨rfl, hr⟩ := h
      rename_i o
      cases o with
      | some u => exact pure_value (hr u rfl)
      | none =>
          simp only [TypeParam.mapIds]
          cases hdefault : info.default with
          | some u => exact pure_value (h₁.closed (hd u hdefault))
          | none =>
              cases hconstraint : info.constraint with
              | some u => exact pure_value (h₁.closed (hc u hconstraint))
              | none => exact pure_fixed hs₁ rfl
  | error h =>
      obtain ⟨rfl, hfirst, hsecond⟩ := h
      refine Runs.store fun s' hs' => ?_
      refine bind_value (follows_report fun hexact => ?_) fun s₂ _ hs₂ _ _ => pure_fixed hs₂ rfl
      have hfirst := hs'.text hfirst
      have hsecond := hs'.text hsecond
      simp only [Conflict.diagnostic]
      exact congrArg₂ (fun x y => Diagnostic.of .inferenceConflict [_, x, y]) hfirst hsecond

theorem problem_renamed (params : List TypeParam) (literals : Bool) :
    Problem.of env' literals (params.map (·.mapIds L)) =
      renamed L env' (distinct params) literals := by
  rw [Problem.of, distinct_map]

theorem follows_unify (literals : Bool) (henv : Agree L s env env') (params : List TypeParam)
    {targets sources : List TypeId} (htargets : ∀ t ∈ targets, s.Closed L.names t)
    (hsources : ∀ t ∈ sources, s.Closed L.names t) :
    Follows L s (unify env literals params targets sources)
      (unify env' literals (params.map (·.mapIds L)) (targets.map L) (sources.map L)) := by
  unfold unify
  simp only [problem_renamed]
  have hrun := follows_collect (distinct params) literals henv htargets hsources
  have hpools := pools_renamed (L := L) env env' (distinct params) literals
  refine Runs.bind (Runs.lift (follows_run hrun ⟨hpools, ok_pools _⟩)) fun s₁ h₁ _ a b hab => ?_
  obtain ⟨u, pools⟩ := a
  obtain ⟨u', pools'⟩ := b
  obtain ⟨_, hpools, hpools₁⟩ := hab
  simp only at hpools hpools₁
  subst hpools
  refine follows_foldlM_map (fun info _ s₂ h₂ σ σ' hσ => ?_) ⟨rfl, ok_emptySubstitution⟩
  obtain ⟨rfl, hσ⟩ := hσ
  refine bind_value (follows_solve false info.name (Value.mono h₂ hpools₁)) fun s₃ h₃ _ o ho => ?_
  cases o with
  | none => exact pure_value (Value.mono h₃ hσ)
  | some u =>
      have hinsert := pure_value (L := L) (M := ExceptT Conflict Build)
        (ok_insertBinding (Value.mono h₃ hσ) (ho u rfl) info.name)
      change Follows L s₃ _ (pure ((σ.mapIds L).insert info.name (L u)))
      rw [σ.insert_mapIds]
      exact hinsert

theorem follows_typeArguments (literals : Bool) (henv : Agree L s env env')
    {params : List TypeParam} (hparams : ∀ p ∈ params, Ok L.names s p.constraint ∧ Ok L.names s p.default)
    {targets sources : List TypeId} (htargets : ∀ t ∈ targets, s.Closed L.names t)
    (hsources : ∀ t ∈ sources, s.Closed L.names t) :
    Follows L s (typeArguments env literals params targets sources)
      (typeArguments env' literals (params.map (·.mapIds L)) (targets.map L) (sources.map L)) := by
  unfold typeArguments
  simp only [problem_renamed]
  have hrun := follows_collect (distinct params) literals henv htargets hsources
  have hpools := pools_renamed (L := L) env env' (distinct params) literals
  refine Runs.bind (Runs.lift (follows_run hrun ⟨hpools, ok_pools _⟩)) fun s₁ h₁ _ a b hab => ?_
  obtain ⟨u, pools⟩ := a
  obtain ⟨u', pools'⟩ := b
  obtain ⟨_, hpools, hpools₁⟩ := hab
  simp only at hpools hpools₁
  subst hpools
  refine follows_mapM_map fun p hp s₂ h₂ => follows_argument (Value.mono h₂ hpools₁) ?_ ?_
  · exact Value.mono (h₁.trans h₂) (hparams p hp).1
  · exact Value.mono (h₁.trans h₂) (hparams p hp).2

end arguments

section requests

instance {α : Type} [Paired L α] : Paired L (Outcome α) where
  Same s a b := Same L s a.value b.value ∧ (L.exact → b.diagnostics = a.diagnostics)
  mono h hab := ⟨Paired.mono h hab.1, hab.2⟩

theorem follows_evaluate {env env' : Environment} {options : Options} {patience : Option Nat}
    (hpatience : L.calm → patience = none) (henv : Agree L s env env')
    (ht : s.Closed L.names t) :
    Follows L s (Setting.evaluate ⟨env, options⟩ patience t)
      (Setting.evaluate ⟨env', options⟩ patience (L t)) := by
  have hrun : Follows L s (Eval.evaluateNormalized ⟨env, options⟩ t)
      (Eval.evaluateNormalized ⟨env', options⟩ (L t)) := follows_evaluateNormalized henv ht
  have hstart : Same L s (Setting.evaluator ⟨env, options⟩ patience)
      (Setting.evaluator ⟨env', options⟩ patience) := .fresh options 0 hpatience
  exact Runs.bind (hrun _ _ hstart) fun s₁ _ _ a b hab => Runs.pure ⟨hab.1, hab.2.diagnostics⟩

theorem follows_outcome {α : Type} [Paired L α] {step step' : Reporting α}
    (h : Follows L s step step') : Follows L s step.outcome step'.outcome := by
  have hstart : Same L s (#[] : Array Diagnostic) #[] := fun _ => rfl
  exact Runs.bind (follows_run h hstart) fun _ _ _ _ _ hab => Runs.pure hab

theorem follows_verdict {env env' : Environment} {options : Options} {source target : TypeId}
    (henv : Agree L s env env') (hsource : s.Closed L.names source)
    (htarget : s.Closed L.names target) :
    Follows L s (Setting.checkAssignable ⟨env, options⟩ source target)
      (Setting.checkAssignable ⟨env', options⟩ (L source) (L target)) := by
  have hrun := follows_checkAssignable (resolves_setting options henv 0) hsource htarget
  exact Runs.bind (hrun _ _ (.fresh options)) fun s₁ _ _ a b hab =>
    Runs.pure ⟨hab.1, hab.2.diagnostics⟩

end requests

end Replay

end TypeResolution
