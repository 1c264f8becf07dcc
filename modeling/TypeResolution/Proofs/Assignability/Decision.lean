import TypeResolution.Proofs.Assignability.Rules
import TypeResolution.Proofs.Replay.Evaluation
import TypeResolution.Proofs.Steps

/-!
The rules of the checker decide the rules of assignability, when the checks of the pairs they ask
about do. A check that is only right while some pairs are taken for granted lies between two
relations: it answers `true` if the smaller one holds, and only if the larger one does.
-/

namespace TypeResolution

namespace Assignability

open Store Replay

variable {Γ : Context} {A : List (TypeId × TypeId)} {depth : Nat} {s : Store} {α β : Type}

/-- A checker that works on the pairs of `A` and can enter `depth` more. -/
structure Ready (Γ : Context) (A : List (TypeId × TypeId)) (depth : Nat) (c : Checker) : Prop where
  active : c.guard.active = A
  room : c.guard.depth + depth = c.guard.maxDepth
  base : c.guard.baseDepth + A.length ≤ c.guard.depth
  excess : c.excessPropertyCheck = Γ.excess
  /-- As long as no limit was hit, only pairs that are not assignable are remembered. -/
  failures : c.depthReported = false → ∀ a b, c.failures.contains (a, b) → ¬Assignable Γ a b
  reported : c.depthReported → ∃ d ∈ c.diagnostics, d.kind = .evaluationDepthExceeded

/-- A checker without a diagnostic about a limit has hit none. -/
theorem Ready.not_reported {c : Checker} (hc : Ready Γ A depth c)
    (hlimit : ∀ d ∈ c.diagnostics, d.kind ≠ .evaluationDepthExceeded) :
    c.depthReported = false := by
  by_contra hreported
  obtain ⟨d, hd, hkind⟩ := hc.reported (by simpa using hreported)
  exact hlimit d hd hkind

theorem Ready.withFailure {c : Checker} (hc : Ready Γ A depth c) (failure : Option Failure) :
    Ready Γ A depth { c with failure := failure } :=
  ⟨hc.active, hc.room, hc.base, hc.excess, hc.failures, hc.reported⟩

theorem Ready.report {c : Checker} (hc : Ready Γ A depth c) {ds : Array Diagnostic}
    (hds : ∀ d ∈ c.diagnostics, d ∈ ds) : Ready Γ A depth { c with diagnostics := ds } where
  active := hc.active
  room := hc.room
  base := hc.base
  excess := hc.excess
  failures := hc.failures
  reported h := by
    obtain ⟨d, hd, hkind⟩ := hc.reported h
    exact ⟨d, hds d hd, hkind⟩

/-- What holds of a checker while it compares types, and the limit it may hit. The failure that is
recorded and further diagnostics do not matter to either. -/
class Comparing (Γ : Context) (I : Checker → Prop) where
  limited : Checker → Bool
  excess {c : Checker} : I c → c.excessPropertyCheck = Γ.excess
  withFailure {c : Checker} : I c → ∀ failure, I { c with failure := failure }
  report {c : Checker} : I c → ∀ {ds : Array Diagnostic}, (∀ d ∈ c.diagnostics, d ∈ ds) →
    I { c with diagnostics := ds }
  limited_withFailure (c : Checker) (failure : Option Failure) :
    limited { c with failure := failure } = limited c
  limited_report (c : Checker) (ds : Array Diagnostic) :
    limited { c with diagnostics := ds } = limited c

instance : Comparing Γ (Ready Γ A depth) where
  limited := Checker.depthReported
  excess := Ready.excess
  withFailure := Ready.withFailure
  report := Ready.report
  limited_withFailure _ _ := rfl
  limited_report _ _ := rfl

/-- A step of the checker from the store `s` on. -/
abbrev Checks [Value AnyName α] (Γ : Context) (I : Checker → Prop) [Comparing Γ I] (s : Store)
    (m : Check α) (Q : Bool → α → Prop) : Prop :=
  Steps (Ok AnyName) (Comparing.limited Γ I) Γ.store I s m Q

/-- A check that is right unless a limit was hit: it answers `true` if `lo` holds, and only if `hi`
does. -/
abbrev Decides (Γ : Context) (I : Checker → Prop) [Comparing Γ I] (s : Store) (m : Check Bool)
    (lo hi : Prop) : Prop :=
  Checks Γ I s m fun limited b => (limited = false → lo → b = true) ∧ (b = true → hi)

section decides

variable {I : Checker → Prop} [Comparing Γ I] {m k : Check Bool} {lo hi lo' hi' : Prop}

theorem Decides.mono (hm : Decides Γ I s m lo hi) (hlo : s.Extends Γ.store → lo' → lo)
    (hhi : s.Extends Γ.store → hi → hi') : Decides Γ I s m lo' hi' :=
  Steps.mono hm fun hs _ _ h => ⟨fun hl hlo' => h.1 hl (hlo hs hlo'), fun hb => hhi hs (h.2 hb)⟩

theorem decides_true (h : hi) : Decides Γ I s (pure true) lo hi :=
  Steps.pure (fun _ => trivial) fun _ => ⟨fun _ _ => rfl, fun _ => h⟩

theorem decides_false (h : ¬lo) : Decides Γ I s (pure false) lo hi :=
  Steps.pure (fun _ => trivial) fun _ => ⟨fun _ hlo => absurd hlo h, fun hb => by cases hb⟩

/-- A step before a check. -/
theorem Steps.decides {V : Store → α → Prop} {m : Check α} {f : α → Check Bool}
    {Q : Bool → α → Prop} (hm : Steps V (Comparing.limited Γ I) Γ.store I s m Q)
    (hf : ∀ s₁ a, s.Extends s₁ → V s₁ a → (s₁.Extends Γ.store → ∃ limited, Q limited a) →
      Decides Γ I s₁ (f a) lo hi) :
    Decides Γ I s (m >>= f) lo hi :=
  Steps.bind hm fun s₁ a limited h₁ ha hQ =>
    Steps.mono (hf s₁ a h₁ ha fun h => ⟨limited, hQ h⟩) fun _ _ _ h _ => h

/-- A check whose answer decides how to go on. -/
theorem Decides.cases {f : Bool → Check Bool} {lo₁ hi₁ lo₂ hi₂ : Prop} (hm : Decides Γ I s m lo hi)
    (ht : ∀ s₁, s.Extends s₁ → Decides Γ I s₁ (f true) lo₁ hi₁)
    (hf : ∀ s₁, s.Extends s₁ → Decides Γ I s₁ (f false) lo₂ hi₂)
    (hlo₁ : hi → lo' → lo₁) (hhi₁ : hi → hi₁ → hi') (hlo₂ : ¬lo → lo' → lo₂) (hhi₂ : hi₂ → hi') :
    Decides Γ I s (m >>= f) lo' hi' := by
  refine Steps.bind hm fun s₁ b limited h₁ _ hb => ?_
  cases b with
  | true =>
      refine Steps.mono (ht s₁ h₁) fun hs limited' r hr _ => ?_
      have hhi : hi := (hb hs).2 rfl
      exact ⟨fun hl hlo => hr.1 hl (hlo₁ hhi hlo), fun hr' => hhi₁ hhi (hr.2 hr')⟩
  | false =>
      refine Steps.mono (hf s₁ h₁) fun hs limited' r hr hmono => ?_
      refine ⟨fun hl hlo => hr.1 hl (hlo₂ (fun h => ?_) hlo), fun hr' => hhi₂ (hr.2 hr')⟩
      have hl' : limited = false := by
        cases limited with
        | false => rfl
        | true => exact absurd (hmono rfl) (by simp [hl])
      exact absurd ((hb hs).1 hl' h) (by simp)

theorem Decides.and {f : Bool → Check Bool} (hm : Decides Γ I s m lo hi)
    (ht : ∀ s₁, s.Extends s₁ → Decides Γ I s₁ (f true) lo' hi')
    (hf : ∀ s₁, s.Extends s₁ → Decides Γ I s₁ (f false) False False) :
    Decides Γ I s (m >>= f) (lo ∧ lo') (hi ∧ hi') :=
  hm.cases ht hf (fun _ h => h.2) (fun h h' => ⟨h, h'⟩) (fun h h' => h h'.1) False.elim

theorem Decides.or {f : Bool → Check Bool} (hm : Decides Γ I s m lo hi)
    (ht : ∀ s₁, s.Extends s₁ → Decides Γ I s₁ (f true) True True)
    (hf : ∀ s₁, s.Extends s₁ → Decides Γ I s₁ (f false) lo' hi') :
    Decides Γ I s (m >>= f) (lo ∨ lo') (hi ∨ hi') :=
  hm.cases ht hf (fun _ _ => trivial) (fun h _ => .inl h) (fun h h' => h'.resolve_left h) .inr

theorem Decides.then {f : Bool → Check Bool} (hm : Decides Γ I s m lo hi)
    (ht : ∀ s₁, s.Extends s₁ → Decides Γ I s₁ (f true) True True)
    (hf : ∀ s₁, s.Extends s₁ → Decides Γ I s₁ (f false) False False) :
    Decides Γ I s (m >>= f) lo hi :=
  hm.cases ht hf (fun _ _ => trivial) (fun h _ => h) (fun h h' => h h') False.elim

variable {γ : Type}

theorem decides_allM {l : List γ} {f : γ → Check Bool} {lo hi : γ → Prop}
    (h : ∀ x ∈ l, ∀ s₁, s.Extends s₁ → Decides Γ I s₁ (f x) (lo x) (hi x)) :
    Decides Γ I s (l.allM f) (∀ x ∈ l, lo x) (∀ x ∈ l, hi x) := by
  induction l generalizing s with
  | nil => exact decides_true (by simp)
  | cons x rest ih =>
      simp only [List.forall_mem_cons]
      refine Decides.and (h x (by simp) s (.refl s)) (fun s₁ h₁ => ?_) fun s₁ h₁ => ?_
      · exact ih fun y hy s₂ h₂ => h y (by simp [hy]) s₂ (h₁.trans h₂)
      · exact decides_false id

theorem decides_anyM {l : List γ} {f : γ → Check Bool} {lo hi : γ → Prop}
    (h : ∀ x ∈ l, ∀ s₁, s.Extends s₁ → Decides Γ I s₁ (f x) (lo x) (hi x)) :
    Decides Γ I s (l.anyM f) (∃ x ∈ l, lo x) (∃ x ∈ l, hi x) := by
  induction l generalizing s with
  | nil => exact decides_false (by simp)
  | cons x rest ih =>
      simp only [List.exists_mem_cons_iff]
      refine Decides.or (h x (by simp) s (.refl s)) (fun s₁ h₁ => ?_) fun s₁ h₁ => ?_
      · exact decides_true trivial
      · exact ih fun y hy s₂ h₂ => h y (by simp [hy]) s₂ (h₁.trans h₂)

end decides

section checks

open Check

variable {I : Checker → Prop} [Comparing Γ I] {lo hi : Relation} {inner : Check.Inner}
  {a b : TypeId} {reason : Failure}

theorem decides_fail {lo hi : Prop} (h : ¬lo) : Decides Γ I s (fail reason) lo hi :=
  Steps.decides (Steps.modify (fun _ _ => trivial) (fun _ hc => Comparing.withFailure Γ hc _)
    fun c => Comparing.limited_withFailure c _) fun _ _ _ _ _ =>
    decides_false h

theorem never_fail (reason : Failure) :
    Decides Γ I s (fail reason) False False := decides_fail id

theorem decides_failWith {lo hi : Prop} (h : ¬lo) :
    Decides Γ I s (failWith reason) lo hi :=
  Steps.decides (Steps.modify (fun _ _ => trivial) (fun _ hc => Comparing.withFailure Γ hc _)
    fun c => Comparing.limited_withFailure c _) fun _ _ _ _ _ =>
    decides_false h

theorem Decides.orFail {m : Check Bool} {lo hi : Prop} (hm : Decides Γ I s m lo hi) :
    Decides Γ I s (do if ← m then return true else fail reason) lo hi :=
  hm.then (fun _ _ => decides_true trivial) fun _ _ => decides_fail id

theorem Decides.orFailWith {m : Check Bool} {lo hi : Prop}
    (hm : Decides Γ I s m lo hi) :
    Decides Γ I s (do if ← m then return true else failWith reason) lo hi :=
  hm.then (fun _ _ => decides_true trivial) fun _ _ => decides_failWith id

theorem steps_clearFailure :
    Steps (fun _ _ => True) (Comparing.limited Γ I) Γ.store I s clearFailure fun _ _ => True :=
  fun hs c hc => ⟨.refl s, hs, trivial, fun h => Comparing.withFailure Γ (hc h) _,
    (Comparing.limited_withFailure c _).trans, fun _ => trivial⟩

theorem steps_restoreFailure (saved : Option Failure) :
    Checks Γ I s (restoreFailure saved) fun _ _ => True :=
  Steps.modify (fun _ _ => trivial) (fun _ hc => Comparing.withFailure Γ hc _) fun c =>
    Comparing.limited_withFailure c _

/-- From `s` on, `inner` decides pairs of types between two relations. -/
def Asks (Γ : Context) (I : Checker → Prop) [Comparing Γ I] (s : Store) (inner : Check.Inner)
    (lo hi : Relation) : Prop :=
  ∀ s₁, s.Extends s₁ → ∀ x y, s₁.Closed AnyName x → s₁.Closed AnyName y →
    Decides Γ I s₁ (inner x y) (lo x y) (hi x y)

theorem Asks.mono {s' : Store} (h : Asks Γ I s inner lo hi) (hs : s.Extends s') :
    Asks Γ I s' inner lo hi :=
  fun s₁ h₁ => h s₁ (hs.trans h₁)

theorem decides_againstEmptyObject (hb : s.Closed AnyName b) :
    Decides Γ I s (againstEmptyObject a b) (FitsEmptyObject Γ a b)
      (FitsEmptyObject Γ a b) := by
  refine Steps.store ?_
  by_cases h : s.isEmptyObject b && !a.isNullish && a ≠ .unknown
  · rw [if_pos h]
    refine Decides.mono (decides_true h) (fun _ _ => h) fun hs h => ?_
    simp only [Bool.and_eq_true, Bool.not_eq_true', decide_eq_true_eq] at h
    exact ⟨(isEmptyObject_eq hs hb).trans h.1.1, h.1.2, h.2⟩
  · rw [if_neg h]
    refine Decides.mono (decides_fail h) (fun hs hfits => ?_) fun _ => id
    simp only [Bool.and_eq_true, Bool.not_eq_true', decide_eq_true_eq]
    exact ⟨⟨(isEmptyObject_eq hs hb).symm.trans hfits.1, hfits.2.1⟩, hfits.2.2⟩

section components

variable (hi' : Asks Γ I s inner lo hi)

include hi'

theorem decides_unionTarget {members : List TypeId} (ha : s.Closed AnyName a)
    (hm : ∀ m ∈ members, s.Closed AnyName m) :
    Decides Γ I s (unionTarget inner a members)
      (a ∈ members ∨ ∃ m ∈ members, lo a m) (a ∈ members ∨ ∃ m ∈ members, hi a m) := by
  unfold unionTarget
  by_cases hmem : a ∈ members
  · rw [if_pos (by simpa using hmem)]
    exact decides_true (.inl hmem)
  · rw [if_neg (by simpa using hmem)]
    refine Steps.decides steps_clearFailure fun s₁ saved h₁ _ _ => ?_
    have hany : Decides Γ I s₁ (members.anyM (inner a)) (∃ m ∈ members, lo a m)
        (∃ m ∈ members, hi a m) := decides_anyM fun m hmem s₂ h₂ =>
      hi' s₂ (h₁.trans h₂) a m ((h₁.trans h₂).closed ha) ((h₁.trans h₂).closed (hm m hmem))
    refine Decides.mono ?_ (fun _ h => h.resolve_left hmem) fun _ h => .inr h
    refine hany.then (fun s₂ _ => ?_) fun s₂ _ => ?_
    · exact Steps.decides (steps_restoreFailure _) fun _ _ _ _ _ => decides_true trivial
    · exact Steps.decides (steps_restoreFailure _) fun _ _ _ _ _ => decides_fail id

theorem decides_intersectionSource {members : List TypeId} (hb : s.Closed AnyName b)
    (hm : ∀ m ∈ members, s.Closed AnyName m) :
    Decides Γ I s (intersectionSource inner a b members) (∃ m ∈ members, lo m b)
      (∃ m ∈ members, hi m b) := by
  refine Steps.decides steps_clearFailure fun s₁ saved h₁ _ _ => ?_
  have hany : Decides Γ I s₁ (members.anyM (inner · b)) (∃ m ∈ members, lo m b)
      (∃ m ∈ members, hi m b) := decides_anyM fun m hmem s₂ h₂ =>
    hi' s₂ (h₁.trans h₂) m b ((h₁.trans h₂).closed (hm m hmem)) ((h₁.trans h₂).closed hb)
  refine hany.then (fun s₂ _ => ?_) fun s₂ _ => ?_
  · exact Steps.decides (steps_restoreFailure _) fun _ _ _ _ _ => decides_true trivial
  · exact decides_fail id

theorem decides_field {o : ObjectShape} (ho : (Node.object o).Closed AnyName s) {f : Field}
    (hf : s.Closed AnyName f.type) :
    Decides Γ I s (field inner o f) (FieldFits lo o f) (FieldFits hi o f) := by
  unfold field FieldFits
  cases hfind : o.find? f.name with
  | none =>
      cases hopt : f.optional with
      | true => exact decides_true rfl
      | false => exact decides_fail (by simp)
  | some g =>
      have hg := closed_fieldType ho (List.mem_of_find?_eq_some hfind)
      by_cases hopt : g.optional && !f.optional
      · simp only [hopt, if_true]
        refine decides_fail fun h => ?_
        simp only [Bool.and_eq_true, Bool.not_eq_true'] at hopt
        exact absurd (h.1 hopt.1) (by simp [hopt.2])
      · simp only [hopt]
        have hopt : g.optional → f.optional := by
          intro h
          simpa [h] using hopt
        exact Decides.mono (hi' s (.refl s) _ _ hg hf).orFailWith (fun _ h => h.2)
          fun _ h => ⟨hopt, h⟩

theorem decides_stringIndex {o : ObjectShape} {s₁ : Store} (h₁ : s.Extends s₁)
    (ho : (Node.object o).Closed AnyName s) (hb : s.Closed AnyName b) :
    Decides Γ I s₁
      (match o.stringIndex with
        | none => return true
        | some t => do if ← inner t b then return true else fail (.typeMismatch t b))
      (∀ u, o.stringIndex = some u → lo u b) (∀ u, o.stringIndex = some u → hi u b) := by
  cases hsome : o.stringIndex with
  | none => exact decides_true (by simp)
  | some t =>
      have ht := h₁.closed (closed_stringIndex ho hsome)
      refine Decides.mono (hi' s₁ h₁ t b ht (h₁.closed hb)).orFail (fun _ h => h t rfl) ?_
      rintro _ h _ ⟨⟩
      exact h

theorem decides_index {o : ObjectShape} (ho : (Node.object o).Closed AnyName s)
    (hb : s.Closed AnyName b) :
    Decides Γ I s (index inner o b) (IndexFits lo o b) (IndexFits hi o b) := by
  have hfields : Decides Γ I s
      (o.fields.allM fun g => do
        if ← inner g.type b then return true else fail (.propertyTypeMismatch g.name g.type b))
      (∀ g ∈ o.fields, lo g.type b) (∀ g ∈ o.fields, hi g.type b) :=
    decides_allM fun g hg s₁ h₁ =>
      (hi' s₁ h₁ _ _ (h₁.closed (closed_fieldType ho hg)) (h₁.closed hb)).orFail
  have hindex := fun s₁ (h₁ : s.Extends s₁) => decides_stringIndex hi' h₁ ho hb
  refine Decides.mono (hfields.and hindex fun s₁ _ => decides_false id)
    (fun _ h => ⟨h.fields, h.index⟩) fun _ h => ⟨h.1, h.2⟩

theorem decides_object {o p : ObjectShape} (ho : (Node.object o).Closed AnyName s)
    (hp : (Node.object p).Closed AnyName s) :
    Decides Γ I s (object inner o p) (ObjectFits Γ lo o p) (ObjectFits Γ hi o p) := by
  have hfields : Decides Γ I s (p.fields.allM (field inner o))
      (∀ f ∈ p.fields, FieldFits lo o f) (∀ f ∈ p.fields, FieldFits hi o f) :=
    decides_allM fun f hf s₁ h₁ =>
      decides_field (hi'.mono h₁) (h₁.closedNode ho) (h₁.closed (closed_fieldType hp hf))
  cases hindex : p.stringIndex with
  | some t =>
      have hrest : ∀ s₁, s.Extends s₁ → Decides Γ I s₁ (index inner o t)
          (IndexFits lo o t) (IndexFits hi o t) := fun s₁ h₁ =>
        decides_index (hi'.mono h₁) (h₁.closedNode ho) (h₁.closed (closed_stringIndex hp hindex))
      unfold object
      simp only [hindex]
      refine Decides.mono (hfields.and hrest fun s₁ _ => decides_false id)
        (fun _ h => ⟨h.fields, h.index t hindex⟩) fun _ h => ⟨h.1, ?_, ?_⟩
      · intro u hu
        obtain rfl : t = u := Option.some.inj (hindex.symm.trans hu)
        exact h.2
      · intro hnone
        cases hindex.symm.trans hnone
  | none =>
      have hrest : ∀ s₁, s.Extends s₁ → Decides Γ I s₁
          (do if (← get).excessPropertyCheck then excess o p else return true)
          (Γ.excess → ∀ g ∈ o.fields, (p.find? g.name).isSome)
          (Γ.excess → ∀ g ∈ o.fields, (p.find? g.name).isSome) := by
        intro s₁ _
        refine Steps.get fun c hc => ?_
        by_cases hexcess : c.excessPropertyCheck
        · rw [if_pos hexcess]
          unfold excess
          cases hfind : o.fields.find? fun g => (p.find? g.name).isNone with
          | some g =>
              have hg : (p.find? g.name).isNone := by simpa using List.find?_some hfind
              refine Decides.mono (decides_fail id) (fun hs h => ?_) fun _ => id
              have hsame : c.excessPropertyCheck = Γ.excess := Comparing.excess (hc hs)
              have hsome := h (hsame ▸ hexcess) g (List.mem_of_find?_eq_some hfind)
              simp [Option.isNone_iff_eq_none.mp hg] at hsome
          | none =>
              refine decides_true fun _ g hg => ?_
              simpa [Option.isSome_iff_ne_none] using List.find?_eq_none.mp hfind g hg
        · rw [if_neg hexcess]
          refine Decides.mono (decides_true trivial) (fun _ _ => trivial) fun hs _ h => ?_
          have hsame : c.excessPropertyCheck = Γ.excess := Comparing.excess (hc hs)
          exact absurd (hsame ▸ h) hexcess
      unfold object
      simp only [hindex]
      refine Decides.mono (hfields.and hrest fun s₁ _ => decides_false id)
        (fun _ h => ⟨h.fields, h.excess hindex⟩) fun _ h => ⟨h.1, ?_, fun _ => h.2⟩
      intro t ht
      cases hindex.symm.trans ht

theorem decides_function {f g : FunctionShape} (hf : (Node.function f).Closed AnyName s)
    (hg : (Node.function g).Closed AnyName s) :
    Decides Γ I s (function inner f g) (FunctionFits lo f g)
      (FunctionFits hi f g) := by
  unfold function
  by_cases hlen : g.params.length < f.params.length
  · rw [if_pos hlen]
    exact decides_fail fun h => absurd h.length_le (by omega)
  · rw [if_neg hlen]
    have hlen : f.params.length ≤ g.params.length := Nat.le_of_not_lt hlen
    have hparams : Decides Γ I s
        ((f.params.zip g.params).allM fun (x : TypeId × TypeId) => do
          if ← inner x.2 x.1 then return true else fail (.typeMismatch x.2 x.1))
        (∀ x ∈ f.params.zip g.params, lo x.2 x.1) (∀ x ∈ f.params.zip g.params, hi x.2 x.1) := by
      refine decides_allM fun x hx s₁ h₁ => ?_
      obtain ⟨hx₁, hx₂⟩ := List.of_mem_zip hx
      exact (hi' s₁ h₁ _ _ (h₁.closed (hg.components _ (List.mem_append_left _ hx₂)))
        (h₁.closed (hf.components _ (List.mem_append_left _ hx₁)))).orFail
    have hresult : ∀ s₁, s.Extends s₁ → Decides Γ I s₁
        (if g.result = .void then return true
          else do
            if ← inner f.result g.result then return true
            else failWith (.returnTypeMismatch f.result g.result))
        (g.result = .void ∨ lo f.result g.result) (g.result = .void ∨ hi f.result g.result) := by
      intro s₁ h₁
      by_cases hvoid : g.result = .void
      · rw [if_pos hvoid]
        exact decides_true (.inl hvoid)
      · rw [if_neg hvoid]
        have hask := hi' s₁ h₁ f.result g.result
          (h₁.closed (hf.components _ (List.mem_append_right _ (by simp))))
          (h₁.closed (hg.components _ (List.mem_append_right _ (by simp))))
        exact Decides.mono hask.orFailWith (fun _ h => h.resolve_left hvoid) fun _ h => .inr h
    exact Decides.mono (hparams.and hresult fun s₁ _ => decides_false id)
      (fun _ h => ⟨h.params, h.result⟩) fun _ h => ⟨hlen, h.1, h.2⟩

omit hi' in
theorem decides_literal (hb : s.Closed AnyName b) (v : Literal) :
    Decides Γ I s (literal a b v) (ShapeFits Γ lo a b (.literal v) (s.node b))
      (ShapeFits Γ hi a b (.literal v) (s.node b)) := by
  unfold literal
  by_cases hv : v.primitive = b
  · rw [if_pos hv]
    exact decides_true (.literal hv)
  · rw [if_neg hv]
    refine Steps.store ?_
    have hempty : Decides Γ I s (againstEmptyObject a b) (FitsEmptyObject Γ a b)
        (FitsEmptyObject Γ a b) := decides_againstEmptyObject hb
    cases hshape : v with
    | string text =>
        cases hn : s.node b with
        | template spans =>
            have hholes : ∀ t, Span.hole t ∈ spans → s.Closed AnyName t := fun t ht =>
              hb.of_mem_components hn (List.mem_filterMap.mpr ⟨_, ht, rfl⟩)
            dsimp only
            by_cases hd : Template.describes s spans text
            · rw [if_pos hd]
              refine Decides.mono (decides_true trivial) (fun _ _ => trivial) fun hs _ => .text ?_
              rw [Template.describes_eq hs hholes]
              exact hd
            · rw [if_neg hd]
              refine Decides.mono hempty (fun hs h => ?_) fun _ h => .literalInEmpty h
              cases h with
              | literal h => exact absurd (hshape ▸ h) hv
              | text h => exact absurd ((Template.describes_eq hs hholes text).symm.trans h) hd
              | literalInEmpty h => exact h
        | _ =>
            refine Decides.mono hempty (fun hs h => ?_) fun _ h => .literalInEmpty h
            cases h with
            | literal h => exact absurd (hshape ▸ h) hv
            | literalInEmpty h => exact h
    | _ =>
        refine Decides.mono hempty (fun hs h => ?_) fun _ h => .literalInEmpty h
        cases h with
        | literal h => exact absurd (hshape ▸ h) hv
        | literalInEmpty h => exact h

omit hi' in
theorem not_fitsEmptyObject (hb : s.Closed AnyName b) (hobject : ∀ o, s.node b ≠ .object o)
    (hs : s.Extends Γ.store) : ¬FitsEmptyObject Γ a b := by
  intro h
  have hnone : s.objectShape? b = none := by
    unfold objectShape?
    split
    · exact absurd ‹_› (hobject _)
    · rfl
  have hempty := (isEmptyObject_eq hs hb).symm.trans h.1
  simp [isEmptyObject, hnone] at hempty

theorem decides_shapes (hb : s.Closed AnyName b) {m : Node} (hm : m.Closed AnyName s) :
    Decides Γ I s (shapes inner a b m (s.node b)) (ShapeFits Γ lo a b m (s.node b))
      (ShapeFits Γ hi a b m (s.node b)) := by
  have hempty : Decides Γ I s (againstEmptyObject a b) (FitsEmptyObject Γ a b)
      (FitsEmptyObject Γ a b) := decides_againstEmptyObject hb
  have hn := hb.node
  cases m with
  | literal v => exact decides_literal hb v
  | intrinsic k =>
      rw [shapes]
      by_cases hk : k = .undefined && b = .void
      · rw [if_pos hk]
        simp only [Bool.and_eq_true, decide_eq_true_eq] at hk
        obtain ⟨rfl, hk⟩ := hk
        exact decides_true (.undefined hk)
      · rw [if_neg hk]
        refine Decides.mono hempty (fun _ h => ?_) fun _ h => .intrinsicInEmpty h
        cases h with
        | undefined h => simp [h] at hk
        | intrinsicInEmpty h => exact h
  | template spans =>
      rw [shapes]
      by_cases hstring : b = .string
      · rw [if_pos hstring]
        exact decides_true (.template hstring)
      · rw [if_neg hstring]
        refine decides_fail fun h => ?_
        cases h with
        | template h => exact hstring h
  | param info =>
      rw [shapes]
      cases hc : info.constraint with
      | none =>
          refine decides_fail fun h => ?_
          cases h with
          | constraint h _ _ => cases hc.symm.trans h
      | some t =>
          have ht : s.Closed AnyName t :=
            hm.components t (List.mem_append_left _ (Option.mem_toList.mpr hc))
          by_cases hunknown : t = .unknown
          · simp only [Option.getD_some, hunknown, if_true]
            refine decides_fail fun h => ?_
            cases h with
            | constraint h hne _ =>
                cases hc.symm.trans h
                exact hne hunknown
          · simp only [Option.getD_some, if_neg hunknown]
            refine Decides.mono (hi' s (.refl s) t b ht hb).orFail (fun _ h => ?_)
              fun _ h => .constraint hc hunknown h
            cases h with
            | constraint h _ hr =>
                cases hc.symm.trans h
                exact hr
  | object o =>
      cases hnode : s.node b with
      | object p =>
          rw [hnode] at hn
          refine Decides.mono (decides_object hi' hm hn) (fun _ h => ?_) fun _ h => .object h
          cases h with
          | object h => exact h
      | _ =>
          refine decides_fail fun h => ?_
          cases h
  | function f =>
      cases hnode : s.node b with
      | function g =>
          rw [hnode] at hn
          refine Decides.mono (decides_function hi' hm hn) (fun hs h => ?_) fun _ h => .function h
          cases h with
          | function h => exact h
          | functionInEmpty h => exact absurd h (not_fitsEmptyObject hb (by simp [hnode]) hs)
      | _ =>
          refine Decides.mono hempty (fun _ h => ?_) fun _ h => .functionInEmpty h
          cases h with
          | functionInEmpty h => exact h
  | array x =>
      cases hnode : s.node b with
      | array y =>
          rw [hnode] at hn
          have hx := hm.components x (by simp [Node.components])
          have hy := hn.components y (by simp [Node.components])
          refine Decides.mono (hi' s (.refl s) x y hx hy).orFail (fun hs h => ?_) fun _ h => .array h
          cases h with
          | array h => exact h
          | arrayInEmpty h => exact absurd h (not_fitsEmptyObject hb (by simp [hnode]) hs)
      | _ =>
          refine Decides.mono hempty (fun _ h => ?_) fun _ h => .arrayInEmpty h
          cases h with
          | arrayInEmpty h => exact h
  | _ =>
      refine decides_fail fun h => ?_
      cases h

theorem decides_structures (hs : s.Formed) (ha : s.Closed AnyName a) (hb : s.Closed AnyName b) :
    Decides Γ I s (structures inner a b) (Fits Γ lo a b (s.node a) (s.node b))
      (Fits Γ hi a b (s.node a) (s.node b)) := by
  have hm := ha.node
  have hn := hb.node
  have hshapes := decides_shapes (a := a) hi' hb hm
  refine Steps.node (Steps.node ?_)
  have hunion : ∀ members, s.node b = .union members → Decides Γ I s
      (unionTarget inner a members) (a ∈ members ∨ ∃ m ∈ members, lo a m)
      (a ∈ members ∨ ∃ m ∈ members, hi a m) := by
    intro members hnode
    rw [hnode] at hn
    exact decides_unionTarget hi' ha hn.components
  have hmeet : ∀ members, s.node b = .intersection members → Decides Γ I s
      (members.allM (inner a)) (∀ m ∈ members, lo a m) (∀ m ∈ members, hi a m) := by
    intro members hnode
    rw [hnode] at hn
    exact decides_allM fun m hmem s₁ h₁ =>
      hi' s₁ h₁ a m (h₁.closed ha) (h₁.closed (hn.components m hmem))
  cases hsource : s.node a with
  | union members =>
      rw [hsource] at hm
      exact decides_allM fun m hmem s₁ h₁ =>
        hi' s₁ h₁ m b (h₁.closed (hm.components m hmem)) (h₁.closed hb)
  | intersection members =>
      rw [hsource] at hm
      cases htarget : s.node b with
      | union others => exact hunion others htarget
      | intersection others => exact hmeet others htarget
      | _ => exact decides_intersectionSource hi' hb hm.components
  | intrinsic k =>
      rw [hsource] at hshapes
      cases htarget : s.node b with
      | union others =>
          cases k with
          | boolean =>
              refine (hi' s (.refl s) _ b (hs.closed_fixed rfl) hb).and (fun s₁ h₁ => ?_)
                fun s₁ _ => decides_false id
              exact hi' s₁ h₁ _ b (h₁.closed (hs.closed_fixed rfl)) (h₁.closed hb)
          | _ => exact hunion others htarget
      | intersection others => cases k <;> exact hmeet others htarget
      | _ =>
          rw [htarget] at hshapes
          cases k <;> exact hshapes
  | _ =>
      rw [hsource] at hshapes
      cases htarget : s.node b with
      | union others => exact hunion others htarget
      | intersection others => exact hmeet others htarget
      | _ =>
          rw [htarget] at hshapes
          exact hshapes

end components

theorem report_run (d : Diagnostic) (c : Checker) (s : Store) :
    ∃ ds, Check.report d c s = (((), { c with diagnostics := ds }), s) ∧ d ∈ ds ∧
      ∀ e ∈ c.diagnostics, e ∈ ds := by
  by_cases hd : c.diagnostics.contains d
  · refine ⟨c.diagnostics, ?_, Array.contains_iff_mem.mp hd, fun _ => id⟩
    exact congrArg (fun c' => (((), c'), s)) (if_pos hd)
  · refine ⟨c.diagnostics.push d, ?_, Array.mem_push_self, fun _ => Array.mem_push_of_mem d⟩
    exact congrArg (fun c' => (((), c'), s)) (if_neg hd)

theorem steps_report (d : Diagnostic) :
    Checks Γ I s (Check.report d) fun _ _ => True := by
  intro hs c hc
  obtain ⟨ds, hrun, -, hmem⟩ := report_run d c s
  rw [hrun]
  exact ⟨.refl s, hs, trivial, fun hF => Comparing.report Γ (hc hF) hmem,
    (Comparing.limited_report c ds).trans, fun _ => trivial⟩

theorem steps_reportAll (ds : Array Diagnostic) :
    Checks Γ I s (ds.forM Check.report) fun _ _ => True := by
  obtain ⟨l⟩ := ds
  simp only [Array.forM_eq_forM, List.forM_toArray]
  induction l generalizing s with
  | nil => exact Steps.pure (fun _ => trivial) fun _ => trivial
  | cons d rest ih => exact Steps.bind (steps_report d) fun s₁ _ _ _ _ _ => Steps.mono ih (by simp)

/-- What stands for a type in the last store is what evaluating it in an earlier one gives. -/
theorem resolved_of_meta {t : TypeId} (hn : Resolves (.free AnyName) s Γ.nested Γ.nested)
    (hs : s.Formed) (ht : s.Closed AnyName t) (hmeta : (s.node t).isMeta)
    (hF : (Γ.nested.evaluate t Γ.nested.start s).2.Extends Γ.store) :
    Γ.resolved t =
      match (Γ.nested.evaluate t Γ.nested.start s).1.1 with
      | .ok u => u
      | .error _ => t := by
  have hrun := hn s (.refl s) t ht hs
  have hlater := (hrun.later Γ.store hF).2.1
  unfold Context.resolved
  rw [ht.node_eq (hrun.grows.trans hF), if_pos hmeta]
  generalize (Γ.nested.evaluate t Γ.nested.start s).1.1 = r at hlater
  generalize (Γ.nested.evaluate t Γ.nested.start Γ.store).1.1 = r' at hlater
  cases hlater with
  | ok h =>
      obtain ⟨rfl, -⟩ := h
      rfl
  | error _ => rfl

/-- Evaluating a type gives what stands for it in every later store. -/
theorem steps_resolve {t : TypeId} (hs : s.Formed) (hn : Resolves (.free AnyName) s Γ.nested Γ.nested)
    (ht : s.Closed AnyName t) :
    Checks Γ I s (resolve Γ.nested t) fun _ u => u = Γ.resolved t := by
  refine Steps.node ?_
  by_cases hmeta : (s.node t).isMeta
  · rw [if_pos hmeta]
    have hrun := hn s (.refl s) t ht hs
    have hok := (hrun.beside s (.refl s)).2.1
    refine Steps.lift hrun.grows hrun.formed ?_
    refine Steps.bind (steps_reportAll _) fun s₁ _ _ h₁ _ _ => ?_
    have hresolved := fun hF : s₁.Extends Γ.store =>
      resolved_of_meta hn hs ht hmeta (h₁.trans hF)
    generalize (Γ.nested.evaluate t Γ.nested.start s).1.1 = r at hok hresolved
    cases r with
    | ok u =>
        refine Steps.mono (Steps.result fun _ => h₁.closed ?_)
          fun hF _ _ h _ => h.trans (hresolved hF).symm
        cases hok with
        | ok h => exact h.2
    | error e =>
        exact Steps.mono (Steps.result fun _ => (hrun.grows.trans h₁).closed ht)
          fun hF _ _ h _ => h.trans (hresolved hF).symm
  · rw [if_neg hmeta]
    refine Steps.mono (Steps.result fun _ => ht) fun hF _ u hu => hu.trans ?_
    unfold Context.resolved
    rw [ht.node_eq hF, if_neg hmeta]

theorem decides_rules (hn : Resolves (.free AnyName) s Γ.nested Γ.nested)
    (hi' : Asks Γ I s inner lo hi) (ha : s.Closed AnyName a) (hb : s.Closed AnyName b) :
    Decides Γ I s (rules Γ.nested inner a b) (Unfolds Γ lo a b)
      (Unfolds Γ hi a b) := by
  intro hs
  unfold rules
  by_cases htop : b = .any || b = .unknown || b = .error
  · rw [if_pos htop]
    exact decides_true (.top (by simpa [or_assoc] using htop)) hs
  rw [if_neg htop]
  by_cases hbottom : a = .never || a = .error
  · rw [if_pos hbottom]
    exact decides_true (.bottom (by simpa using hbottom)) hs
  rw [if_neg hbottom]
  have hrest : ∀ {R : Relation}, Unfolds Γ R a b →
      b ≠ .never ∧ (a = .any ∨ Compares Γ R a b) := by
    intro R h
    cases h with
    | top h => exact absurd (by simpa [or_assoc] using h) htop
    | bottom h => exact absurd (by simpa using h) hbottom
    | any hb ha => exact ⟨hb, .inl ha⟩
    | compare hb hc => exact ⟨hb, .inr hc⟩
  by_cases hnever : b = .never
  · rw [if_pos hnever]
    exact decides_fail (fun h => (hrest h).1 hnever) hs
  rw [if_neg hnever]
  by_cases hany : a = .any
  · rw [if_pos hany]
    exact decides_true (.any hnever hany) hs
  rw [if_neg hany]
  refine Steps.bind (steps_resolve hs hn ha) (fun s₁ x _ h₁ hx hxa => ?_) hs
  intro hs₁
  refine Steps.bind (steps_resolve hs₁ (hn.mono h₁) (h₁.closed hb)) (fun s₂ y _ h₂ hy hyb => ?_) hs₁
  have h₁₂ := h₁.trans h₂
  intro hs₂
  have hcompare : Decides Γ I s₂
      (if x = a && y = b then structures inner a b else inner x y)
      (Compares Γ lo a b) (Compares Γ hi a b) := by
    by_cases hsame : x = a && y = b
    · rw [if_pos hsame]
      simp only [Bool.and_eq_true, decide_eq_true_eq] at hsame
      have hiff : ∀ R : Relation, s₂.Extends Γ.store →
          (Compares Γ R a b ↔ Fits Γ R a b (s₂.node a) (s₂.node b)) := by
        intro R hF
        unfold Compares
        rw [← hxa (h₂.trans hF), ← hyb hF, if_pos hsame, (h₁₂.closed ha).node_eq hF,
          (h₁₂.closed hb).node_eq hF]
      exact Decides.mono (decides_structures (hi'.mono h₁₂) hs₂ (h₁₂.closed ha) (h₁₂.closed hb))
        (fun hF => (hiff lo hF).mp) fun hF => (hiff hi hF).mpr
    · rw [if_neg hsame]
      simp only [Bool.and_eq_true, decide_eq_true_eq] at hsame
      have hiff : ∀ R : Relation, s₂.Extends Γ.store → (Compares Γ R a b ↔ R x y) := by
        intro R hF
        unfold Compares
        rw [← hxa (h₂.trans hF), ← hyb hF, if_neg hsame]
      exact Decides.mono (hi' s₂ h₁₂ x y (h₂.closed hx) hy) (fun hF => (hiff lo hF).mp)
        fun hF => (hiff hi hF).mpr
  refine Steps.mono (Decides.mono hcompare (fun _ h => (hrest h).2.resolve_left hany)
    fun _ h => .compare hnever h) (fun _ _ _ h _ _ => h) hs₂

end checks

end Assignability

end TypeResolution
