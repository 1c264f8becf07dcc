import TypeResolution.Proofs.Evaluation.Kept
import TypeResolution.Proofs.Normal.Rewriting

/-!
Evaluating a type in which nothing has to be resolved rebuilds it from its evaluated components. A
relation that rebuilding keeps holds between a type and what it evaluates to, whatever the evaluator
remembers and wherever its limits stop it.
-/

namespace TypeResolution

open Store

variable {P : Store → TypeId → Prop} {C : Store → TypeId → TypeId → Prop} {s s' : Store}
  {α : Type} {setting : Setting} {t : TypeId}

/-- An evaluator that nobody cancels and that remembers only related types. -/
structure Evaluator.Ready (C : Store → TypeId → TypeId → Prop) (s : Store) (e : Evaluator) :
    Prop where
  patience : e.patience = none
  known : Remembers C s e.cache

/-- Evaluations that are not cancelled. -/
def evaluating (C : Store → TypeId → TypeId → Prop) : Outcomes Eval where
  Holds s m Q := ∀ e, Evaluator.Ready C s e → building.Holds s (m.run e) fun s' r =>
    ∃ a, r.1 = .ok a ∧ Evaluator.Ready C s' r.2 ∧ Q s' a
  pure h e he := building.pure ⟨_, rfl, he, h⟩
  bind {α β s step f Q Q'} hm hf e he hs := by
    obtain ⟨hgrows, hformed, a, hok, he', hQ⟩ := hm e he hs
    rw [Eval.run_bind]
    rcases hrun : step.run e s with ⟨⟨r, e'⟩, s'⟩
    rw [hrun] at hgrows hformed hok he' hQ
    obtain rfl : r = .ok a := hok
    obtain ⟨hgrows', hformed', hrest⟩ := hf s' a hgrows hformed hQ e' he' hformed
    exact ⟨hgrows.trans hgrows', hformed', hrest⟩
  formed h e he := building.formed fun hs => h hs e he

namespace Eval

theorem evaluating_get {f : Evaluator → Eval α} {Q : Store → α → Prop}
    (h : ∀ e, Evaluator.Ready C s e → (evaluating C).Holds s (f e) Q) :
    (evaluating C).Holds s (get >>= f) Q := by
  intro e he hs
  rw [run_bind]
  exact h e he e he hs

theorem evaluating_reports {m : Eval α} (h : Reports m) :
    (evaluating C).Holds s m fun _ _ => True := by
  intro e he hs
  obtain ⟨a, cycles, reported, ds, hrun⟩ := h e s
  rw [hrun]
  exact ⟨.refl s, hs, a, rfl, ⟨he.patience, he.known⟩, trivial⟩

theorem evaluating_node {f : Node → Eval α} {Q : Store → α → Prop}
    (h : (evaluating C).Holds s (f (s.node t)) Q) :
    (evaluating C).Holds s (liftM (Build.node t) >>= f) Q := by
  intro e he hs
  rw [run_bind]
  exact h e he hs

/-- A step between two changes of what is neither remembered nor awaited. -/
theorem evaluating_between {before after : Evaluator → Evaluator} {m : Eval α}
    {Q : Store → α → Prop} (hbefore : ∀ e, Evaluator.Ready C s e → Evaluator.Ready C s (before e))
    (hafter : ∀ s' e, Evaluator.Ready C s' e → Evaluator.Ready C s' (after e))
    (hm : (evaluating C).Holds s m Q) : (evaluating C).Holds s (between before after m) Q := by
  intro e he hs
  obtain ⟨hgrows, hformed, a, hok, he', hQ⟩ := hm (before e) (hbefore e he) hs
  exact ⟨hgrows, hformed, a, hok, hafter _ _ he', hQ⟩

theorem evaluating_productively {m : Eval α} {Q : Store → α → Prop}
    (hm : (evaluating C).Holds s m Q) : (evaluating C).Holds s (productively m) Q :=
  evaluating_between (fun _ he => ⟨he.patience, he.known⟩) (fun _ _ he => ⟨he.patience, he.known⟩) hm

theorem evaluating_leaving {m : Eval α} {Q : Store → α → Prop} (t : TypeId)
    (hm : (evaluating C).Holds s m Q) : (evaluating C).Holds s (leaving t m) Q :=
  evaluating_between (fun _ he => he) (fun _ _ he => ⟨he.patience, he.known⟩) hm

theorem evaluating_enter : (evaluating C).Holds s (enter t) fun _ _ => True :=
  fun _ he hs => ⟨.refl s, hs, _, rfl, ⟨he.patience, he.known⟩, trivial⟩

theorem evaluating_poll : (evaluating C).Holds s poll fun _ _ => True := by
  intro e he hs
  rw [poll_run, he.patience]
  exact ⟨.refl s, hs, (), rfl, he, trivial⟩

theorem evaluating_remember {r : TypeId} (hr : C s t r) :
    (evaluating C).Holds s (remember t r) fun _ _ => True := by
  refine fun e he hs => ⟨.refl s, hs, (), rfl, ⟨he.patience, fun u v huv => ?_⟩, trivial⟩
  change (e.cache.insert t r)[u]? = some v at huv
  simp only [Std.HashMap.getElem?_insert, beq_iff_eq] at huv
  split at huv
  · rename_i htu
    cases huv
    exact htu ▸ hr
  · exact he.known u v huv

section guarded

variable (hkeeps : ∀ s s' t r, s.Extends s' → C s t r → C s' t r) (ht : t.index < s.size)
  (hplain : ∀ name args, s.node t ≠ .reference name args) (hstay : ∀ s₁, s.Extends s₁ → C s₁ t t)

include ht hplain hstay

theorem evaluating_reenterCycle {s₁ : Store} (h : s.Extends s₁) :
    (evaluating C).Holds s₁ (reenterCycle setting t) (C · t) := by
  refine evaluating_node ?_
  rw [h.node_eq t ht]
  cases hn : s.node t with
  | reference name args => exact absurd hn (hplain name args)
  | _ => exact (evaluating C).pure (hstay s₁ h)

include hkeeps

/-- However a type other than a reference is evaluated, it is worked on or stays as it is. -/
theorem evaluating_guarded {work : TypeId → Node → Eval TypeId}
    (hwork : ∀ s₁, s.Extends s₁ → (evaluating C).Holds s₁ (work t (s₁.node t)) (C · t)) :
    (evaluating C).Holds s (guarded work setting t) (C · t) := by
  unfold guarded
  split
  · exact (evaluating C).pure (hstay s (.refl s))
  refine (evaluating C).bind evaluating_poll fun s₁ _ h₁ _ _ => ?_
  refine evaluating_get fun e he => ?_
  cases hk : e.cache[t]? with
  | some r => exact (evaluating C).pure (he.known t r hk)
  | none =>
      refine evaluating_get fun e he => ?_
      split
      · exact (evaluating C).pure (hstay s₁ h₁)
      refine (evaluating C).bind evaluating_enter fun s₂ answer h₂ _ _ => ?_
      have h₁₂ := h₁.trans h₂
      cases answer with
      | entered =>
          refine evaluating_node ?_
          refine (evaluating C).bind (evaluating_leaving t (hwork s₂ h₁₂)) fun s₃ r _ _ hr => ?_
          refine evaluating_get fun e he => ?_
          split
          · exact (evaluating C).pure hr
          · exact (evaluating C).bind (evaluating_remember hr) fun s₄ _ h₄ _ _ =>
              (evaluating C).pure (hkeeps _ _ _ _ h₄ hr)
      | cycle => exact evaluating_reenterCycle ht hplain hstay h₁₂
      | depthExceeded | iterationExceeded =>
          refine (evaluating C).bind (evaluating_reports (reports_reportDepthExceeded t))
            fun s₃ _ h₃ _ _ => ?_
          exact (evaluating C).pure (hstay s₃ (h₁₂.trans h₃))

end guarded

end Eval

/-- What is left of `t` when it is rebuilt from components that have become related ones. -/
structure Rebuilds (C : Store → TypeId → TypeId → Prop) (s : Store) (t : TypeId)
    (Q : Store → TypeId → Prop) : Prop where
  leaf : (s.node t).isStructural = false → Q s t
  union {ms rs : List TypeId} : s.node t = .union ms → List.Forall₂ (C s) ms rs →
    building.Holds s (Build.union rs) Q
  intersection {ms rs : List TypeId} {site : Option SourceTag} : s.node t = .intersection ms →
    List.Forall₂ (C s) ms rs → reporting.Holds s (Reporting.intersection site rs) Q
  object {o : ObjectShape} {gs : List Field} {index : Option TypeId} : s.node t = .object o →
    List.Forall₂ (FieldBecomes (C s)) o.fields gs → Option.Rel (C s) o.stringIndex index →
    building.Holds s (Normal.rebuildObject t o ⟨gs, index⟩) Q
  function {f : FunctionShape} {ps : List TypeId} {r : TypeId} : s.node t = .function f →
    List.Forall₂ (C s) f.params ps → C s f.result r → building.Holds s (Build.function ps r) Q
  array {c r : TypeId} : s.node t = .array c → C s c r → building.Holds s (Build.array r) Q

namespace Rewriting

open Eval

variable (W : Rewriting (fun _ => P) C)

include W

theorem rebuilds (ht : P s t) : Rebuilds C s t (C · t) where
  leaf := W.leaf (n := 0) ht
  union := W.union (n := 0) ht
  intersection := W.intersection (n := 0) ht
  object := W.object (n := 0) ht
  function := W.function (n := 0) ht
  array := W.array (n := 0) ht

theorem lift_evaluating {m : Build α} {Q : Store → α → Prop} (hm : building.Holds s m Q) :
    (evaluating C).Holds s (liftM m) Q := by
  intro e he hs
  obtain ⟨hgrows, hformed, hQ⟩ := hm hs
  exact ⟨hgrows, hformed, _, rfl, ⟨he.patience, fun t r hr => W.keeps hgrows (he.known t r hr)⟩, hQ⟩

theorem reporting_evaluating {m : Reporting α} {Q : Store → α → Prop}
    (hm : reporting.Holds s m Q) : (evaluating C).Holds s (Eval.reporting m) Q := by
  refine (evaluating C).bind (W.lift_evaluating (hm #[])) fun s₁ r h₁ _ hr => ?_
  intro e he hs
  obtain ⟨_, cycles, reported, ds, hrun⟩ := reports_reportAll r.2 e s₁
  rw [run_bind, hrun]
  exact ⟨.refl s₁, hs, r.1, rfl, ⟨he.patience, he.known⟩, hr⟩

variable {inner : TypeId → Eval TypeId}

omit W in
/-- From a store on, `inner` gives types related ones. -/
def Evaluates (P : Store → TypeId → Prop) (C : Store → TypeId → TypeId → Prop) (s : Store)
    (inner : TypeId → Eval TypeId) : Prop :=
  ∀ s₁, s.Extends s₁ → ∀ t, P s₁ t → (evaluating C).Holds s₁ (inner t) (C · t)

omit W in
theorem Evaluates.mono (h : Evaluates P C s inner) (hs : s.Extends s') : Evaluates P C s' inner :=
  fun s₁ h₁ => h s₁ (hs.trans h₁)

theorem evaluates_members {ts : List TypeId} (hinner : Evaluates P C s inner)
    (hts : ∀ t ∈ ts, P s t) :
    (evaluating C).Holds s (ts.mapM inner) fun s' rs => List.Forall₂ (C s') ts rs :=
  (evaluating C).mapM (fun h hr => W.keeps h hr) fun t ht s₁ h₁ _ =>
    hinner s₁ h₁ t (W.mono (n := 0) h₁ (hts t ht))

variable {Q : Store → TypeId → Prop} (hrebuild : ∀ s₁, s.Extends s₁ → Rebuilds C s₁ t Q)

include hrebuild

theorem evaluates_object {o : ObjectShape} (hinner : Evaluates P C s inner) (ht : P s t)
    (hn : s.node t = .object o) : (evaluating C).Holds s (Eval.object inner t o) Q := by
  have hparts : ∀ c ∈ (Node.object o).components, P s c := fun c hc =>
    W.component (n := 0) ht (by rw [hn]; rfl) (hn ▸ hc)
  have hfields : (evaluating C).Holds s
      (o.fields.mapM fun f => return { f with type := ← inner f.type })
      fun s' gs => List.Forall₂ (FieldBecomes (C s')) o.fields gs := by
    refine (evaluating C).mapM (fun h ⟨r, hg, hr⟩ => ⟨r, hg, W.keeps h hr⟩) fun f hf s₁ h₁ _ => ?_
    have hf : P s f.type := hparts f.type (List.mem_append_left _ (List.mem_map_of_mem hf))
    exact (evaluating C).bind (hinner s₁ h₁ f.type (W.mono (n := 0) h₁ hf)) fun s₂ r _ _ hr =>
      (evaluating C).pure ⟨r, rfl, hr⟩
  refine (evaluating C).bind hfields fun s₁ gs h₁ _ hgs => ?_
  have hindex : (evaluating C).Holds s₁ (o.stringIndex.mapM inner) fun s' index =>
      Option.Rel (C s') o.stringIndex index := by
    cases hi : o.stringIndex with
    | none => exact (evaluating C).pure .none
    | some c =>
        have hc : P s c := hparts c (List.mem_append_right _ (by simp [hi]))
        exact (evaluating C).bind (hinner s₁ h₁ c (W.mono (n := 0) h₁ hc)) fun s₂ r _ _ hr =>
          (evaluating C).pure (.some hr)
  refine (evaluating C).bind hindex fun s₂ index h₂ _ hi => ?_
  have h := h₁.trans h₂
  have hn := (h.node_eq t (W.known (n := 0) ht)).trans hn
  refine W.lift_evaluating ((hrebuild s₂ h).object hn ?_ hi)
  exact hgs.imp fun f g ⟨r, hg, hr⟩ => ⟨r, hg, W.keeps h₂ hr⟩

theorem evaluates_function {f : FunctionShape} (hinner : Evaluates P C s inner) (ht : P s t)
    (hn : s.node t = .function f) : (evaluating C).Holds s (Eval.function inner f) Q := by
  have hparts : ∀ c ∈ (Node.function f).components, P s c := fun c hc =>
    W.component (n := 0) ht (by rw [hn]; rfl) (hn ▸ hc)
  have hparams := W.evaluates_members hinner fun c hc => hparts c (List.mem_append_left _ hc)
  have hresult : P s f.result := hparts f.result (List.mem_append_right _ (by simp))
  refine (evaluating C).bind hparams fun s₁ ps h₁ _ hps => ?_
  refine (evaluating C).bind (hinner s₁ h₁ f.result (W.mono (n := 0) h₁ hresult))
    fun s₂ r h₂ _ hr => ?_
  have h := h₁.trans h₂
  have hn := (h.node_eq t (W.known (n := 0) ht)).trans hn
  refine W.lift_evaluating ((hrebuild s₂ h).function hn ?_ hr)
  exact hps.imp fun _ _ hp => W.keeps h₂ hp

variable (hmeta : ∀ {s t}, P s t → (s.node t).isMeta = false)

include hmeta

theorem evaluates_node (hinner : Evaluates P C s inner) (ht : P s t) :
    (evaluating C).Holds s (Eval.node inner setting t (s.node t)) Q := by
  have hparts : (s.node t).isStructural → ∀ c ∈ (s.node t).components, P s c :=
    fun h c hc => W.component (n := 0) ht h hc
  have hnode : ∀ {s'}, s.Extends s' → s'.node t = s.node t := fun h =>
    h.node_eq t (W.known (n := 0) ht)
  have hmeta := hmeta ht
  cases hn : s.node t with
  | union ms =>
      rw [hn] at hparts
      refine (evaluating C).bind (W.evaluates_members hinner (hparts rfl)) fun s₁ rs h₁ _ hrs => ?_
      exact W.lift_evaluating ((hrebuild s₁ h₁).union ((hnode h₁).trans hn) hrs)
  | intersection ms =>
      rw [hn] at hparts
      refine (evaluating C).bind (W.evaluates_members hinner (hparts rfl)) fun s₁ rs h₁ _ hrs => ?_
      refine (evaluating C).bind (evaluating_reports (reports_origin t)) fun s₂ site h₂ _ _ => ?_
      have h := h₁.trans h₂
      refine W.reporting_evaluating ((hrebuild s₂ h).intersection ((hnode h).trans hn) ?_)
      exact hrs.imp fun _ _ hr => W.keeps h₂ hr
  | object o => exact evaluating_productively (W.evaluates_object hrebuild hinner ht hn)
  | function f => exact evaluating_productively (W.evaluates_function hrebuild hinner ht hn)
  | array c =>
      rw [hn] at hparts
      have hc : P s c := hparts rfl c (List.mem_singleton_self c)
      refine (evaluating C).bind (evaluating_productively (hinner s (.refl s) c hc))
        fun s₁ r h₁ _ hr => ?_
      exact W.lift_evaluating ((hrebuild s₁ h₁).array ((hnode h₁).trans hn) hr)
  | error | intrinsic _ | literal _ | param _ =>
      exact (evaluating C).pure ((hrebuild s (.refl s)).leaf (by rw [hn]; rfl))
  | _ =>
      rw [hn] at hmeta
      cases hmeta

omit hrebuild

theorem evaluates_guarded {work : TypeId → Node → Eval TypeId} (ht : P s t)
    (hwork : ∀ s₁, s.Extends s₁ → (evaluating C).Holds s₁ (work t (s₁.node t)) (C · t)) :
    (evaluating C).Holds s (guarded work setting t) (C · t) := by
  refine evaluating_guarded (C := C) (fun _ _ _ _ => W.keeps) (W.known (n := 0) ht) (fun name args hn => ?_)
    (fun s₁ h₁ => W.stop (W.mono (n := 0) h₁ ht)) hwork
  have hmeta := hmeta ht
  rw [hn] at hmeta
  cases hmeta

/-- A type is related to what it evaluates to. -/
theorem evaluates (setting : Setting) (depth : Nat) : Evaluates P C s (evaluateAt setting depth) := by
  induction depth generalizing s with
  | zero =>
      intro s₁ _ t ht
      refine W.evaluates_guarded hmeta ht fun s₂ h₂ => ?_
      exact (evaluating C).pure (W.stop (W.mono (n := 0) h₂ ht))
  | succ depth ih =>
      intro s₁ _ t ht
      refine W.evaluates_guarded hmeta ht fun s₂ h₂ => ?_
      have ht₂ := W.mono (n := 0) h₂ ht
      exact W.evaluates_node (fun s₃ h₃ => W.rebuilds (W.mono (n := 0) h₃ ht₂)) hmeta ih ht₂

end Rewriting

end TypeResolution
