import TypeResolution.Proofs.Replay.Evaluation

/-!
An evaluation that has a history, beside one that has none. The first one starts in an evaluator that
may remember results, is at work on some types and is bound by limits. As long as nothing interferes
with it, the second one, in any later store, gives what it gives.
-/

namespace TypeResolution.Replay

open Store Eval

variable {L : Link} {P : String → Prop} {calm : Prop} {s s' : Store} {e e' : Evaluator} {α β : Type}

/-- What follows a step is done in the evaluator and the store that the step leaves behind. -/
theorem bind_run {m : Eval α} {f : α → Eval β} {r : Except Cancelled α}
    (h : m e s = ((r, e'), s')) : (m >>= f) e s = ExceptT.bindCont f r e' s' := by
  change ExceptT.bindCont f (m e s).1.1 (m e s).1.2 (m e s).2 = _
  rw [h]

/-- How an evaluator differs after a step that looks at no type. -/
structure Idle (e e' : Evaluator) : Prop where
  guard : e'.guard = e.guard
  cache : e'.cache = e.cache
  frames : e'.frames = e.frames
  depthReported : e'.depthReported = e.depthReported
  diagnostics : ∀ d ∈ e.diagnostics, d ∈ e'.diagnostics
  patience : e.patience = none → e'.patience = none

/-- What the evaluators of the two runs are like. -/
structure Regime (L : Link) where
  /-- The first evaluator, beside a store. -/
  fit : Store → Evaluator → Prop
  /-- Nothing has interfered with the first run. -/
  clear : Evaluator → Prop
  /-- The second evaluator. -/
  ready : Evaluator → Prop
  mono {s s' : Store} {e : Evaluator} : s.Extends s' → fit s e → fit s' e
  fit_idle {s : Store} {e e' : Evaluator} : Idle e e' → fit s e → fit s e'
  clear_idle {e e' : Evaluator} : Idle e e' → clear e' → clear e
  ready_idle {e e' : Evaluator} : Idle e e' → ready e → ready e'
  patience {e : Evaluator} : ready e → e.patience = none

namespace Regime

variable (R : Regime L)

/-- How the first run ends, and what the second one gives later unless something interfered. -/
structure Ends [Paired L α] (s : Store) (m m' : Eval α) (e : Evaluator) : Prop where
  grows : s.Extends (m e s).2
  formed : (m e s).2.Formed
  fit : R.fit (m e s).2 (m e s).1.2
  clear : R.clear (m e s).1.2 → R.clear e
  partner : ∀ a, (m e s).1.1 = .ok a → ∃ b, Same L (m e s).2 a b
  later : R.clear (m e s).1.2 → ∀ a, (m e s).1.1 = .ok a → ∀ e' F, R.ready e' → F.Formed →
    (m e s).2.Extends F → ∃ b e₁ F₁, m' e' F = ((.ok b, e₁), F₁) ∧ R.ready e₁ ∧ F.Alike F₁ ∧
      Same L (m e s).2 a b

variable {R}

theorem ends_pure [Paired L α] {a b : α} (hs : s.Formed) (he : R.fit s e) (h : Same L s a b) :
    R.Ends s (pure a) (pure b) e where
  grows := .refl s
  formed := hs
  fit := he
  clear := id
  partner _ ha := ⟨b, Except.ok.inj ha ▸ h⟩
  later _ _ ha e' F hready _ _ :=
    ⟨b, e', F, rfl, hready, .refl F, Except.ok.inj ha ▸ h⟩

/-- A run that was given up says nothing about the second one. -/
theorem ends_error [Paired L α] {m m' : Eval α} {c : Cancelled}
    (hm : m e s = ((.error c, e'), s')) (hext : s.Extends s') (hs' : s'.Formed)
    (he : R.fit s' e') (hclear : R.clear e' → R.clear e) : R.Ends s m m' e where
  grows := by rw [hm]; exact hext
  formed := by rw [hm]; exact hs'
  fit := by rw [hm]; exact he
  clear := by rw [hm]; exact hclear
  partner := by rw [hm]; rintro a ⟨⟩
  later := by rw [hm]; rintro _ a ⟨⟩

theorem ends_bind [Paired L α] [Paired L β] {m m' : Eval α} {f f' : α → Eval β}
    (hm : R.Ends s m m' e)
    (hf : ∀ s₁, s.Extends s₁ → s₁.Formed → ∀ a b, Same L s₁ a b → ∀ e₁, R.fit s₁ e₁ →
      R.Ends s₁ (f a) (f' b) e₁) : R.Ends s (m >>= f) (m' >>= f') e := by
  obtain ⟨hgrows, hformed, hfit, hclear, hpartner, hlater⟩ := hm
  rcases hr : m e s with ⟨⟨r, e₁⟩, s₁⟩
  rw [hr] at hgrows hformed hfit hclear hpartner hlater
  cases r with
  | error c => exact ends_error (bind_run hr) hgrows hformed hfit hclear
  | ok a =>
      have hbind : (m >>= f) e s = f a e₁ s₁ := bind_run hr
      have hnext := fun b hab => hf s₁ hgrows hformed a b hab e₁ hfit
      obtain ⟨b₀, hab₀⟩ := hpartner a rfl
      have h₀ := hnext b₀ hab₀
      refine ⟨?_, ?_, ?_, ?_, ?_, ?_⟩ <;> rw [hbind]
      · exact hgrows.trans h₀.grows
      · exact h₀.formed
      · exact h₀.fit
      · exact fun h => hclear (h₀.clear h)
      · exact h₀.partner
      · intro h c hc e' F hready hF hext
        obtain ⟨b, e₂, F₁, hm', hready₁, halike, hab⟩ :=
          hlater (h₀.clear h) a rfl e' F hready hF (h₀.grows.trans hext)
        obtain ⟨d, e₃, F₂, hf', hready₂, halike', hcd⟩ := (hnext b hab).later h c hc e₂ F₁ hready₁
          (halike.formed hF) (hext.trans halike.toExtends)
        exact ⟨d, e₃, F₂, (bind_run hm').trans hf', hready₂, halike.trans halike', hcd⟩

/-- How two evaluations under a regime are compared. -/
@[reducible] def runs (R : Regime (.plain P calm)) : Runs (.plain P calm) Eval where
  Follows s m m' := s.Formed → ∀ e, R.fit s e → R.Ends s m m' e
  ofFormed h hs := h hs hs
  pure h hs e he := ends_pure hs he h
  bind hm hf hs e he := ends_bind (hm hs e he) fun s₁ h₁ hs₁ a b hab => hf s₁ h₁ hs₁ a b hab hs₁
  store {α _ s f f'} h hs e he := by
    have h₀ := h s (.of_extends (.refl s)) hs e he
    refine ⟨h₀.grows, h₀.formed, h₀.fit, h₀.clear, h₀.partner, ?_⟩
    intro hclear a ha e' F hready hF hext
    exact (h F (.of_extends (h₀.grows.trans hext)) hs e he).later hclear a ha e' F hready hF hext
  lift {α _ s m m'} h hs e he := by
    have hm := h hs
    refine ⟨hm.grows, hm.formed, R.mono hm.grows he, id, ?_, ?_⟩
    · rintro a ⟨⟩
      exact ⟨_, (hm.beside s (.refl s)).2⟩
    · rintro _ a ⟨⟩ e' F hready _ hext
      obtain ⟨halike, hsame⟩ := hm.later F hext
      exact ⟨_, e', _, rfl, hready, halike, hsame⟩

section steps

variable [Paired L α]

/-- Two steps that look at no type. -/
theorem ends_idle {m m' : Eval α} {a b : α} (hs : s.Formed) (he : R.fit s e)
    (hm : m e s = ((.ok a, e'), s)) (hidle : Idle e e') (hab : Same L s a b)
    (hm' : ∀ e' F, R.ready e' → ∃ e₁, m' e' F = ((.ok b, e₁), F) ∧ Idle e' e₁) :
    R.Ends s m m' e where
  grows := by rw [hm]; exact .refl s
  formed := by rw [hm]; exact hs
  fit := by rw [hm]; exact R.fit_idle hidle he
  clear := by rw [hm]; exact R.clear_idle hidle
  partner := by
    rw [hm]
    rintro _ ⟨⟩
    exact ⟨b, hab⟩
  later := by
    rw [hm]
    rintro _ _ ⟨⟩ e' F hready _ _
    obtain ⟨e₁, hrun, hidle'⟩ := hm' e' F hready
    exact ⟨b, e₁, F, hrun, R.ready_idle hidle' hready, .refl F, hab⟩

/-- Two runs between changes that look at no type. -/
theorem ends_between {before after : Evaluator → Evaluator} {m m' : Eval α}
    (hbefore : ∀ e, Idle e (before e)) (hafter : ∀ e, Idle e (after e))
    (h : R.Ends s m m' (before e)) : R.Ends s (between before after m) (between before after m') e := by
  have hrun : ∀ (m : Eval α) e s, between before after m e s =
      (((m (before e) s).1.1, after (m (before e) s).1.2), (m (before e) s).2) := fun _ _ _ => rfl
  refine ⟨?_, ?_, ?_, ?_, ?_, ?_⟩ <;> rw [hrun]
  · exact h.grows
  · exact h.formed
  · exact R.fit_idle (hafter _) h.fit
  · exact fun hclear => R.clear_idle (hbefore e) (h.clear (R.clear_idle (hafter _) hclear))
  · exact h.partner
  · intro hclear a ha e' F hready hF hext
    obtain ⟨b, e₁, F₁, hm', hready₁, halike, hab⟩ := h.later (R.clear_idle (hafter _) hclear) a ha
      (before e') F (R.ready_idle (hbefore e') hready) hF hext
    exact ⟨b, after e₁, F₁, by rw [hrun, hm'], R.ready_idle (hafter e₁) hready₁, halike, hab⟩

end steps

theorem Idle.refl (e : Evaluator) : Idle e e := ⟨rfl, rfl, rfl, rfl, fun _ h => h, id⟩

theorem report_run (d : Diagnostic) (e : Evaluator) (s : Store) :
    ∃ e', Eval.report d e s = ((.ok (), e'), s) ∧ Idle e e' ∧ d ∈ e'.diagnostics := by
  refine ⟨_, rfl, ?_⟩
  dsimp only
  split
  · exact ⟨Idle.refl e, Array.contains_iff_mem.mp ‹_›⟩
  · exact ⟨⟨rfl, rfl, rfl, rfl, fun _ h => Array.mem_push_of_mem _ h, id⟩, Array.mem_push_self⟩

theorem ends_poll {m' : Eval Unit} (hs : s.Formed) (he : R.fit s e)
    (hm' : ∀ e' F, R.ready e' → m' e' F = ((.ok (), e'), F)) : R.Ends s poll m' e := by
  have hready : ∀ e' F, R.ready e' → ∃ e₁, m' e' F = ((.ok (), e₁), F) ∧ Idle e' e₁ :=
    fun e' F h => ⟨e', hm' e' F h, Idle.refl e'⟩
  obtain ⟨guard, cache, frames, productive, cycles, depthReported, diagnostics, patience⟩ := e
  cases patience with
  | none => exact ends_idle hs he rfl (Idle.refl _) ⟨rfl, trivial⟩ hready
  | some n =>
      cases n with
      | zero => exact ends_error (m := poll) rfl (.refl s) hs he id
      | succ n =>
          refine ends_idle hs he rfl ⟨rfl, rfl, rfl, rfl, fun _ h => h, ?_⟩ ⟨rfl, trivial⟩ hready
          rintro ⟨⟩

theorem poll_of_none (he : e.patience = none) (s : Store) : poll e s = ((.ok (), e), s) := by
  obtain ⟨guard, cache, frames, productive, cycles, depthReported, diagnostics, patience⟩ := e
  cases he
  rfl

theorem steady (R : Regime (.plain P calm)) : @Steady _ R.runs := by
  refine @Steady.mk _ R.runs ?_ ?_ ?_ ?_ ?_
  · intro s d hs e he
    obtain ⟨e', hrun, hidle, -⟩ := report_run d e s
    refine ends_idle hs he hrun hidle ⟨rfl, trivial⟩ fun e' F _ => ?_
    obtain ⟨e₁, hrun', hidle', -⟩ := report_run d e' F
    exact ⟨e₁, hrun', hidle'⟩
  · intro s _ d hs e he
    obtain ⟨e', hrun, hidle, -⟩ := report_run d e s
    exact ends_idle hs he hrun hidle ⟨rfl, trivial⟩ fun e' F _ => ⟨e', rfl, Idle.refl e'⟩
  · intro s _ d hs e he
    refine ends_idle hs he rfl (Idle.refl e) ⟨rfl, trivial⟩ fun e' F _ => ?_
    obtain ⟨e₁, hrun, hidle, -⟩ := report_run d e' F
    exact ⟨e₁, hrun, hidle⟩
  · exact fun hs e he => ends_poll hs he fun e' F h => poll_of_none (R.patience h) F
  · intro α _ s step step' h hs e he
    have hidle : ∀ (e : Evaluator) n, Idle e { e with productive := n } := fun _ _ =>
      ⟨rfl, rfl, rfl, rfl, fun _ h => h, id⟩
    exact ends_between (fun _ => hidle _ _) (fun _ => hidle _ _)
      (h hs _ (R.fit_idle (hidle e _) he))

end Regime

end TypeResolution.Replay
