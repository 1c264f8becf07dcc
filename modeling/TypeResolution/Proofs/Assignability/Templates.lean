import TypeResolution.Proofs.Assignability.Unions
import TypeResolution.Proofs.Evaluation.Templates

/-!
Texts against templates. A string literal is assignable to a template exactly when the template can
spell it, whether the checker compares it with the template itself or with the union of texts that
the template evaluates to.
-/

namespace TypeResolution

namespace Assignability

open Store Template

variable {Γ : Context} {s F : Store} {setting : Setting} {x t r : TypeId} {text : String}
  {texts : List String} {spans : List Span} {verdict : Bool}

theorem not_special (hs : s.Formed) (herror : s.node t ≠ .error)
    (hintrinsic : ∀ k, s.node t ≠ .intrinsic k) :
    t ∉ [TypeId.never, .error, .any] ∧ t ∉ [TypeId.any, .unknown, .error, .never] := by
  have hnever : t ≠ .never := fun h => hintrinsic .never (h ▸ hs.node_intrinsic .never)
  have hany : t ≠ .any := fun h => hintrinsic .any (h ▸ hs.node_intrinsic .any)
  have hunknown : t ≠ .unknown := fun h => hintrinsic .unknown (h ▸ hs.node_intrinsic .unknown)
  have herror' : t ≠ .error := fun h => herror (h ▸ hs.node_fixed (i := 0) (by decide))
  simp [hnever, hany, hunknown, herror']

/-- A string literal fits a type that is neither an object nor `string` only as a text of a
template. -/
theorem describes_of_fits {R : Relation} {n : Node} (hstring : t ≠ .string)
    (hn : Γ.store.node t = n) (hobject : ∀ o, n ≠ .object o)
    (h : ShapeFits Γ R x t (.literal (.string text)) n) :
    ∃ spans, n = .template spans ∧ Template.describes Γ.store spans text := by
  have hempty : ¬FitsEmptyObject Γ x t := by
    intro hempty
    have hshape : Γ.store.objectShape? t = none := by
      unfold objectShape?
      split
      · exact absurd (hn.symm.trans ‹_›) (hobject _)
      · rfl
    have hnone := hempty.1
    simp [isEmptyObject, hshape] at hnone
  cases h with
  | literal hprimitive => exact absurd hprimitive.symm hstring
  | text hdescribes => exact ⟨_, rfl, hdescribes⟩
  | literalInEmpty h => exact absurd h hempty

section formed

variable (hΓ : Γ.store.Formed) (hx : Γ.store.node x = .literal (.string text))

include hΓ hx

omit hΓ in
theorem resolved_literal : Γ.resolved x = x :=
  resolved_of_plain (by rw [hx]; rfl)

theorem literal_fits (h : Assignable Γ x t) (hne : x ≠ t) (ht : Γ.resolved t = t)
    (herror : Γ.store.node t ≠ .error) (hintrinsic : ∀ k, Γ.store.node t ≠ .intrinsic k) :
    Fits Γ (Assignable Γ) x t (.literal (.string text)) (Γ.store.node t) := by
  have hspecial := (not_special hΓ herror hintrinsic).2
  simp only [List.mem_cons, List.not_mem_nil, or_false, not_or] at hspecial
  have hfits := h.fits hne (not_special hΓ (by simp [hx]) (by simp [hx])).1 (by simp [hspecial])
    (resolved_literal hx) ht
  rwa [hx] at hfits

/-- A string literal that is assignable to another one is that one. -/
theorem eq_of_assignable_literal {other : String} (h : Assignable Γ x r)
    (hr : Γ.store.node r = .literal (.string other)) : x = r := by
  by_contra hne
  have hfits := literal_fits hΓ hx h hne (resolved_literal hr) (by simp [hr]) (by simp [hr])
  rw [hr] at hfits
  have hstring : r ≠ .string := by
    rintro rfl
    cases hr.symm.trans (hΓ.node_intrinsic .string)
  obtain ⟨spans, hn, -⟩ := describes_of_fits (R := Assignable Γ) hstring hr (by simp) hfits
  cases hn

/-- A string literal against the union of some texts. -/
theorem assignable_lists (h : Lists Γ.store texts r) : Assignable Γ x r ↔ text ∈ texts := by
  have hsound : ∀ m ∈ Γ.store.unionMembers r, Assignable Γ x m → text ∈ texts := by
    intro m hm hassignable
    rcases h.sound m hm with rfl | ⟨other, hmem, hv⟩
    · have hspecial := (not_special hΓ (t := x) (by simp [hx]) (by simp [hx])).1
      rcases eq_of_assignable_never hassignable with rfl | rfl <;> simp at hspecial
    · obtain rfl := eq_of_assignable_literal hΓ hx hassignable hv
      cases hx.symm.trans hv
      exact hmem
  have hcomplete : text ∈ texts → x ∈ Γ.store.unionMembers r := by
    intro hmem
    obtain ⟨m, hm, hv⟩ := h.complete text hmem
    obtain rfl : m = x := hΓ.eq_of_node_eq (Absorbs.known_of_literal hv)
      (Absorbs.known_of_literal hx) (hv.trans hx.symm)
    exact hm
  cases hmembers : Γ.store.unionMembers? r with
  | none =>
      rw [unionMembers_of_not_union hmembers] at hsound hcomplete
      constructor
      · exact hsound r (List.mem_singleton_self r)
      · intro hmem
        rw [List.mem_singleton.mp (hcomplete hmem)]
        exact assignable_refl r
  | some ms =>
      have hn : Γ.store.node r = .union ms := Node.eq_union_of_members hmembers
      have heq : Γ.store.unionMembers r = ms := by simp [unionMembers, hn, Node.unionMembers?]
      rw [heq] at hsound hcomplete
      constructor
      · intro hassignable
        have hne : x ≠ r := by
          rintro rfl
          cases hx.symm.trans hn
        have hfits := literal_fits hΓ hx hassignable hne (resolved_of_plain (by rw [hn]; rfl))
          (by simp [hn]) (by simp [hn])
        rw [hn] at hfits
        rcases hfits with hm | ⟨m, hm, hxm⟩
        · exact hsound x hm (assignable_refl x)
        · exact hsound m hm hxm
      · exact fun hmem => assignable_of_choice hΓ (.member hn (hcomplete hmem) .self)

/-- A string literal against a template that evaluation leaves as it is. -/
theorem assignable_kept (hn : Γ.store.node t = .template spans) (ht : Γ.resolved t = t) :
    Assignable Γ x t ↔ Template.describes Γ.store spans text := by
  have hne : x ≠ t := by
    rintro rfl
    cases hx.symm.trans hn
  constructor
  · intro h
    have hfits := literal_fits hΓ hx h hne ht (by simp [hn]) (by simp [hn])
    have hstring : t ≠ .string := by
      rintro rfl
      cases hn.symm.trans (hΓ.node_intrinsic .string)
    rw [hn] at hfits
    obtain ⟨_, heq, hdescribes⟩ := describes_of_fits (R := Assignable Γ) hstring hn (by simp) hfits
    cases heq
    exact hdescribes
  · intro h
    have hnever : t ≠ .never := by
      rintro rfl
      cases hn.symm.trans (hΓ.node_intrinsic .never)
    apply assignable_of_fits (resolved_literal hx) ht hnever
    rw [hx, hn]
    exact ShapeFits.text h

end formed

section template

variable (henv : setting.environment.Known s) (hs : s.Formed)
  (hx : s.node x = .literal (.string text)) (ht : s.node t = .template spans)
  (htidy : Span.Tidy spans) (hholes : ∀ u, .hole u ∈ spans → Fillable s u)

include henv hs ht htidy hholes

/-- In a store that knows what it evaluates to, a template comes to itself or to the union of the
texts that it spells. -/
theorem resolved_template :
    let F := ((setting.nested 0).evaluate t (setting.nested 0).start s).2
    s.Extends F ∧ F.Formed ∧
      Spelled t (spellings s spans (some [""])) F t ((setting.context F).resolved t) := by
  intro F
  have hready : Evaluator.Ready (Spelled t (spellings s spans (some [""]))) s
      (.fresh setting.options 0 none) := ⟨rfl, fun _ _ h => by simp [Evaluator.fresh] at h⟩
  have hevaluates : (evaluating (Spelled t (spellings s spans (some [""])))).Holds s
      (Eval.evaluateAt setting (setting.options.maxEvaluationDepth.toNat - 0) t)
      (Spelled t (spellings s spans (some [""])) · t) :=
    Eval.evaluating_evaluateAt hs ht htidy hholes rfl _
  obtain ⟨hgrows, hformed, u, hok, -, hspelled⟩ := hevaluates _ hready hs
  refine ⟨hgrows, hformed, ?_⟩
  have hresolved := resolved_of_meta (Γ := setting.context F) (resolves_nested hs henv 0) hs
    (hs.closed_of_known (known_of_template ht)) (by rw [ht]; rfl) (.refl F)
  have hrun : ((setting.context F).nested.evaluate t (setting.context F).nested.start s).1.1 =
      .ok u := hok
  rw [hrun] at hresolved
  rw [hresolved]
  exact hspelled

include hx

/-- A string literal is assignable to a template exactly when the template can spell it. -/
theorem assignable_template_iff_spells (h : Finds setting s F x t verdict) :
    verdict = true ↔ Spells (Allows s) spans text.toList := by
  have hne : x ≠ t := by
    rintro rfl
    cases hx.symm.trans ht
  have hknown : x.index < s.size := Absorbs.known_of_literal hx
  obtain ⟨s₁, h₁, hs₁, -, hdecided⟩ := h.decided henv hknown (known_of_template ht)
  have hholes₁ : ∀ u, .hole u ∈ spans → Fillable s₁ u := fun u hu => (hholes u hu).mono h₁
  obtain ⟨hF, hformed, hspelled⟩ := resolved_template (henv.mono h₁) hs₁
    (Eval.node_of_template ht h₁) htidy hholes₁
  generalize ((setting.nested 0).evaluate t (setting.nested 0).start s₁).2 = F'
    at hF hformed hspelled
  have hsF := h₁.trans hF
  have hxF : F'.node x = .literal (.string text) := (hsF.node_eq x hknown).trans hx
  have htF : F'.node t = .template spans := Eval.node_of_template ht hsF
  have hallows : ∀ {s' : Store}, s'.Formed → s.Extends s' →
      (Spells (Allows s') spans text.toList ↔ Spells (Allows s) spans text.toList) :=
    fun hs' h' => Spells.congr fun u hu piece => allows_iff_of_extends hs hs' h' (hholes u hu)
  rw [hdecided F' hF]
  by_cases hkept : (setting.context F').resolved t = t
  · have hdescribes : describes F' spans text ↔ Spells (Allows F') spans text.toList :=
      describes_iff hformed fun u hu => (hholes u hu).mono hsF
    rw [assignable_kept hformed hxF htF hkept]
    exact hdescribes.trans (hallows hformed hsF)
  · obtain ⟨texts, htexts, -, hlists⟩ := hspelled.resolve_left hkept
    have hresolved : (setting.context F').resolved x = x := resolved_literal hxF
    rw [assignable_resolved_iff hne (not_special hformed (by simp [hxF]) (by simp [hxF])).1
      (not_special hformed (by simp [htF]) (by simp [htF])).2 (fun h => hkept h.2), hresolved,
      assignable_lists hformed hxF hlists, mem_spellings hs₁ hholes₁ htexts, ← hallows hs₁ h₁]
    simp

end template

end Assignability

end TypeResolution
