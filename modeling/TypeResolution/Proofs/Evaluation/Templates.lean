import TypeResolution.Proofs.Evaluation.Rebuilding
import TypeResolution.Proofs.Normal.Absorption
import TypeResolution.Proofs.Template.Holes

/-!
What templates evaluate to. Holes in normal form stay as they are, so the template stays as it is
too, unless it becomes the union of the texts that it spells.
-/

namespace TypeResolution

open Store

variable {s s₀ s' : Store} {t r target : TypeId} {texts : List String} {spans : List Span}

theorem joinSpans_of_joined (h : Span.Joined spans) : Build.joinSpans spans = spans := by
  induction spans with
  | nil => rfl
  | cons span rest ih =>
      have hrest : Span.Joined rest :=
        ⟨fun hmem => h.nonempty (List.mem_cons_of_mem _ hmem), h.apart.tail⟩
      change Build.consSpan span (Build.joinSpans rest) = span :: rest
      rw [ih hrest]
      cases span with
      | hole t => rfl
      | text a =>
          have hne : a.isEmpty = false := by
            by_contra hempty
            obtain rfl : a = "" := by simpa using hempty
            exact h.nonempty (List.mem_cons_self ..)
          match rest with
          | [] => simp [Build.consSpan, hne]
          | .hole t :: rest => simp [Build.consSpan, hne]
          | .text b :: rest => exact absurd h.apart (by simp [Span.isText])

theorem known_of_template (hn : s.node t = .template spans) : t.index < s.size :=
  known_of_node hn (by simp)

theorem template_eq_intern (htidy : Span.Tidy spans) :
    Build.template spans = Build.intern (.template spans) := by
  obtain ⟨⟨hole, hhole⟩, hjoined⟩ := htidy
  unfold Build.template
  rw [joinSpans_of_joined hjoined]
  match spans with
  | [] => cases hhole
  | [.text a] => simp at hhole
  | [.hole u] => rfl
  | .text a :: _ :: _ => rfl
  | .hole u :: _ :: _ => rfl

/-- The members of a union are the literals of the texts; without texts it is `never`. -/
structure Lists (s : Store) (texts : List String) (r : TypeId) : Prop where
  known : r.index < s.size
  sound : ∀ m ∈ s.unionMembers r, m = .never ∨ ∃ text ∈ texts, s.node m = .literal (.string text)
  complete : ∀ text ∈ texts, ∃ m ∈ s.unionMembers r, s.node m = .literal (.string text)

theorem Lists.mono (h : Lists s texts r) (hs : s.Extends s') : Lists s' texts r := by
  have hmembers : s'.unionMembers r = s.unionMembers r := by
    simp only [unionMembers, hs.node_eq r h.known]
  have hnode : ∀ {m v}, s.node m = .literal v → s'.node m = .literal v := fun hv =>
    (hs.node_eq _ (Absorbs.known_of_literal hv)).trans hv
  refine ⟨Nat.lt_of_lt_of_le h.known hs.size_le, fun m hm => ?_, fun text htext => ?_⟩
  · rw [hmembers] at hm
    rcases h.sound m hm with rfl | ⟨text, htext, hv⟩
    · exact .inl rfl
    · exact .inr ⟨text, htext, hnode hv⟩
  · obtain ⟨m, hm, hv⟩ := h.complete text htext
    exact ⟨m, hmembers ▸ hm, hnode hv⟩

theorem joinForm_literals {ls : List TypeId} (hs : s.Formed)
    (hls : ∀ l ∈ ls, ∃ text, s.node l = .literal (.string text)) : Normal.JoinForm s ls := by
  have hintrinsic : ∀ k : Intrinsic, k.typeId ∉ ls := by
    intro k hk
    obtain ⟨text, hv⟩ := hls _ hk
    cases (hs.node_intrinsic k).symm.trans hv
  have hfixed : ∀ m ∈ ls, m ≠ .error ∧ m ≠ .trueLiteral := by
    intro m hm
    obtain ⟨text, hv⟩ := hls m hm
    constructor
    · rintro rfl
      have herror : s.node .error = .error := hs.node_fixed (i := 0) (by decide)
      cases herror.symm.trans hv
    · rintro rfl
      cases (hs.node_ofBool true).symm.trans hv
  refine ⟨fun m hm => ?_, fun m hm => ?_, fun m hm v hv => ?_, fun htrue => ?_⟩
  · obtain ⟨text, hv⟩ := hls m hm
    rw [hv]
    rfl
  · refine ⟨(hfixed m hm).1, ?_, ?_, ?_⟩ <;> rintro rfl
    · exact hintrinsic .any hm
    · exact hintrinsic .unknown hm
    · exact hintrinsic .never hm
  · cases v with
    | string _ => exact hintrinsic .string
    | number _ => exact hintrinsic .number
    | boolean _ => exact hintrinsic .boolean
  · exact absurd rfl (hfixed _ htrue).2

section lists

variable {ls : List TypeId}
  (hls : List.Forall₂ (fun text l => s.node l = .literal (.string text)) texts ls)

include hls

theorem mem_texts_iff {text : String} :
    (∃ l ∈ ls, s.node l = .literal (.string text)) ↔ text ∈ texts := by
  rw [exists_iff_of_forall₂ hls (p := fun other => other = text)]
  · simp
  · intro other l hl
    simp [hl]

/-- The union of the literals of some texts lists them. -/
theorem building_lists : building.Holds s (Build.union ls) fun s' r => Lists s' texts r := by
  have hliteral : ∀ l ∈ ls, ∃ text, s.node l = .literal (.string text) :=
    forall_right_of_forall₂ hls fun text _ hl => ⟨text, hl⟩
  have hknown : ∀ l ∈ ls, l.index < s.size := by
    intro l hl
    obtain ⟨text, hv⟩ := hliteral l hl
    exact Absorbs.known_of_literal hv
  refine building.formed fun hs => building.mono (building_joined hknown) fun s' r h hs' hr => ?_
  obtain ⟨hr, hjoined⟩ := hr
  have hmem : ∀ l, l ∈ TypeId.sortUnique s.numbers (ls.flatMap s.unionLeaves) ↔ l ∈ ls := by
    have hleaves : ls.flatMap s.unionLeaves = ls :=
      flatMap_leaves_of_flat (joinForm_literals hs hliteral).flat
    rw [hleaves]
    exact fun l => TypeId.mem_sortUnique
  generalize TypeId.sortUnique s.numbers (ls.flatMap s.unionLeaves) = flat at hjoined hmem
  have hform : Normal.JoinForm s flat :=
    joinForm_literals hs fun l hl => hliteral l ((hmem l).mp hl)
  have habsorbed : s.absorbLiterals (flat.filter (· ≠ .never)) = flat := by
    rw [List.filter_eq_self.mpr fun m hm => by simpa using (hform.plain m hm).2.2.2]
    exact hform.absorbLiterals_eq
  have hlists : (∀ m ∈ s'.unionMembers r, m = .never ∨ m ∈ flat) →
      (∀ l ∈ flat, l ∈ s'.unionMembers r) → Lists s' texts r := by
    intro hsound hcomplete
    have hlater : ∀ l ∈ flat, s'.node l = s.node l := fun l hl =>
      h.node_eq l (hknown l ((hmem l).mp hl))
    refine ⟨hr, fun m hm => (hsound m hm).imp_right fun hm => ?_, fun text htext => ?_⟩
    · obtain ⟨text, hv⟩ := hliteral m ((hmem m).mp hm)
      exact ⟨text, (mem_texts_iff hls).mp ⟨m, (hmem m).mp hm, hv⟩, (hlater m hm).trans hv⟩
    · obtain ⟨l, hl, hv⟩ := (mem_texts_iff hls).mpr htext
      exact ⟨l, hcomplete l ((hmem l).mpr hl), (hlater l ((hmem l).mpr hl)).trans hv⟩
  cases hjoined with
  | error hmem' => exact absurd rfl (hform.plain _ hmem').1
  | any hmem' => exact absurd rfl (hform.plain _ hmem').2.1
  | unknown hmem' => exact absurd rfl (hform.plain _ hmem').2.2.1
  | never hnone =>
      rw [habsorbed] at hnone
      subst hnone
      rw [unionMembers_of_not_union (unionMembers?_fixed hs' rfl)] at hlists
      exact hlists (by simp) nofun
  | single hone =>
      rw [habsorbed] at hone
      subst hone
      have hflat : s'.unionMembers? r = none := by
        rw [unionMembers?, h.node_eq r (hknown r ((hmem r).mp (List.mem_singleton_self r)))]
        exact hform.flat r (List.mem_singleton_self r)
      rw [unionMembers_of_not_union hflat] at hlists
      exact hlists (fun m hm => .inr hm) fun l hl => hl
  | union _ _ _ hms _ hn =>
      have hmembers : s'.unionMembers r = flat := by
        simp only [unionMembers, hn, ← hms, habsorbed]
        rfl
      rw [hmembers] at hlists
      exact hlists (fun m hm => .inr hm) fun l hl => hl

end lists

/-- What a type that is evaluated for the sake of a template becomes: it stays as it is, or it is
the template and becomes the union of its texts. -/
def Spelled (target : TypeId) (texts? : Option (List String)) (s : Store) (t r : TypeId) : Prop :=
  r = t ∨ ∃ texts, texts? = some texts ∧ t = target ∧ Lists s texts r

theorem Spelled.mono {texts? : Option (List String)} (h : Spelled target texts? s t r)
    (hs : s.Extends s') : Spelled target texts? s' t r := by
  rcases h with rfl | ⟨texts, htexts, heq, hlists⟩
  · exact .inl rfl
  · exact .inr ⟨texts, htexts, heq, hlists.mono hs⟩

namespace Eval

open Template

theorem evaluating_store {α : Type} {C : Store → TypeId → TypeId → Prop} {f : Store → Eval α}
    {Q : Store → α → Prop} (h : s.Formed → (evaluating C).Holds s (f s) Q) :
    (evaluating C).Holds s (getThe Store >>= f) Q := by
  intro e he hs
  rw [run_bind]
  exact h hs e he hs

section holes

variable {texts? starts : Option (List String)} {inner : TypeId → Eval TypeId} {setting : Setting}
  (hn : s₀.node target = .template spans)

include hn

theorem node_of_template (h : s₀.Extends s) : s.node target = .template spans :=
  (h.node_eq target (known_of_template hn)).trans hn

/-- No hole is the template. -/
theorem eq_of_spelled (h : s₀.Extends s) (ht : Fillable s t)
    (hr : Spelled target texts? s t r) : r = t := by
  rcases hr with rfl | ⟨_, _, rfl, _⟩
  · rfl
  have hnode := node_of_template hn h
  exact (not_fillable ht (by rw [hnode]; rfl) (by simp [hnode])).elim

/-- Holes in normal form stay as they are. -/
theorem rewriting_fillable :
    Rewriting (fun _ s t => s₀.Extends s ∧ Fillable s t) (Spelled target texts?) where
  mono h ht := ⟨ht.1.trans h, ht.2.mono h⟩
  known ht := ht.2.known
  component {_ s t c} ht hstructural hc := by
    refine ⟨ht.1, ?_⟩
    cases ht.2 with
    | leaf _ hfiller =>
        revert hfiller hstructural
        cases s.node t <;> simp [Node.isStructural, Node.isFiller]
    | union _ hunion _ hms =>
        rw [hunion] at hc
        exact hms c hc
  keeps h hr := hr.mono h
  stop _ := .inl rfl
  leaf _ _ := .inl rfl
  again _ := .inl rfl
  union {_ s t ms rs} ht hunion hrs := by
    refine building.formed fun hs => ?_
    cases ht.2 with
    | leaf _ hfiller => simp [hunion, Node.isFiller] at hfiller
    | union hknown hunion' hform hms =>
        cases hunion.symm.trans hunion'
        have heq : rs = ms := by
          have hsame : List.Forall₂ (· = ·) ms rs :=
            ((List.forall₂_and_left _ _).mpr ⟨hms, hrs⟩).imp fun m r h =>
              (eq_of_spelled hn ht.1 h.1 h.2).symm
          rw [List.forall₂_eq_eq_eq] at hsame
          exact hsame.symm
        rw [heq]
        have hagain := union_again hs hknown hunion hform.1 hform.2.1 hform.2.2
        intro _
        rw [hagain]
        exact ⟨.refl s, hs, .inl rfl⟩
  intersection ht hnode _ := (not_fillable ht.2 (by rw [hnode]; rfl) (by simp [hnode])).elim
  object ht hnode _ _ := (not_fillable ht.2 (by rw [hnode]; rfl) (by simp [hnode])).elim
  function ht hnode _ _ := (not_fillable ht.2 (by rw [hnode]; rfl) (by simp [hnode])).elim
  array ht hnode _ := (not_fillable ht.2 (by rw [hnode]; rfl) (by simp [hnode])).elim

variable (hs₀ : s₀.Formed)

include hs₀

omit hn in
theorem evaluating_spans (hinner : ∀ s₁, s₀.Extends s₁ → ∀ t, Fillable s₁ t →
      (evaluating (Spelled target texts?)).Holds s₁ (inner t) fun _ r => r = t)
    {rest : List Span} (hholes : ∀ t, .hole t ∈ rest → Fillable s₀ t) (h : s₀.Extends s) :
    (evaluating (Spelled target texts?)).Holds s (evaluateSpans inner rest starts) fun _ found =>
      found = some (rest, spellings s₀ rest starts) := by
  induction rest generalizing s starts with
  | nil => exact (evaluating _).pure rfl
  | cons span rest ih =>
      have hrest : ∀ t, .hole t ∈ rest → Fillable s₀ t := fun t ht =>
        hholes t (List.mem_cons_of_mem _ ht)
      cases span with
      | text a =>
          refine (evaluating _).bind (ih hrest h) fun s₁ found _ _ hfound => ?_
          subst hfound
          exact (evaluating _).pure rfl
      | hole t =>
          have ht := hholes t (List.mem_cons_self ..)
          refine (evaluating _).bind (hinner s h t (ht.mono h)) fun s₁ value h₁ hs₁ hvalue => ?_
          rw [hvalue]
          have h₀₁ := h.trans h₁
          have hnever : t ≠ .never := by
            rintro rfl
            have hnode : s₁.node .never = .intrinsic .never := hs₁.node_intrinsic .never
            exact not_fillable (ht.mono h₀₁) (by rw [hnode]; rfl) (by simp [hnode])
          rw [if_neg hnever]
          refine evaluating_store fun _ => ?_
          dsimp only
          rw [literalTexts_eq hs₀ h₀₁ ht.known]
          refine (evaluating _).bind (ih hrest h₀₁) fun s₂ found _ _ hfound => ?_
          subst hfound
          exact (evaluating _).pure rfl

theorem evaluating_template (htidy : Span.Tidy spans)
    (hinner : ∀ s₁, s₀.Extends s₁ → ∀ t, Fillable s₁ t →
      (evaluating (Spelled target texts?)).Holds s₁ (inner t) fun _ r => r = t)
    (hholes : ∀ t, .hole t ∈ spans → Fillable s₀ t)
    (htexts : spellings s₀ spans (some [""]) = texts?) (h : s₀.Extends s) :
    (evaluating (Spelled target texts?)).Holds s (Eval.template inner spans)
      (Spelled target texts? · target) := by
  have hspans : (evaluating (Spelled target texts?)).Holds s (evaluateSpans inner spans (some [""]))
      fun _ found => found = some (spans, spellings s₀ spans (some [""])) :=
    evaluating_spans hs₀ hinner hholes h
  refine (evaluating _).bind hspans fun s₁ found h₁ _ hfound => ?_
  rw [htexts] at hfound
  have W : Rewriting _ (Spelled target texts?) := rewriting_fillable hn
  have hnode := node_of_template hn (h.trans h₁)
  have hkept : (evaluating (Spelled target texts?)).Holds s₁ (liftM (Build.template spans))
      (Spelled target texts? · target) := by
    refine W.lift_evaluating (building.formed fun hs₁ _ => ?_)
    rw [template_eq_intern htidy]
    have hagain : Build.intern (.template spans) s₁ = (target, s₁) :=
      hs₁.intern_node (known_of_template hnode) hnode
    rw [hagain]
    exact ⟨.refl s₁, hs₁, .inl rfl⟩
  subst hfound
  cases texts? with
  | none => exact hkept
  | some texts =>
      have hliterals : (evaluating (Spelled target (some texts))).Holds s₁
          (texts.mapM fun text => (liftM (Build.stringLiteral text) : Eval TypeId)) fun s' ls =>
            List.Forall₂ (fun text l => s'.node l = .literal (.string text)) texts ls := by
        refine (evaluating _).mapM (fun h hl => ?_) fun text _ s₂ _ _ => ?_
        · exact (h.node_eq _ (Absorbs.known_of_literal hl)).trans hl
        · refine W.lift_evaluating (building.mono (building_node ?_ ?_) fun _ _ _ _ hl => hl.2)
          · simp [Node.components]
          · simp
      dsimp only
      split
      · refine (evaluating _).bind hliterals fun s₂ ls _ _ hls => ?_
        refine W.lift_evaluating (building.mono (building_lists hls) fun s₃ r _ _ hr => ?_)
        exact .inr ⟨texts, rfl, rfl, hr⟩
      · exact hkept

end holes

section evaluated

variable {texts? : Option (List String)} {setting : Setting} (hs₀ : s₀.Formed)
  (hn : s₀.node target = .template spans) (htidy : Span.Tidy spans)
  (hholes : ∀ t, .hole t ∈ spans → Fillable s₀ t)
  (htexts : spellings s₀ spans (some [""]) = texts?)

include hs₀ hn htidy hholes htexts

/-- A template stays as it is or becomes the union of the texts that it spells. -/
theorem evaluating_evaluateAt (depth : Nat) :
    (evaluating (Spelled target texts?)).Holds s₀ (evaluateAt setting depth target)
      (Spelled target texts? · target) := by
  have hguarded : ∀ {work : TypeId → Node → Eval TypeId},
      (∀ s₁, s₀.Extends s₁ → (evaluating (Spelled target texts?)).Holds s₁
        (work target (.template spans)) (Spelled target texts? · target)) →
      (evaluating (Spelled target texts?)).Holds s₀ (guarded work setting target)
        (Spelled target texts? · target) := by
    intro work hwork
    refine evaluating_guarded (fun _ _ _ _ h hr => hr.mono h) (known_of_template hn) (by simp [hn])
      (fun _ _ => .inl rfl) fun s₁ h => ?_
    rw [node_of_template hn h]
    exact hwork s₁ h
  cases depth with
  | zero => exact hguarded fun _ _ => (evaluating _).pure (.inl rfl)
  | succ depth =>
      have W : Rewriting _ (Spelled target texts?) := rewriting_fillable hn
      have hinner : ∀ s₂, s₀.Extends s₂ → ∀ t, Fillable s₂ t →
          (evaluating (Spelled target texts?)).Holds s₂ (evaluateAt setting depth t) fun _ r =>
            r = t := by
        intro s₂ h₂ t ht
        have heval := W.evaluates (fun ht => ht.2.isMeta) setting depth s₂ (.refl s₂) t ⟨h₂, ht⟩
        refine (evaluating _).mono heval fun s₃ r h₃ _ hr => ?_
        exact eq_of_spelled hn (h₂.trans h₃) (ht.mono h₃) hr
      exact hguarded fun _ h => evaluating_template hn hs₀ htidy hinner hholes htexts h

end evaluated

end Eval

end TypeResolution
