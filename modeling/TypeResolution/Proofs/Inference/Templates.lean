import TypeResolution.Proofs.Assignability.Templates
import TypeResolution.Proofs.Inference.Arguments

/-!
Patterns of infer names and texts. Such a pattern matches a text exactly when something is captured
from it, and whatever it matches is assignable to the template in which every hole is `string`. The
converse holds of patterns that close with a hole, and of the others for texts in which the closing
text does not occur before the end.
-/

namespace TypeResolution

open Store Template

namespace Inference

variable {p : Problem} {env : Environment} {s s' : Store} {source pattern hole t : TypeId}
  {names : List String} {spans : List Span} {text : String} {keep : Bool}

/-- Walks, whatever has been recorded. -/
def walking : Outcomes Inferring where
  Holds s m Q := ∀ pools, building.Holds s (m pools) fun s' r => Q s' r.1
  pure h _ := building.pure h
  bind hm hf pools := building.bind (hm pools) fun s₁ r h₁ hs₁ hQ => hf s₁ r.1 h₁ hs₁ hQ r.2
  formed h pools := building.formed fun hs => h hs pools

section steps

variable {α β : Type} {Q : Store → α → Prop} {Q' : Store → β → Prop}

theorem walking_lift {m : Build α} (hm : building.Holds s m Q) : walking.Holds s (liftM m) Q :=
  fun _ => building.bind hm fun _ _ _ _ h => building.pure h

theorem walking_store {f : Store → Inferring β} (h : walking.Holds s (f s) Q') :
    walking.Holds s (getThe Store >>= f) Q' :=
  h

theorem walking_node {f : Node → Inferring β} (h : walking.Holds s (f (s.node t)) Q') :
    walking.Holds s (Build.node t >>= f) Q' :=
  h

theorem expand_plain (hn : ∀ name args, s.node t ≠ .reference name args) :
    expand env t s = (t, s) := by
  have hnode : Build.node t s = (s.node t, s) := rfl
  unfold expand maxExpansions expandAt
  rw [bind_idle hnode]
  cases h : s.node t with
  | reference name args => exact absurd h (hn name args)
  | _ => rfl

theorem walking_expand {f : TypeId → Inferring β}
    (hn : ∀ name args, s.node t ≠ .reference name args) (h : walking.Holds s (f t) Q') : walking.Holds s (liftM (expand env t) >>= f) Q' := by
  intro pools
  change building.Holds s (expand env t >>= fun u => f u pools) _
  intro hs
  rw [bind_idle (expand_plain hn)]
  exact h pools hs

end steps

/-- A name of the problem takes whatever text was captured for it. -/
theorem walking_hole {info : TypeParam} {piece : TypeId} {v : Literal}
    (hn : s.node hole = .param info) (hinfo : (p.find? info.name).isSome)
    (hpiece : s.node piece = .literal v) (depth : Nat) (active : List (TypeId × TypeId)) :
    walking.Holds s (inferAt p depth active true hole piece) fun _ matched => matched = true := by
  cases depth with
  | zero => exact walking.pure rfl
  | succ depth =>
      refine walking_store ?_
      split
      · exact walking.pure rfl
      split
      · exact walking.pure rfl
      obtain ⟨found, hfound⟩ := Option.isSome_iff_exists.mp hinfo
      unfold walkPair
      refine walking_expand (by simp [hn]) (walking_expand (by simp [hpiece]) (walking_node ?_))
      rw [hn]
      dsimp only
      rw [hfound]
      refine walking_node ?_
      rw [hpiece]
      dsimp only
      have hadded : walking.Holds s (addCandidate p true found piece) fun _ _ => True :=
        fun _ => building.pure trivial
      exact walking.bind hadded fun _ _ _ _ _ => walking.pure rfl

/-- The holes of a pattern are names of the problem. -/
def HolesBound (p : Problem) (s : Store) (spans : List Span) : Prop :=
  ∀ t, .hole t ∈ spans → ∃ info, s.node t = .param info ∧ (p.find? info.name).isSome

theorem walking_texts (hspans : HolesBound p s spans)
    (hlength : text.utf8ByteSize ≤ Limits.templateLength) (depth : Nat)
    (active : List (TypeId × TypeId)) :
    walking.Holds s (texts (inferAt p depth active) true spans text) fun _ matched =>
      matched = (capture spans text.toList).isSome := by
  unfold texts
  rw [if_neg (Nat.not_lt_of_le hlength)]
  cases hcaptured : capture spans text.toList with
  | none => exact walking.pure rfl
  | some captured =>
      have hall : walking.Holds s (captured.mapM fun c => do
          inferAt p depth active true c.1 (← Build.stringLiteral c.2)) fun _ results =>
          List.Forall₂ (fun _ matched => matched = true) captured results := by
        refine walking.mapM (P := fun _ _ matched => matched = true) (fun _ h => h)
          fun c hc s₁ h₁ _ => ?_
        obtain ⟨info, hn, hinfo⟩ := hspans c.1 (mem_spans_of_capture hcaptured c hc)
        have hknown : c.1.index < s.size := known_of_node hn (by simp)
        have hliteral := walking_lift (building_stringLiteral (s := s₁) c.2)
        refine walking.bind hliteral fun s₂ piece h₂ _ hpiece => ?_
        have hn₂ := ((h₁.trans h₂).node_eq c.1 hknown).trans hn
        exact walking_hole hn₂ hinfo hpiece.2 depth active
      refine walking.bind hall fun s₁ results _ _ hresults => walking.pure ?_
      have htrue := forall_right_of_forall₂ hresults fun _ _ h => h
      simpa using htrue

theorem mentions_template (hs : s.Formed) (hn : s.node pattern = .template spans)
    (hspans : HolesBound p s spans) (hhole : ∃ t, .hole t ∈ spans) :
    mentions p s pattern = true := by
  obtain ⟨t, ht⟩ := hhole
  obtain ⟨info, hparam, hinfo⟩ := hspans t ht
  have hmem : t ∈ searched (.template spans) := List.mem_filterMap.mpr ⟨.hole t, ht, rfl⟩
  have hmentions : mentionsAt p s maxDepth t = true := by
    have hfixed := hs.not_isFixed hparam (by simp) (by simp) (by simp)
    rw [maxDepth, mentionsAt, if_neg (by simp [hfixed]), hparam]
    exact hinfo
  have hfixed := hs.not_isFixed hn (by simp) (by simp) (by simp)
  rw [mentions, mentionsAt, if_neg (by simp [hfixed]), hn]
  exact List.any_eq_true.mpr ⟨t, hmem, hmentions⟩

theorem walking_inferFrom (hsource : s.node source = .literal (.string text))
    (hpattern : s.node pattern = .template spans) (hspans : HolesBound p s spans)
    (hhole : ∃ t, .hole t ∈ spans) (hlength : text.utf8ByteSize ≤ Limits.templateLength) :
    walking.Holds s (inferFrom p true pattern source) fun _ matched =>
      matched = (capture spans text.toList).isSome := by
  refine walking.formed fun hs => walking_store ?_
  have hne : pattern ≠ source := by
    rintro rfl
    cases hsource.symm.trans hpattern
  have hmentions := mentions_template hs hpattern hspans hhole
  rw [if_neg (by simp [hne, hmentions]), if_neg (by simp)]
  unfold walkPair
  refine walking_expand (by simp [hpattern]) (walking_expand (by simp [hsource]) (walking_node ?_))
  rw [hpattern]
  dsimp only
  unfold walkNodes
  refine walking_node (walking_node ?_)
  rw [hpattern, hsource]
  exact walking_texts hspans hlength _ _

theorem exists_mem_distinct {params : List TypeParam} {q : TypeParam} (hq : q ∈ params) :
    ∃ r ∈ distinct params, r.name = q.name := by
  have hgeneral : ∀ rest done : List TypeParam, q ∈ rest ∨ (∃ r ∈ done, r.name = q.name) →
      ∃ r ∈ rest.foldl
        (fun done q => if done.any (·.name = q.name) then done else done ++ [q]) done,
      r.name = q.name := by
    intro rest
    induction rest with
    | nil =>
        rintro done (h | h)
        · cases h
        · exact h
    | cons r rest ih =>
        intro done h
        apply ih
        rcases h with h | ⟨u, hu, hname⟩
        · rcases List.mem_cons.mp h with rfl | h
          · right
            dsimp only
            split
            · rename_i hdone
              simpa using hdone
            · exact ⟨q, by simp, rfl⟩
          · exact .inl h
        · right
          dsimp only
          split
          · exact ⟨u, hu, hname⟩
          · exact ⟨u, List.mem_append_left _ hu, hname⟩
  exact hgeneral params [] (.inl hq)

theorem isSome_find_of {params : List TypeParam} {q : TypeParam} (hq : q ∈ params) :
    ((Problem.of env keep params).find? q.name).isSome := by
  obtain ⟨r, hr, hname⟩ := exists_mem_distinct hq
  exact List.find?_isSome.mpr ⟨r, hr, by simp [hname]⟩

/-- A pattern matches a text exactly when something is captured from it. -/
theorem isSome_matchPattern (hs : s.Formed) (hsource : s.node source = .literal (.string text))
    (hpattern : s.node pattern = .template spans) (hhole : ∃ t, .hole t ∈ spans)
    (hspans : ∀ t, .hole t ∈ spans → ∃ info, s.node t = .param info ∧ info.name ∈ names)
    (hlength : text.utf8ByteSize ≤ Limits.templateLength) :
    (matchPattern env keep source pattern names s).1.isSome =
      (capture spans text.toList).isSome := by
  have hbound : HolesBound (Problem.of env keep (names.map .named)) s spans := by
    intro t ht
    obtain ⟨info, hn, hname⟩ := hspans t ht
    exact ⟨info, hn, isSome_find_of (q := .named info.name) (List.mem_map_of_mem hname)⟩
  obtain ⟨-, -, hmatched⟩ := walking_inferFrom hsource hpattern hbound hhole hlength
    (Problem.of env keep (names.map .named)).pools hs
  rw [← hmatched]
  have hrun : ∀ (matched : Bool) (k : Build (Option Substitution)) (s' : Store),
      (∀ s', (k s').1.isSome) →
      ((if matched then k else return none : Build (Option Substitution)) s').1.isSome =
        matched := by
    intro matched k s' hk
    cases matched with
    | false => rfl
    | true => exact hk s'
  exact hrun _ _ _ fun s' => rfl

/-- The template in which every hole takes any text. -/
def opened (spans : List Span) : List Span :=
  spans.map fun
    | .text a => .text a
    | .hole _ => .hole .string

theorem hole_mem_opened (h : .hole t ∈ opened spans) : t = .string := by
  obtain ⟨span, -, hspan⟩ := List.mem_map.mp h
  cases span with
  | text a => cases hspan
  | hole u =>
      cases hspan
      rfl

theorem spells_opened {takes : TypeId → List Char → Prop} {piece : List Char}
    (htakes : ∀ piece, takes .string piece) :
    Spells takes (opened spans) piece ↔ Spells Open spans piece := by
  induction spans generalizing piece with
  | nil => simp [opened, Spells.nil_iff]
  | cons span rest ih =>
      cases span with
      | text a =>
          change Spells takes (.text a :: opened rest) piece ↔ _
          simp [Spells.text_iff, ih]
      | hole t =>
          change Spells takes (.hole .string :: opened rest) piece ↔ _
          simp [Spells.hole_iff, ih, htakes]

theorem tidy_opened (htidy : Span.Tidy spans) :
    Span.Tidy (opened spans) := by
  obtain ⟨⟨t, ht⟩, hjoined⟩ := htidy
  refine ⟨⟨.string, List.mem_map.mpr ⟨.hole t, ht, rfl⟩⟩, ?_, ?_⟩
  · intro hmem
    obtain ⟨span, hspan, heq⟩ := List.mem_map.mp hmem
    cases span with
    | text a =>
        cases heq
        exact hjoined.nonempty hspan
    | hole t => cases heq
  · rw [opened, List.isChain_map]
    refine hjoined.apart.imp fun a b hab => ?_
    revert hab
    cases a <;> cases b <;> simp [Span.isText]

section assignable

variable {setting : Setting} {F : Store} {verdict : Bool} (hs : s.Formed)
  (henv : setting.environment.Known s) (hsource : s.node source = .literal (.string text))
  (hpattern : s.node pattern = .template spans) (htidy : Span.Tidy spans)
  (halternates : Alternates spans)
  (hspans : ∀ t, .hole t ∈ spans → ∃ info, s.node t = .param info ∧ info.name ∈ names)
  (hlength : text.utf8ByteSize ≤ Limits.templateLength)

include hs henv hsource hpattern htidy halternates hspans hlength

/-- A text that a pattern of names and texts matches is assignable to the template in which every
hole is `string`, and the other way round if the text closes where the pattern first can. -/
theorem matchPattern_assignable :
    let target := Build.template (opened spans) s
    Assignability.Finds setting target.2 F source target.1 verdict →
    ((matchPattern setting.environment keep source pattern names s).1.isSome → verdict = true) ∧
      (ClosesLate spans text.toList → verdict = true →
        (matchPattern setting.environment keep source pattern names s).1.isSome) := by
  intro target h
  have hmade : building.Holds s (Build.template (opened spans)) fun s' t =>
      t.index < s'.size ∧ s'.node t = .template (opened spans) := by
    refine building.formed fun hs => ?_
    rw [template_eq_intern (tidy_opened htidy)]
    refine building_node (fun c hc => ?_) (by simp)
    obtain ⟨span, hspan, heq⟩ := List.mem_filterMap.mp hc
    cases span with
    | text a => cases heq
    | hole u =>
        cases heq
        rw [hole_mem_opened hspan]
        exact hs.known_of_isFixed rfl
  obtain ⟨hgrows, hformed, -, hn⟩ := hmade hs
  have hx : target.2.node source = .literal (.string text) :=
    (hgrows.node_eq source (Absorbs.known_of_literal hsource)).trans hsource
  have hstring : target.2.node .string = .intrinsic .string := hformed.node_intrinsic .string
  have hholes : ∀ u, .hole u ∈ opened spans → Fillable target.2 u := by
    intro u hu
    rw [hole_mem_opened hu]
    exact .leaf (hformed.known_of_isFixed rfl) (by rw [hstring]; rfl)
  rw [Assignability.assignable_template_iff_spells (henv.mono hgrows) hformed hx hn
    (tidy_opened htidy) hholes h, spells_opened fun _ => .anything (.inl hstring),
    isSome_matchPattern hs hsource hpattern htidy.1 hspans hlength]
  exact ⟨spells_of_capture, capture_of_spells halternates⟩

end assignable

end Inference

end TypeResolution
