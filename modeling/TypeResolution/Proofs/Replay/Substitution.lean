import TypeResolution.Proofs.Replay.Normal
import TypeResolution.Type.Substitution
import TypeResolution.Type.Template

/-!
Looking for free parameters, matching templates and substituting types follow.
-/

namespace TypeResolution

variable {P : String → Prop} {L : Replay.Link} {exact : Prop} {f : Renaming} {s s' : Store}
  {t : TypeId} {ts : List TypeId}

theorem Node.mem_components_of_mem_scopes {n : Node} {c : List String × TypeId}
    (hc : c ∈ n.scopes) : c.2 ∈ n.components := by
  cases n with
  | conditional d =>
      simp only [scopes, List.mem_cons, List.not_mem_nil, or_false] at hc
      rcases hc with rfl | rfl | rfl | rfl <;> simp [components]
  | mapped m =>
      simp only [scopes, List.mem_cons, List.mem_map] at hc
      rcases hc with rfl | ⟨u, hu, rfl⟩
      · simp [components]
      · exact List.mem_cons_of_mem _ hu
  | param info => cases hc
  | _ =>
      obtain ⟨u, hu, rfl⟩ := List.mem_map.mp hc
      exact hu

namespace Scope

/-- The types that two walks have seen. -/
def SeenAlike (f : Renaming) (seen seen' : Std.HashSet TypeId) : Prop :=
  ∀ t, seen'.contains (f t) = seen.contains t

/-- Two walks that see the same give the same answer. -/
def WalksAlike (f : Renaming) (walk walk' : Walk Bool) : Prop :=
  ∀ seen seen', SeenAlike f seen seen' →
    (walk' seen').1 = (walk seen).1 ∧ SeenAlike f (walk seen).2 (walk' seen').2

theorem WalksAlike.pure (b : Bool) : WalksAlike f (Pure.pure b) (Pure.pure b) :=
  fun _ _ h => ⟨rfl, h⟩

theorem WalksAlike.bind {walk walk' : Walk Bool} {next next' : Bool → Walk Bool}
    (h : WalksAlike f walk walk') (hnext : ∀ b, WalksAlike f (next b) (next' b)) :
    WalksAlike f (walk >>= next) (walk' >>= next') := by
  intro seen seen' hseen
  obtain ⟨hanswer, hseen₁⟩ := h seen seen' hseen
  obtain ⟨hanswer₁, hseen₂⟩ := hnext (walk seen).1 _ _ hseen₁
  rw [← hanswer] at hanswer₁ hseen₂
  change _ = (next (walk seen).1 (walk seen).2).1 ∧ SeenAlike f (next (walk seen).1 (walk seen).2).2 _
  rw [← hanswer]
  exact ⟨hanswer₁, hseen₂⟩

theorem WalksAlike.anyM {α β : Type} {l : List α} {g : α → β} {walk : α → Walk Bool}
    {walk' : β → Walk Bool} (h : ∀ a ∈ l, WalksAlike f (walk a) (walk' (g a))) :
    WalksAlike f (l.anyM walk) ((l.map g).anyM walk') := by
  induction l with
  | nil => exact .pure false
  | cons a rest ih =>
      refine (h a (by simp)).bind fun b => ?_
      cases b with
      | true => exact .pure true
      | false => exact ih fun b hb => h b (by simp [hb])

theorem walksAlike_visit (bound : List String) (t : TypeId) :
    WalksAlike f (visit bound t) (visit bound (f t)) := by
  intro seen seen' hseen
  have hinsert : SeenAlike f (seen.insert t) (seen'.insert (f t)) := by
    intro u
    simp only [Std.HashSet.contains_insert, hseen u]
    congr 1
    exact Bool.eq_iff_iff.mpr (by simp)
  unfold visit
  split
  · simp only [hseen t]
    split
    · exact ⟨rfl, hseen⟩
    · exact ⟨rfl, hinsert⟩
  · exact ⟨rfl, hseen⟩

theorem walksAlike_walkAt (h : s.Mirrors exact f s') (wanted : String → Bool) {depth : Nat}
    {bound : List String} (ht : s.Closed P t) :
    WalksAlike f (walkAt s wanted depth bound t) (walkAt s' wanted depth bound (f t)) := by
  induction depth generalizing t bound with
  | zero => exact .pure false
  | succ depth ih =>
      have hscopes : WalksAlike f
          ((s.node t).scopes.anyM fun x => walkAt s wanted depth (x.1 ++ bound) x.2)
          (((s.node t).mapIds f).scopes.anyM fun x => walkAt s' wanted depth (x.1 ++ bound) x.2) := by
        rw [Node.scopes_mapIds]
        exact .anyM fun x hx => ih (ht.node.components x.2 (Node.mem_components_of_mem_scopes hx))
      unfold walkAt
      rw [f.isFixed]
      split
      · exact .pure false
      · refine (walksAlike_visit bound t).bind fun b => ?_
        cases b with
        | false => exact .pure false
        | true =>
            rw [h.node ht]
            cases hn : s.node t with
            | param info => exact .pure _
            | _ =>
                rw [hn] at hscopes
                exact hscopes

end Scope

namespace Store

theorem Mirrors.hasFreeParam (h : s.Mirrors exact f s') (ht : s.Closed P t)
    (wanted : String → Bool) : s'.hasFreeParam wanted (f t) = s.hasFreeParam wanted t :=
  (Scope.walksAlike_walkAt h wanted ht ∅ ∅ fun u => by simp).1

theorem Mirrors.containsParams (h : s.Mirrors exact f s') (ht : s.Closed P t) :
    s'.containsParams (f t) = s.containsParams t :=
  h.hasFreeParam ht _

theorem hasFreeParam_eq (h : s.Extends s') (ht : s.Closed P t) (wanted : String → Bool) :
    s'.hasFreeParam wanted t = s.hasFreeParam wanted t :=
  (Mirrors.of_extends h).hasFreeParam ht wanted

theorem containsParams_eq (h : s.Extends s') (ht : s.Closed P t) :
    s'.containsParams t = s.containsParams t :=
  hasFreeParam_eq h ht _

theorem walkAt_eq (h : s.Extends s') (ht : s.Closed P t) (wanted : String → Bool) (depth : Nat) :
    (Scope.walkAt s' wanted depth [] t {}).1 = (Scope.walkAt s wanted depth [] t {}).1 :=
  (Scope.walksAlike_walkAt (Mirrors.of_extends h) wanted ht ∅ ∅ fun u => by simp).1

end Store

namespace Template

open Store

theorem literalTextsAt_mirror (h : s.Mirrors exact f s') {fuel : Nat} (ht : s.Closed P t) :
    literalTextsAt s' fuel (f t) = literalTextsAt s fuel t := by
  induction fuel generalizing t with
  | zero => rfl
  | succ fuel ih =>
      unfold literalTextsAt
      rw [h.node ht]
      cases hn : s.node t with
      | union members =>
          have hmembers : (members.map f).mapM (literalTextsAt s' fuel) =
              members.mapM (literalTextsAt s fuel) := by
            rw [List.mapM_map]
            exact mapM_congr_of_mem fun m hm => ih (ht.of_mem_components hn hm)
          simp only [Node.mapIds, hmembers]
      | intrinsic kind => cases kind <;> rfl
      | literal value => cases value <;> rfl
      | _ => rfl

theorem literalTextsAt_eq (h : s.Extends s') {fuel : Nat} (ht : s.Closed P t) :
    literalTextsAt s' fuel t = literalTextsAt s fuel t :=
  literalTextsAt_mirror (Mirrors.of_extends h) ht

theorem literalTexts_mirror (h : s.Mirrors exact f s') (hs : s.Formed) (ht : s.Closed P t) :
    literalTexts s' (f t) = literalTexts s t := by
  rw [literalTexts, literalTextsAt_mirror h ht, hs.literalTextsAt_eq_literalTexts]
  exact Nat.lt_succ_of_le f.index_le

theorem holeAcceptsAt_mirror (h : s.Mirrors exact f s') {fuel : Nat} {before : List Char}
    (ht : s.Closed P t) : holeAcceptsAt s' fuel before (f t) = holeAcceptsAt s fuel before t := by
  induction fuel generalizing t with
  | zero => rfl
  | succ fuel ih =>
      unfold holeAcceptsAt
      rw [h.node ht]
      cases hn : s.node t with
      | union members => exact any_map_congr fun m hm => ih (ht.of_mem_components hn hm)
      | intrinsic kind => cases kind <;> rfl
      | literal value => cases value <;> rfl
      | _ => rfl

theorem holeAcceptsAt_eq (h : s.Extends s') {fuel : Nat} {before : List Char}
    (ht : s.Closed P t) : holeAcceptsAt s' fuel before t = holeAcceptsAt s fuel before t :=
  holeAcceptsAt_mirror (Mirrors.of_extends h) ht

theorem anyCut_congr {p q : List Char → List Char → Bool} (h : ∀ a b, p a b = q a b)
    (before text : List Char) : anyCut p before text = anyCut q before text := by
  induction text generalizing before with
  | nil => exact h before []
  | cons c rest ih => rw [anyCut, anyCut, h, ih]

theorem matchSpans_map (accepts accepts' : List Char → TypeId → Bool) {spans : List Span}
    (h : ∀ t, Span.hole t ∈ spans → ∀ before, accepts' before (f t) = accepts before t)
    (text : List Char) :
    matchSpans accepts' (spans.map (·.mapIds f)) text = matchSpans accepts spans text := by
  induction spans generalizing text with
  | nil => rfl
  | cons span rest ih =>
      have hrest := ih fun t ht => h t (by simp [ht])
      cases span with
      | text a => simp only [List.map_cons, Span.mapIds_text, matchSpans, hrest]
      | hole t =>
          simp only [List.map_cons, Span.mapIds_hole, matchSpans]
          refine anyCut_congr (fun before text => ?_) [] text
          rw [h t (by simp), hrest]

theorem describes_mirror (h : s.Mirrors exact f s') (hs : s.Formed) {spans : List Span}
    (hspans : ∀ t, Span.hole t ∈ spans → s.Closed P t) (text : String) :
    describes s' (spans.map (·.mapIds f)) text = describes s spans text := by
  refine matchSpans_map _ _ (fun t ht before => ?_) _
  rw [holeAccepts, holeAcceptsAt_mirror h (hspans t ht), hs.holeAcceptsAt_eq_holeAccepts]
  exact Nat.lt_succ_of_le f.index_le

theorem describes_eq (h : s.Extends s') {spans : List Span}
    (hs : ∀ t, Span.hole t ∈ spans → s.Closed P t) (text : String) :
    describes s' spans text = describes s spans text := by
  have hmatch := matchSpans_map (f := .same) (holeAccepts s) (holeAccepts s')
    (fun t ht _ => holeAcceptsAt_eq h (hs t ht)) text.toList
  rwa [List.map_congr_left (g := id) fun span _ => span.mapIds_same, List.map_id] at hmatch

theorem mem_spans_of_capture {spans : List Span} {text : List Char}
    {captured : List (TypeId × String)} (h : capture spans text = some captured) :
    ∀ c ∈ captured, Span.hole c.1 ∈ spans := by
  fun_induction capture spans text generalizing captured with
  | case1 => cases h; simp
  | case2 => cases h
  | case3 text a rest ih =>
      obtain ⟨tail, _, h⟩ := Option.bind_eq_some_iff.mp h
      exact fun c hc => List.mem_cons_of_mem _ (ih tail h c hc)
  | case4 => cases h; simp
  | case5 text t a rest ih =>
      obtain ⟨⟨head, tail⟩, _, h⟩ := Option.bind_eq_some_iff.mp h
      obtain ⟨found, hfound, h⟩ := Option.bind_eq_some_iff.mp h
      cases h
      intro c hc
      rcases List.mem_cons.mp hc with rfl | hc
      · simp
      · exact List.mem_cons_of_mem _ (ih tail hfound c hc)
  | case6 => cases h
  | case7 t u rest c tail ih =>
      obtain ⟨found, hfound, h⟩ := Option.bind_eq_some_iff.mp h
      cases h
      intro c hc
      rcases List.mem_cons.mp hc with rfl | hc
      · simp
      · exact List.mem_cons_of_mem _ (ih hfound c hc)

theorem capture_hole_text (t : TypeId) (a : String) (rest : List Span) (text : List Char) :
    capture (.hole t :: .text a :: rest) text = (cutBefore a.toList [] text).bind fun cut =>
      (capture (.text a :: rest) cut.2).map ((t, String.ofList cut.1) :: ·) := by
  rw [capture.eq_def]
  dsimp only
  cases cutBefore a.toList [] text with
  | none => rfl
  | some cut =>
      simp only [Option.bind_eq_bind, Option.bind_some]
      cases capture (.text a :: rest) cut.2 <;> rfl

theorem capture_hole_hole (t u : TypeId) (rest : List Span) (c : Char) (text : List Char) :
    capture (.hole t :: .hole u :: rest) (c :: text) =
      (capture (.hole u :: rest) text).map ((t, String.ofList [c]) :: ·) := by
  rw [capture.eq_def]
  dsimp only
  cases capture (.hole u :: rest) text <;> rfl

theorem capture_map (f : TypeId → TypeId) (spans : List Span) (text : List Char) :
    capture (spans.map (·.mapIds f)) text =
      (capture spans text).map (·.map fun c => (f c.1, c.2)) := by
  fun_induction capture spans text with
  | case1 text h => simp [capture, h]
  | case2 text h => simp [capture, h]
  | case3 a rest text ih =>
      simp only [List.map_cons, Span.mapIds_text, capture, Option.bind_eq_bind]
      cases after? a.toList text with
      | none => rfl
      | some tail => exact ih tail
  | case4 t text => rfl
  | case5 t a rest text ih =>
      simp only [List.map_cons, Span.mapIds_text, Span.mapIds_hole] at ih ⊢
      rw [capture_hole_text]
      cases cutBefore a.toList [] text with
      | none => rfl
      | some cut =>
          simp only [Option.bind_eq_bind, Option.bind_some, ih]
          cases capture (.text a :: rest) cut.2 <;> rfl
  | case6 t u rest => rfl
  | case7 t u rest c tail ih =>
      simp only [List.map_cons, Span.mapIds_hole] at ih ⊢
      rw [capture_hole_hole, ih]
      cases capture (.hole u :: rest) tail <;> rfl

end Template

theorem Build.joinSpans_map (f : TypeId → TypeId) (spans : List Span) :
    joinSpans (spans.map (·.mapIds f)) = (joinSpans spans).map (·.mapIds f) := by
  induction spans with
  | nil => rfl
  | cons span rest ih =>
      simp only [joinSpans, List.map_cons, List.foldr_cons] at ih ⊢
      rw [ih]
      generalize rest.foldr consSpan [] = joined
      cases span with
      | hole t => rfl
      | text a =>
          rcases joined with _ | ⟨_ | u, rest⟩
          · simp only [List.map_nil, Span.mapIds_text, consSpan]
            split <;> rfl
          · rfl
          · simp only [List.map_cons, Span.mapIds_text, Span.mapIds_hole, consSpan]
            split <;> rfl

namespace Substitution

/-- The same names for other ids. -/
def mapIds (f : TypeId → TypeId) (σ : Substitution) : Substitution :=
  ⟨σ.bindings.map fun b => (b.1, f b.2)⟩

variable (f : TypeId → TypeId) (σ : Substitution)

theorem mapIds_same : σ.mapIds (fun t => t) = σ := by
  simp [mapIds]

@[simp] theorem isEmpty_mapIds : (σ.mapIds f).isEmpty = σ.isEmpty := by
  simp [isEmpty, mapIds]

theorem get?_mapIds (name : String) : (σ.mapIds f).get? name = (σ.get? name).map f := by
  obtain ⟨bindings⟩ := σ
  simp only [get?, mapIds]
  induction bindings with
  | nil => rfl
  | cons b rest ih =>
      obtain ⟨key, t⟩ := b
      simp only [List.map_cons, List.lookup_cons, ih]
      cases name == key <;> rfl

theorem insert_mapIds (name : String) (t : TypeId) :
    (σ.mapIds f).insert name (f t) = (σ.insert name t).mapIds f := by
  obtain ⟨bindings⟩ := σ
  simp only [mapIds, insert, mk.injEq]
  induction bindings with
  | nil => rfl
  | cons b rest ih =>
      simp only [List.map_cons, insertInto, ih]
      split <;> rfl

theorem ofArgs_mapIds (f : Renaming) (params : List TypeParam) (args : List TypeId) :
    ofArgs (params.map (·.mapIds f)) (args.map f) = (ofArgs params args).mapIds f := by
  have hfold : ∀ (l : List (TypeParam × Nat)) (σ : Substitution),
      (l.map fun x => (x.1.mapIds f, x.2)).foldl (fun σ x =>
        σ.insert x.1.name (((args.map f)[x.2]?.or x.1.default).getD .unknown)) (σ.mapIds f) =
      (l.foldl (fun σ x =>
        σ.insert x.1.name ((args[x.2]?.or x.1.default).getD .unknown)) σ).mapIds f := by
    intro l
    induction l with
    | nil => exact fun σ => rfl
    | cons x rest ih =>
        intro σ
        obtain ⟨p, i⟩ := x
        have hvalue : ((args.map f)[i]?.or (p.mapIds f).default).getD .unknown =
            f ((args[i]?.or p.default).getD .unknown) := by
          have hunknown : TypeId.unknown = f .unknown := (f.fixed rfl).symm
          rw [List.getElem?_map, TypeParam.mapIds, ← Option.map_or]
          cases args[i]?.or p.default with
          | none => exact hunknown
          | some t => rfl
        simp only [List.map_cons, List.foldl_cons, hvalue]
        rw [show (p.mapIds f).name = p.name from rfl, insert_mapIds]
        exact ih _
  have hzip : (params.map (·.mapIds f)).zipIdx = params.zipIdx.map fun x => (x.1.mapIds f, x.2) := by
    rw [List.zipIdx_map]
    rfl
  rw [ofArgs, hzip]
  exact hfold _ empty

end Substitution

namespace Replay

open Store

instance : Value P Substitution where
  image := Substitution.mapIds
  Ok s σ := ∀ b ∈ σ.bindings, s.Closed P b.2
  mono h hσ b hb := h.closed (hσ b hb)
  image_same := Substitution.mapIds_same

instance : Value P Span where
  image := Span.mapIds
  Ok s span := ∀ t, span = .hole t → s.Closed P t
  mono h hs t ht := h.closed (hs t ht)
  image_same := Span.mapIds_same

theorem ok_emptySubstitution : Ok P s Substitution.empty := by
  intro b hb
  cases hb

theorem ok_insertBinding {σ : Substitution} (hσ : Ok P s σ) (ht : s.Closed P t) (name : String) :
    Ok P s (σ.insert name t) := by
  have hinto : ∀ l : List (String × TypeId), (∀ b ∈ l, s.Closed P b.2) →
      ∀ b ∈ Substitution.insertInto name t l, s.Closed P b.2 := by
    intro l hl
    induction l with
    | nil => simpa [Substitution.insertInto] using ht
    | cons c rest ih =>
        obtain ⟨hc, hrest⟩ := List.forall_mem_cons.mp hl
        unfold Substitution.insertInto
        split
        · exact List.forall_mem_cons.mpr ⟨ht, hrest⟩
        · exact List.forall_mem_cons.mpr ⟨hc, ih hrest⟩
  exact hinto σ.bindings hσ

theorem closed_of_get? {σ : Substitution} (hσ : Ok P s σ) {name : String}
    (h : σ.get? name = some t) : s.Closed P t := by
  have hmem : (name, t) ∈ σ.bindings := by
    rw [Substitution.get?, List.lookup_eq_some_iff] at h
    obtain ⟨l₁, l₂, heq, _⟩ := h
    simp [heq]
  exact hσ _ hmem

theorem ok_foldl_insert {params : List TypeParam} {args : List TypeId} (hs : s.Formed)
    (hp : ∀ p ∈ params, ∀ t, p.default = some t → s.Closed P t) (ha : ∀ t ∈ args, s.Closed P t)
    {l : List (TypeParam × Nat)} {σ : Substitution} (hl : ∀ x ∈ l, x.1 ∈ params) (hσ : Ok P s σ) :
    Ok P s (l.foldl
      (fun σ (p, i) => σ.insert p.name ((args[i]?.or p.default).getD .unknown)) σ) := by
  induction l generalizing σ with
  | nil => exact hσ
  | cons x rest ih =>
      obtain ⟨p, i⟩ := x
      refine ih (fun y hy => hl y (by simp [hy])) (ok_insertBinding hσ ?_ _)
      cases hi : args[i]? with
      | some u => exact ha u (List.mem_of_getElem? hi)
      | none =>
          cases hd : p.default with
          | some u => exact hp p (hl (p, i) (by simp)) u hd
          | none => exact ok_of_fixed hs rfl

theorem ok_ofArgs {params : List TypeParam} {args : List TypeId} (hs : s.Formed)
    (hp : ∀ p ∈ params, ∀ t, p.default = some t → s.Closed P t) (ha : ∀ t ∈ args, s.Closed P t) :
    Ok P s (Substitution.ofArgs params args) := by
  refine ok_foldl_insert hs hp ha (fun x hx => ?_) ok_emptySubstitution
  exact List.fst_mem_of_mem_zipIdx hx

theorem follows_conditional {c : Conditional} (h₁ : s.Closed L.names c.check) (h₂ : s.Closed L.names c.pattern)
    (h₃ : s.Closed L.names c.whenTrue) (h₄ : s.Closed L.names c.whenFalse) :
    Follows L s (Build.conditional c) (Build.conditional (c.mapIds L)) :=
  follows_intern (n := .conditional c)
    (closedNode_of_components (by simp) (by simp [Node.components, h₁, h₂, h₃, h₄]))

theorem closedNode_mapped {m : Mapped} (h₁ : s.Closed P m.source) (h₂ : Ok P s m.keyFilter)
    (h₃ : s.Closed P m.template) (h₄ : Ok P s m.nameType) : (Node.mapped m).Closed P s := by
  refine closedNode_of_components (by simp) fun c hc => ?_
  simp only [Node.components, List.cons_append, List.mem_cons, List.mem_append,
    Option.mem_toList] at hc
  rcases hc with rfl | hc | rfl | hc
  · exact h₁
  · exact h₂ c hc
  · exact h₃
  · exact h₄ c hc

theorem follows_mapped {m : Mapped} (h₁ : s.Closed L.names m.source) (h₂ : Ok L.names s m.keyFilter)
    (h₃ : s.Closed L.names m.template) (h₄ : Ok L.names s m.nameType) :
    Follows L s (Build.mapped m) (Build.mapped (m.mapIds L)) :=
  follows_intern (n := .mapped m) (closedNode_mapped h₁ h₂ h₃ h₄)

theorem follows_template {spans : List Span} (h : Ok L.names s spans) :
    Follows L s (Build.template spans) (Build.template (spans.map (·.mapIds L))) := by
  have hjoin : ∀ t, Span.hole t ∈ Build.joinSpans spans → s.Closed L.names t :=
    fun t ht => h _ (Build.hole_mem_of_mem_joinSpans ht) t rfl
  unfold Build.template
  rw [Build.joinSpans_map]
  generalize Build.joinSpans spans = l at hjoin
  have hnode : Follows L s (Build.intern (.template l))
      (Build.intern (.template (l.map (·.mapIds L)))) := by
    refine follows_intern (n := .template l) (closedNode_of_components (by simp) fun c hc => ?_)
    simp only [Node.components, List.mem_filterMap] at hc
    obtain ⟨span, hspan, hc⟩ := hc
    cases span with
    | text a => cases hc
    | hole u =>
        cases hc
        exact hjoin c hspan
  rcases l with _ | ⟨_ | u, _ | ⟨b, rest⟩⟩
  · exact follows_stringLiteral ""
  · exact follows_stringLiteral _
  · exact hnode
  · exact hnode
  · exact hnode

section instantiate

open Instantiation

variable {σ : Substitution} {shadowed : List String} {inner inner' : Inner}

/-- Instantiating components follows from `s` on. -/
def Instantiates (L : Link) (s : Store) (inner inner' : Inner) : Prop :=
  ∀ s₁, s.Extends s₁ → ∀ σ shadowed t, Ok L.names s₁ σ → s₁.Closed L.names t →
    Follows L s₁ (inner σ shadowed t) (inner' (σ.mapIds L) shadowed (L t))

theorem Instantiates.mono (h : Instantiates L s inner inner') (hs : s.Extends s') :
    Instantiates L s' inner inner' :=
  fun s₁ h₁ => h s₁ (hs.trans h₁)

theorem closed_of_lookup? (hσ : Ok P s σ) {name : String}
    (h : lookup? σ shadowed name = some t) : s.Closed P t := by
  unfold lookup? at h
  split at h
  · cases h
  · exact closed_of_get? hσ h

theorem lookup?_mapIds (f : TypeId → TypeId) (name : String) :
    lookup? (σ.mapIds f) shadowed name = (lookup? σ shadowed name).map f := by
  unfold lookup?
  split
  · rfl
  · exact σ.get?_mapIds f name

theorem replacement?_mirror (σ : Substitution) (shadowed : List String)
    (h : s.Mirrors exact f s') (ht : s.Closed P t) :
    replacement? s' (σ.mapIds f) shadowed (f t) =
      (replacement? s σ shadowed t).map fun x => (x.1, f x.2) := by
  simp only [replacement?, h.node ht]
  cases s.node t with
  | param info =>
      simp only [Node.mapIds, TypeParam.mapIds, lookup?_mapIds, Option.map_map]
      rfl
  | _ => rfl

theorem closed_of_replacement? (hσ : Ok P s σ) {name : String} {u : TypeId}
    (h : replacement? s σ shadowed t = some (name, u)) : s.Closed P u := by
  unfold replacement? at h
  split at h
  · obtain ⟨v, hv, heq⟩ := Option.map_eq_some_iff.mp h
    cases heq
    exact closed_of_lookup? hσ hv
  · cases h

theorem follows_conditionalParts (hi : Instantiates L s inner inner') (hσ : Ok L.names s σ)
    {c : Conditional} (hc : (Node.conditional c).Closed L.names s) :
    Follows L s (conditionalParts inner σ shadowed c)
      (conditionalParts inner' (σ.mapIds L) shadowed (c.mapIds L)) := by
  have hpart : ∀ s₁, s.Extends s₁ → ∀ shadowed, ∀ u ∈ (Node.conditional c).components,
      Follows L s₁ (inner σ shadowed u) (inner' (σ.mapIds L) shadowed (L u)) :=
    fun s₁ h₁ shadowed u hu =>
      hi s₁ h₁ σ shadowed u (Value.mono h₁ hσ) (h₁.closed (hc.components u hu))
  refine bind_value (hpart s (.refl s) _ c.check (by simp [Node.components]))
    fun s₁ h₁ _ check hcheck => ?_
  refine bind_value (hpart s₁ h₁ _ c.pattern (by simp [Node.components]))
    fun s₂ h₂ _ pattern hpattern => ?_
  refine bind_value (hpart s₂ (h₁.trans h₂) _ c.whenTrue (by simp [Node.components]))
    fun s₃ h₃ _ whenTrue hwhenTrue => ?_
  refine bind_value (hpart s₃ ((h₁.trans h₂).trans h₃) _ c.whenFalse (by simp [Node.components]))
    fun s₄ h₄ _ whenFalse hwhenFalse => ?_
  exact Runs.lift (follows_conditional
    (c := { c with check := check, pattern := pattern, whenTrue := whenTrue, whenFalse := whenFalse })
    (((h₂.trans h₃).trans h₄).closed hcheck) ((h₃.trans h₄).closed hpattern)
    (h₄.closed hwhenTrue) hwhenFalse)

theorem closed_mapped {m : Mapped} (hm : (Node.mapped m).Closed P s) :
    s.Closed P m.source ∧ Ok P s m.keyFilter ∧ s.Closed P m.template ∧ Ok P s m.nameType := by
  refine ⟨hm.components _ ?_, fun u hu => hm.components u ?_, hm.components _ ?_,
    fun u hu => hm.components u ?_⟩
  all_goals simp [Node.components]
  · simp [hu]
  · simp [hu]

theorem follows_mappedParts (hi : Instantiates L s inner inner') (hσ : Ok L.names s σ)
    {m : Mapped} (hm : (Node.mapped m).Closed L.names s) :
    Follows L s (mappedParts inner σ shadowed m)
      (mappedParts inner' (σ.mapIds L) shadowed (m.mapIds L)) := by
  obtain ⟨hsource, hfilter, htemplate, hname⟩ := closed_mapped hm
  refine bind_value (hi s (.refl s) σ _ _ hσ hsource) fun s₁ h₁ _ source hsource' => ?_
  refine bind_value (follows_optionMapM_map fun u hu =>
    hi s₁ h₁ σ _ u (Value.mono h₁ hσ) (h₁.closed (hfilter u hu))) fun s₂ h₂ _ filter hfilter' => ?_
  have h₁₂ := h₁.trans h₂
  refine bind_value (hi s₂ h₁₂ σ _ _ (Value.mono h₁₂ hσ) (h₁₂.closed htemplate))
    fun s₃ h₃ _ template htemplate' => ?_
  have h₁₃ := h₁₂.trans h₃
  refine bind_value (follows_optionMapM_map fun u hu =>
    hi s₃ h₁₃ σ _ u (Value.mono h₁₃ hσ) (h₁₃.closed (hname u hu))) fun s₄ h₄ _ name hname' => ?_
  have h₂₄ := (h₂.trans h₃).trans h₄
  exact Runs.lift (follows_mapped
    (m := { m with source := source, keyFilter := filter, template := template, nameType := name })
    (h₂₄.closed hsource') (Value.mono (h₃.trans h₄) hfilter') (h₄.closed htemplate') hname')

theorem follows_perMember {parts parts' : Substitution → Instantiating TypeId} {name : String}
    (hσ : Ok L.names s σ) (hts : ∀ t ∈ ts, s.Closed L.names t)
    (hparts : ∀ s₁, s.Extends s₁ → ∀ σ, Ok L.names s₁ σ →
      Follows L s₁ (parts σ) (parts' (σ.mapIds L))) :
    Follows L s (perMember name ts σ parts) (perMember name (ts.map L) (σ.mapIds L) parts') := by
  refine bind_value (follows_mapM_map fun t ht s₁ h₁ => ?_) fun s₁ _ _ results hresults =>
    Runs.lift (follows_rawUnion hresults)
  have hσ' : Ok L.names s₁ (σ.insert name t) :=
    ok_insertBinding (Value.mono h₁ hσ) (h₁.closed (hts t ht)) name
  rw [σ.insert_mapIds]
  intro x y hxy
  refine Runs.bind (follows_run (hparts s₁ h₁ _ hσ') .empty) fun s₂ h₂ _ a b hab => ?_
  exact Runs.pure ⟨hab.1, Paired.mono h₂ hxy⟩

theorem follows_instantiateConditional (hi : Instantiates L s inner inner') (hσ : Ok L.names s σ)
    {c : Conditional} (hc : (Node.conditional c).Closed L.names s) :
    Follows L s (conditional inner σ shadowed c)
      (conditional inner' (σ.mapIds L) shadowed (c.mapIds L)) := by
  refine Runs.ofFormed fun hs => ?_
  refine Runs.store fun s' hs' => ?_
  have hcheck : s.Closed L.names c.check := hc.components _ (by simp [Node.components])
  have hparts : ∀ s₁, s.Extends s₁ → ∀ σ, Ok L.names s₁ σ → Follows L s₁
      (conditionalParts inner σ shadowed c)
      (conditionalParts inner' (σ.mapIds L) shadowed (c.mapIds L)) :=
    fun s₁ h₁ σ hσ => follows_conditionalParts (hi.mono h₁) hσ (h₁.closedNode hc)
  have hreplacement : (if (c.mapIds L).distributive then
        replacement? s' (σ.mapIds L) shadowed (c.mapIds L).check else none) =
      (if c.distributive then replacement? s σ shadowed c.check else none).map
        fun x => (x.1, L x.2) := by
    simp only [Conditional.mapIds, replacement?_mirror σ shadowed hs' hcheck]
    split <;> rfl
  rw [hreplacement]
  cases hr : if c.distributive then replacement? s σ shadowed c.check else none with
  | none => exact hparts s (.refl s) σ hσ
  | some found =>
      obtain ⟨name, u⟩ := found
      have hu : s.Closed L.names u := by
        split at hr
        · exact closed_of_replacement? hσ hr
        · cases hr
      refine follows_ite_iff L.rename.eq_never (fun _ => pure_fixed hs rfl) fun _ => ?_
      rw [hs'.node hu]
      cases hn : s.node u with
      | union members =>
          exact follows_perMember hσ (fun m hm => hu.of_mem_components hn hm) hparts
      | _ => exact hparts s (.refl s) σ hσ

theorem follows_instantiateMapped (hi : Instantiates L s inner inner') (hσ : Ok L.names s σ)
    {m : Mapped} (hm : (Node.mapped m).Closed L.names s) :
    Follows L s (mapped inner σ shadowed m) (mapped inner' (σ.mapIds L) shadowed (m.mapIds L)) := by
  refine Runs.store fun s' hs' => ?_
  have hparts : ∀ s₁, s.Extends s₁ → ∀ σ, Ok L.names s₁ σ → Follows L s₁
      (mappedParts inner σ shadowed m) (mappedParts inner' (σ.mapIds L) shadowed (m.mapIds L)) :=
    fun s₁ h₁ σ hσ => follows_mappedParts (hi.mono h₁) hσ (h₁.closedNode hm)
  have hreplacement := replacement?_mirror σ shadowed hs' (closed_mapped hm).1
  simp only [show (m.mapIds L).source = L m.source from rfl, hreplacement]
  cases hr : replacement? s σ shadowed m.source with
  | none => exact hparts s (.refl s) σ hσ
  | some found =>
      obtain ⟨name, u⟩ := found
      have hu : s.Closed L.names u := closed_of_replacement? hσ hr
      simp only [Option.map_some, hs'.node hu]
      cases hn : s.node u with
      | union members =>
          exact follows_perMember hσ (fun m hm => hu.of_mem_components hn hm) hparts
      | _ => exact hparts s (.refl s) σ hσ

theorem follows_instantiateNode (hi : Instantiates L s inner inner') (hσ : Ok L.names s σ)
    (ht : s.Closed L.names t) {n : Node} (hn : n.Closed L.names s) :
    Follows L s (node inner σ shadowed t n)
      (node inner' (σ.mapIds L) shadowed (L t) (n.mapIds L)) := by
  have hpart : ∀ s₁, s.Extends s₁ → ∀ u ∈ n.components,
      Follows L s₁ (inner σ shadowed u) (inner' (σ.mapIds L) shadowed (L u)) :=
    fun s₁ h₁ u hu => hi s₁ h₁ σ shadowed u (Value.mono h₁ hσ) (h₁.closed (hn.components u hu))
  cases n with
  | error | intrinsic | literal => exact pure_value ht
  | param info =>
      simp only [Node.mapIds, Instantiation.node, TypeParam.mapIds, lookup?_mapIds]
      cases hl : lookup? σ shadowed info.name with
      | none => exact pure_value (L := L) (a := t) ht
      | some u => exact pure_value (L := L) (a := u) (closed_of_lookup? hσ hl)
  | union members =>
      exact bind_value (follows_mapM_map fun m hm s₁ h₁ => hpart s₁ h₁ m hm) fun s₁ _ _ us hus =>
        Runs.lift (follows_rawUnion hus)
  | intersection members =>
      exact bind_value (follows_mapM_map fun m hm s₁ h₁ => hpart s₁ h₁ m hm) fun s₁ _ _ us hus =>
        Runs.lift (follows_rawIntersection hus)
  | object shape =>
      refine bind_value (follows_mapM_map fun f hf s₁ h₁ => ?_) fun s₁ h₁ _ fields hfields => ?_
      · have hc : f.type ∈ (Node.object shape).components :=
          List.mem_append_left _ (List.mem_map_of_mem hf)
        exact bind_value (hpart s₁ h₁ _ hc) fun s₂ _ _ u hu =>
          pure_value (a := { f with type := u }) hu
      · refine bind_value (follows_optionMapM_map fun u hu => hpart s₁ h₁ u ?_)
          fun s₂ h₂ _ index hindex => ?_
        · exact List.mem_append_right _ (Option.mem_toList.mpr hu)
        · refine bind_value (Runs.lift (follows_object (o := ⟨fields, index⟩)
            (Value.mono h₂ hfields) hindex)) fun s₃ h₃ _ u hu => ?_
          have hnames : (L.image fields).map (·.name) = fields.map (·.name) := by
            change (fields.map (Value.image L.names L)).map (·.name) = _
            rw [List.map_map]
            rfl
          rw [hnames]
          refine bind_value (Runs.lift (follows_copyFieldOrigins
            (((h₁.trans h₂).trans h₃).closed ht) hu _)) fun s₄ h₄ _ _ _ =>
              pure_value (h₄.closed hu)
  | function shape =>
      refine bind_value (follows_mapM_map fun m hm s₁ h₁ =>
        hpart s₁ h₁ m (List.mem_append_left _ hm)) fun s₁ h₁ _ params hparams => ?_
      refine bind_value (hpart s₁ h₁ shape.result (List.mem_append_right _ (by simp)))
        fun s₂ h₂ _ r hr => ?_
      exact Runs.lift (follows_function (Value.mono h₂ hparams) hr)
  | array element =>
      exact bind_value (hpart s (.refl s) element (by simp [Node.components])) fun s₁ _ _ u hu =>
        Runs.lift (follows_array hu)
  | reference name args =>
      exact bind_value (follows_mapM_map fun m hm s₁ h₁ => hpart s₁ h₁ m hm) fun s₁ _ _ us hus =>
        Runs.lift (follows_reference (hn.names name args rfl) hus)
  | indexAccess object key =>
      refine bind_value (hpart s (.refl s) object (by simp [Node.components]))
        fun s₁ h₁ _ u hu => ?_
      exact bind_value (hpart s₁ h₁ key (by simp [Node.components])) fun s₂ h₂ _ v hv =>
        Runs.lift (follows_indexAccess (h₂.closed hu) hv)
  | template spans =>
      refine bind_value (follows_mapM_map fun span hspan s₁ h₁ => ?_) fun s₁ _ _ spans hspans =>
        Runs.lift (follows_template hspans)
      cases span with
      | text a => exact pure_value (a := Span.text a) (by rintro _ ⟨⟩)
      | hole u =>
          have hu : u ∈ (Node.template spans).components :=
            List.mem_filterMap.mpr ⟨_, hspan, rfl⟩
          refine bind_value (hpart s₁ h₁ u hu) fun s₂ _ _ v hv => pure_value (a := Span.hole v) ?_
          rintro _ ⟨⟩
          exact hv
  | stringMap kind arg =>
      exact bind_value (hpart s (.refl s) arg (by simp [Node.components])) fun s₁ _ _ u hu =>
        Runs.lift (follows_stringMap kind hu)
  | conditional c => exact follows_instantiateConditional hi hσ hn
  | mapped m => exact follows_instantiateMapped hi hσ hn

theorem instantiates_instantiateAt (depth : Nat) :
    Instantiates L s (instantiateAt depth) (instantiateAt depth) := by
  induction depth generalizing s with
  | zero =>
      intro s₀ _ σ shadowed t hσ ht
      unfold instantiateAt
      refine follows_ite_iff (by simp) (fun _ => pure_value ht) fun _ => ?_
      refine follows_ite (fun _ => ?_) fun _ => pure_value ht
      refine Runs.bind follows_get fun s₁ h₁ _ cache cache' hcache => ?_
      rw [hcache.image]
      cases hk : cache[t]? with
      | some known => exact pure_value (hcache.ok t known hk)
      | none => exact pure_value (h₁.closed ht)
  | succ depth ih =>
      intro s₀ _ σ shadowed t hσ ht
      have hwork : ∀ s₁, s₀.Extends s₁ → Follows L s₁
          (do
            let n ← Build.node t
            let result ← node (instantiateAt depth) σ shadowed t n
            if shadowed.isEmpty then
              modify (·.insert t result)
            return result : Instantiating TypeId)
          (do
            let n ← Build.node (L t)
            let result ← node (instantiateAt depth) (σ.mapIds L) shadowed (L t) n
            if shadowed.isEmpty then
              modify (·.insert (L t) result)
            return result) := by
        intro s₁ h₁
        have ht₁ := h₁.closed ht
        refine bind_value (Runs.lift (follows_node ht₁)) fun s₂ h₂ _ n hn => ?_
        refine bind_value (follows_instantiateNode ih (Value.mono (h₁.trans h₂) hσ)
          (h₂.closed ht₁) hn) fun s₃ _ _ r hr => ?_
        refine follows_ite (fun _ => ?_) fun _ => pure_value hr
        exact bind_value (follows_modify fun x y hxy => CacheSame.insert hxy hr) fun s₄ h₄ _ _ _ =>
          pure_value (h₄.closed hr)
      unfold instantiateAt
      refine follows_ite_iff (by simp) (fun _ => pure_value ht) fun _ => ?_
      refine follows_ite (fun _ => ?_) fun _ => hwork s₀ (.refl _)
      refine Runs.bind follows_get fun s₁ h₁ _ cache cache' hcache => ?_
      rw [hcache.image]
      cases hk : cache[t]? with
      | some known => exact pure_value (hcache.ok t known hk)
      | none => exact hwork s₁ h₁

end instantiate

theorem follows_instantiate {σ : Substitution} (hσ : Ok L.names s σ) (ht : s.Closed L.names t) :
    Follows L s (Build.instantiate σ t) (Build.instantiate (σ.mapIds L) (L t)) := by
  refine follows_ite_iff (by simp) (fun _ => pure_value ht) fun _ => ?_
  have hrun := instantiates_instantiateAt (L := L) Instantiation.maxDepth s (.refl s) σ [] t hσ ht
  exact Runs.bind (follows_run hrun .empty) fun s₁ _ _ a b hab => Runs.pure hab.1

end Replay

end TypeResolution
