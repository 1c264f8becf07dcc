import TypeResolution.Expr.Lower
import TypeResolution.Proofs.Store.Twin

/-!
Lowering in two stores. An expression becomes the same type in both, up to the ids that the stores
hand out, whatever the stores hold before.
-/

namespace TypeResolution

open Store Lowering

namespace Naming

instance : Naming String := plain

end Naming

namespace Stores

variable {α β : Type} [Naming α] [Naming β] {w w₁ : Stores}

theorem same_pair {a a' : α} {b b' : β} (ha : w.Same a a') (hb : w.Same b b') :
    w.Same (a, b) (a', b') where
  twins t ht := (List.mem_append.mp ht).elim (ha.twins t) (hb.twins t)
  eq := Prod.ext ha.eq hb.eq

theorem Same.fst {x y : α × β} (h : w.Same x y) : w.Same x.1 y.1 where
  twins t ht := h.twins t (List.mem_append_left _ ht)
  eq := congrArg Prod.fst h.eq

theorem Same.snd {x y : α × β} (h : w.Same x y) : w.Same x.2 y.2 where
  twins t ht := h.twins t (List.mem_append_right _ ht)
  eq := congrArg Prod.snd h.eq

theorem same_nil : w.Same ([] : List α) [] := ⟨fun _ h => absurd h List.not_mem_nil, rfl⟩

theorem same_cons {a a' : α} {l l' : List α} (ha : w.Same a a') (hl : w.Same l l') :
    w.Same (a :: l) (a' :: l') where
  twins t ht := by
    simp only [ids, List.flatMap_cons, List.mem_append] at ht
    exact ht.elim (ha.twins t) (hl.twins t)
  eq := congrArg₂ List.cons ha.eq hl.eq

theorem Same.head {a a' : α} {l l' : List α} (h : w.Same (a :: l) (a' :: l')) : w.Same a a' where
  twins t ht := h.twins t (by
    simp only [ids, List.flatMap_cons, List.mem_append]
    exact .inl ht)
  eq := (List.cons.inj h.eq).1

theorem Same.tail {a a' : α} {l l' : List α} (h : w.Same (a :: l) (a' :: l')) : w.Same l l' where
  twins t ht := h.twins t (by
    simp only [ids, List.flatMap_cons, List.mem_append]
    exact .inr ht)
  eq := (List.cons.inj h.eq).2

theorem same_none : w.Same (none : Option α) none := ⟨fun _ h => absurd h List.not_mem_nil, rfl⟩

theorem same_some {a a' : α} (h : w.Same a a') : w.Same (some a) (some a') where
  twins t ht := h.twins t (by simpa [ids] using ht)
  eq := congrArg some h.eq

/-- Lowering side by side, with as many expressions met before. -/
def LowersTogether (w : Stores) (m m' : Lowering α) : Prop :=
  ∀ n, w.Together (m n) (m' n)

theorem lowers_pure {a b : α} (h : w.Same a b) :
    w.LowersTogether (pure a : Lowering α) (pure b) :=
  fun _ => together_pure (same_pair h ⟨fun _ h => absurd h List.not_mem_nil, rfl⟩)

theorem LowersTogether.bind {m m' : Lowering α} {k k' : α → Lowering β}
    (hm : w.LowersTogether m m')
    (hk : ∀ w₁, w.Grows w₁ → ∀ a b, w₁.Same a b → w₁.LowersTogether (k a) (k' b)) :
    w.LowersTogether (m >>= k) (m' >>= k') := by
  intro n
  change w.Together (m n >>= fun x => k x.1 x.2) (m' n >>= fun x => k' x.1 x.2)
  refine (hm n).bind fun w₁ h₁ x y hxy => ?_
  obtain ⟨a, n'⟩ := x
  obtain ⟨b, _⟩ := y
  obtain rfl : _ = n' := hxy.snd.eq
  exact hk w₁ h₁ a b hxy.fst _

theorem lowers_lift {m m' : Build α} (h : w.Together m m') :
    w.LowersTogether (liftM m : Lowering α) (liftM m') :=
  fun n => h.bind fun _ _ _ _ hab => (together_pure
    (same_pair hab ⟨fun _ h => absurd h List.not_mem_nil, rfl⟩) : Together _ (pure (_, n)) (pure (_, n)))

theorem together_literal (value : Literal) : w.Together (Build.literal value) (Build.literal value) := by
  cases value with
  | string text => exact together_intern trivial (by simp [Node.components]) rfl
  | number value => exact together_intern trivial (by simp [Node.components]) rfl
  | boolean value => exact together_pure (same_fixed (by cases value <;> rfl))

theorem together_param {p p' : TypeParam} (h : w.Same p p') :
    w.Together (Build.param p) (Build.param p') :=
  together_intern trivial (fun c hc => h.twins c (by simpa [Node.components, ids] using hc))
    (congrArg Node.param h.eq)

theorem together_object {fields fields' : List Field} {index index' : Option TypeId}
    (hfields : w.Same fields fields') (hindex : w.Same index index') :
    w.Together (Build.object ⟨fields, index⟩) (Build.object ⟨fields', index'⟩) := by
  refine together_intern trivial (fun c hc => ?_) ?_
  · rcases List.mem_append.mp hc with hc | hc
    · exact hfields.twins c (by simpa [ids, eq_comm] using hc)
    · exact hindex.twins c (by simpa [ids] using hc)
  · rw [hfields.eq, hindex.eq]
    rfl

theorem together_function {params params' : List TypeId} {result result' : TypeId}
    (hparams : w.Same params params') (hresult : w.Same result result') :
    w.Together (Build.function params result) (Build.function params' result') := by
  refine together_intern trivial (fun c hc => ?_) ?_
  · rcases List.mem_append.mp hc with hc | hc
    · exact hparams.twins c (mem_ids.mpr hc)
    · exact hresult.twins c hc
  · rw [hparams.eq, hresult.eq]
    rfl

theorem together_array {t t' : TypeId} (h : w.Same t t') :
    w.Together (Build.array t) (Build.array t') :=
  together_intern trivial h.twins (congrArg Node.array h.eq)

theorem together_reference (name : String) {ts ts' : List TypeId} (h : w.Same ts ts') :
    w.Together (Build.reference name ts) (Build.reference name ts') :=
  together_intern trivial (fun c hc => h.twins c (mem_ids.mpr hc)) (congrArg (Node.reference name) h.eq)

theorem together_stringMap (kind : StringMap) {t t' : TypeId} (h : w.Same t t') :
    w.Together (Build.stringMap kind t) (Build.stringMap kind t') :=
  together_intern trivial h.twins (congrArg (Node.stringMap kind) h.eq)

theorem together_application (name : String) {ts ts' : List TypeId} (h : w.Same ts ts') :
    w.Together (application name ts) (application name ts') := by
  obtain rfl := h.eq
  rcases ts with _ | ⟨a, _ | ⟨b, rest⟩⟩
  · exact together_reference name h
  · have ha : w.Same a (rename (w.first.twin w.second) a) :=
      ⟨fun t ht => h.twins t (by simpa [ids] using ht), rfl⟩
    simp only [application, rename, List.map_cons, List.map_nil]
    split
    · exact together_array ha
    · cases builtinMap? name with
      | some kind => exact together_stringMap kind ha
      | none => exact together_reference name h
  · exact together_reference name h

theorem consSpan_rename (f : TypeId → TypeId) (x : Span) (spans : List Span) :
    Build.consSpan (rename f x) (rename f spans) = rename f (Build.consSpan x spans) := by
  rcases x with a | t
  · rcases spans with _ | ⟨b | u, rest⟩ <;>
      simp only [Build.consSpan, rename, List.map_nil, List.map_cons] <;> split <;> rfl
  · rfl

theorem mem_ids_consSpan {t : TypeId} {x : Span} {spans : List Span}
    (ht : t ∈ ids (Build.consSpan x spans)) : t ∈ ids x ∨ t ∈ ids spans := by
  rcases x with a | u
  · refine .inr ?_
    rcases spans with _ | ⟨b | v, rest⟩
    · simp only [Build.consSpan] at ht
      split at ht <;> simp [ids] at ht
    · simpa [Build.consSpan, ids] using ht
    · simp only [Build.consSpan] at ht
      split at ht <;> simpa [ids] using ht
  · simpa [Build.consSpan, ids] using ht

theorem same_joinSpans {spans spans' : List Span} (h : w.Same spans spans') :
    w.Same (Build.joinSpans spans) (Build.joinSpans spans') := by
  obtain rfl := h.eq
  constructor
  · intro t ht
    refine h.twins t ?_
    clear h
    induction spans with
    | nil => exact ht
    | cons x rest ih =>
        simp only [ids, List.flatMap_cons, List.mem_append]
        exact (mem_ids_consSpan ht).imp_right ih
  · clear h
    induction spans with
    | nil => rfl
    | cons x rest ih =>
        change Build.consSpan (rename _ x) (Build.joinSpans (rename _ rest)) = _
        rw [ih, consSpan_rename]
        rfl

theorem together_template {spans spans' : List Span} (h : w.Same spans spans') :
    w.Together (Build.template spans) (Build.template spans') := by
  have hjoined := same_joinSpans h
  unfold Build.template
  generalize Build.joinSpans spans = l at hjoined
  rw [hjoined.eq]
  have hintern : w.Together (Build.intern (.template l))
      (Build.intern (.template (rename (w.first.twin w.second) l))) :=
    together_intern trivial (fun c hc => hjoined.twins c (Node.ids_template l ▸ hc)) rfl
  rcases l with _ | ⟨a | t, _ | ⟨b, rest⟩⟩
  · exact together_literal (.string "")
  · exact together_literal (.string a)
  · exact hintern
  · exact hintern
  · exact hintern

theorem together_conditional {a a' b b' c c' d d' : TypeId} (infer : List String)
    (distributive : Bool) (ha : w.Same a a') (hb : w.Same b b') (hc : w.Same c c') (hd : w.Same d d') :
    w.Together (Build.conditional ⟨a, b, infer, c, d, distributive⟩)
      (Build.conditional ⟨a', b', infer, c', d', distributive⟩) := by
  refine together_intern trivial (fun u hu => ?_) ?_
  · simp only [Node.components, List.mem_cons, List.not_mem_nil, or_false] at hu
    rcases hu with rfl | rfl | rfl | rfl
    · exact ha.twins _ (List.mem_singleton_self _)
    · exact hb.twins _ (List.mem_singleton_self _)
    · exact hc.twins _ (List.mem_singleton_self _)
    · exact hd.twins _ (List.mem_singleton_self _)
  · rw [ha.eq, hb.eq, hc.eq, hd.eq]
    rfl

theorem together_mapped {source source' template template' : TypeId}
    {filter filter' name name' : Option TypeId} (key : String) (optional readonly : Option Modifier)
    (hsource : w.Same source source') (hfilter : w.Same filter filter')
    (htemplate : w.Same template template') (hname : w.Same name name') :
    w.Together (Build.mapped ⟨key, source, filter, template, name, optional, readonly⟩)
      (Build.mapped ⟨key, source', filter', template', name', optional, readonly⟩) := by
  refine together_intern trivial (fun u hu => ?_) ?_
  · simp only [Node.components, List.cons_append, List.mem_cons, List.mem_append] at hu
    rcases hu with rfl | hu | rfl | hu
    · exact hsource.twins _ (List.mem_singleton_self _)
    · exact hfilter.twins _ (by simpa [ids] using hu)
    · exact htemplate.twins _ (List.mem_singleton_self _)
    · exact hname.twins _ (by simpa [ids] using hu)
  · rw [hsource.eq, hfilter.eq, htemplate.eq, hname.eq]
    rfl

theorem together_indexAccess {a a' b b' : TypeId} (ha : w.Same a a') (hb : w.Same b b') :
    w.Together (Build.indexAccess a b) (Build.indexAccess a' b') := by
  refine together_intern trivial (fun u hu => ?_) ?_
  · simp only [Node.components, List.mem_cons, List.not_mem_nil, or_false] at hu
    rcases hu with rfl | rfl
    · exact ha.twins _ (List.mem_singleton_self _)
    · exact hb.twins _ (List.mem_singleton_self _)
  · rw [ha.eq, hb.eq]
    rfl

theorem same_putField {x x' : Field} {fields fields' : List Field} (hx : w.Same x x')
    (h : w.Same fields fields') : w.Same (putField x fields) (putField x' fields') := by
  obtain rfl := hx.eq
  obtain rfl := h.eq
  induction fields with
  | nil => exact same_cons hx same_nil
  | cons y rest ih =>
      change w.Same (if y.name = x.name then x :: rest else y :: putField x rest)
        (if y.name = x.name then _ else _)
      split
      · exact same_cons hx (Same.tail h)
      · exact same_cons (Same.head h) (ih (Same.tail h))

theorem same_lookup {scope scope' : TypeScope} (h : w.Same scope scope') (name : String) :
    w.Same (scope.lookup name) (scope'.lookup name) := by
  obtain rfl := h.eq
  induction scope with
  | nil => exact same_none
  | cons x rest ih =>
      obtain ⟨key, t⟩ := x
      change w.Same (List.lookup name ((key, t) :: rest)) (List.lookup name ((key, _) :: _))
      simp only [List.lookup_cons]
      cases name == key with
      | true => exact same_some (Same.head h).snd
      | false => exact ih (Same.tail h)

theorem same_plain {a : α} (h : ids a = []) (h' : rename (w.first.twin w.second) a = a) :
    w.Same a a :=
  ⟨fun _ ht => absurd (h ▸ ht) List.not_mem_nil, h'.symm⟩

theorem lowers_bump : w.LowersTogether bump bump :=
  fun _ => together_pure (same_plain rfl rfl)

theorem node_param_iff {t t' : TypeId} (h : w.Same t t') :
    (∃ p, w.first.node t = .param p) ↔ ∃ p, w.second.node t' = .param p := by
  obtain ⟨u, htwins⟩ := h.twins t (List.mem_singleton_self t)
  obtain rfl : t' = u := h.eq.trans (htwins.twin_eq w.formed')
  cases htwins.there with
  | intro f _ _ node _ =>
      constructor
      · rintro ⟨p, hp⟩
        rw [hp] at node
        exact ⟨_, Node.eq_of_identity_eq node (by simp)⟩
      · rintro ⟨p, hp⟩
        rw [hp] at node
        cases hn : w.first.node t with
        | param p => exact ⟨p, rfl⟩
        | _ =>
            rw [hn] at node
            cases node

/-- Looking whether a type is a parameter. -/
theorem lowers_isParam {t t' : TypeId} (h : w.Same t t') (k k' : Bool → Lowering α)
    (hk : ∀ b, w.LowersTogether (k b) (k' b)) :
    w.LowersTogether
      (liftM (Build.node t) >>= fun n => k (match n with | .param _ => true | _ => false))
      (liftM (Build.node t') >>= fun n => k' (match n with | .param _ => true | _ => false)) := by
  intro n
  change w.Together (k (match w.first.node t with | .param _ => true | _ => false) n)
    (k' (match w.second.node t' with | .param _ => true | _ => false) n)
  have hiff := node_param_iff h
  split
  · rename_i p hp
    obtain ⟨p', hp'⟩ := hiff.mp ⟨p, hp⟩
    rw [hp']
    exact hk true n
  · rename_i hnot
    split
    · rename_i p hp
      obtain ⟨p', hp'⟩ := hiff.mpr ⟨p, hp⟩
      exact absurd hp' (hnot p')
    · exact hk false n

theorem together_bindNames (names : List String) {scope scope' : TypeScope}
    (h : w.Same scope scope') : w.Together (bindNames names scope) (bindNames names scope') := by
  unfold bindNames
  induction names generalizing w scope scope' with
  | nil => exact together_pure h
  | cons name rest ih =>
      simp only [List.foldlM_cons]
      refine Together.bind ?_ fun w₁ _ a b hab => ih hab
      refine (together_param (p := .named name) (same_plain rfl rfl)).bind fun w₁ h₁ t t' ht => ?_
      exact together_pure (same_cons (same_pair (same_plain rfl rfl) ht) (h.mono h₁))

theorem together_recordFields (object object' : TypeId) (fields : List FieldExpr) :
    w.Together (recordFields object fields) (recordFields object' fields) := by
  have hquiet (object : TypeId) : ∀ s : Store, s.Alike (recordFields object fields s).2 := by
    unfold recordFields
    induction fields with
    | nil => exact fun s => .refl s
    | cons f rest ih =>
        intro s
        rw [List.forM_eq_forM, List.forM_cons]
        cases f.location.or f.type.location with
        | none => exact ih s
        | some tag => exact (alike_recordOrigin s _ tag).trans (ih _)
  exact together_quiet (hquiet object) (hquiet object')

end Stores

open Stores

mutual

theorem lowers_expr {w : Stores} (e : TypeExpr) {scope scope' : TypeScope}
    (hscope : w.Same scope scope') : w.LowersTogether (e.lower scope) (e.lower scope') := by
  obtain ⟨kind, location⟩ := e
  unfold TypeExpr.lower
  refine lowers_bump.bind fun w₁ h₁ b b' hb => ?_
  obtain rfl : b' = b := hb.eq
  cases b' with
  | false => exact lowers_pure (same_fixed rfl)
  | true =>
      refine (lowers_kind kind (hscope.mono h₁)).bind fun w₂ h₂ t t' ht => ?_
      cases location with
      | none => exact lowers_pure ht
      | some tag =>
          refine (lowers_lift (together_quiet (fun s => alike_recordOrigin s (.type t) tag)
            fun s => alike_recordOrigin s (.type t') tag)).bind fun w₃ h₃ _ _ _ => ?_
          exact lowers_pure (ht.mono h₃)

theorem lowers_kind {w : Stores} (e : ExprKind) {scope scope' : TypeScope}
    (hscope : w.Same scope scope') : w.LowersTogether (e.lower scope) (e.lower scope') := by
  unfold ExprKind.lower
  cases e with
  | intrinsic kind => exact lowers_pure (same_fixed (by cases kind <;> rfl))
  | literal value => exact lowers_lift (together_literal value)
  | object fields index =>
      refine (lowers_fields fields hscope same_nil).bind fun w₁ h₁ lowered lowered' hlowered => ?_
      refine (lowers_option index (hscope.mono h₁)).bind fun w₂ h₂ i i' hi => ?_
      refine (lowers_lift (together_object (hlowered.mono h₂) hi)).bind fun w₃ _ o o' ho => ?_
      refine (lowers_lift (together_recordFields o o' fields)).bind fun w₄ h₄ _ _ _ => ?_
      exact lowers_pure (ho.mono h₄)
  | union members =>
      exact (lowers_all members hscope).bind fun w₁ _ ts ts' hts => lowers_lift (together_rawUnion hts)
  | intersection members =>
      exact (lowers_all members hscope).bind fun w₁ _ ts ts' hts =>
        lowers_lift (together_rawIntersection hts)
  | function params returnType =>
      refine (lowers_all params hscope).bind fun w₁ h₁ ts ts' hts => ?_
      exact (lowers_expr returnType (hscope.mono h₁)).bind fun w₂ h₂ t t' ht =>
        lowers_lift (together_function (hts.mono h₂) ht)
  | array element =>
      exact (lowers_expr element hscope).bind fun w₁ _ t t' ht => lowers_lift (together_array ht)
  | reference name args =>
      have hparam : w.Same (if args.isEmpty then scope.lookup name else none)
          (if args.isEmpty then scope'.lookup name else none) := by
        split
        · exact same_lookup hscope name
        · exact same_none
      dsimp only
      generalize (if args.isEmpty then scope.lookup name else none) = o at hparam
      generalize (if args.isEmpty then scope'.lookup name else none) = o' at hparam
      obtain rfl := hparam.eq
      cases o with
      | some t =>
          exact lowers_pure ⟨fun u hu => hparam.twins u (List.mem_append_left [] hu), rfl⟩
      | none =>
          exact (lowers_all args hscope).bind fun w₁ _ ts ts' hts =>
            lowers_lift (together_application name hts)
  | conditional check pattern infer thenBranch elseBranch distributive =>
      refine (lowers_expr check hscope).bind fun w₁ h₁ c c' hc => ?_
      refine lowers_isParam hc (fun isParam => do
          let inner ← bindNames infer scope
          let pattern ← pattern.lower inner
          let whenTrue ← thenBranch.lower inner
          let whenFalse ← elseBranch.lower inner
          Build.conditional ⟨c, pattern, infer, whenTrue, whenFalse, distributive.getD isParam⟩)
        (fun isParam => do
          let inner ← bindNames infer scope'
          let pattern ← pattern.lower inner
          let whenTrue ← thenBranch.lower inner
          let whenFalse ← elseBranch.lower inner
          Build.conditional ⟨c', pattern, infer, whenTrue, whenFalse, distributive.getD isParam⟩)
        fun isParam => ?_
      refine (lowers_lift (together_bindNames infer (hscope.mono h₁))).bind fun w₂ h₂ inner inner' hinner => ?_
      refine (lowers_expr pattern hinner).bind fun w₃ h₃ p p' hp => ?_
      refine (lowers_expr thenBranch (hinner.mono h₃)).bind fun w₄ h₄ a a' ha => ?_
      refine (lowers_expr elseBranch (hinner.mono (h₃.trans h₄))).bind fun w₅ h₅ b b' hb => ?_
      exact lowers_lift (together_conditional infer _
        (hc.mono (((h₂.trans h₃).trans h₄).trans h₅)) (hp.mono (h₄.trans h₅)) (ha.mono h₅) hb)
  | mapped keyParam source keyFilter template nameType optional readonly =>
      refine (lowers_expr source hscope).bind fun w₁ h₁ u u' hu => ?_
      refine (lowers_lift (together_bindNames [keyParam] (hscope.mono h₁))).bind
        fun w₂ h₂ inner inner' hinner => ?_
      refine (lowers_option keyFilter hinner).bind fun w₃ h₃ f f' hf => ?_
      refine (lowers_expr template (hinner.mono h₃)).bind fun w₄ h₄ b b' hb => ?_
      refine (lowers_option nameType (hinner.mono (h₃.trans h₄))).bind fun w₅ h₅ c c' hc => ?_
      exact lowers_lift (together_mapped keyParam optional readonly
        (hu.mono (((h₂.trans h₃).trans h₄).trans h₅)) (hf.mono (h₄.trans h₅)) (hb.mono h₅) hc)
  | indexAccess object index =>
      refine (lowers_expr object hscope).bind fun w₁ h₁ u u' hu => ?_
      exact (lowers_expr index (hscope.mono h₁)).bind fun w₂ h₂ v v' hv =>
        lowers_lift (together_indexAccess (hu.mono h₂) hv)
  | template spans =>
      exact (lowers_spans spans hscope).bind fun w₁ _ l l' hl => lowers_lift (together_template hl)
  | stringMap kind argument =>
      exact (lowers_expr argument hscope).bind fun w₁ _ u u' hu =>
        lowers_lift (together_stringMap kind hu)

theorem lowers_all {w : Stores} (es : List TypeExpr) {scope scope' : TypeScope}
    (hscope : w.Same scope scope') : w.LowersTogether (lowerAll es scope) (lowerAll es scope') := by
  unfold lowerAll
  cases es with
  | nil => exact lowers_pure same_nil
  | cons e rest =>
      refine (lowers_expr e hscope).bind fun w₁ h₁ u u' hu => ?_
      exact (lowers_all rest (hscope.mono h₁)).bind fun w₂ h₂ us us' hus =>
        lowers_pure (same_cons (hu.mono h₂) hus)

theorem lowers_option {w : Stores} (e : Option TypeExpr) {scope scope' : TypeScope}
    (hscope : w.Same scope scope') :
    w.LowersTogether (lowerOption e scope) (lowerOption e scope') := by
  unfold lowerOption
  cases e with
  | none => exact lowers_pure same_none
  | some e => exact (lowers_expr e hscope).bind fun w₁ _ u u' hu => lowers_pure (same_some hu)

theorem lowers_fields {w : Stores} (fields : List FieldExpr) {scope scope' : TypeScope}
    (hscope : w.Same scope scope') {done done' : List Field} (hdone : w.Same done done') :
    w.LowersTogether (lowerFields fields scope done) (lowerFields fields scope' done') := by
  unfold lowerFields
  cases fields with
  | nil => exact lowers_pure hdone
  | cons f rest =>
      obtain ⟨name, type, optional, readonly, location⟩ := f
      refine (lowers_expr type hscope).bind fun w₁ h₁ u u' hu => ?_
      have hfield : w₁.Same (⟨name, u, optional, readonly⟩ : Field) ⟨name, u', optional, readonly⟩ :=
        ⟨hu.twins, by rw [hu.eq]; rfl⟩
      exact lowers_fields rest (hscope.mono h₁) (same_putField hfield (hdone.mono h₁))

theorem lowers_spans {w : Stores} (spans : List SpanExpr) {scope scope' : TypeScope}
    (hscope : w.Same scope scope') :
    w.LowersTogether (lowerSpans spans scope) (lowerSpans spans scope') := by
  unfold lowerSpans
  cases spans with
  | nil => exact lowers_pure same_nil
  | cons x rest =>
      cases x with
      | text a =>
          exact (lowers_spans rest hscope).bind fun w₁ _ l l' hl =>
            lowers_pure (same_cons (same_plain rfl rfl) hl)
      | hole e =>
          refine (lowers_expr e hscope).bind fun w₁ h₁ u u' hu => ?_
          refine (lowers_spans rest (hscope.mono h₁)).bind fun w₂ h₂ l l' hl => lowers_pure ?_
          exact same_cons ⟨(hu.mono h₂).twins, congrArg Span.hole (hu.mono h₂).eq⟩ hl

end

section aliases

variable {α γ : Type} [Naming α] {w : Stores}

theorem lowers_mapM {l : List γ} {f f' : γ → Lowering α}
    (h : ∀ a ∈ l, ∀ w₁, w.Grows w₁ → w₁.LowersTogether (f a) (f' a)) :
    w.LowersTogether (l.mapM f) (l.mapM f') := by
  induction l generalizing w with
  | nil => exact lowers_pure same_nil
  | cons a rest ih =>
      simp only [List.mapM_cons]
      refine (h a (by simp) w .refl).bind fun w₁ h₁ b b' hb => ?_
      refine (ih fun c hc w₂ h₂ => h c (by simp [hc]) w₂ (h₁.trans h₂)).bind fun w₂ h₂ bs bs' hbs => ?_
      exact lowers_pure (same_cons (hb.mono h₂) hbs)

theorem lowers_optionMapM (e : Option TypeExpr) {scope scope' : TypeScope}
    (hscope : w.Same scope scope') :
    w.LowersTogether (e.mapM (·.lower scope)) (e.mapM (·.lower scope')) := by
  cases e with
  | none => exact lowers_pure same_none
  | some e =>
      simp only [Option.mapM_some, map_eq_pure_bind]
      exact (lowers_expr e hscope).bind fun w₁ _ u u' hu => lowers_pure (same_some hu)

theorem lowers_param (p : ParamExpr) {scope scope' : TypeScope} (hscope : w.Same scope scope') :
    w.LowersTogether (p.lower scope) (p.lower scope') := by
  refine (lowers_optionMapM p.constraint hscope).bind fun w₁ h₁ c c' hc => ?_
  refine (lowers_optionMapM p.default (hscope.mono h₁)).bind fun w₂ h₂ d d' hd => lowers_pure ?_
  have hc₂ := hc.mono h₂
  exact ⟨fun t ht => (List.mem_append.mp ht).elim (hc₂.twins t) (hd.twins t), by
    rw [hc₂.eq, hd.eq]
    rfl⟩

theorem together_bindInfos {infos infos' : List TypeParam} (hinfos : w.Same infos infos')
    {scope scope' : TypeScope} (hscope : w.Same scope scope') :
    let bind (scope : TypeScope) (info : TypeParam) : Lowering TypeScope :=
      return (info.name, ← Build.param info) :: scope
    w.LowersTogether (infos.foldlM bind scope) (infos'.foldlM bind scope') := by
  intro bind
  obtain rfl := hinfos.eq
  induction infos generalizing w scope scope' with
  | nil => exact lowers_pure hscope
  | cons info rest ih =>
      change w.LowersTogether (bind scope info >>= fun scope => rest.foldlM bind scope)
        (bind scope' (rename _ info) >>= fun scope => (rename _ rest).foldlM bind scope)
      refine LowersTogether.bind ((lowers_lift (together_param (Same.head hinfos))).bind
        fun w₁ h₁ t t' ht => lowers_pure ?_) fun w₁ h₁ a b hab => ?_
      · exact same_cons (same_pair (same_plain rfl rfl) ht) (hscope.mono h₁)
      · have hrest : w₁.Same rest (rename (w.first.twin w.second) rest) :=
          (Same.tail hinfos).mono h₁
        rw [hrest.eq]
        exact ih hab ⟨hrest.twins, rfl⟩

theorem lowers_bindParams (params : List ParamExpr) {scope scope' : TypeScope}
    (hscope : w.Same scope scope') :
    w.LowersTogether (bindParams params scope) (bindParams params scope') := by
  refine (lowers_lift (together_bindNames _ hscope)).bind fun w₁ h₁ bare bare' hbare => ?_
  refine (lowers_mapM fun p _ w₂ h₂ => lowers_param p (hbare.mono h₂)).bind
    fun w₂ h₂ infos infos' hinfos => ?_
  refine (together_bindInfos hinfos (hbare.mono h₂)).bind fun w₃ h₃ full full' hfull => ?_
  exact lowers_pure (same_pair (hinfos.mono h₃) hfull)

theorem lowers_alias (a : AliasExpr) {scope scope' : TypeScope} (hscope : w.Same scope scope') :
    w.LowersTogether (a.lower scope) (a.lower scope') := by
  refine (lowers_bindParams a.params hscope).bind fun w₁ h₁ x y hxy => ?_
  obtain ⟨params, inner⟩ := x
  obtain ⟨params', inner'⟩ := y
  refine (lowers_expr a.body hxy.snd).bind fun w₂ h₂ t t' ht => lowers_pure ?_
  have hparams : w₂.Same params params' := hxy.fst.mono h₂
  exact ⟨fun t ht' => (List.mem_append.mp ht').elim (hparams.twins t) (ht.twins t), by
    rw [hparams.eq, ht.eq]
    rfl⟩

end aliases

end TypeResolution
