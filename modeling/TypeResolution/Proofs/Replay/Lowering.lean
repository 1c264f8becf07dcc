import TypeResolution.Expr.Lower
import TypeResolution.Proofs.Replay.Inference

/-!
Lowering follows. In particular it keeps a store well formed and gives types of the store.
-/

namespace TypeResolution.Replay

open Store Lowering

variable {P : String → Prop} {L : Link} {s s' : Store} {t : TypeId} {ts : List TypeId}

instance : Value P TypeScope where
  image f scope := scope.map fun b => (b.1, f b.2)
  Ok s scope := ∀ b ∈ scope, s.Closed P b.2
  mono h hscope b hb := h.closed (hscope b hb)
  image_same scope := List.map_id scope

theorem ok_noScope : Ok P s ([] : TypeScope) := fun _ h => absurd h List.not_mem_nil

theorem lookup_image (scope : TypeScope) (name : String) :
    (L.image scope).lookup name = (scope.lookup name).map L := by
  induction scope with
  | nil => rfl
  | cons b rest ih =>
      obtain ⟨key, u⟩ := b
      change List.lookup name ((key, L u) :: L.image rest) = _
      simp only [List.lookup_cons, ih]
      split <;> rfl

theorem closed_of_lookup {scope : TypeScope} (hscope : Ok P s scope) {name : String}
    (h : scope.lookup name = some t) : s.Closed P t := by
  obtain ⟨l₁, l₂, heq, _⟩ := List.lookup_eq_some_iff.mp h
  exact hscope (name, t) (by simp [heq])

theorem ok_bind {scope : TypeScope} (hscope : Ok P s scope) (ht : s.Closed P t) (name : String) :
    Ok P s ((name, t) :: scope : TypeScope) :=
  List.forall_mem_cons.mpr ⟨ht, hscope⟩

theorem ok_putField (new : Field) (hnew : Ok P s new) {fields : List Field} (h : Ok P s fields) :
    Ok P s (putField new fields) := by
  induction fields with
  | nil => simpa [putField, Ok] using hnew
  | cons old rest ih =>
      obtain ⟨hold, hrest⟩ := List.forall_mem_cons.mp h
      unfold putField
      split
      · exact List.forall_mem_cons.mpr ⟨hnew, hrest⟩
      · exact List.forall_mem_cons.mpr ⟨hold, ih hrest⟩

theorem putField_map (f : TypeId → TypeId) (new : Field) (fields : List Field) :
    putField (new.mapIds f) (fields.map (·.mapIds f)) =
      (putField new fields).map (·.mapIds f) := by
  induction fields with
  | nil => rfl
  | cons old rest ih =>
      simp only [List.map_cons, putField]
      have hname : ((old.mapIds f).name = (new.mapIds f).name) = (old.name = new.name) := rfl
      simp only [hname]
      split
      · rfl
      · exact congrArg _ ih

theorem follows_param (info : TypeParam) (hc : Ok L.names s info.constraint)
    (hd : Ok L.names s info.default) :
    Follows L s (Build.param info) (Build.param (info.mapIds L)) := by
  refine follows_intern (n := .param info) (closedNode_of_components (by simp) fun c hmem => ?_)
  simp only [Node.components, List.mem_append, Option.mem_toList] at hmem
  rcases hmem with hmem | hmem
  · exact hc c hmem
  · exact hd c hmem

theorem follows_bindNames (names : List String) {scope : TypeScope} (hscope : Ok L.names s scope) :
    Follows L s (bindNames names scope) (bindNames names (L.image scope)) := by
  refine follows_foldlM (fun name _ s₁ h₁ b c hbc => ?_) ⟨rfl, hscope⟩
  obtain ⟨rfl, hb⟩ := hbc
  refine bind_value (follows_param (.named name) (by simp [Ok, TypeParam.named])
    (by simp [Ok, TypeParam.named])) fun s₂ h₂ _ u hu => pure_value (a := (name, u) :: b) ?_
  exact ok_bind (Value.mono h₂ hb) hu name

theorem follows_bump : Follows L s bump bump := by
  refine bind_value (follows_modify fun x y hxy => ?_) fun s₁ _ _ _ _ => ?_
  · obtain ⟨rfl, _⟩ := hxy
    exact ⟨rfl, trivial⟩
  · exact bind_value follows_get fun s₂ _ _ n _ => pure_value trivial

theorem follows_recordFields (ht : s.Closed L.names t) (fields : List FieldExpr) :
    Follows L s (recordFields t fields) (recordFields (L t) fields) := by
  refine follows_forM fun f _ s₁ h₁ => ?_
  cases f.location.or f.type.location with
  | none => exact pure_value trivial
  | some tag => exact follows_recordOrigin (p := .field t f.name) (h₁.closed ht) fun _ => rfl

theorem follows_literalType (value : Literal) :
    Follows L s (Build.literal value) (Build.literal value) := by
  cases value with
  | string text => exact follows_stringLiteral text
  | number value => exact follows_leaf (n := .literal (.number value.canonical)) (by simp) rfl
  | boolean value =>
      refine Runs.ofFormed fun hs => ?_
      cases value <;> exact pure_fixed hs rfl

theorem isFixed_typeId (kind : Intrinsic) : kind.typeId.isFixed := by
  cases kind <;> rfl

theorem follows_application (hL : ∀ name, L.names name) (name : String)
    (hts : ∀ t ∈ ts, s.Closed L.names t) :
    Follows L s (application name ts) (application name (ts.map L)) := by
  rcases ts with _ | ⟨arg, _ | ⟨second, rest⟩⟩
  · exact follows_reference (hL name) hts
  · have harg := hts arg (by simp)
    refine follows_ite (fun _ => follows_array harg) fun _ => ?_
    cases builtinMap? name with
    | none => exact follows_reference (hL name) hts
    | some kind => exact follows_stringMap kind harg
  · exact follows_reference (hL name) hts

mutual

theorem follows_lower (hL : ∀ name, L.names name) {s : Store} (e : TypeExpr) {scope : TypeScope}
    (hscope : Ok L.names s scope) :
    Follows L s (e.lower scope) (e.lower (L.image scope)) := by
  obtain ⟨kind, location⟩ := e
  unfold TypeExpr.lower
  refine bind_value follows_bump fun s₁ h₁ hs₁ b _ => ?_
  refine follows_ite (fun _ => ?_) fun _ => pure_fixed hs₁ rfl
  refine bind_value (follows_lowerKind hL kind (Value.mono h₁ hscope)) fun s₂ _ _ u hu => ?_
  cases location with
  | none => exact pure_value hu
  | some tag =>
      exact bind_value (Runs.lift (follows_recordOrigin (p := .type u) hu fun _ => rfl))
        fun s₃ h₃ _ _ _ => pure_value (h₃.closed hu)

theorem follows_lowerKind (hL : ∀ name, L.names name) {s : Store} (kind : ExprKind) {scope : TypeScope}
    (hscope : Ok L.names s scope) : Follows L s (kind.lower scope) (kind.lower (L.image scope)) := by
  unfold ExprKind.lower
  cases kind with
  | intrinsic kind => exact Runs.ofFormed fun hs => pure_fixed hs (isFixed_typeId kind)
  | literal value => exact Runs.lift (follows_literalType value)
  | object fields index =>
      refine bind_value (follows_lowerFields hL fields hscope [] (by simp [Ok]))
        fun s₁ h₁ _ fs hfs => ?_
      refine bind_value (follows_lowerOption hL index (Value.mono h₁ hscope)) fun s₂ h₂ _ i hi => ?_
      refine bind_value (Runs.lift (follows_object (o := ⟨fs, i⟩) (Value.mono h₂ hfs) hi))
        fun s₃ _ _ u hu => ?_
      exact bind_value (Runs.lift (follows_recordFields hu fields)) fun s₄ h₄ _ _ _ =>
        pure_value (h₄.closed hu)
  | union members =>
      exact bind_value (follows_lowerAll hL members hscope) fun s₁ _ _ us hus =>
        Runs.lift (follows_rawUnion hus)
  | intersection members =>
      exact bind_value (follows_lowerAll hL members hscope) fun s₁ _ _ us hus =>
        Runs.lift (follows_rawIntersection hus)
  | function params result =>
      refine bind_value (follows_lowerAll hL params hscope) fun s₁ h₁ _ us hus => ?_
      exact bind_value (follows_lower hL result (Value.mono h₁ hscope)) fun s₂ h₂ _ u hu =>
        Runs.lift (follows_function (Value.mono h₂ hus) hu)
  | array element =>
      exact bind_value (follows_lower hL element hscope) fun s₁ _ _ u hu => Runs.lift (follows_array hu)
  | reference name args =>
      have himage : (if args.isEmpty then (L.image scope).lookup name else none) =
          (if args.isEmpty then scope.lookup name else none).map L := by
        rw [lookup_image]
        split <;> rfl
      simp only [himage]
      cases hl : if args.isEmpty then scope.lookup name else none with
      | some param =>
          refine pure_value ?_
          split at hl
          · exact closed_of_lookup hscope hl
          · cases hl
      | none =>
          exact bind_value (follows_lowerAll hL args hscope) fun s₁ _ _ us hus =>
            Runs.lift (follows_application hL name hus)
  | conditional check pattern infer thenBranch elseBranch distributive =>
      refine bind_value (follows_lower hL check hscope) fun s₁ h₁ _ c hc => ?_
      refine bind_value (Runs.lift (follows_node hc)) fun s₂ h₂ _ n _ => ?_
      refine bind_value (Runs.lift (follows_bindNames infer (Value.mono (h₁.trans h₂) hscope)))
        fun s₃ h₃ _ inner hinner => ?_
      refine bind_value (follows_lower hL pattern hinner) fun s₄ h₄ _ p hp => ?_
      refine bind_value (follows_lower hL thenBranch (Value.mono h₄ hinner)) fun s₅ h₅ _ a ha => ?_
      refine bind_value (follows_lower hL elseBranch (Value.mono (h₄.trans h₅) hinner))
        fun s₆ h₆ _ b hb => ?_
      have hc₆ := ((((h₂.trans h₃).trans h₄).trans h₅).trans h₆).closed hc
      cases n <;> exact Runs.lift (follows_conditional (c := ⟨c, p, infer, a, b, _⟩) hc₆
        ((h₅.trans h₆).closed hp) (h₆.closed ha) hb)
  | mapped keyParam source keyFilter template nameType optional readonly =>
      refine bind_value (follows_lower hL source hscope) fun s₁ h₁ _ u hu => ?_
      refine bind_value (Runs.lift (follows_bindNames [keyParam] (Value.mono h₁ hscope)))
        fun s₂ h₂ _ inner hinner => ?_
      refine bind_value (follows_lowerOption hL keyFilter hinner) fun s₃ h₃ _ f hf => ?_
      refine bind_value (follows_lower hL template (Value.mono h₃ hinner)) fun s₄ h₄ _ b hb => ?_
      refine bind_value (follows_lowerOption hL nameType (Value.mono (h₃.trans h₄) hinner))
        fun s₅ h₅ _ c hc => ?_
      have hu₅ := (((h₂.trans h₃).trans h₄).trans h₅).closed hu
      exact Runs.lift (follows_mapped (m := ⟨keyParam, u, f, b, c, optional, readonly⟩) hu₅ (Value.mono (h₄.trans h₅) hf) (h₅.closed hb) hc)
  | indexAccess object index =>
      refine bind_value (follows_lower hL object hscope) fun s₁ h₁ _ u hu => ?_
      exact bind_value (follows_lower hL index (Value.mono h₁ hscope)) fun s₂ h₂ _ v hv =>
        Runs.lift (follows_indexAccess (h₂.closed hu) hv)
  | template spans =>
      exact bind_value (follows_lowerSpans hL spans hscope) fun s₁ _ _ us hus =>
        Runs.lift (follows_template hus)
  | stringMap kind argument =>
      exact bind_value (follows_lower hL argument hscope) fun s₁ _ _ u hu =>
        Runs.lift (follows_stringMap kind hu)

theorem follows_lowerAll (hL : ∀ name, L.names name) {s : Store} (es : List TypeExpr)
    {scope : TypeScope} (hscope : Ok L.names s scope) :
    Follows L s (lowerAll es scope) (lowerAll es (L.image scope)) := by
  unfold lowerAll
  cases es with
  | nil => exact pure_value (a := []) (by simp [Ok])
  | cons e rest =>
      refine bind_value (follows_lower hL e hscope) fun s₁ h₁ _ u hu => ?_
      refine bind_value (follows_lowerAll hL rest (Value.mono h₁ hscope)) fun s₂ h₂ _ us hus => ?_
      exact pure_value (a := u :: us) (List.forall_mem_cons.mpr ⟨h₂.closed hu, hus⟩)

theorem follows_lowerOption (hL : ∀ name, L.names name) {s : Store} (e : Option TypeExpr)
    {scope : TypeScope} (hscope : Ok L.names s scope) :
    Follows L s (lowerOption e scope) (lowerOption e (L.image scope)) := by
  unfold lowerOption
  cases e with
  | none => exact pure_value (a := none) (by simp [Ok])
  | some e =>
      refine bind_value (follows_lower hL e hscope) fun s₁ _ _ u hu => pure_value (a := some u) ?_
      rintro _ ⟨⟩
      exact hu

theorem follows_lowerFields (hL : ∀ name, L.names name) {s : Store} (fields : List FieldExpr)
    {scope : TypeScope} (hscope : Ok L.names s scope) (done : List Field) (hdone : Ok L.names s done) :
    Follows L s (lowerFields fields scope done)
      (lowerFields fields (L.image scope) (L.image done)) := by
  unfold lowerFields
  cases fields with
  | nil => exact pure_value hdone
  | cons f rest =>
      obtain ⟨name, type, optional, readonly, location⟩ := f
      refine bind_value (follows_lower hL type hscope) fun s₁ h₁ _ u hu => ?_
      have hput : putField ⟨name, L u, optional, readonly⟩ (L.image done) =
          L.image (putField ⟨name, u, optional, readonly⟩ done) :=
        putField_map L ⟨name, u, optional, readonly⟩ done
      rw [image_type, hput]
      exact follows_lowerFields hL rest (Value.mono h₁ hscope) _
        (ok_putField ⟨name, u, optional, readonly⟩ hu (Value.mono h₁ hdone))

theorem follows_lowerSpans (hL : ∀ name, L.names name) {s : Store} (spans : List SpanExpr)
    {scope : TypeScope} (hscope : Ok L.names s scope) :
    Follows L s (lowerSpans spans scope) (lowerSpans spans (L.image scope)) := by
  unfold lowerSpans
  cases spans with
  | nil => exact pure_value (a := []) (by simp [Ok])
  | cons span rest =>
      cases span with
      | text a =>
          refine bind_value (follows_lowerSpans hL rest hscope) fun s₁ _ _ us hus =>
            pure_value (a := .text a :: us) ?_
          exact List.forall_mem_cons.mpr ⟨(by rintro _ ⟨⟩), hus⟩
      | hole e =>
          refine bind_value (follows_lower hL e hscope) fun s₁ h₁ _ u hu => ?_
          refine bind_value (follows_lowerSpans hL rest (Value.mono h₁ hscope))
            fun s₂ h₂ _ us hus => pure_value (a := .hole u :: us)
              (List.forall_mem_cons.mpr ⟨?_, hus⟩)
          rintro _ ⟨⟩
          exact h₂.closed hu

end

theorem follows_lowerParam (hL : ∀ name, L.names name) (p : ParamExpr) {scope : TypeScope}
    (hscope : Ok L.names s scope) :
    Follows L s (p.lower scope) (p.lower (L.image scope)) := by
  refine bind_value (follows_optionMapM fun e _ => follows_lower hL e hscope) fun s₁ h₁ _ c hc => ?_
  refine bind_value (follows_optionMapM fun e _ => follows_lower hL e (Value.mono h₁ hscope))
    fun s₂ h₂ _ d hd => pure_value (a := (⟨p.name, c, d, p.isConst⟩ : TypeParam)) ?_
  exact ⟨Value.mono h₂ hc, hd⟩

theorem follows_bindParams (hL : ∀ name, L.names name) (params : List ParamExpr) {scope : TypeScope}
    (hscope : Ok L.names s scope) :
    Follows L s (bindParams params scope) (bindParams params (L.image scope)) := by
  refine bind_value (Runs.lift (follows_bindNames _ hscope)) fun s₁ h₁ _ bare hbare => ?_
  refine bind_value (follows_mapM fun p _ s₂ h₂ => follows_lowerParam hL p (Value.mono h₂ hbare))
    fun s₂ h₂ _ infos hinfos => ?_
  refine bind_value (follows_foldlM_map (g := TypeParam.mapIds L) (fun info hinfo s₃ h₃ b c hbc => ?_)
    ⟨rfl, Value.mono h₂ hbare⟩) fun s₃ h₃ _ full hfull =>
      Runs.pure ⟨⟨rfl, Value.mono h₃ hinfos⟩, rfl, hfull⟩
  obtain ⟨rfl, hb⟩ := hbc
  have hinfo := Value.mono h₃ (hinfos info hinfo)
  exact bind_value (Runs.lift (follows_param info hinfo.1 hinfo.2)) fun s₄ h₄ _ u hu =>
    pure_value (a := (info.name, u) :: b) (ok_bind (Value.mono h₄ hb) hu info.name)

theorem follows_lowerAlias (hL : ∀ name, L.names name) (a : AliasExpr) {scope : TypeScope}
    (hscope : Ok L.names s scope) :
    Follows L s (a.lower scope) (a.lower (L.image scope)) := by
  refine Runs.bind (follows_bindParams hL a.params hscope) fun s₁ _ _ x y hxy => ?_
  obtain ⟨params, inner⟩ := x
  obtain ⟨params', inner'⟩ := y
  obtain ⟨⟨hparams', hparams⟩, hinner', hinner⟩ := hxy
  simp only at hparams' hparams hinner' hinner
  subst hparams' hinner'
  refine bind_value (follows_lower hL a.body hinner) fun s₂ h₂ _ body hbody =>
    pure_value (a := (⟨a.name, params, body, a.location⟩ : Alias)) ?_
  exact ⟨hbody, Value.mono h₂ hparams⟩

end TypeResolution.Replay
