import TypeResolution.Proofs.Json.Decoding
import TypeResolution.Session.Vocabulary

/-!
What is written for expressions, declarations, conditions, queries, modules, options and workspaces
decodes to the same.
-/

namespace TypeResolution

open Json

attribute [local simp] List.lookup_cons required withDefault decodeFlag decodeListField

@[simp]
theorem decodeOptionField_some {α : Type} (item : Decoder α) (b : Budget) (j : Json) :
    decodeOptionField item b (some j) = decodeOption item b j :=
  rfl

@[simp]
theorem Intrinsic.decode_tag (b : Budget) (k : Intrinsic) :
    Intrinsic.decode b (.text k.tag) = some k := by
  cases k <;> exact decodeName_text (by decide) b

@[simp]
theorem StringMap.decode_name (b : Budget) (k : StringMap) :
    StringMap.decode b (.text k.name) = some k := by
  cases k <;> exact decodeName_text (by decide) b

@[simp]
theorem decodeOption_modifier (b : Budget) (m : Option Modifier) :
    decodeOption Modifier.decode b (encodeModifier m) = some m := by
  cases m with
  | none => rfl
  | some m =>
      have hname : Modifier.decode b (.text m.name) = some m := by
        cases m <;> exact decodeName_text (by decide) b
      simpa [decodeOption, encodeModifier, encodeOption, Json.text] using hname

@[simp]
theorem decodeOption_flag (b : Budget) (o : Option Bool) :
    decodeOption decodeBool b (encodeOption (o.map .bool)) = some o := by
  cases o <;> rfl

theorem SourceTag.decode_encode {b : Budget} {t : SourceTag} (h : t.encode.nesting ≤ b.depth) :
    SourceTag.decode b t.encode = some t := by
  obtain ⟨inner, -, -, heq⟩ := record?_record (by simp) h ["file", "start", "length"]
  simp [SourceTag.decode, encode, heq]

theorem lookup_located (es : List (String × Json)) (location : Option SourceTag)
    (h : "location" ∉ es.map Prod.fst) (name : String) :
    (es ++ encodeLocation location).lookup name =
      if name = "location" then location.map SourceTag.encode else es.lookup name := by
  rw [List.lookup_append]
  split
  · rename_i hname
    subst hname
    have hnone : es.lookup "location" = none := by
      simp only [List.lookup_eq_none_iff, bne_iff_ne]
      exact fun e he heq => h (List.mem_map.mpr ⟨e, he, heq.symm⟩)
    rw [hnone]
    cases location <;> simp [encodeLocation]
  · rename_i hname
    have hnone : (encodeLocation location).lookup name = none := by
      cases location <;> simp [encodeLocation, beq_eq_false_iff_ne.mpr hname]
    rw [hnone, Option.or_none]

theorem nodup_located {es : List (String × Json)} (h : ("location" :: es.map Prod.fst).Nodup)
    (location : Option SourceTag) : ((es ++ encodeLocation location).map Prod.fst).Nodup := by
  obtain ⟨hfresh, hkeys⟩ := List.nodup_cons.mp h
  cases location with
  | none => simpa [encodeLocation] using hkeys
  | some t =>
      rw [List.map_append]
      refine List.nodup_append.mpr ⟨hkeys, by simp [encodeLocation], ?_⟩
      rintro key hkey name hname rfl
      simp only [encodeLocation, Option.toList_some, List.map_cons, List.map_nil,
        List.mem_singleton] at hname
      exact hfresh (hname ▸ hkey)

/-- A location that may be missing. -/
theorem decode_location {b : Budget} {location : Option SourceTag}
    (h : ∀ e ∈ encodeLocation location, e.2.nesting ≤ b.depth) :
    decodeOptionField SourceTag.decode b (location.map SourceTag.encode) = some location := by
  cases location with
  | none => rfl
  | some t =>
      have hle := h ("location", t.encode) (by simp [encodeLocation])
      have heq := SourceTag.decode_encode hle
      simp only [Option.map_some, decodeOptionField, withDefault, decodeOption, SourceTag.encode,
        record] at heq ⊢
      rw [heq]
      rfl

/-- A record that ends in a location, which is left out if there is none. -/
theorem record?_located {b : Budget} (es : List (String × Json)) (location : Option SourceTag)
    (hkeys : ("location" :: es.map Prod.fst).Nodup)
    (h : (record (es ++ encodeLocation location)).nesting ≤ b.depth) (names : List String) :
    ∃ inner, inner.depth < b.depth ∧ (∀ e ∈ es, e.2.nesting ≤ inner.depth) ∧
      decodeOptionField SourceTag.decode inner (location.map SourceTag.encode) = some location ∧
      record? names b (record (es ++ encodeLocation location)) = some (inner, names.map fun n =>
        if n = "location" then location.map SourceTag.encode else es.lookup n) := by
  obtain ⟨inner, hlt, hle, heq⟩ := record?_record (nodup_located hkeys location) h names
  simp only [lookup_located es location (List.nodup_cons.mp hkeys).1] at heq
  exact ⟨inner, hlt, fun e he => hle e (List.mem_append_left _ he),
    decode_location fun e he => hle e (List.mem_append_right _ he), heq⟩

theorem Literal.decode_encode {b : Budget} {l : Literal} (h : l.encode.nesting ≤ b.depth) :
    Literal.decode b l.encode = some l := by
  cases l with
  | string t =>
      obtain ⟨inner, -, -, heq⟩ := choice?_record h
      simp [Literal.decode, Literal.encode, heq]
  | number x =>
      obtain ⟨inner, -, -, heq⟩ := choice?_record h
      simp [Literal.decode, Literal.encode, heq, decodeNumber, number?, JsonNumber.number?]
  | boolean x =>
      obtain ⟨inner, -, -, heq⟩ := choice?_record h
      simp [Literal.decode, Literal.encode, heq]

theorem decodes_infer (names : List String) (b : Budget)
    (h : (Json.array (names.map .text)).nesting ≤ b.depth) :
    decodeList decodeString b (.array (names.map .text)) = some names :=
  decodes_map names (fun v _ b _ _ => decodeString_text b v) b h (Nat.lt_succ_self _)

section Variants

variable {level : Nat} {item : Decoder TypeExpr}

theorem decodes_intrinsic (kind : Intrinsic) :
    Decodes level (ExprKind.decodeWith item) (ExprKind.intrinsic kind).encode (.intrinsic kind) := by
  have hkind : Decodes level Intrinsic.decode (.text kind.tag) kind :=
    fun b _ _ => Intrinsic.decode_tag b kind
  refine (hkind.map ExprKind.intrinsic).variant fun b inner h => ?_
  rw [ExprKind.decodeWith, h]
  rfl

theorem decodes_literal (value : Literal) :
    Decodes level (ExprKind.decodeWith item) (ExprKind.literal value).encode (.literal value) := by
  have hvalue : Decodes level Literal.decode value.encode value :=
    fun _ hle _ => Literal.decode_encode hle
  refine (hvalue.map ExprKind.literal).variant fun b inner h => ?_
  rw [ExprKind.decodeWith, h]
  rfl

theorem decodes_object {fields : List FieldExpr} {index : Option TypeExpr}
    (hfields : List.Forall₂ (Decodes level (FieldExpr.decodeWith item)) (encodeFields fields) fields)
    (hindex : Decodes level (decodeOption item) (encodeExprOption index) index) :
    Decodes level (ExprKind.decodeWith item) (ExprKind.object fields index).encode
      (.object fields index) := by
  have hcontent : Decodes level (ExprKind.decodeObject item)
      (record [("fields", .array (encodeFields fields)), ("index_signature", encodeExprOption index)])
      (.object fields index) := by
    intro b hle hlt
    obtain ⟨inner, hinner, hparts, heq⟩ :=
      record?_record (by simp) hle ["fields", "index_signature"]
    simp only [List.forall_mem_cons] at hparts
    have hfields := decodes_list hfields inner hparts.1 (by omega)
    have hindex := hindex inner hparts.2.1 (by omega)
    simp [ExprKind.decodeObject, heq, hfields, hindex]
  refine hcontent.variant fun b inner h => ?_
  rw [ExprKind.decodeWith, h]
  rfl

theorem decodes_union {members : List TypeExpr}
    (hmembers : List.Forall₂ (Decodes level item) (encodeExprs members) members) :
    Decodes level (ExprKind.decodeWith item) (ExprKind.union members).encode (.union members) := by
  refine ((decodes_list hmembers).map ExprKind.union).variant fun b inner h => ?_
  rw [ExprKind.decodeWith, h]
  rfl

theorem decodes_intersection {members : List TypeExpr}
    (hmembers : List.Forall₂ (Decodes level item) (encodeExprs members) members) :
    Decodes level (ExprKind.decodeWith item) (ExprKind.intersection members).encode
      (.intersection members) := by
  refine ((decodes_list hmembers).map ExprKind.intersection).variant fun b inner h => ?_
  rw [ExprKind.decodeWith, h]
  rfl

theorem decodes_function {params : List TypeExpr} {returnType : TypeExpr}
    (hparams : List.Forall₂ (Decodes level item) (encodeExprs params) params)
    (hreturn : Decodes level item returnType.encode returnType) :
    Decodes level (ExprKind.decodeWith item) (ExprKind.function params returnType).encode
      (.function params returnType) := by
  have hcontent : Decodes level (ExprKind.decodeFunction item)
      (record [("params", .array (encodeExprs params)), ("return_type", returnType.encode)])
      (.function params returnType) := by
    intro b hle hlt
    obtain ⟨inner, hinner, hparts, heq⟩ := record?_record (by simp) hle ["params", "return_type"]
    simp only [List.forall_mem_cons] at hparts
    have hparams := decodes_list hparams inner hparts.1 (by omega)
    have hreturn := hreturn inner hparts.2.1 (by omega)
    simp [ExprKind.decodeFunction, heq, hparams, hreturn]
  refine hcontent.variant fun b inner h => ?_
  rw [ExprKind.decodeWith, h]
  rfl

theorem decodes_array {element : TypeExpr}
    (helement : Decodes level item element.encode element) :
    Decodes level (ExprKind.decodeWith item) (ExprKind.array element).encode (.array element) := by
  refine (helement.map ExprKind.array).variant fun b inner h => ?_
  rw [ExprKind.decodeWith, h]
  rfl

theorem decodes_reference (name : String) {args : List TypeExpr}
    (hargs : List.Forall₂ (Decodes level item) (encodeExprs args) args) :
    Decodes level (ExprKind.decodeWith item) (ExprKind.reference name args).encode
      (.reference name args) := by
  have hcontent : Decodes level (ExprKind.decodeReference item)
      (record [("name", .text name), ("args", .array (encodeExprs args))])
      (.reference name args) := by
    intro b hle hlt
    obtain ⟨inner, hinner, hparts, heq⟩ := record?_record (by simp) hle ["name", "args"]
    simp only [List.forall_mem_cons] at hparts
    have hargs := decodes_list hargs inner hparts.2.1 (by omega)
    simp [ExprKind.decodeReference, heq, hargs]
  refine hcontent.variant fun b inner h => ?_
  rw [ExprKind.decodeWith, h]
  rfl

theorem decodes_conditional {check pattern thenBranch elseBranch : TypeExpr} (infer : List String)
    (distributive : Option Bool) (hcheck : Decodes level item check.encode check)
    (hpattern : Decodes level item pattern.encode pattern)
    (hthen : Decodes level item thenBranch.encode thenBranch)
    (helse : Decodes level item elseBranch.encode elseBranch) :
    Decodes level (ExprKind.decodeWith item)
      (ExprKind.conditional check pattern infer thenBranch elseBranch distributive).encode
      (.conditional check pattern infer thenBranch elseBranch distributive) := by
  have hcontent : Decodes level (ExprKind.decodeConditional item)
      (record [("check", check.encode), ("extends", pattern.encode),
        ("infer", .array (infer.map .text)), ("then_branch", thenBranch.encode),
        ("else_branch", elseBranch.encode), ("distributive", encodeOption (distributive.map .bool))])
      (.conditional check pattern infer thenBranch elseBranch distributive) := by
    intro b hle hlt
    obtain ⟨inner, hinner, hparts, heq⟩ := record?_record (by simp) hle
      ["check", "extends", "infer", "then_branch", "else_branch", "distributive"]
    simp only [List.forall_mem_cons] at hparts
    have hcheck := hcheck inner hparts.1 (by omega)
    have hpattern := hpattern inner hparts.2.1 (by omega)
    have hinfer := decodes_infer infer inner hparts.2.2.1
    have hthen := hthen inner hparts.2.2.2.1 (by omega)
    have helse := helse inner hparts.2.2.2.2.1 (by omega)
    simp [ExprKind.decodeConditional, heq, hcheck, hpattern, hinfer, hthen, helse]
  refine hcontent.variant fun b inner h => ?_
  rw [ExprKind.decodeWith, h]
  rfl

theorem decodes_mapped (keyParam : String) {source template : TypeExpr}
    {keyFilter nameType : Option TypeExpr} (optional readonly : Option Modifier)
    (hsource : Decodes level item source.encode source)
    (hfilter : Decodes level (decodeOption item) (encodeExprOption keyFilter) keyFilter)
    (htemplate : Decodes level item template.encode template)
    (hname : Decodes level (decodeOption item) (encodeExprOption nameType) nameType) :
    Decodes level (ExprKind.decodeWith item)
      (ExprKind.mapped keyParam source keyFilter template nameType optional readonly).encode
      (.mapped keyParam source keyFilter template nameType optional readonly) := by
  have hcontent : Decodes level (ExprKind.decodeMapped item)
      (record [("key_param", .text keyParam), ("source", source.encode),
        ("key_filter", encodeExprOption keyFilter), ("template", template.encode),
        ("name_type", encodeExprOption nameType), ("optional", encodeModifier optional),
        ("readonly", encodeModifier readonly)])
      (.mapped keyParam source keyFilter template nameType optional readonly) := by
    intro b hle hlt
    obtain ⟨inner, hinner, hparts, heq⟩ := record?_record (by simp) hle
      ["key_param", "source", "key_filter", "template", "name_type", "optional", "readonly"]
    simp only [List.forall_mem_cons] at hparts
    have hsource := hsource inner hparts.2.1 (by omega)
    have hfilter := hfilter inner hparts.2.2.1 (by omega)
    have htemplate := htemplate inner hparts.2.2.2.1 (by omega)
    have hname := hname inner hparts.2.2.2.2.1 (by omega)
    simp [ExprKind.decodeMapped, heq, hsource, hfilter, htemplate, hname]
  refine hcontent.variant fun b inner h => ?_
  rw [ExprKind.decodeWith, h]
  rfl

theorem decodes_indexAccess {target index : TypeExpr}
    (htarget : Decodes level item target.encode target)
    (hindex : Decodes level item index.encode index) :
    Decodes level (ExprKind.decodeWith item) (ExprKind.indexAccess target index).encode
      (.indexAccess target index) := by
  have hcontent : Decodes level (ExprKind.decodeIndexAccess item)
      (record [("object", target.encode), ("index", index.encode)])
      (.indexAccess target index) := by
    intro b hle hlt
    obtain ⟨inner, hinner, hparts, heq⟩ := record?_record (by simp) hle ["object", "index"]
    simp only [List.forall_mem_cons] at hparts
    have htarget := htarget inner hparts.1 (by omega)
    have hindex := hindex inner hparts.2.1 (by omega)
    simp [ExprKind.decodeIndexAccess, heq, htarget, hindex]
  refine hcontent.variant fun b inner h => ?_
  rw [ExprKind.decodeWith, h]
  rfl

theorem decodes_template {spans : List SpanExpr}
    (hspans : List.Forall₂ (Decodes level (SpanExpr.decodeWith item)) (encodeSpans spans) spans) :
    Decodes level (ExprKind.decodeWith item) (ExprKind.template spans).encode (.template spans) := by
  refine ((decodes_list hspans).map ExprKind.template).variant fun b inner h => ?_
  rw [ExprKind.decodeWith, h]
  rfl

theorem decodes_stringMap (kind : StringMap) {argument : TypeExpr}
    (hargument : Decodes level item argument.encode argument) :
    Decodes level (ExprKind.decodeWith item) (ExprKind.stringMap kind argument).encode
      (.stringMap kind argument) := by
  have hcontent : Decodes level (ExprKind.decodeStringMap item)
      (record [("kind", .text kind.name), ("argument", argument.encode)])
      (.stringMap kind argument) := by
    intro b hle hlt
    obtain ⟨inner, hinner, hparts, heq⟩ := record?_record (by simp) hle ["kind", "argument"]
    simp only [List.forall_mem_cons] at hparts
    have hargument := hargument inner hparts.2.1 (by omega)
    simp [ExprKind.decodeStringMap, heq, hargument]
  refine hcontent.variant fun b inner h => ?_
  rw [ExprKind.decodeWith, h]
  rfl

theorem decodes_located {kind : ExprKind} (location : Option SourceTag)
    (hkind : Decodes level (ExprKind.decodeWith item) kind.encode kind) :
    Decodes (level + 1) (TypeExpr.decodeWith item) (TypeExpr.encode ⟨kind, location⟩)
      ⟨kind, location⟩ := by
  intro b hle hlt
  obtain ⟨inner, hinner, hparts, hlocation, heq⟩ :=
    record?_located [("kind", kind.encode)] location (by simp) hle ["kind", "location"]
  have hkind := hkind inner (hparts ("kind", kind.encode) (by simp)) (by omega)
  simp only [List.cons_append, List.nil_append] at heq
  simp [TypeExpr.encode, TypeExpr.decodeWith, heq, hkind, hlocation]

theorem decodes_field (name : String) {type : TypeExpr} (optional readonly : Bool)
    (location : Option SourceTag) (htype : Decodes level item type.encode type) :
    Decodes level (FieldExpr.decodeWith item)
      (record ([("name", .text name), ("type", type.encode), ("optional", .bool optional),
        ("readonly", .bool readonly)] ++ encodeLocation location))
      ⟨name, type, optional, readonly, location⟩ := by
  intro b hle hlt
  obtain ⟨inner, hinner, hparts, hlocation, heq⟩ := record?_located
    [("name", .text name), ("type", type.encode), ("optional", .bool optional),
      ("readonly", .bool readonly)] location (by simp) hle
    ["name", "type", "optional", "readonly", "location"]
  have htype := htype inner (hparts ("type", type.encode) (by simp)) (by omega)
  simp only [List.cons_append, List.nil_append] at heq
  simp [FieldExpr.decodeWith, heq, htype, hlocation]

theorem decodes_text (text : String) :
    Decodes level (SpanExpr.decodeWith item) (record [("text", .text text)]) (.text text) := by
  have htext : Decodes level decodeString (.text text) text := fun b _ _ => decodeString_text b text
  refine (htext.map SpanExpr.text).variant fun b inner h => ?_
  rw [SpanExpr.decodeWith, h]
  rfl

theorem decodes_hole {e : TypeExpr} (he : Decodes level item e.encode e) :
    Decodes level (SpanExpr.decodeWith item) (record [("type", e.encode)]) (.hole e) := by
  refine (he.map SpanExpr.hole).variant fun b inner h => ?_
  rw [SpanExpr.decodeWith, h]
  rfl

end Variants

mutual

theorem decodes_expr : (e : TypeExpr) → (level : Nat) →
    Decodes level (TypeExpr.decodeAt level) e.encode e
  | _, 0 => fun _ _ hlt => absurd hlt (Nat.not_lt_zero _)
  | ⟨kind, location⟩, level + 1 => decodes_located location (decodes_kind kind level)

theorem decodes_kind : (k : ExprKind) → (level : Nat) →
    Decodes level (ExprKind.decodeWith (TypeExpr.decodeAt level)) k.encode k
  | .intrinsic kind, _ => decodes_intrinsic kind
  | .literal value, _ => decodes_literal value
  | .object fields index, level =>
      decodes_object (decodes_fields fields level) (decodes_option index level)
  | .union members, level => decodes_union (decodes_exprs members level)
  | .intersection members, level => decodes_intersection (decodes_exprs members level)
  | .function params returnType, level =>
      decodes_function (decodes_exprs params level) (decodes_expr returnType level)
  | .array element, level => decodes_array (decodes_expr element level)
  | .reference name args, level => decodes_reference name (decodes_exprs args level)
  | .conditional check pattern infer thenBranch elseBranch distributive, level =>
      decodes_conditional infer distributive (decodes_expr check level) (decodes_expr pattern level)
        (decodes_expr thenBranch level) (decodes_expr elseBranch level)
  | .mapped keyParam source keyFilter template nameType optional readonly, level =>
      decodes_mapped keyParam optional readonly (decodes_expr source level)
        (decodes_option keyFilter level) (decodes_expr template level) (decodes_option nameType level)
  | .indexAccess target index, level =>
      decodes_indexAccess (decodes_expr target level) (decodes_expr index level)
  | .template spans, level => decodes_template (decodes_spans spans level)
  | .stringMap kind argument, level => decodes_stringMap kind (decodes_expr argument level)

theorem decodes_exprs : (es : List TypeExpr) → (level : Nat) →
    List.Forall₂ (Decodes level (TypeExpr.decodeAt level)) (encodeExprs es) es
  | [], _ => .nil
  | e :: rest, level => .cons (decodes_expr e level) (decodes_exprs rest level)

theorem decodes_option : (o : Option TypeExpr) → (level : Nat) →
    Decodes level (decodeOption (TypeExpr.decodeAt level)) (encodeExprOption o) o
  | none, _ => decodes_none
  | some ⟨kind, location⟩, level => decodes_some (decodes_expr ⟨kind, location⟩ level)

theorem decodes_fields : (fs : List FieldExpr) → (level : Nat) →
    List.Forall₂ (Decodes level (FieldExpr.decodeWith (TypeExpr.decodeAt level))) (encodeFields fs)
      fs
  | [], _ => .nil
  | ⟨name, type, optional, readonly, location⟩ :: rest, level =>
      .cons (decodes_field name optional readonly location (decodes_expr type level))
        (decodes_fields rest level)

theorem decodes_spans : (spans : List SpanExpr) → (level : Nat) →
    List.Forall₂ (Decodes level (SpanExpr.decodeWith (TypeExpr.decodeAt level))) (encodeSpans spans)
      spans
  | [], _ => .nil
  | .text text :: rest, level => .cons (decodes_text text) (decodes_spans rest level)
  | .hole e :: rest, level => .cons (decodes_hole (decodes_expr e level)) (decodes_spans rest level)

end

theorem TypeExpr.decode_encode {e : TypeExpr} {b : Budget} (h : e.encode.nesting ≤ b.depth) :
    TypeExpr.decode b e.encode = some e :=
  decodes_expr e (b.depth + 1) b h (Nat.lt_succ_self _)

theorem decodeOption_expr {o : Option TypeExpr} {b : Budget}
    (h : (encodeExprOption o).nesting ≤ b.depth) :
    decodeOption TypeExpr.decode b (encodeExprOption o) = some o := by
  cases o with
  | none => rfl
  | some e =>
      obtain ⟨kind, location⟩ := e
      have hexpr : Decodes (b.depth + 1) TypeExpr.decode (TypeExpr.encode ⟨kind, location⟩)
          ⟨kind, location⟩ := fun _ hle _ => TypeExpr.decode_encode hle
      exact decodes_some hexpr b h (Nat.lt_succ_self _)

theorem encodeExprs_eq (es : List TypeExpr) : encodeExprs es = es.map TypeExpr.encode := by
  induction es with
  | nil => rfl
  | cons e rest ih => rw [encodeExprs, ih, List.map_cons]

/-- A list of values that decode one by one. -/
theorem decodeList_map {α : Type} {item : Decoder α} {encode : α → Json} {b : Budget} {vs : List α}
    (h : (Json.array (vs.map encode)).nesting ≤ b.depth)
    (hitem : ∀ v b, (encode v).nesting ≤ b.depth → item b (encode v) = some v) :
    decodeList item b (.array (vs.map encode)) = some vs :=
  decodes_map vs (fun v _ b hle _ => hitem v b hle) b h (Nat.lt_succ_self _)

theorem decodeList_exprs {es : List TypeExpr} {b : Budget}
    (h : (Json.array (encodeExprs es)).nesting ≤ b.depth) :
    decodeList TypeExpr.decode b (.array (encodeExprs es)) = some es := by
  rw [encodeExprs_eq] at h ⊢
  exact decodeList_map h fun _ _ => TypeExpr.decode_encode

theorem ParamExpr.decode_encode {p : ParamExpr} {b : Budget} (h : p.encode.nesting ≤ b.depth) :
    ParamExpr.decode b p.encode = some p := by
  obtain ⟨inner, hinner, hparts, heq⟩ :=
    record?_record (by simp) h ["name", "constraint", "default", "isConst"]
  simp only [List.forall_mem_cons] at hparts
  have hconstraint := decodeOption_expr hparts.2.1
  have hdefault := decodeOption_expr hparts.2.2.1
  simp [ParamExpr.decode, ParamExpr.encode, heq, hconstraint, hdefault]

theorem AliasExpr.decode_encode {a : AliasExpr} {b : Budget} (h : a.encode.nesting ≤ b.depth) :
    AliasExpr.decode b a.encode = some a := by
  obtain ⟨inner, hinner, hparts, hlocation, heq⟩ := record?_located
    [("name", .text a.name), ("params", .array (a.params.map ParamExpr.encode)),
      ("body", a.body.encode)] a.location (by simp) h ["name", "params", "body", "location"]
  simp only [List.forall_mem_cons] at hparts
  have hparams := decodeList_map hparts.2.1 fun _ _ => ParamExpr.decode_encode
  have hbody := TypeExpr.decode_encode hparts.2.2.1
  simp only [List.cons_append, List.nil_append] at heq
  simp [AliasExpr.decode, AliasExpr.encode, heq, hparams, hbody, hlocation]

theorem Options.decode_encode {o : Options} {b : Budget} (h : o.encode.nesting ≤ b.depth) :
    Options.decode b o.encode = some o := by
  obtain ⟨inner, -, -, heq⟩ := record?_record (by simp) h ["maxEvaluationDepth", "maxSubtypeDepth",
    "maxIterations", "excessPropertyCheck", "preserveLiterals"]
  simp [Options.decode, Options.encode, heq]

theorem SessionConfig.decode_encode {c : SessionConfig} {b : Budget}
    (h : c.encode.nesting ≤ b.depth) : SessionConfig.decode b c.encode = some c := by
  obtain ⟨inner, -, hparts, heq⟩ := record?_record (by simp) h ["resolution", "parallel"]
  simp only [List.forall_mem_cons] at hparts
  have hresolution := Options.decode_encode hparts.1
  simp [SessionConfig.decode, SessionConfig.encode, heq, hresolution]

attribute [local simp] whole_null whole_bool whole_text whole_word whole_number whole_record

@[simp]
theorem SourceTag.whole (t : SourceTag) : Whole t.encode := by
  simp [SourceTag.encode]

@[simp]
theorem whole_location (location : Option SourceTag) :
    ∀ e ∈ encodeLocation location, Whole e.2 := by
  cases location <;> simp [encodeLocation]

@[simp]
theorem Literal.whole (l : Literal) : Whole l.encode := by
  cases l <;> simp [Literal.encode]

@[simp]
theorem whole_flag (o : Option Bool) : Whole (encodeOption (o.map .bool)) := by
  cases o <;> simp [encodeOption]

@[simp]
theorem whole_modifier (m : Option Modifier) : Whole (encodeModifier m) := by
  cases m <;> simp [encodeModifier, encodeOption]

@[simp]
theorem whole_texts (ts : List String) : Whole (.array (ts.map .text)) :=
  whole_map fun t _ => whole_text t

theorem whole_located (es : List (String × Json)) (location : Option SourceTag)
    (h : ∀ e ∈ es, Whole e.2) : Whole (record (es ++ encodeLocation location)) := by
  refine whole_record.mpr fun e he => ?_
  cases List.mem_append.mp he with
  | inl he => exact h e he
  | inr he => exact whole_location location e he

mutual

theorem TypeExpr.whole : (e : TypeExpr) → Whole e.encode
  | ⟨kind, location⟩ => by
      have hkind := kind.whole
      exact whole_located [("kind", kind.encode)] location (by simpa using hkind)

theorem ExprKind.whole : (k : ExprKind) → Whole k.encode
  | .intrinsic kind => by simp [ExprKind.encode]
  | .literal value => by simp [ExprKind.encode]
  | .object fields index => by
      simp [ExprKind.encode, whole_array (whole_fields fields), whole_exprOption index]
  | .union members => by simp [ExprKind.encode, whole_array (whole_exprs members)]
  | .intersection members => by simp [ExprKind.encode, whole_array (whole_exprs members)]
  | .function params returnType => by
      simp [ExprKind.encode, whole_array (whole_exprs params), returnType.whole]
  | .array element => by simp [ExprKind.encode, element.whole]
  | .reference name args => by simp [ExprKind.encode, whole_array (whole_exprs args)]
  | .conditional check pattern infer thenBranch elseBranch distributive => by
      simp [ExprKind.encode, check.whole, pattern.whole, thenBranch.whole, elseBranch.whole]
  | .mapped keyParam source keyFilter template nameType optional readonly => by
      simp [ExprKind.encode, source.whole, whole_exprOption keyFilter, template.whole,
        whole_exprOption nameType]
  | .indexAccess target index => by simp [ExprKind.encode, target.whole, index.whole]
  | .template spans => by simp [ExprKind.encode, whole_array (whole_spans spans)]
  | .stringMap kind argument => by simp [ExprKind.encode, argument.whole]

theorem whole_exprs : (es : List TypeExpr) → ∀ j ∈ encodeExprs es, Whole j
  | [] => by simp [encodeExprs]
  | e :: rest => List.forall_mem_cons.mpr ⟨e.whole, whole_exprs rest⟩

theorem whole_exprOption : (o : Option TypeExpr) → Whole (encodeExprOption o)
  | none => whole_null
  | some e => e.whole

theorem whole_fields : (fs : List FieldExpr) → ∀ j ∈ encodeFields fs, Whole j
  | [] => by simp [encodeFields]
  | ⟨name, type, optional, readonly, location⟩ :: rest => by
      have htype := type.whole
      exact List.forall_mem_cons.mpr ⟨whole_located _ location (by simp [htype]), whole_fields rest⟩

theorem whole_spans : (spans : List SpanExpr) → ∀ j ∈ encodeSpans spans, Whole j
  | [] => by simp [encodeSpans]
  | .text text :: rest => List.forall_mem_cons.mpr ⟨by simp, whole_spans rest⟩
  | .hole e :: rest => by
      have he := e.whole
      exact List.forall_mem_cons.mpr ⟨by simp [he], whole_spans rest⟩

end

@[simp]
theorem ParamExpr.whole (p : ParamExpr) : Whole p.encode := by
  simp [ParamExpr.encode, whole_exprOption]

theorem AliasExpr.whole (a : AliasExpr) : Whole a.encode := by
  refine whole_located _ a.location ?_
  simp [a.body.whole, whole_map fun p _ => ParamExpr.whole p]

theorem GuardExpr.whole (g : GuardExpr) : Whole g.encode := by
  cases g <;> simp [GuardExpr.encode, TypeExpr.whole]

theorem Query.whole (q : Query) : Whole q.encode := by
  cases q with
  | evaluate type => simp [Query.encode, type.whole]
  | assignable source target excess =>
      simp [Query.encode, source.whole, target.whole]
  | narrow type guard branch => simp [Query.encode, type.whole, guard.whole]
  | inferCall typeParams params args =>
      simp [Query.encode, whole_array (whole_exprs params), whole_array (whole_exprs args),
        whole_map fun p _ => ParamExpr.whole p]

theorem ModuleSource.whole (m : ModuleSource) : Whole m.encode := by
  have haliases : Whole (.array (m.aliases.map (·.encode))) := whole_map fun a _ => a.whole
  have hqueries : Whole (.array (m.queries.map (·.encode))) := whole_map fun q _ => q.whole
  simp [ModuleSource.encode, haliases, hqueries]

@[simp]
theorem Options.whole (o : Options) : Whole o.encode := by
  simp [Options.encode]

@[simp]
theorem SessionConfig.whole (c : SessionConfig) : Whole c.encode := by
  simp [SessionConfig.encode]

theorem Workspace.whole (w : Workspace) : Whole w.encode := by
  simp [Workspace.encode, whole_map fun m _ => ModuleSource.whole m]

@[simp]
theorem TypeofKind.decode_name (b : Budget) (k : TypeofKind) :
    TypeofKind.decode b (.text k.name) = some k := by
  cases k <;> exact decodeName_text (by decide) b

@[simp]
theorem Branch.decode_name (b : Budget) (k : Branch) :
    Branch.decode b (.text k.name) = some k := by
  cases k <;> exact decodeName_text (by decide) b

theorem GuardExpr.decode_encode {g : GuardExpr} {b : Budget} (h : g.encode.nesting ≤ b.depth) :
    GuardExpr.decode b g.encode = some g := by
  have hwhole := g.whole
  cases g with
  | typeof kind =>
      obtain ⟨inner, hinner, hparts, heq⟩ := tagged?_record GuardExpr.tags hwhole (by simp) h
      simp [GuardExpr.decode, GuardExpr.encode, heq, fields?_record]
  | literalEquality value =>
      obtain ⟨inner, hinner, hparts, heq⟩ := tagged?_record GuardExpr.tags hwhole (by simp) h
      simp only [List.forall_mem_cons] at hparts
      have hvalue := TypeExpr.decode_encode hparts.1
      simp [GuardExpr.decode, GuardExpr.encode, heq, fields?_record, hvalue]
  | nullishEquality =>
      obtain ⟨inner, hinner, hparts, heq⟩ := tagged?_record GuardExpr.tags hwhole (by simp) h
      simp [GuardExpr.decode, GuardExpr.encode, heq, fields?_record]
  | truthy =>
      obtain ⟨inner, hinner, hparts, heq⟩ := tagged?_record GuardExpr.tags hwhole (by simp) h
      simp [GuardExpr.decode, GuardExpr.encode, heq, fields?_record]
  | discriminant property value =>
      obtain ⟨inner, hinner, hparts, heq⟩ := tagged?_record GuardExpr.tags hwhole (by simp) h
      simp only [List.forall_mem_cons] at hparts
      have hvalue := TypeExpr.decode_encode hparts.2.1
      simp [GuardExpr.decode, GuardExpr.encode, heq, fields?_record, hvalue]
  | inProperty property =>
      obtain ⟨inner, hinner, hparts, heq⟩ := tagged?_record GuardExpr.tags hwhole (by simp) h
      simp [GuardExpr.decode, GuardExpr.encode, heq, fields?_record]
  | predicate asserts =>
      obtain ⟨inner, hinner, hparts, heq⟩ := tagged?_record GuardExpr.tags hwhole (by simp) h
      simp only [List.forall_mem_cons] at hparts
      have hasserts := TypeExpr.decode_encode hparts.1
      simp [GuardExpr.decode, GuardExpr.encode, heq, fields?_record, hasserts]

theorem Query.decode_encode {q : Query} {b : Budget} (h : q.encode.nesting ≤ b.depth) :
    Query.decode b q.encode = some q := by
  have hwhole := q.whole
  cases q with
  | evaluate type =>
      obtain ⟨inner, hinner, hparts, heq⟩ := tagged?_record Query.tags hwhole (by simp) h
      simp only [List.forall_mem_cons] at hparts
      have htype := TypeExpr.decode_encode hparts.1
      simp [Query.decode, Query.encode, heq, fields?_record, htype]
  | assignable source target excess =>
      obtain ⟨inner, hinner, hparts, heq⟩ := tagged?_record Query.tags hwhole (by simp) h
      simp only [List.forall_mem_cons] at hparts
      have hsource := TypeExpr.decode_encode hparts.1
      have htarget := TypeExpr.decode_encode hparts.2.1
      simp [Query.decode, Query.encode, heq, fields?_record, hsource, htarget]
  | narrow type guard branch =>
      obtain ⟨inner, hinner, hparts, heq⟩ := tagged?_record Query.tags hwhole (by simp) h
      simp only [List.forall_mem_cons] at hparts
      have htype := TypeExpr.decode_encode hparts.1
      have hguard := GuardExpr.decode_encode hparts.2.1
      simp [Query.decode, Query.encode, heq, fields?_record, htype, hguard]
  | inferCall typeParams params args =>
      obtain ⟨inner, hinner, hparts, heq⟩ := tagged?_record Query.tags hwhole (by simp) h
      simp only [List.forall_mem_cons] at hparts
      have htypes := decodeList_map hparts.1 fun _ _ => ParamExpr.decode_encode
      have hparams := decodeList_exprs hparts.2.1
      have hargs := decodeList_exprs hparts.2.2.1
      simp [Query.decode, Query.encode, heq, fields?_record, htypes, hparams, hargs]

theorem ModuleSource.decode_encode {m : ModuleSource} {b : Budget}
    (h : m.encode.nesting ≤ b.depth) : ModuleSource.decode b m.encode = some m := by
  obtain ⟨inner, hinner, hparts, heq⟩ :=
    record?_record (by simp) h ["name", "imports", "aliases", "queries"]
  simp only [List.forall_mem_cons] at hparts
  have himports := decodeList_map hparts.2.1 fun t b _ => decodeString_text b t
  have haliases := decodeList_map hparts.2.2.1 fun _ _ => AliasExpr.decode_encode
  have hqueries := decodeList_map hparts.2.2.2.1 fun _ _ => Query.decode_encode
  simp [ModuleSource.decode, ModuleSource.encode, heq, himports, haliases, hqueries]

theorem Workspace.decode_encode {w : Workspace} {b : Budget} (h : w.encode.nesting ≤ b.depth) :
    Workspace.decode b w.encode = some w := by
  obtain ⟨inner, hinner, hparts, heq⟩ := record?_record (by simp) h ["config", "modules"]
  simp only [List.forall_mem_cons] at hparts
  have hconfig := SessionConfig.decode_encode hparts.1
  have hmodules := decodeList_map hparts.2.1 fun _ _ => ModuleSource.decode_encode
  simp [Workspace.decode, Workspace.encode, heq, hconfig, hmodules]

namespace Json

/-- What is whole and whose decimals read back is legible. -/
theorem Whole.legible {j : Json} (h : Whole j)
    (hdecimals : ∀ x, .number (.real (some x)) ∈ j.leaves → ReadsBack (.real (some x))) :
    j.Legible := by
  refine ⟨fun ht => absurd (h _ ht) (by simp [WholeLeaf]), fun n hn => ?_⟩
  have hleaf := h _ hn
  cases n with
  | integer negative n =>
      obtain ⟨rfl, -⟩ := hleaf
      exact readsBack_integer n
  | real x =>
      obtain ⟨x, rfl⟩ := Option.isSome_iff_exists.mp hleaf
      exact hdecimals x hn

/-- What is written for a value decodes to that value, as long as its arrays and objects nest no
deeper than is decoded and the number literals in it read back. -/
def RoundTrips {α : Type} (encode : α → Json) (decode : Decoder α) : Prop :=
  ∀ v, (encode v).nesting ≤ Budget.standard.depth →
    (∀ x, .number (.real (some x)) ∈ (encode v).leaves → ReadsBack (.real (some x))) →
    decodeText? decode (encode v).toText = some v

theorem roundTrips {α : Type} {encode : α → Json} {decode : Decoder α}
    (hwhole : ∀ v, Whole (encode v))
    (h : ∀ v b, (encode v).nesting ≤ b.depth → decode b (encode v) = some v) :
    RoundTrips encode decode := by
  intro v hnesting hdecimals
  simp [decodeText?, ofText?_toText ((hwhole v).legible hdecimals), h v _ hnesting]

/-- The number of a numeral with a fraction or an exponent. -/
def decimal? : Json → Option Number
  | .number (.real x) => x
  | _ => none

end Json

theorem vocabulary_round_trips :
    RoundTrips TypeExpr.encode TypeExpr.decode ∧
    RoundTrips ParamExpr.encode ParamExpr.decode ∧
    RoundTrips AliasExpr.encode AliasExpr.decode ∧
    RoundTrips GuardExpr.encode GuardExpr.decode ∧
    RoundTrips Query.encode Query.decode ∧
    RoundTrips ModuleSource.encode ModuleSource.decode ∧
    RoundTrips Options.encode Options.decode ∧
    RoundTrips SessionConfig.encode SessionConfig.decode ∧
    RoundTrips Workspace.encode Workspace.decode :=
  ⟨roundTrips TypeExpr.whole fun _ _ => TypeExpr.decode_encode,
    roundTrips ParamExpr.whole fun _ _ => ParamExpr.decode_encode,
    roundTrips AliasExpr.whole fun _ _ => AliasExpr.decode_encode,
    roundTrips GuardExpr.whole fun _ _ => GuardExpr.decode_encode,
    roundTrips Query.whole fun _ _ => Query.decode_encode,
    roundTrips ModuleSource.whole fun _ _ => ModuleSource.decode_encode,
    roundTrips Options.whole fun _ _ => Options.decode_encode,
    roundTrips SessionConfig.whole fun _ _ => SessionConfig.decode_encode,
    roundTrips Workspace.whole fun _ _ => Workspace.decode_encode⟩

/-- One and a half. -/
def sampleNumber : Number := ⟨0x3ff8000000000000⟩

theorem shortest_sampleNumber : sampleNumber.shortest = ⟨15, 0, 1⟩ := by
  decide +kernel

theorem readsBack_sampleNumber : ReadsBack (.real (some sampleNumber)) := by
  have htext : (Writer.number "" (.real (some sampleNumber))).toList = ['1', '.', '5'] := by
    have hfinite : sampleNumber.isFinite = true := by decide +kernel
    have hzero : sampleNumber.isZero = false := by decide +kernel
    have hsign : sampleNumber.isNegative = false := by decide +kernel
    have hdigits : Nat.toDigits 10 15 = ['1', '5'] := by decide
    simp [Writer.number, Writer.decimal, hfinite, hzero, hsign, shortest_sampleNumber, Number.Decimal.toText,
      hdigits]
  rw [ReadsBack, htext]
  decide +kernel

/-- A field with a number literal and a location, narrowed by another literal. -/
def sampleQuery : Query :=
  let literal := (TypeExpr.numberLiteral sampleNumber).withLocation ⟨0, 4, 3⟩
  .narrow (.object [(FieldExpr.of "p" literal).asOptional])
    (.discriminant "p" (.booleanLiteral true)) .whenFalse

/-- An alias of a mapped type without filter and modifiers. -/
def sampleAlias : AliasExpr :=
  ⟨"F", [.named "X"], .of (.mapped "K" (.named "X") none .string none (some .add) none),
    some ⟨0, 0, 9⟩⟩

def sampleWorkspace : Workspace :=
  ⟨{}, [((ModuleSource.named "m").withAlias sampleAlias).withQuery sampleQuery]⟩

theorem vocabulary_round_trips_sample :
    decodeText? Workspace.decode sampleWorkspace.encode.toText = some sampleWorkspace := by
  obtain ⟨-, -, -, -, -, -, -, -, hworkspace⟩ := vocabulary_round_trips
  have hnesting : sampleWorkspace.encode.nesting ≤ Budget.standard.depth := by decide +kernel
  have hdecimals : sampleWorkspace.encode.leaves.all (·.decimal?.all (· = sampleNumber)) := by
    decide +kernel
  refine hworkspace sampleWorkspace hnesting fun x hx => ?_
  have heq : x = sampleNumber := by simpa [decimal?] using List.all_eq_true.mp hdecimals _ hx
  exact heq ▸ readsBack_sampleNumber

end TypeResolution
