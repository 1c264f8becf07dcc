import Mathlib.Data.List.Basic
import TypeResolution.Proofs.Store.Formed
import TypeResolution.Type.Scope

/-!
Types under other ids. A renaming keeps the order in which types are made, and the fixed types. It
takes a node to one with the same parts in the same order, so what compares types does the same on
both sides, and so does what sorts them, where their numbers are in the same order.
-/

namespace TypeResolution

/-- Other ids for types that are made in the same order; the fixed types keep theirs. -/
structure Renaming where
  toFun : TypeId → TypeId
  lt {a b : TypeId} : a.index < b.index → (toFun a).index < (toFun b).index
  fixed {a : TypeId} : a.isFixed → toFun a = a

instance : CoeFun Renaming fun _ => TypeId → TypeId := ⟨Renaming.toFun⟩

namespace Renaming

/-- All types keep their ids. -/
@[reducible] def same : Renaming := ⟨fun t => t, fun h => h, fun _ => rfl⟩

variable (f : Renaming) {a b : TypeId}

theorem injective : Function.Injective f := by
  intro a b hab
  rcases Nat.lt_trichotomy a.index b.index with hlt | heq | hgt
  · exact absurd (congrArg TypeId.index hab) (Nat.ne_of_lt (f.lt hlt))
  · exact congrArg TypeId.mk heq
  · exact absurd (congrArg TypeId.index hab) (Nat.ne_of_gt (f.lt hgt))

@[simp] theorem eq_iff : f a = f b ↔ a = b := f.injective.eq_iff

theorem index_le : a.index ≤ (f a).index := by
  obtain ⟨i⟩ := a
  induction i with
  | zero => exact Nat.zero_le _
  | succ i ih => exact Nat.succ_le_of_lt (Nat.lt_of_le_of_lt ih (f.lt (Nat.lt_succ_self i)))

@[simp] theorem isFixed : (f a).isFixed = a.isFixed := by
  refine Bool.eq_iff_iff.mpr ⟨fun h => ?_, fun h => ?_⟩
  · rwa [f.injective (f.fixed h)] at h
  · rwa [f.fixed h]

theorem eq_fixed (hb : b.isFixed) : f a = b ↔ a = b := by
  rw [← f.fixed hb, f.eq_iff, f.fixed hb]

@[simp] theorem eq_error : f a = .error ↔ a = .error := f.eq_fixed rfl
@[simp] theorem eq_never : f a = .never ↔ a = .never := f.eq_fixed rfl
@[simp] theorem eq_unknown : f a = .unknown ↔ a = .unknown := f.eq_fixed rfl
@[simp] theorem eq_any : f a = .any ↔ a = .any := f.eq_fixed rfl
@[simp] theorem eq_void : f a = .void ↔ a = .void := f.eq_fixed rfl
@[simp] theorem eq_undefined : f a = .undefined ↔ a = .undefined := f.eq_fixed rfl
@[simp] theorem eq_null : f a = .null ↔ a = .null := f.eq_fixed rfl
@[simp] theorem eq_boolean : f a = .boolean ↔ a = .boolean := f.eq_fixed rfl
@[simp] theorem eq_number : f a = .number ↔ a = .number := f.eq_fixed rfl
@[simp] theorem eq_string : f a = .string ↔ a = .string := f.eq_fixed rfl
@[simp] theorem eq_trueLiteral : f a = .trueLiteral ↔ a = .trueLiteral := f.eq_fixed rfl
@[simp] theorem eq_falseLiteral : f a = .falseLiteral ↔ a = .falseLiteral := f.eq_fixed rfl

theorem isFixed_primitive (value : Literal) : value.primitive.isFixed := by
  cases value <;> rfl

@[simp] theorem eq_primitive (value : Literal) : f a = value.primitive ↔ a = value.primitive :=
  f.eq_fixed (isFixed_primitive value)

@[simp] theorem isNullish : (f a).isNullish = a.isNullish := by
  simp [TypeId.isNullish]

@[simp] theorem isAnyOrUnknown : (f a).isAnyOrUnknown = a.isAnyOrUnknown := by
  simp [TypeId.isAnyOrUnknown]

end Renaming

namespace TypeId

variable (f : Renaming) {t : TypeId} {ts : List TypeId}

theorem contains_map : (ts.map f).contains (f t) = ts.contains t := by
  simp only [List.contains_eq_mem, List.mem_map_of_injective f.injective]

theorem contains_map_fixed (ht : t.isFixed) : (ts.map f).contains t = ts.contains t := by
  conv_lhs => rw [← f.fixed ht]
  exact contains_map f

/-- The numbers of the types that have the other ids are in the same order. -/
def SameOrder (f : Renaming) (numbers numbers' : Numbering) (a b : TypeId) : Prop :=
  Before numbers' (f a) (f b) ↔ Before numbers a b

theorem sameOrder_of_isFixed {numbers numbers' : Numbering} {a b : TypeId}
    (h : a.isFixed ∨ b.isFixed) : SameOrder f numbers numbers' a b := by
  have hnot : ∀ {ν : Numbering} {c d : TypeId}, c.isFixed = false → d.isFixed → ¬Before ν c d :=
    fun hc hd hcd => hcd.asymm (before_of_isFixed hd hc)
  unfold SameOrder
  cases ha : a.isFixed <;> cases hb : b.isFixed
  · simp [ha, hb] at h
  · exact iff_of_false (hnot (by simp [ha]) (by simp [hb])) (hnot ha hb)
  · exact iff_of_true (before_of_isFixed (by simp [ha]) (by simp [hb])) (before_of_isFixed ha hb)
  · rw [f.fixed ha, f.fixed hb, before_fixed_iff ha hb, before_fixed_iff ha hb]

variable {numbers numbers' : Numbering}

theorem insertSorted_map (h : ∀ u ∈ ts, SameOrder f numbers numbers' t u) :
    insertSorted numbers' (f t) (ts.map f) = (insertSorted numbers t ts).map f := by
  induction ts with
  | nil => rfl
  | cons u rest ih =>
      obtain ⟨hu, hrest⟩ := List.forall_mem_cons.mp h
      unfold SameOrder at hu
      simp only [List.map_cons, insertSorted, hu, f.eq_iff, ih hrest]
      split
      · rfl
      · split <;> rfl

theorem sortUnique_map (h : ∀ t ∈ ts, ∀ u ∈ ts, SameOrder f numbers numbers' t u) :
    sortUnique numbers' (ts.map f) = (sortUnique numbers ts).map f := by
  induction ts with
  | nil => rfl
  | cons t rest ih =>
      have hrest := ih fun a ha b hb => h a (by simp [ha]) b (by simp [hb])
      simp only [sortUnique, List.map_cons, List.foldr_cons] at hrest ⊢
      rw [hrest, insertSorted_map]
      exact fun u hu => h t (by simp) u (by simp [mem_sortUnique.mp hu])

theorem filter_map_ne_fixed {c : TypeId} (hc : c.isFixed) :
    (ts.map f).filter (· ≠ c) = (ts.filter (· ≠ c)).map f := by
  rw [List.filter_map]
  refine congrArg (List.map f) (List.filter_congr fun t _ => ?_)
  simp only [Function.comp_apply, ne_eq, f.eq_fixed hc]

end TypeId

/-- The place with another id. -/
def Place.mapIds (f : TypeId → TypeId) : Place → Place
  | .type t => .type (f t)
  | .field t name => .field (f t) name

/-- The type that a place belongs to. -/
def Place.owner : Place → TypeId
  | .type t => t
  | .field t _ => t

@[simp] theorem Place.owner_mapIds (f : TypeId → TypeId) (p : Place) :
    (p.mapIds f).owner = f p.owner := by
  cases p <;> rfl

theorem Place.mapIds_injective {f : TypeId → TypeId} (hf : Function.Injective f) :
    Function.Injective (Place.mapIds f) := by
  intro p q h
  cases p <;> cases q <;> simp_all [Place.mapIds, hf.eq_iff]

def Field.mapIds (f : TypeId → TypeId) (x : Field) : Field := { x with type := f x.type }

def ObjectShape.mapIds (f : TypeId → TypeId) (o : ObjectShape) : ObjectShape :=
  ⟨o.fields.map (·.mapIds f), o.stringIndex.map f⟩

def FunctionShape.mapIds (f : TypeId → TypeId) (x : FunctionShape) : FunctionShape :=
  ⟨x.params.map f, f x.result⟩

def TypeParam.mapIds (f : TypeId → TypeId) (p : TypeParam) : TypeParam :=
  { p with constraint := p.constraint.map f, default := p.default.map f }

def Conditional.mapIds (f : TypeId → TypeId) (c : Conditional) : Conditional :=
  { c with check := f c.check, pattern := f c.pattern, whenTrue := f c.whenTrue,
           whenFalse := f c.whenFalse }

def Mapped.mapIds (f : TypeId → TypeId) (m : Mapped) : Mapped :=
  { m with source := f m.source, keyFilter := m.keyFilter.map f, template := f m.template,
           nameType := m.nameType.map f }

def Span.mapIds (f : TypeId → TypeId) : Span → Span
  | .text a => .text a
  | .hole t => .hole (f t)

@[simp] theorem Span.mapIds_text (f : TypeId → TypeId) (a : String) :
    (Span.text a).mapIds f = .text a := rfl

@[simp] theorem Span.mapIds_hole (f : TypeId → TypeId) (t : TypeId) :
    (Span.hole t).mapIds f = .hole (f t) := rfl

/-- The node with other ids, its parts in the same order. -/
def Node.mapIds (f : TypeId → TypeId) : Node → Node
  | .error => .error
  | .intrinsic kind => .intrinsic kind
  | .literal value => .literal value
  | .object shape => .object (shape.mapIds f)
  | .union members => .union (members.map f)
  | .intersection members => .intersection (members.map f)
  | .param info => .param (info.mapIds f)
  | .conditional c => .conditional (c.mapIds f)
  | .mapped m => .mapped (m.mapIds f)
  | .function shape => .function (shape.mapIds f)
  | .array element => .array (f element)
  | .reference name args => .reference name (args.map f)
  | .indexAccess obj key => .indexAccess (f obj) (f key)
  | .template spans => .template (spans.map (·.mapIds f))
  | .stringMap kind arg => .stringMap kind (f arg)

theorem Node.mapIds_congr {f g : TypeId → TypeId} {n : Node} (h : ∀ c ∈ n.components, f c = g c) :
    n.mapIds f = n.mapIds g := by
  have hlist {l : List TypeId} (h : ∀ c ∈ l, f c = g c) : l.map f = l.map g := List.map_congr_left h
  have hoption {o : Option TypeId} (h : ∀ c ∈ o.toList, f c = g c) : o.map f = o.map g := by
    cases o with
    | none => rfl
    | some c => exact congrArg some (h c (by simp))
  cases n with
  | error | intrinsic | literal => rfl
  | object o =>
      have hfields : o.fields.map (·.mapIds f) = o.fields.map (·.mapIds g) := by
        refine List.map_congr_left fun x hx => ?_
        rw [Field.mapIds, h x.type (List.mem_append_left _ (List.mem_map_of_mem hx))]
        rfl
      simp only [mapIds, ObjectShape.mapIds, hfields,
        hoption fun c hc => h c (List.mem_append_right _ hc)]
  | union members | intersection members => simp only [mapIds, hlist (l := members) h]
  | param info =>
      simp only [mapIds, TypeParam.mapIds, hoption fun c hc => h c (List.mem_append_left _ hc),
        hoption fun c hc => h c (List.mem_append_right _ hc)]
  | conditional c =>
      simp only [components, List.forall_mem_cons] at h
      simp only [mapIds, Conditional.mapIds, h]
  | mapped m =>
      simp only [components, List.cons_append, List.mem_cons, List.mem_append, or_imp, forall_and,
        forall_eq] at h
      obtain ⟨hsource, hfilter, htemplate, hname⟩ := h
      simp only [mapIds, Mapped.mapIds, hsource, hoption hfilter, htemplate, hoption hname]
  | function x =>
      simp only [mapIds, FunctionShape.mapIds, hlist fun c hc => h c (List.mem_append_left _ hc),
        h x.result (by simp [components])]
  | array element => simp only [mapIds, h element (by simp [components])]
  | reference name args => simp only [mapIds, hlist (l := args) h]
  | indexAccess owner key =>
      simp only [components, List.forall_mem_cons] at h
      simp only [mapIds, h]
  | template spans =>
      refine congrArg template (List.map_congr_left fun x hx => ?_)
      cases x with
      | text => rfl
      | hole t => exact congrArg Span.hole (h t (List.mem_filterMap.mpr ⟨_, hx, rfl⟩))
  | stringMap kind arg => simp only [mapIds, h arg (by simp [components])]

section injective

variable {f : TypeId → TypeId} (hf : Function.Injective f)

include hf

theorem Field.mapIds_injective : Function.Injective (Field.mapIds f) := by
  rintro ⟨⟩ ⟨⟩ h
  simp_all [Field.mapIds, hf.eq_iff]

theorem Span.mapIds_injective : Function.Injective (Span.mapIds f) := by
  intro x y h
  cases x <;> cases y <;> simp_all [Span.mapIds, hf.eq_iff]

theorem ObjectShape.mapIds_injective : Function.Injective (ObjectShape.mapIds f) := by
  rintro ⟨fields, index⟩ ⟨fields', index'⟩ h
  obtain ⟨hfields, hindex⟩ := ObjectShape.mk.inj h
  obtain rfl := List.map_injective_iff.mpr (Field.mapIds_injective hf) hfields
  obtain rfl := Option.map_injective hf hindex
  rfl

theorem Node.mapIds_injective : Function.Injective (Node.mapIds f) := by
  have hlist : Function.Injective (List.map f) := List.map_injective_iff.mpr hf
  have hoption : Function.Injective (Option.map f) := Option.map_injective hf
  intro m n h
  cases m <;> cases n <;> simp only [Node.mapIds, reduceCtorEq] at h <;> try exact h
  case error.error => rfl
  case object.object => rw [ObjectShape.mapIds_injective hf (Node.object.inj h)]
  case union.union => rw [hlist (Node.union.inj h)]
  case intersection.intersection => rw [hlist (Node.intersection.inj h)]
  case param.param p q =>
    obtain ⟨⟩ := p
    obtain ⟨⟩ := q
    simp_all [TypeParam.mapIds, hoption.eq_iff]
  case conditional.conditional p q =>
    obtain ⟨⟩ := p
    obtain ⟨⟩ := q
    simp_all [Conditional.mapIds, hf.eq_iff]
  case mapped.mapped p q =>
    obtain ⟨⟩ := p
    obtain ⟨⟩ := q
    simp_all [Mapped.mapIds, hf.eq_iff, hoption.eq_iff]
  case function.function p q =>
    obtain ⟨⟩ := p
    obtain ⟨⟩ := q
    simp_all [FunctionShape.mapIds, hf.eq_iff, hlist.eq_iff]
  case array.array => rw [hf (Node.array.inj h)]
  case reference.reference =>
    obtain ⟨rfl, hargs⟩ := Node.reference.inj h
    rw [hlist hargs]
  case indexAccess.indexAccess =>
    obtain ⟨h, h'⟩ := Node.indexAccess.inj h
    rw [hf h, hf h']
  case template.template =>
    rw [List.map_injective_iff.mpr (Span.mapIds_injective hf) (Node.template.inj h)]
  case stringMap.stringMap =>
    obtain ⟨rfl, harg⟩ := Node.stringMap.inj h
    rw [hf harg]

end injective

section same

theorem Field.mapIds_same (x : Field) : x.mapIds (fun t => t) = x := rfl

theorem Span.mapIds_same (x : Span) : x.mapIds (fun t => t) = x := by
  cases x <;> rfl

theorem ObjectShape.mapIds_same (o : ObjectShape) : o.mapIds (fun t => t) = o := by
  simp [ObjectShape.mapIds, Field.mapIds_same]

theorem TypeParam.mapIds_same (p : TypeParam) : p.mapIds (fun t => t) = p := by
  simp [TypeParam.mapIds]

theorem Node.mapIds_same (n : Node) : n.mapIds (fun t => t) = n := by
  cases n with
  | object shape => exact congrArg Node.object shape.mapIds_same
  | param info => exact congrArg Node.param info.mapIds_same
  | template spans =>
      exact congrArg Node.template ((List.map_congr_left fun x _ => x.mapIds_same).trans
        (List.map_id' spans))
  | _ => simp [Node.mapIds, Conditional.mapIds, Mapped.mapIds, FunctionShape.mapIds]

theorem Place.mapIds_same (p : Place) : p.mapIds (fun t => t) = p := by
  cases p <;> rfl

end same

namespace ObjectShape

variable (f : TypeId → TypeId) (o : ObjectShape)

theorem find?_mapIds (name : String) : (o.mapIds f).find? name = (o.find? name).map (·.mapIds f) := by
  simp only [find?, mapIds, List.find?_map]
  rfl

theorem sorted_mapIds : (o.mapIds f).sorted = o.sorted.mapIds f := by
  have hsorted := List.map_mergeSort (f := Field.mapIds f) (l := o.fields)
    (r := fun a b => decide (a.name ≤ b.name)) (s := fun a b => decide (a.name ≤ b.name))
    fun a _ b _ => rfl
  exact congrArg (fun fields => ObjectShape.mk fields (o.stringIndex.map f)) hsorted.symm

@[simp] theorem isEmpty_mapIds : (o.mapIds f).isEmpty = o.isEmpty := by
  simp [isEmpty, mapIds]

end ObjectShape

namespace Node

variable (f : TypeId → TypeId) (n : Node)

theorem identity_mapIds : (n.mapIds f).identity = n.identity.mapIds f := by
  cases n with
  | object shape => exact congrArg Node.object (shape.sorted_mapIds f)
  | _ => rfl

theorem components_mapIds : (n.mapIds f).components = n.components.map f := by
  cases n with
  | object shape =>
      simp [mapIds, components, ObjectShape.mapIds, Field.mapIds, Function.comp_def,
        Option.toList_map]
  | mapped m => simp [mapIds, components, Mapped.mapIds, Option.toList_map]
  | param info => simp [mapIds, components, TypeParam.mapIds, Option.toList_map]
  | template spans =>
      simp only [mapIds, components, List.filterMap_map, List.map_filterMap]
      refine List.filterMap_congr fun x _ => ?_
      cases x <;> rfl
  | _ => simp [mapIds, components, Conditional.mapIds, FunctionShape.mapIds]

theorem scopes_mapIds : (n.mapIds f).scopes = n.scopes.map fun x => (x.1, f x.2) := by
  cases n with
  | conditional c => rfl
  | mapped m => simp [mapIds, scopes, Mapped.mapIds, Function.comp_def, Option.toList_map]
  | param info => rfl
  | error | intrinsic | literal => rfl
  | _ =>
      simp only [mapIds, scopes]
      rw [← mapIds, components_mapIds]
      simp [Function.comp_def]

@[simp] theorem isMeta_mapIds : (n.mapIds f).isMeta = n.isMeta := by
  cases n <;> rfl

@[simp] theorem isCompound_mapIds : (n.mapIds f).isCompound = n.isCompound := by
  cases n <;> rfl

@[simp] theorem unionMembers?_mapIds :
    (n.mapIds f).unionMembers? = n.unionMembers?.map (·.map f) := by
  cases n <;> rfl

@[simp] theorem intersectionMembers?_mapIds :
    (n.mapIds f).intersectionMembers? = n.intersectionMembers?.map (·.map f) := by
  cases n <;> rfl

end Node

end TypeResolution
