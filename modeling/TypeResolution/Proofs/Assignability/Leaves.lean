import Mathlib.Logic.Relation
import TypeResolution.Proofs.Assignability.Rules
import TypeResolution.Proofs.Store.Formed

/-!
Types taken apart: through unions and aliases every type comes down to leaves. Two types are
compatible when each leaf of the first fits some leaf of the second, and similar when their leaves
match up to components that are similar again. Which of two similar types is compared does not
matter.
-/

namespace TypeResolution

namespace Node

def isBasic : Node → Bool
  | .intrinsic _ | .literal _ => true
  | _ => false

/-- Nodes that are not taken apart. `never` has no part, and `boolean` has two. -/
def isAtom : Node → Bool
  | .intrinsic kind => kind ≠ .never && kind ≠ .boolean
  | .literal _ | .object _ | .function _ | .array _ => true
  | _ => false

end Node

namespace ObjectShape

/-- No two fields have the same name. -/
def Distinct (o : ObjectShape) : Prop := (o.fields.map (·.name)).Nodup

theorem name_of_find? {o : ObjectShape} {name : String} {f : Field} (h : o.find? name = some f) :
    f.name = name := by
  simpa using List.find?_some h

theorem mem_of_find? {o : ObjectShape} {name : String} {f : Field} (h : o.find? name = some f) :
    f ∈ o.fields :=
  List.mem_of_find?_eq_some h

theorem Distinct.find? {o : ObjectShape} {f : Field} (ho : o.Distinct) (hf : f ∈ o.fields) :
    o.find? f.name = some f := by
  unfold Distinct at ho
  unfold ObjectShape.find?
  generalize o.fields = fields at ho hf
  induction fields with
  | nil => cases hf
  | cons g rest ih =>
      simp only [List.map_cons, List.nodup_cons, List.mem_map, not_exists, not_and] at ho
      rcases List.mem_cons.mp hf with rfl | hf
      · simp
      · rw [List.find?_cons_of_neg (by simpa using (ho.1 f hf).imp Eq.symm)]
        exact ih ho.2 hf

end ObjectShape

namespace Assignability

open Store

/-- One step of taking a type apart. -/
inductive Opens (s : Store) (env : Environment) : TypeId → TypeId → Prop
  | member {t m : TypeId} {ms : List TypeId} : s.node t = .union ms → m ∈ ms → Opens s env t m
  | body {t : TypeId} {name : String} {args : List TypeId} {a : Alias} :
      s.node t = .reference name args → env.get? name = some a → Opens s env t a.body

/-- What a type comes down to. -/
inductive Leaf (s : Store) (env : Environment) : TypeId → TypeId → Prop
  | atom {t : TypeId} : (s.node t).isAtom → Leaf s env t t
  | boolean (b : Bool) : Leaf s env .boolean (.ofBool b)
  | opens {t u x : TypeId} : Opens s env t u → Leaf s env u x → Leaf s env t x

section leaves

variable {s : Store} {env : Environment} {t u x : TypeId}

theorem isAtom_intrinsic (hs : s.Formed) (k : Intrinsic) (hk : k ≠ .never ∧ k ≠ .boolean) :
    (s.node k.typeId).isAtom := by
  rw [hs.node_intrinsic]
  simp [Node.isAtom, hk]

theorem eq_ofBool (hs : s.Formed) {b : Bool} (h : s.node t = .literal (.boolean b)) :
    t = .ofBool b := by
  have ht : t.index < s.size := known_of_node h (by simp)
  exact hs.eq_of_node_eq ht (hs.known_of_isFixed (by cases b <;> rfl)) (h.trans (hs.node_ofBool b).symm)

theorem Leaf.isAtom (hs : s.Formed) (h : Leaf s env t x) : (s.node x).isAtom := by
  induction h with
  | atom h => exact h
  | boolean b =>
      rw [hs.node_ofBool]
      rfl
  | opens _ _ ih => exact ih

theorem not_opens_of_isAtom (h : (s.node t).isAtom) : ¬Opens s env t u := by
  intro ho
  cases ho with
  | member hn _ => simp [hn, Node.isAtom] at h
  | body hn _ => simp [hn, Node.isAtom] at h

theorem not_opens_of_isBasic (h : (s.node t).isBasic) : ¬Opens s env t u := by
  intro ho
  cases ho with
  | member hn _ => simp [hn, Node.isBasic] at h
  | body hn _ => simp [hn, Node.isBasic] at h

theorem leaf_atom_iff (hs : s.Formed) (h : (s.node t).isAtom) : Leaf s env t x ↔ x = t := by
  constructor
  · intro hx
    cases hx with
    | atom _ => rfl
    | boolean b =>
        have hn : s.node .boolean = .intrinsic .boolean := hs.node_intrinsic .boolean
        simp [hn, Node.isAtom] at h
    | opens ho _ => exact absurd ho (not_opens_of_isAtom h)
  · rintro rfl
    exact .atom h

theorem leaf_boolean_iff (hs : s.Formed) : Leaf s env .boolean x ↔ ∃ b, x = .ofBool b := by
  have hn : s.node .boolean = .intrinsic .boolean := hs.node_intrinsic .boolean
  constructor
  · intro hx
    cases hx with
    | atom h => simp [hn, Node.isAtom] at h
    | boolean b => exact ⟨b, rfl⟩
    | opens ho _ => exact absurd ho (not_opens_of_isBasic (by rw [hn]; rfl))
  · rintro ⟨b, rfl⟩
    exact .boolean b

theorem not_leaf_never (hs : s.Formed) : ¬Leaf s env .never x := by
  have hn : s.node .never = .intrinsic .never := hs.node_intrinsic .never
  intro hx
  cases hx with
  | atom h => simp [hn, Node.isAtom] at h
  | opens ho _ => exact not_opens_of_isBasic (by rw [hn]; rfl) ho

theorem leaf_union_iff {ms : List TypeId} (hs : s.Formed) (h : s.node t = .union ms) :
    Leaf s env t x ↔ ∃ m ∈ ms, Leaf s env m x := by
  constructor
  · intro hx
    cases hx with
    | atom ha => simp [h, Node.isAtom] at ha
    | boolean b => cases h.symm.trans (hs.node_intrinsic .boolean)
    | opens ho hx =>
        cases ho with
        | member hn hm =>
            cases h.symm.trans hn
            exact ⟨_, hm, hx⟩
        | body hn _ => cases h.symm.trans hn
  · rintro ⟨m, hm, hx⟩
    exact .opens (.member h hm) hx

theorem leaf_reference_iff {name : String} {args : List TypeId} {a : Alias} (hs : s.Formed)
    (h : s.node t = .reference name args) (ha : env.get? name = some a) :
    Leaf s env t x ↔ Leaf s env a.body x := by
  constructor
  · intro hx
    cases hx with
    | atom hatom => simp [h, Node.isAtom] at hatom
    | boolean b => cases h.symm.trans (hs.node_intrinsic .boolean)
    | opens ho hx =>
        cases ho with
        | member hn hm => cases h.symm.trans hn
        | body hn hb =>
            cases h.symm.trans hn
            cases ha.symm.trans hb
            exact hx
  · exact .opens (.body h ha)

end leaves

structure FieldMatches (E : Relation) (f g : Field) : Prop where
  optional : f.optional = g.optional
  type : E f.type g.type

structure ObjectMatches (E : Relation) (o p : ObjectShape) : Prop where
  distinct : o.Distinct
  distinct' : p.Distinct
  fields : ∀ name, Option.Rel (FieldMatches E) (o.find? name) (p.find? name)
  index : Option.Rel E o.stringIndex p.stringIndex

structure FunctionMatches (E : Relation) (f g : FunctionShape) : Prop where
  params : List.Forall₂ E f.params g.params
  result : E f.result g.result
  void : f.result = .void ↔ g.result = .void

/-- Two leaves with the same outside, each in its own store, whose components are related. -/
inductive Matches (s s' : Store) (E : Relation) : TypeId → TypeId → Prop
  | basic {x : TypeId} : (s.node x).isBasic → s'.node x = s.node x → Matches s s' E x x
  | object {x y : TypeId} {o p : ObjectShape} : s.node x = .object o → s'.node y = .object p →
      ObjectMatches E o p → Matches s s' E x y
  | function {x y : TypeId} {f g : FunctionShape} : s.node x = .function f →
      s'.node y = .function g → FunctionMatches E f g → Matches s s' E x y
  | array {x y c d : TypeId} : s.node x = .array c → s'.node y = .array d → E c d →
      Matches s s' E x y

section matching

variable {s s' : Store} {E E' : Relation} {x y : TypeId}

theorem rel_flip {α β : Type} {r : α → β → Prop} {o : Option α} {p : Option β}
    (h : Option.Rel r o p) : Option.Rel (flip r) p o := by
  cases h with
  | some hab => exact .some hab
  | none => exact .none

theorem rel_imp {α β : Type} {r r' : α → β → Prop} (h : ∀ a b, r a b → r' a b) {o : Option α}
    {p : Option β} (hop : Option.Rel r o p) : Option.Rel r' o p := by
  cases hop with
  | some hab => exact .some (h _ _ hab)
  | none => exact .none

theorem ObjectMatches.flip {o p : ObjectShape} (h : ObjectMatches E o p) :
    ObjectMatches (flip E) p o where
  distinct := h.distinct'
  distinct' := h.distinct
  fields name := rel_imp (fun _ _ hfg => ⟨hfg.optional.symm, hfg.type⟩) (rel_flip (h.fields name))
  index := rel_flip h.index

theorem FunctionMatches.flip {f g : FunctionShape} (h : FunctionMatches E f g) :
    FunctionMatches (flip E) g f :=
  ⟨h.params.flip, h.result, h.void.symm⟩

theorem Matches.flip (h : Matches s s' E x y) : Matches s' s (flip E) y x := by
  cases h with
  | basic hb hn => exact .basic (hn ▸ hb) hn.symm
  | object hx hy hm => exact .object hy hx hm.flip
  | function hx hy hm => exact .function hy hx hm.flip
  | array hx hy hm => exact .array hy hx hm

theorem Matches.mono (hE : ∀ a b, E a b → E' a b) (h : Matches s s' E x y) : Matches s s' E' x y := by
  cases h with
  | basic hb hn => exact .basic hb hn
  | object hx hy hm =>
      exact .object hx hy ⟨hm.distinct, hm.distinct', fun name =>
        rel_imp (fun _ _ hfg => ⟨hfg.optional, hE _ _ hfg.type⟩) (hm.fields name),
        rel_imp hE hm.index⟩
  | function hx hy hm =>
      exact .function hx hy ⟨hm.params.imp hE, hE _ _ hm.result, hm.void⟩
  | array hx hy hm => exact .array hx hy (hE _ _ hm)

theorem Matches.eq_of_isBasic (h : Matches s s' E x y) (hb : (s.node x).isBasic) :
    y = x ∧ s'.node y = s.node x := by
  cases h with
  | basic _ hn => exact ⟨rfl, hn⟩
  | object hx => simp [hx, Node.isBasic] at hb
  | function hx => simp [hx, Node.isBasic] at hb
  | array hx => simp [hx, Node.isBasic] at hb

end matching

/-- How a leaf fits another one. Basic types fit themselves; whether other types do is left to
their components. -/
inductive LeafFits (Γ : Context) (R : Relation) (x y : TypeId) : Prop
  | top : y = .unknown ∨ y = .any → LeafFits Γ R x y
  | any : x = .any → LeafFits Γ R x y
  | basic : x = y → (Γ.store.node x).isBasic → LeafFits Γ R x y
  | shape : ShapeFits Γ R x y (Γ.store.node x) (Γ.store.node y) → LeafFits Γ R x y

section transport

variable {Γ Γ' : Context} {R R' E : Relation}

theorem ObjectMatches.isEmpty_eq {o p : ObjectShape} (h : ObjectMatches E o p) :
    p.isEmpty = o.isEmpty := by
  have hfields : ∀ {E : Relation} {o p : ObjectShape}, ObjectMatches E o p →
      o.fields = [] → p.fields = [] := by
    intro E o p h ho
    refine List.eq_nil_iff_forall_not_mem.mpr fun g hg => ?_
    have hrel := h.fields g.name
    rw [h.distinct'.find? hg] at hrel
    cases hf : o.find? g.name with
    | none =>
        rw [hf] at hrel
        cases hrel
    | some f =>
        have hmem := ObjectShape.mem_of_find? hf
        rw [ho] at hmem
        cases hmem
  have hindex : p.stringIndex.isNone = o.stringIndex.isNone := by
    have hrel := h.index
    generalize o.stringIndex = i at hrel
    generalize p.stringIndex = j at hrel
    cases hrel <;> rfl
  have hlist : p.fields.isEmpty = o.fields.isEmpty := by
    rw [Bool.eq_iff_iff, List.isEmpty_iff, List.isEmpty_iff]
    exact ⟨hfields h.flip, hfields h⟩
  rw [ObjectShape.isEmpty, ObjectShape.isEmpty, hlist, hindex]

theorem Matches.isEmptyObject_eq {s s' : Store} {x y : TypeId} (h : Matches s s' E x y) :
    s'.isEmptyObject y = s.isEmptyObject x := by
  unfold Store.isEmptyObject Store.objectShape?
  cases h with
  | basic hb hn => rw [hn]
  | object hx hy hm =>
      rw [hx, hy]
      exact hm.isEmpty_eq
  | function hx hy hm => rw [hx, hy]
  | array hx hy hm => rw [hx, hy]

/-- Relations that agree on related pairs. -/
def Carries (E R R' : Relation) : Prop := ∀ a a' b b', E a a' → E b b' → R a b → R' a' b'

theorem FieldFits.transport (hR : Carries E R R') {o o' : ObjectShape} {f f' : Field}
    (ho : ObjectMatches E o o') (hname : f'.name = f.name) (hf : FieldMatches E f f')
    (h : FieldFits R o f) : FieldFits R' o' f' := by
  have hrel := ho.fields f.name
  unfold FieldFits at h ⊢
  rw [hname]
  cases hg : o.find? f.name with
  | none =>
      rw [hg] at h hrel
      cases hg' : o'.find? f.name with
      | none =>
          have hoptional : f.optional = true := h
          change f'.optional = true
          rw [← hf.optional]
          exact hoptional
      | some g' =>
          rw [hg'] at hrel
          cases hrel
  | some g =>
      rw [hg] at h hrel
      cases hg' : o'.find? f.name with
      | none =>
          rw [hg'] at hrel
          cases hrel
      | some g' =>
          rw [hg'] at hrel
          cases hrel with
          | some hgg =>
              refine ⟨fun hopt => ?_, hR _ _ _ _ hgg.type hf.type h.2⟩
              rw [← hf.optional]
              exact h.1 (hgg.optional.trans hopt)

theorem ObjectMatches.find?_left {o o' : ObjectShape} (h : ObjectMatches E o o') {g' : Field}
    (hg : g' ∈ o'.fields) : ∃ g ∈ o.fields, g'.name = g.name ∧ FieldMatches E g g' := by
  have hrel := h.fields g'.name
  rw [h.distinct'.find? hg] at hrel
  cases hf : o.find? g'.name with
  | none =>
      rw [hf] at hrel
      cases hrel
  | some g =>
      rw [hf] at hrel
      cases hrel with
      | some hgg => exact ⟨g, ObjectShape.mem_of_find? hf, (ObjectShape.name_of_find? hf).symm, hgg⟩

theorem ObjectFits.transport (hexcess : Γ'.excess = Γ.excess) (hR : Carries E R R')
    {o o' p p' : ObjectShape} (ho : ObjectMatches E o o') (hp : ObjectMatches E p p')
    (h : ObjectFits Γ R o p) : ObjectFits Γ' R' o' p' where
  fields f' hf' := by
    obtain ⟨f, hf, hname, hff⟩ := hp.find?_left hf'
    exact (h.fields f hf).transport hR ho hname hff
  index t' ht' := by
    have hrel := hp.index
    rw [ht'] at hrel
    generalize ht : p.stringIndex = i at hrel
    cases hrel with
    | @some t _ htt =>
        have hi := h.index t ht
        refine ⟨fun g' hg' => ?_, fun u' hu' => ?_⟩
        · obtain ⟨g, hg, -, hgg⟩ := ho.find?_left hg'
          exact hR _ _ _ _ hgg.type htt (hi.fields g hg)
        · have hrel := ho.index
          rw [hu'] at hrel
          generalize hu : o.stringIndex = j at hrel
          cases hrel with
          | some huu => exact hR _ _ _ _ huu htt (hi.index _ hu)
  excess hnone hexcess' g' hg' := by
    obtain ⟨g, hg, hname, -⟩ := ho.find?_left hg'
    have hrel := hp.index
    rw [hnone] at hrel
    generalize hi : p.stringIndex = i at hrel
    cases hrel
    have hsome := h.excess hi (hexcess ▸ hexcess') g hg
    rw [hname]
    have hrel := hp.fields g.name
    revert hsome
    generalize p.find? g.name = a at hrel
    generalize p'.find? g.name = b at hrel
    cases hrel <;> simp

theorem FunctionFits.transport (hR : Carries E R R') {f f' g g' : FunctionShape}
    (hf : FunctionMatches E f f') (hg : FunctionMatches E g g') (h : FunctionFits R f g) :
    FunctionFits R' f' g' where
  length_le := by
    rw [← hf.params.length_eq, ← hg.params.length_eq]
    exact h.length_le
  params := by
    have hparams := h.params
    have hfp := hf.params
    have hgp := hg.params
    generalize f.params = ps at hfp hparams
    generalize f'.params = ps' at hfp
    generalize g.params = qs at hgp hparams
    generalize g'.params = qs' at hgp
    induction hfp generalizing qs qs' with
    | nil => simp
    | cons hp _ ih =>
        cases hgp with
        | nil => simp
        | cons hq hqs =>
            simp only [List.zip_cons_cons, List.forall_mem_cons] at hparams ⊢
            exact ⟨hR _ _ _ _ hq hp hparams.1, ih _ hparams.2 _ hqs⟩
  result := h.result.imp hg.void.mp (hR _ _ _ _ hf.result hg.result)

theorem Matches.fitsEmptyObject {a a' y y' : TypeId} (h : Matches Γ.store Γ'.store E y y')
    (hnullish : a'.isNullish = a.isNullish) (hunknown : a' = .unknown → a = .unknown)
    (hfits : FitsEmptyObject Γ a y) : FitsEmptyObject Γ' a' y' :=
  ⟨h.isEmptyObject_eq.trans hfits.1, hnullish.trans hfits.2.1, fun he => hfits.2.2 (hunknown he)⟩

/-- Objects, functions and arrays are none of the fixed types. -/
theorem not_isFixed_of_components {s : Store} (hs : s.Formed) {t : TypeId}
    (h : (s.node t).isAtom) (hb : (s.node t).isBasic = false) : t.isFixed = false := by
  by_contra hfixed
  obtain ⟨i⟩ := t
  have hfixed : (⟨i⟩ : TypeId).isFixed = true := by simpa using hfixed
  have hi : i < TypeId.fixedCount := by simpa [TypeId.isFixed] using hfixed
  rw [hs.node_fixed hi] at h hb
  have hi : i < 12 := hi
  interval_cases i <;> simp [Node.fixed, Node.isBasic, Node.isAtom] at h hb

variable (hΓ : Γ.store.Formed) (hΓ' : Γ'.store.Formed)

include hΓ hΓ'

theorem Matches.eq_fixed_iff {x x' t : TypeId} (h : Matches Γ.store Γ'.store E x x')
    (ht : t.isFixed) : x' = t ↔ x = t := by
  have hcompound : ∀ {s : Store} {y : TypeId}, s.Formed → (s.node y).isAtom →
      (s.node y).isBasic = false → y ≠ t := by
    rintro s y hs ha hb rfl
    simp [not_isFixed_of_components hs ha hb] at ht
  cases h with
  | basic => rfl
  | object hx hy hm =>
      exact iff_of_false (hcompound hΓ' (by rw [hy]; rfl) (by rw [hy]; rfl))
        (hcompound hΓ (by rw [hx]; rfl) (by rw [hx]; rfl))
  | function hx hy hm =>
      exact iff_of_false (hcompound hΓ' (by rw [hy]; rfl) (by rw [hy]; rfl))
        (hcompound hΓ (by rw [hx]; rfl) (by rw [hx]; rfl))
  | array hx hy hm =>
      exact iff_of_false (hcompound hΓ' (by rw [hy]; rfl) (by rw [hy]; rfl))
        (hcompound hΓ (by rw [hx]; rfl) (by rw [hx]; rfl))

theorem Matches.isNullish_eq {x x' : TypeId} (h : Matches Γ.store Γ'.store E x x') :
    x'.isNullish = x.isNullish := by
  simp only [TypeId.isNullish, h.eq_fixed_iff hΓ hΓ' (t := .null) rfl,
    h.eq_fixed_iff hΓ hΓ' (t := .undefined) rfl, h.eq_fixed_iff hΓ hΓ' (t := .void) rfl]

theorem ShapeFits.transport (hexcess : Γ'.excess = Γ.excess) (hR : Carries E R R')
    {x x' y y' : TypeId} (hx : Matches Γ.store Γ'.store E x x')
    (hy : Matches Γ.store Γ'.store E y y')
    (h : ShapeFits Γ R x y (Γ.store.node x) (Γ.store.node y)) :
    ShapeFits Γ' R' x' y' (Γ'.store.node x') (Γ'.store.node y') := by
  have hempty : FitsEmptyObject Γ x y → FitsEmptyObject Γ' x' y' :=
    hy.fitsEmptyObject (hx.isNullish_eq hΓ hΓ') (hx.eq_fixed_iff hΓ hΓ' rfl).mp
  cases hx with
  | basic hb hnode =>
      rw [hnode]
      generalize Γ.store.node x = m at h hb
      generalize hn : Γ.store.node y = n at h
      cases h with
      | @literal v _ hv =>
          exact .literal ((hy.eq_fixed_iff hΓ hΓ' (by cases v <;> rfl)).mpr hv.symm).symm
      | text _ =>
          cases hy with
          | basic hb _ => simp [hn, Node.isBasic] at hb
          | object hy _ _ | function hy _ _ | array hy _ _ => cases hn.symm.trans hy
      | literalInEmpty he => exact .literalInEmpty (hempty he)
      | undefined hv => exact .undefined ((hy.eq_fixed_iff hΓ hΓ' rfl).mpr hv)
      | intrinsicInEmpty he => exact .intrinsicInEmpty (hempty he)
      | template _ | constraint _ _ _ | object _ | function _ | functionInEmpty _ | array _
      | arrayInEmpty _ => cases hb
  | object hxo hxo' ho =>
      rw [hxo] at h
      rw [hxo']
      generalize hn : Γ.store.node y = n at h
      cases h with
      | object hfits =>
          cases hy with
          | basic hb _ => simp [hn, Node.isBasic] at hb
          | object hyo hyo' hp =>
              cases hn.symm.trans hyo
              rw [hyo']
              exact .object (hfits.transport hexcess hR ho hp)
          | function hy _ _ | array hy _ _ => cases hn.symm.trans hy
  | function hxf hxf' hf =>
      rw [hxf] at h
      rw [hxf']
      generalize hn : Γ.store.node y = n at h
      cases h with
      | function hfits =>
          cases hy with
          | basic hb _ => simp [hn, Node.isBasic] at hb
          | function hyf hyf' hg =>
              cases hn.symm.trans hyf
              rw [hyf']
              exact .function (hfits.transport hR hf hg)
          | object hy _ _ | array hy _ _ => cases hn.symm.trans hy
      | functionInEmpty he => exact .functionInEmpty (hempty he)
  | array hxc hxc' hc =>
      rw [hxc] at h
      rw [hxc']
      generalize hn : Γ.store.node y = n at h
      cases h with
      | array hfits =>
          cases hy with
          | basic hb _ => simp [hn, Node.isBasic] at hb
          | array hyc hyc' hd =>
              cases hn.symm.trans hyc
              rw [hyc']
              exact .array (hR _ _ _ _ hc hd hfits)
          | object hy _ _ | function hy _ _ => cases hn.symm.trans hy
      | arrayInEmpty he => exact .arrayInEmpty (hempty he)

theorem LeafFits.transport (hexcess : Γ'.excess = Γ.excess) (hR : Carries E R R')
    {x x' y y' : TypeId} (hx : Matches Γ.store Γ'.store E x x')
    (hy : Matches Γ.store Γ'.store E y y') (h : LeafFits Γ R x y) : LeafFits Γ' R' x' y' := by
  cases h with
  | top hy' =>
      exact .top (hy'.imp (hy.eq_fixed_iff hΓ hΓ' rfl).mpr (hy.eq_fixed_iff hΓ hΓ' rfl).mpr)
  | any hx' => exact .any ((hx.eq_fixed_iff hΓ hΓ' rfl).mpr hx')
  | basic he hb =>
      subst he
      obtain ⟨rfl, hn⟩ := hx.eq_of_isBasic hb
      obtain ⟨rfl, -⟩ := hy.eq_of_isBasic hb
      exact .basic rfl (hn ▸ hb)
  | shape h => exact .shape (h.transport hΓ hΓ' hexcess hR hx hy)

end transport

/-- What a leaf can become when the union that it belongs to is simplified. -/
inductive Covers (s : Store) (E : Relation) (x x' : TypeId) : Prop
  | same : Matches s s E x x' → Covers s E x x'
  | widened {v : Literal} : s.node x = .literal v → x' = v.primitive → Covers s E x x'
  | unknown : x' = .unknown → Covers s E x x'

/-- The leaves of the second type are leaves of the first one and cover all of them. -/
structure LeavesAgree (s : Store) (env : Environment) (E : Relation) (t t' : TypeId) : Prop where
  forth : ∀ x, Leaf s env t x → ∃ x', Leaf s env t' x' ∧ Covers s E x x'
  back : ∀ x', Leaf s env t' x' → ∃ x, Leaf s env t x ∧ Matches s s E x x'

/-- The greatest relation between types whose leaves agree. -/
def Similar (s : Store) (env : Environment) (t t' : TypeId) : Prop :=
  ∃ E : Relation, E t t' ∧ ∀ a b, E a b → LeavesAgree s env E a b

/-- Each leaf of the source fits a leaf of the target. -/
def LeavesFit (Γ : Context) (env : Environment) (R : Relation) (a b : TypeId) : Prop :=
  ∀ x, Leaf Γ.store env a x → ∃ y, Leaf Γ.store env b y ∧ LeafFits Γ R x y

/-- The greatest relation between types whose leaves fit. -/
def Compatible (Γ : Context) (env : Environment) (a b : TypeId) : Prop :=
  ∃ R : Relation, R a b ∧ ∀ x y, R x y → LeavesFit Γ env R x y

section similar

variable {s : Store} {env : Environment} {E E' : Relation} {t t' x x' : TypeId}

theorem Covers.mono (hE : ∀ a b, E a b → E' a b) (h : Covers s E x x') : Covers s E' x x' := by
  cases h with
  | same h => exact .same (h.mono hE)
  | widened hn hx => exact .widened hn hx
  | unknown hx => exact .unknown hx

theorem LeavesAgree.mono (hE : ∀ a b, E a b → E' a b) (h : LeavesAgree s env E t t') :
    LeavesAgree s env E' t t' where
  forth x hx := by
    obtain ⟨x', hx', hc⟩ := h.forth x hx
    exact ⟨x', hx', hc.mono hE⟩
  back x' hx' := by
    obtain ⟨x, hx, hm⟩ := h.back x' hx'
    exact ⟨x, hx, hm.mono hE⟩

theorem Similar.leaves (h : Similar s env t t') : LeavesAgree s env (Similar s env) t t' := by
  obtain ⟨E, ht, hE⟩ := h
  exact (hE t t' ht).mono fun a b hab => ⟨E, hab, hE⟩

theorem similar_of_leaves (h : LeavesAgree s env (Similar s env) t t') : Similar s env t t' := by
  refine ⟨fun a b => Similar s env a b ∨ (a = t ∧ b = t'), .inr ⟨rfl, rfl⟩, ?_⟩
  rintro a b (hab | ⟨rfl, rfl⟩)
  · exact hab.leaves.mono fun _ _ => .inl
  · exact h.mono fun _ _ => .inl

/-- Only the leaves of a type matter. -/
theorem Similar.congr_left {u : TypeId} (h : Similar s env t t')
    (hleaf : ∀ x, Leaf s env u x ↔ Leaf s env t x) : Similar s env u t' := by
  refine similar_of_leaves ⟨fun x hx => h.leaves.forth x ((hleaf x).mp hx), fun x' hx' => ?_⟩
  obtain ⟨x, hx, hm⟩ := h.leaves.back x' hx'
  exact ⟨x, (hleaf x).mpr hx, hm⟩

end similar

section compatible

variable {Γ : Context} {env : Environment} {R R' E : Relation} {a a' b b' x x' y y' : TypeId}

theorem LeafFits.mono (hR : ∀ u v, R u v → R' u v) (h : LeafFits Γ R x y) : LeafFits Γ R' x y := by
  cases h with
  | top hy => exact .top hy
  | any hx => exact .any hx
  | basic he hb => exact .basic he hb
  | shape h => exact .shape (h.mono hR)

theorem Compatible.leaves (h : Compatible Γ env a b) : LeavesFit Γ env (Compatible Γ env) a b := by
  obtain ⟨R, hab, hR⟩ := h
  intro x hx
  obtain ⟨y, hy, hfits⟩ := hR a b hab x hx
  exact ⟨y, hy, hfits.mono fun u v huv => ⟨R, huv, hR⟩⟩

theorem compatible_of_leaves (h : LeavesFit Γ env (Compatible Γ env) a b) : Compatible Γ env a b := by
  refine ⟨fun u v => Compatible Γ env u v ∨ (u = a ∧ v = b), .inr ⟨rfl, rfl⟩, fun u v huv x hx => ?_⟩
  have hleaves : LeavesFit Γ env (Compatible Γ env) u v := by
    rcases huv with huv | ⟨rfl, rfl⟩
    · exact huv.leaves
    · exact h
  obtain ⟨y, hy, hfits⟩ := hleaves x hx
  exact ⟨y, hy, hfits.mono fun _ _ => .inl⟩

theorem ShapeFits.fitsEmptyObject {k : Intrinsic} {n : Node} (hk : k ≠ .undefined)
    (h : ShapeFits Γ R x y (.intrinsic k) n) : FitsEmptyObject Γ x y := by
  cases h with
  | undefined _ => exact absurd rfl hk
  | intrinsicInEmpty he => exact he

variable (hΓ : Γ.store.Formed)

include hΓ

/-- Literals fit the empty object type. -/
theorem fitsEmptyObject_literal {v : Literal} (hn : Γ.store.node x = .literal v)
    (h : Γ.store.isEmptyObject y) : FitsEmptyObject Γ x y := by
  have hne : ∀ k : Intrinsic, x ≠ k.typeId := by
    rintro k rfl
    cases hn.symm.trans (hΓ.node_intrinsic k)
  refine ⟨h, ?_, hne .unknown⟩
  simp only [TypeId.isNullish, Bool.or_eq_false_iff, decide_eq_false_iff_not]
  exact ⟨⟨hne .null, hne .undefined⟩, hne .void⟩

/-- Only a literal itself fits a literal. -/
theorem not_shapeFits_literal {v : Literal} (hx : (Γ.store.node x).isAtom)
    (hn : Γ.store.node y = .literal v) :
    ¬ShapeFits Γ R x y (Γ.store.node x) (Γ.store.node y) := by
  have hempty : ¬FitsEmptyObject Γ x y := fun h => by
    simp [FitsEmptyObject, Store.isEmptyObject, Store.objectShape?, hn] at h
  rw [hn]
  generalize Γ.store.node x = m at hx
  intro h
  cases h with
  | @literal w _ hw =>
      obtain ⟨k, -, hk⟩ := hΓ.node_primitive w
      rw [hw, hn] at hk
      cases hk
  | literalInEmpty he | intrinsicInEmpty he | functionInEmpty he | arrayInEmpty he => exact hempty he
  | undefined hv =>
      subst hv
      cases hn.symm.trans (hΓ.node_intrinsic .void)
  | template _ | constraint _ _ _ => cases hx

theorem LeafFits.forth (hR : Carries E R R') (hatom : (Γ.store.node x).isAtom)
    (hx : Matches Γ.store Γ.store E x x') (hy : Covers Γ.store E y y') (h : LeafFits Γ R x y) :
    LeafFits Γ R' x' y' := by
  cases hy with
  | same hy => exact h.transport hΓ hΓ rfl hR hx hy
  | unknown hy => exact .top (.inl hy)
  | widened hn hy =>
      subst hy
      cases h with
      | top hy =>
          rcases hy with rfl | rfl
          · cases hn.symm.trans (hΓ.node_intrinsic .unknown)
          · cases hn.symm.trans (hΓ.node_intrinsic .any)
      | any he => exact .any ((hx.eq_fixed_iff hΓ hΓ rfl).mpr he)
      | basic he hb =>
          subst he
          obtain ⟨rfl, -⟩ := hx.eq_of_isBasic hb
          refine .shape ?_
          rw [hn]
          exact .literal rfl
      | shape h => exact absurd h (not_shapeFits_literal hΓ hatom hn)

/-- What a widened leaf fits, the leaf itself fits. -/
theorem LeafFits.back (hR : Carries (flip E) R R') (hx : Covers Γ.store E x x')
    (hy : Matches Γ.store Γ.store E y y') (h : LeafFits Γ R x' y') : LeafFits Γ R' x y := by
  have hfixed : ∀ {u}, u.isFixed → y' = u → y = u := fun hu he =>
    (hy.eq_fixed_iff hΓ hΓ hu).mp he
  have htop : y' = .unknown ∨ y' = .any → LeafFits Γ R' x y := fun he =>
    .top (he.imp (hfixed rfl) (hfixed rfl))
  cases hx with
  | same hx => exact h.transport hΓ hΓ rfl hR hx.flip hy.flip
  | @widened v hn hx =>
      subst hx
      obtain ⟨k, hkind, hk⟩ := hΓ.node_primitive v
      cases h with
      | top he => exact htop he
      | any he => cases v <;> cases he
      | basic he _ =>
          refine .shape ?_
          rw [hn]
          exact .literal (hfixed (by cases v <;> rfl) he.symm).symm
      | shape h =>
          rw [hk] at h
          have hempty := hy.isEmptyObject_eq.symm.trans (h.fitsEmptyObject hkind).1
          refine .shape ?_
          rw [hn]
          exact .literalInEmpty (fitsEmptyObject_literal hΓ hn hempty)
  | unknown hx =>
      subst hx
      cases h with
      | top he => exact htop he
      | any he => cases he
      | basic he _ => exact htop (.inl he.symm)
      | shape h =>
          have hn : Γ.store.node .unknown = .intrinsic .unknown := hΓ.node_intrinsic .unknown
          rw [hn] at h
          exact absurd rfl (h.fitsEmptyObject (by decide)).2.2

theorem LeavesFit.forth (hR : Carries E R R') (ha : LeavesAgree Γ.store env E a a')
    (hb : LeavesAgree Γ.store env E b b') (h : LeavesFit Γ env R a b) : LeavesFit Γ env R' a' b' := by
  intro x' hx'
  obtain ⟨x, hx, hxx⟩ := ha.back x' hx'
  obtain ⟨y, hy, hfits⟩ := h x hx
  obtain ⟨y', hy', hyy⟩ := hb.forth y hy
  exact ⟨y', hy', hfits.forth hΓ hR (hx.isAtom hΓ) hxx hyy⟩

theorem LeavesFit.back (hR : Carries (flip E) R R') (ha : LeavesAgree Γ.store env E a a')
    (hb : LeavesAgree Γ.store env E b b') (h : LeavesFit Γ env R a' b') : LeavesFit Γ env R' a b := by
  intro x hx
  obtain ⟨x', hx', hxx⟩ := ha.forth x hx
  obtain ⟨y', hy', hfits⟩ := h x' hx'
  obtain ⟨y, hy, hyy⟩ := hb.back y' hy'
  exact ⟨y, hy, hfits.back hΓ hR hxx hyy⟩

/-- Similar types are compatible with the same types. -/
theorem compatible_iff_of_similar (ha : Similar Γ.store env a a') (hb : Similar Γ.store env b b') :
    Compatible Γ env a b ↔ Compatible Γ env a' b' := by
  constructor
  · intro h
    refine ⟨fun u' v' => ∃ u v, Similar Γ.store env u u' ∧ Similar Γ.store env v v' ∧
      Compatible Γ env u v, ⟨a, b, ha, hb, h⟩, ?_⟩
    rintro u' v' ⟨u, v, hu, hv, huv⟩
    exact huv.leaves.forth hΓ (fun c c' d d' hc hd hcd => ⟨c, d, hc, hd, hcd⟩) hu.leaves hv.leaves
  · intro h
    refine ⟨fun u v => ∃ u' v', Similar Γ.store env u u' ∧ Similar Γ.store env v v' ∧
      Compatible Γ env u' v', ⟨a', b', ha, hb, h⟩, ?_⟩
    rintro u v ⟨u', v', hu, hv, huv⟩
    exact huv.leaves.back hΓ (fun c' c d' d hc hd hcd => ⟨c', d', hc, hd, hcd⟩) hu.leaves hv.leaves

end compatible

end Assignability

end TypeResolution
