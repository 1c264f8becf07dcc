import TypeResolution.Assignability.Check

/-!
The rules of assignability, as a condition on pairs of types in which a relation answers for the
pairs that a rule asks about. Assignability is the greatest relation that obeys the rules. A pair
that obeys them while some pairs are taken for granted can be added to these.
-/

namespace TypeResolution

namespace Assignability

/-- A relation between types, source first. -/
abbrev Relation := TypeId → TypeId → Prop

/-- What the rules look at beside the two types. -/
structure Context where
  store : Store
  nested : Check.Nested
  excess : Bool

/-- What stands for a type in a comparison: types that mean something only after evaluation are
evaluated. -/
def Context.resolved (Γ : Context) (t : TypeId) : TypeId :=
  if (Γ.store.node t).isMeta then
    match (Γ.nested.evaluate t Γ.nested.start Γ.store).1.1 with
    | .ok u => u
    | .error _ => t
  else t

section rules

variable (Γ : Context) (R : Relation)

def FitsEmptyObject (a b : TypeId) : Prop :=
  Γ.store.isEmptyObject b ∧ a.isNullish = false ∧ a ≠ .unknown

def FieldFits (o : ObjectShape) (f : Field) : Prop :=
  match o.find? f.name with
  | some g => (g.optional → f.optional) ∧ R g.type f.type
  | none => f.optional

structure IndexFits (o : ObjectShape) (t : TypeId) : Prop where
  fields : ∀ g ∈ o.fields, R g.type t
  index : ∀ u, o.stringIndex = some u → R u t

/-- Every field of the target is met; then the index signature of the target takes all that the
source declares, or no field of the source may be left over. -/
structure ObjectFits (o p : ObjectShape) : Prop where
  fields : ∀ f ∈ p.fields, FieldFits R o f
  index : ∀ t, p.stringIndex = some t → IndexFits R o t
  excess : p.stringIndex = none → Γ.excess → ∀ g ∈ o.fields, (p.find? g.name).isSome

structure FunctionFits (f g : FunctionShape) : Prop where
  length_le : f.params.length ≤ g.params.length
  params : ∀ x ∈ f.params.zip g.params, R x.2 x.1
  result : g.result = .void ∨ R f.result g.result

/-- Two types that are neither unions nor intersections. -/
inductive ShapeFits (a b : TypeId) : Node → Node → Prop
  | literal {v : Literal} {n : Node} : v.primitive = b → ShapeFits a b (.literal v) n
  | text {text : String} {spans : List Span} : Template.describes Γ.store spans text →
      ShapeFits a b (.literal (.string text)) (.template spans)
  | literalInEmpty {v : Literal} {n : Node} : FitsEmptyObject Γ a b → ShapeFits a b (.literal v) n
  | undefined {n : Node} : b = .void → ShapeFits a b (.intrinsic .undefined) n
  | intrinsicInEmpty {k : Intrinsic} {n : Node} :
      FitsEmptyObject Γ a b → ShapeFits a b (.intrinsic k) n
  | template {spans : List Span} {n : Node} : b = .string → ShapeFits a b (.template spans) n
  | constraint {info : TypeParam} {c : TypeId} {n : Node} :
      info.constraint = some c → c ≠ .unknown → R c b → ShapeFits a b (.param info) n
  | object {o p : ObjectShape} : ObjectFits Γ R o p → ShapeFits a b (.object o) (.object p)
  | function {f g : FunctionShape} : FunctionFits R f g → ShapeFits a b (.function f) (.function g)
  | functionInEmpty {f : FunctionShape} {n : Node} :
      FitsEmptyObject Γ a b → ShapeFits a b (.function f) n
  | array {x y : TypeId} : R x y → ShapeFits a b (.array x) (.array y)
  | arrayInEmpty {x : TypeId} {n : Node} : FitsEmptyObject Γ a b → ShapeFits a b (.array x) n

/-- Two types that evaluation leaves as they are: a union on the left is split first, then a union
or an intersection on the right, then an intersection on the left. -/
def Fits (a b : TypeId) : Node → Node → Prop
  | .union members, _ => ∀ m ∈ members, R m b
  | .intrinsic .boolean, .union _ => R .trueLiteral b ∧ R .falseLiteral b
  | _, .union members => a ∈ members ∨ ∃ m ∈ members, R a m
  | _, .intersection members => ∀ m ∈ members, R a m
  | .intersection members, _ => ∃ m ∈ members, R m b
  | m, n => ShapeFits Γ R a b m n

/-- Two types of which at least one may have to be evaluated. -/
def Compares (a b : TypeId) : Prop :=
  if Γ.resolved a = a ∧ Γ.resolved b = b then Fits Γ R a b (Γ.store.node a) (Γ.store.node b)
  else R (Γ.resolved a) (Γ.resolved b)

/-- One unfolding of the rules for two different types. -/
inductive Unfolds (a b : TypeId) : Prop
  | top : b = .any ∨ b = .unknown ∨ b = .error → Unfolds a b
  | bottom : a = .never ∨ a = .error → Unfolds a b
  | any : b ≠ .never → a = .any → Unfolds a b
  | compare : b ≠ .never → Compares Γ R a b → Unfolds a b

/-- Each pair of the relation is one type twice or obeys the rules. -/
def Consistent : Prop := ∀ a b, R a b → a = b ∨ Unfolds Γ R a b

end rules

/-- The greatest relation that obeys the rules. -/
def Assignable (Γ : Context) (a b : TypeId) : Prop := ∃ R : Relation, R a b ∧ Consistent Γ R

section monotone

variable {Γ : Context} {R R' : Relation} {a b : TypeId} (h : ∀ x y, R x y → R' x y)

include h

theorem FieldFits.mono {o : ObjectShape} {f : Field} (hf : FieldFits R o f) : FieldFits R' o f := by
  unfold FieldFits at hf ⊢
  split
  · rename_i g hg
    rw [hg] at hf
    exact ⟨hf.1, h _ _ hf.2⟩
  · rename_i hg
    rw [hg] at hf
    exact hf

theorem IndexFits.mono {o : ObjectShape} {t : TypeId} (hi : IndexFits R o t) : IndexFits R' o t :=
  ⟨fun g hg => h _ _ (hi.fields g hg), fun u hu => h _ _ (hi.index u hu)⟩

theorem ObjectFits.mono {o p : ObjectShape} (ho : ObjectFits Γ R o p) : ObjectFits Γ R' o p where
  fields f hf := (ho.fields f hf).mono h
  index t ht := (ho.index t ht).mono h
  excess := ho.excess

theorem FunctionFits.mono {f g : FunctionShape} (hf : FunctionFits R f g) : FunctionFits R' f g where
  length_le := hf.length_le
  params x hx := h _ _ (hf.params x hx)
  result := hf.result.imp_right (h _ _)

theorem ShapeFits.mono {m n : Node} (hs : ShapeFits Γ R a b m n) : ShapeFits Γ R' a b m n := by
  cases hs with
  | literal hv => exact .literal hv
  | text ht => exact .text ht
  | literalInEmpty he => exact .literalInEmpty he
  | undefined hb => exact .undefined hb
  | intrinsicInEmpty he => exact .intrinsicInEmpty he
  | template hb => exact .template hb
  | constraint hc hne hr => exact .constraint hc hne (h _ _ hr)
  | object ho => exact .object (ho.mono h)
  | function hf => exact .function (hf.mono h)
  | functionInEmpty he => exact .functionInEmpty he
  | array hr => exact .array (h _ _ hr)
  | arrayInEmpty he => exact .arrayInEmpty he

theorem Fits.mono {m n : Node} (hf : Fits Γ R a b m n) : Fits Γ R' a b m n := by
  revert hf
  fun_cases Fits Γ R' a b m n with
  | case1 n members => exact fun hf m hm => h _ _ (hf m hm)
  | case2 members => exact fun hf => ⟨h _ _ hf.1, h _ _ hf.2⟩
  | case3 m members hunion hboolean =>
      rw [Fits.eq_3 _ _ _ _ _ _ hunion hboolean]
      exact Or.imp_right fun ⟨m, hm, hr⟩ => ⟨m, hm, h _ _ hr⟩
  | case4 m members hunion =>
      rw [Fits.eq_4 _ _ _ _ _ _ hunion]
      exact fun hf m hm => h _ _ (hf m hm)
  | case5 n members hunion hmeet =>
      rw [Fits.eq_5 _ _ _ _ _ _ hunion hmeet]
      exact fun ⟨m, hm, hr⟩ => ⟨m, hm, h _ _ hr⟩
  | case6 m n h₁ h₂ h₃ h₄ h₅ =>
      rw [Fits.eq_6 _ _ _ _ _ _ h₁ h₅ h₃ h₄ h₂]
      exact ShapeFits.mono h

theorem Compares.mono (hc : Compares Γ R a b) : Compares Γ R' a b := by
  unfold Compares at hc ⊢
  split
  · rename_i hsame
    rw [if_pos hsame] at hc
    exact hc.mono h
  · rename_i hsame
    rw [if_neg hsame] at hc
    exact h _ _ hc

theorem Unfolds.mono (hu : Unfolds Γ R a b) : Unfolds Γ R' a b := by
  cases hu with
  | top hb => exact .top hb
  | bottom ha => exact .bottom ha
  | any hb ha => exact .any hb ha
  | compare hb hc => exact .compare hb (hc.mono h)

end monotone

section coinduction

variable {Γ : Context} {A : List (TypeId × TypeId)} {a b : TypeId}

theorem Assignable.consistent : Consistent Γ (Assignable Γ) := by
  rintro a b ⟨R, hab, hR⟩
  exact (hR a b hab).imp_right (Unfolds.mono fun x y hxy => ⟨R, hxy, hR⟩)

/-- Obeys the rules when the pairs of `A` are taken for granted. -/
def Under (Γ : Context) (A : List (TypeId × TypeId)) (a b : TypeId) : Prop :=
  ∃ R : Relation, R a b ∧ ∀ x y, R x y → x = y ∨ Unfolds Γ (fun u v => R u v ∨ (u, v) ∈ A) x y

theorem under_refl (a : TypeId) : Under Γ A a a :=
  ⟨fun x y => x = y, rfl, fun _ _ h => .inl h⟩

theorem under_nil : Under Γ [] a b ↔ Assignable Γ a b := by
  constructor
  · rintro ⟨R, hab, hR⟩
    refine ⟨R, hab, fun x y hxy => (hR x y hxy).imp_right (Unfolds.mono ?_)⟩
    rintro u v (huv | huv)
    · exact huv
    · cases huv
  · rintro ⟨R, hab, hR⟩
    exact ⟨R, hab, fun x y hxy => (hR x y hxy).imp_right (Unfolds.mono fun u v => .inl)⟩

/-- A pair that unfolds under its own assumption needs that assumption no longer. -/
theorem Under.discharge
    (h : Unfolds Γ (fun x y => Under Γ ((a, b) :: A) x y ∨ (x, y) ∈ (a, b) :: A) a b) :
    Under Γ A a b := by
  let R : Relation := fun x y => (x, y) = (a, b) ∨ Under Γ ((a, b) :: A) x y
  have hassumed : ∀ u v, (u, v) ∈ (a, b) :: A → R u v ∨ (u, v) ∈ A := by
    intro u v huv
    rcases List.mem_cons.mp huv with huv | huv
    · exact .inl (.inl huv)
    · exact .inr huv
  refine ⟨R, .inl rfl, fun x y hxy => ?_⟩
  rcases hxy with hxy | ⟨R', hxy, hR'⟩
  · obtain ⟨rfl, rfl⟩ := Prod.mk.inj hxy
    refine .inr (h.mono fun u v huv => ?_)
    rcases huv with huv | huv
    · exact .inl (.inr huv)
    · exact hassumed u v huv
  · refine (hR' x y hxy).imp_right (Unfolds.mono fun u v huv => ?_)
    rcases huv with huv | huv
    · exact .inl (.inr ⟨R', huv, hR'⟩)
    · exact hassumed u v huv

/-- Obeys the rules as far as `depth` nested pairs can tell, when the pairs of `A` are taken for
granted. -/
def Within (Γ : Context) : Nat → List (TypeId × TypeId) → Relation
  | 0, _, a, b => a = b
  | depth + 1, A, a, b => a = b ∨ (a, b) ∈ A ∨ Unfolds Γ (Within Γ depth ((a, b) :: A)) a b

theorem Within.under {depth : Nat} (h : Within Γ depth A a b) : Under Γ A a b ∨ (a, b) ∈ A := by
  induction depth generalizing A a b with
  | zero =>
      obtain rfl : a = b := h
      exact .inl (under_refl a)
  | succ depth ih =>
      rcases h with rfl | h | h
      · exact .inl (under_refl a)
      · exact .inr h
      · exact .inl (.discharge (h.mono fun x y hxy => ih hxy))

theorem Within.assignable {depth : Nat} (h : Within Γ depth [] a b) : Assignable Γ a b :=
  under_nil.mp (h.under.resolve_right List.not_mem_nil)

end coinduction

end Assignability

end TypeResolution
