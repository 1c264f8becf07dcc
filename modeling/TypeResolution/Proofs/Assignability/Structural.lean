import TypeResolution.Proofs.Assignability.Regular
import TypeResolution.Proofs.Assignability.Resolving

/-!
On regular types assignability is compatibility, when evaluating a name gives what it stands for.
-/

namespace TypeResolution

namespace Assignability

open Store

/-- Evaluating a regular name gives what the name stands for. -/
def NamesResolve (Γ : Context) (env : Environment) (Q : TypeId → Prop) : Prop :=
  ∀ t name args, Regular Γ env Q t → Γ.store.node t = .reference name args →
    ∃ a, env.get? name = some a ∧ Becomes Γ env Q a.body (Γ.resolved t)

/-- A type that a comparison takes apart in finitely many steps. -/
inductive Settles (Γ : Context) (env : Environment) : TypeId → Prop
  | never : Settles Γ env .never
  | boolean : Settles Γ env .boolean
  | atom {t : TypeId} : (Γ.store.node t).isAtom → Settles Γ env t
  | union {t : TypeId} {ms : List TypeId} : Γ.store.node t = .union ms →
      (∀ m ∈ ms, Settles Γ env m) → Settles Γ env t
  | reference {t : TypeId} {name : String} {args : List TypeId} :
      Γ.store.node t = .reference name args → Settles Γ env (Γ.resolved t) → Settles Γ env t

section settles

variable {Γ : Context} {env : Environment} {Q : TypeId → Prop} {t : TypeId}

theorem Regular.head (h : Regular Γ env Q t) {y : TypeId} (hy : Head Γ.store t y) :
    Regular Γ env Q y := by
  induction hy with
  | self _ => exact h
  | member hn hm _ ih => exact ih (h.opens (.member hn hm))

variable (hΓ : Γ.store.Formed)

include hΓ

theorem Regular.settles_of_heads (h : Regular Γ env Q t)
    (hheads : ∀ y, Head Γ.store t y → Settles Γ env y) : Settles Γ env t := by
  -- components have smaller ids
  induction hi : t.index using Nat.strong_induction_on generalizing t with
  | _ i ih =>
      subst hi
      cases h.admits t .refl with
      | basic hb =>
          cases hn : Γ.store.node t with
          | intrinsic k =>
              obtain rfl := hΓ.eq_of_intrinsic h.known hn
              cases k with
              | never => exact .never
              | boolean => exact .boolean
              | _ => exact .atom (by rw [hn]; rfl)
          | literal v => exact .atom (by rw [hn]; rfl)
          | _ => simp [hn, Node.isBasic] at hb
      | object hn _ _ | function hn | array hn => exact .atom (by rw [hn]; rfl)
      | union hn _ _ =>
          refine .union hn fun m hm => ?_
          have hlt := hΓ.descends t h.known m (by rw [hn]; exact hm)
          exact ih m.index hlt (h.opens (.member hn hm)) (fun y hy => hheads y (.member hn hm hy)) rfl
      | reference hn _ _ _ _ => exact hheads t (.self hn)

theorem Regular.settles (hnames : NamesResolve Γ env Q) (h : Regular Γ env Q t) :
    Settles Γ env t := by
  have hacc := (h.grounded t .refl).transGen
  induction hacc with
  | intro t _ ih =>
      have hbelow : ∀ y, Regular Γ env Q y → Relation.TransGen (Opens Γ.store env) t y →
          Settles Γ env y := fun y hy hty => ih y (Relation.transGen_swap.mpr hty) hy
      refine h.settles_of_heads hΓ fun y hy => ?_
      have hopens : Relation.ReflTransGen (Opens Γ.store env) t y := hy.opens
      rcases Relation.reflTransGen_iff_eq_or_transGen.mp hopens with rfl | hlt
      · obtain ⟨name, args, hn⟩ := hy.node
        obtain ⟨a, ha, hbody⟩ := hnames y name args h hn
        refine .reference hn (hbody.regular.settles_of_heads hΓ fun z hz => ?_)
        exact hbelow z (hbody.regular.head hz) (.head' (.body hn ha) (hbody.heads z hz))
      · exact hbelow y (h.head hy) hlt

omit hΓ in
theorem Regular.resolved_ne (hnames : NamesResolve Γ env Q) (h : Regular Γ env Q t) {name : String}
    {args : List TypeId} (hn : Γ.store.node t = .reference name args) : Γ.resolved t ≠ t := by
  intro he
  obtain ⟨a, ha, hbody⟩ := hnames t name args h hn
  rw [he] at hbody
  exact h.not_opens_self (.head' (.body hn ha) (hbody.heads t (.self hn)))

omit hΓ in
theorem Regular.resolved_eq (h : Regular Γ env Q t)
    (hn : ∀ name args, Γ.store.node t ≠ .reference name args) : Γ.resolved t = t := by
  refine if_neg ?_
  cases h.admits t .refl with
  | basic hb =>
      generalize Γ.store.node t = n at hb
      cases n with
      | intrinsic _ | literal _ => exact Bool.false_ne_true
      | _ => cases hb
  | object hn' _ _ | function hn' | array hn' | union hn' _ _ =>
      rw [hn']
      exact Bool.false_ne_true
  | reference hn' _ _ _ _ => exact absurd hn' (hn _ _)

theorem Regular.becomes_resolved (hnames : NamesResolve Γ env Q) (h : Regular Γ env Q t) :
    Becomes Γ env Q t (Γ.resolved t) := by
  by_cases hn : ∃ name args, Γ.store.node t = .reference name args
  · obtain ⟨name, args, hn⟩ := hn
    obtain ⟨a, ha, hbody⟩ := hnames t name args h hn
    exact hbody.reference hΓ hn ha
  · rw [h.resolved_eq fun name args he => hn ⟨name, args, he⟩]
    exact h.becomes_self hΓ

end settles

section structural

variable {Γ : Context} {env : Environment} {Q : TypeId → Prop} {R R' : Relation} {a b : TypeId}

/-- Neither a union nor an intersection. -/
def IsSingle (n : Node) : Prop := (∀ ms, n ≠ .union ms) ∧ ∀ ms, n ≠ .intersection ms

theorem isSingle_of_isAtom {n : Node} (h : n.isAtom) : IsSingle n := by
  constructor <;> rintro ms rfl <;> cases h

theorem isSingle_of_isBasic {n : Node} (h : n.isBasic) : IsSingle n := by
  constructor <;> rintro ms rfl <;> cases h

theorem fits_single {m n : Node} (hm : IsSingle m) (hn : IsSingle n) :
    Fits Γ R a b m n = ShapeFits Γ R a b m n :=
  Fits.eq_6 _ _ _ _ _ _ hm.1 hm.2 hn.1 hn.2 fun _ _ => hn.1 _

variable (hΓ : Γ.store.Formed)

include hΓ

/-- The rule for two leaves asks about regular types only. -/
theorem ShapeFits.restrict (hR : ∀ c d, Regular Γ env Q c → Regular Γ env Q d → R c d → R' c d)
    (ha : Regular Γ env Q a) (hb : Regular Γ env Q b) (haa : (Γ.store.node a).isAtom)
    (hba : (Γ.store.node b).isAtom)
    (h : ShapeFits Γ R a b (Γ.store.node a) (Γ.store.node b)) :
    ShapeFits Γ R' a b (Γ.store.node a) (Γ.store.node b) := by
  have hself : ∀ t, Regular Γ env Q t → (Γ.store.node t).isAtom →
      Matches Γ.store Γ.store (fun c d => c = d ∧ Regular Γ env Q c) t t := fun t ht hta =>
    ht.matches_self hta fun c hc => ⟨rfl, hc⟩
  refine h.transport hΓ hΓ rfl ?_ (hself a ha haa) (hself b hb hba)
  rintro c _ d _ ⟨rfl, hc⟩ ⟨rfl, hd⟩ hcd
  exact hR c d hc hd hcd

theorem node_boolean : Γ.store.node .boolean = .intrinsic .boolean := hΓ.node_intrinsic .boolean

/-- Regular types that are compatible. -/
def Matched (Γ : Context) (env : Environment) (Q : TypeId → Prop) (a b : TypeId) : Prop :=
  Regular Γ env Q a ∧ Regular Γ env Q b ∧ Compatible Γ env a b

theorem shapeFits_of_matched (h : Matched Γ env Q a b) (hne : a ≠ b)
    (hb : b ≠ .unknown ∧ b ≠ .any) (ha : a ≠ .any) (haa : (Γ.store.node a).isAtom)
    (hba : (Γ.store.node b).isAtom) :
    ShapeFits Γ (Matched Γ env Q) a b (Γ.store.node a) (Γ.store.node b) := by
  obtain ⟨hra, hrb, hab⟩ := h
  obtain ⟨y, hy, hfits⟩ := hab.leaves a (.atom haa)
  rw [(leaf_atom_iff hΓ hba).mp hy] at hfits
  cases hfits with
  | top h => exact absurd h (by simp [hb.1, hb.2])
  | any h => exact absurd h ha
  | basic h _ => exact absurd h hne
  | shape h => exact h.restrict hΓ (fun c d hc hd hcd => ⟨hc, hd, hcd⟩) hra hrb haa hba

theorem shapeFits_boolean_right (h : Compatible Γ env a .boolean) (ha : a ≠ .any)
    (haa : (Γ.store.node a).isAtom) :
    ShapeFits Γ R a .boolean (Γ.store.node a) (Γ.store.node .boolean) := by
  obtain ⟨y, hy, hfits⟩ := h.leaves a (.atom haa)
  obtain ⟨v, rfl⟩ := (leaf_boolean_iff hΓ).mp hy
  have hn := hΓ.node_ofBool v
  cases hfits with
  | top h => cases v <;> simp [TypeId.ofBool, TypeId.unknown, TypeId.any, TypeId.trueLiteral,
      TypeId.falseLiteral] at h
  | any h => exact absurd h ha
  | basic h _ =>
      rw [h, hn]
      exact .literal rfl
  | shape h => exact absurd h (not_shapeFits_literal hΓ haa hn)

theorem shapeFits_boolean_left (h : Compatible Γ env .boolean b)
    (hb : b ≠ .unknown ∧ b ≠ .any) (hba : (Γ.store.node b).isAtom) :
    ShapeFits Γ R .boolean b (Γ.store.node .boolean) (Γ.store.node b) := by
  have hleaf : ∀ v, b = .ofBool v ∨ Γ.store.isEmptyObject b := by
    intro v
    obtain ⟨y, hy, hfits⟩ := h.leaves (.ofBool v) (.boolean v)
    rw [(leaf_atom_iff hΓ hba).mp hy] at hfits
    have hn := hΓ.node_ofBool v
    cases hfits with
    | top h => exact absurd h (by simp [hb.1, hb.2])
    | any h => cases v <;> cases h
    | basic h _ => exact .inl h.symm
    | shape h =>
        rw [hn] at h
        cases h with
        | literal hv =>
            subst hv
            simp [Literal.primitive, node_boolean hΓ, Node.isAtom] at hba
        | literalInEmpty he => exact .inr he.1
  have hempty : Γ.store.isEmptyObject b := by
    rcases hleaf true with ht | he
    · rcases hleaf false with hf | he
      · exact absurd (ht.symm.trans hf) (by decide)
      · exact he
    · exact he
  rw [node_boolean hΓ]
  exact .intrinsicInEmpty ⟨hempty, rfl, by decide⟩

theorem fits_of_matched (hnames : NamesResolve Γ env Q) (h : Matched Γ env Q a b) (hne : a ≠ b)
    (hb : b ≠ .unknown ∧ b ≠ .any) (hbn : b ≠ .never) (ha : a ≠ .any) (han : a ≠ .never)
    (hra : Γ.resolved a = a) (hrb : Γ.resolved b = b) :
    Fits Γ (Matched Γ env Q) a b (Γ.store.node a) (Γ.store.node b) := by
  obtain ⟨hrega, hregb, hab⟩ := h
  have hboolean := isSingle_of_isBasic (n := Γ.store.node .boolean) (by rw [node_boolean hΓ]; rfl)
  cases hrega.settles hΓ hnames with
  | never => exact absurd rfl han
  | reference hn _ => exact absurd hra (hrega.resolved_ne hnames hn)
  | union hn _ =>
      rw [hn]
      intro m hm
      refine ⟨hrega.opens (.member hn hm), hregb, compatible_of_leaves fun x hx => ?_⟩
      exact hab.leaves x (.opens (.member hn hm) hx)
  | boolean =>
      cases hregb.settles hΓ hnames with
      | never => exact absurd rfl hbn
      | boolean => exact absurd rfl hne
      | reference hn _ => exact absurd hrb (hregb.resolved_ne hnames hn)
      | atom hba =>
          rw [fits_single hboolean (isSingle_of_isAtom hba)]
          exact shapeFits_boolean_left hΓ hab hb hba
      | union hn _ =>
          rw [node_boolean hΓ, hn]
          have hvalue : ∀ v, Matched Γ env Q (.ofBool v) b := by
            intro v
            refine ⟨hrega.leaf hΓ (.boolean v), hregb, compatible_of_leaves fun x hx => ?_⟩
            rw [(leaf_atom_iff hΓ (by rw [hΓ.node_ofBool]; rfl)).mp hx]
            exact hab.leaves _ (.boolean v)
          exact ⟨hvalue true, hvalue false⟩
  | atom haa =>
      cases hregb.settles hΓ hnames with
      | never => exact absurd rfl hbn
      | boolean =>
          rw [fits_single (isSingle_of_isAtom haa) hboolean]
          exact shapeFits_boolean_right hΓ hab ha haa
      | reference hn _ => exact absurd hrb (hregb.resolved_ne hnames hn)
      | atom hba =>
          rw [fits_single (isSingle_of_isAtom haa) (isSingle_of_isAtom hba)]
          exact shapeFits_of_matched hΓ ⟨hrega, hregb, hab⟩ hne hb ha haa hba
      | union hn _ =>
          rw [hn, Fits.eq_3 _ _ _ _ _ _ (isSingle_of_isAtom haa).1
            (fun he => by simp [he, Node.isAtom] at haa)]
          obtain ⟨y, hy, hfits⟩ := hab.leaves a (.atom haa)
          obtain ⟨m, hm, hy⟩ := (leaf_union_iff hΓ hn).mp hy
          refine .inr ⟨m, hm, hrega, hregb.opens (.member hn hm), compatible_of_leaves fun x hx => ?_⟩
          rw [(leaf_atom_iff hΓ haa).mp hx]
          exact ⟨y, hy, hfits⟩

/-- Compatible regular types obey the rules of assignability. -/
theorem consistent_matched (hnames : NamesResolve Γ env Q) : Consistent Γ (Matched Γ env Q) := by
  rintro a b ⟨ha, hb, hab⟩
  by_cases hne : a = b
  · exact .inl hne
  refine .inr ?_
  by_cases htop : b = .unknown ∨ b = .any
  · exact .top (by tauto)
  by_cases hnever : a = .never
  · exact .bottom (.inl hnever)
  have hbn : b ≠ .never := by
    rintro rfl
    obtain ⟨x, hx, -⟩ := ha.exists_leaf hΓ hnever
    obtain ⟨y, hy, -⟩ := hab.leaves x hx
    exact not_leaf_never hΓ hy
  by_cases hany : a = .any
  · exact .any hbn hany
  refine .compare hbn ?_
  unfold Compares
  split
  · rename_i hsame
    exact fits_of_matched hΓ hnames ⟨ha, hb, hab⟩ hne (not_or.mp htop) hbn hany hnever hsame.1 hsame.2
  · have hra := ha.becomes_resolved hΓ hnames
    have hrb := hb.becomes_resolved hΓ hnames
    exact ⟨hra.regular, hrb.regular, (compatible_iff_of_similar hΓ hra.similar hrb.similar).mp hab⟩

theorem assignable_of_compatible (hnames : NamesResolve Γ env Q) (ha : Regular Γ env Q a)
    (hb : Regular Γ env Q b) (h : Compatible Γ env a b) : Assignable Γ a b :=
  ⟨Matched Γ env Q, ⟨ha, hb, h⟩, consistent_matched hΓ hnames⟩

omit hΓ in
/-- Pairs that are similar to an assignable pair. -/
inductive Carried (Γ : Context) (env : Environment) (Q : TypeId → Prop) : Relation
  | assignable {a b : TypeId} : Regular Γ env Q a → Regular Γ env Q b → Assignable Γ a b →
      Carried Γ env Q a b
  | similar {a a' b b' : TypeId} : Similar Γ.store env a a' → Similar Γ.store env b b' →
      Carried Γ env Q a' b' → Carried Γ env Q a b

theorem LeavesFit.similar {a' b' : TypeId} (ha : Similar Γ.store env a a')
    (hb : Similar Γ.store env b b') (h : LeavesFit Γ env (Carried Γ env Q) a' b') :
    LeavesFit Γ env (Carried Γ env Q) a b :=
  h.back hΓ (E := Similar Γ.store env) (fun _ _ _ _ hc hd hcd => .similar hc hd hcd) ha.leaves hb.leaves

variable (hnames : NamesResolve Γ env Q)

include hnames

theorem leafFits_self (ha : Regular Γ env Q a) (haa : (Γ.store.node a).isAtom) :
    LeafFits Γ (Carried Γ env Q) a a :=
  ha.fits_self haa (fun c hc => .assignable hc hc (assignable_refl c))
    fun _ _ hc hd hcd => .assignable hc hd (assignable_of_compatible hΓ hnames hc hd hcd)

theorem leavesFit_self (ha : Regular Γ env Q a) : LeavesFit Γ env (Carried Γ env Q) a a :=
  fun x hx => ⟨x, hx, leafFits_self hΓ hnames (ha.leaf hΓ hx) (hx.isAtom hΓ)⟩

/-- Assignable types whose leaves fit at once, or that have to be compared. -/
theorem leavesFit_of_assignable_cases (ha : Regular Γ env Q a) (hb : Regular Γ env Q b)
    (h : Assignable Γ a b)
    (hfits : b ≠ .never → Γ.resolved a = a → Γ.resolved b = b →
      Fits Γ (Assignable Γ) a b (Γ.store.node a) (Γ.store.node b) →
      LeavesFit Γ env (Carried Γ env Q) a b)
    (hresolved : ¬(Γ.resolved a = a ∧ Γ.resolved b = b) →
      Assignable Γ (Γ.resolved a) (Γ.resolved b) → LeavesFit Γ env (Carried Γ env Q) a b) :
    LeavesFit Γ env (Carried Γ env Q) a b := by
  have herror : ∀ {t}, Regular Γ env Q t → t ≠ .error := by
    rintro t ht rfl
    exact ht.node_ne_error (hΓ.node_fixed (i := 0) (by decide))
  rcases Assignable.consistent a b h with rfl | hu
  · exact leavesFit_self hΓ hnames ha
  cases hu with
  | top htop =>
      intro x _
      rcases htop with rfl | rfl | rfl
      · exact ⟨.any, .atom (isAtom_intrinsic hΓ .any (by decide)), .top (.inr rfl)⟩
      · exact ⟨.unknown, .atom (isAtom_intrinsic hΓ .unknown (by decide)), .top (.inl rfl)⟩
      · exact absurd rfl (herror hb)
  | bottom hbottom =>
      intro x hx
      rcases hbottom with rfl | rfl
      · exact absurd hx (not_leaf_never hΓ)
      · exact absurd rfl (herror ha)
  | any hbn he =>
      subst he
      intro x hx
      obtain ⟨y, hy, -⟩ := hb.exists_leaf hΓ hbn
      exact ⟨y, hy, .any ((leaf_atom_iff hΓ (isAtom_intrinsic hΓ .any (by decide))).mp hx)⟩
  | compare hbn hc =>
      unfold Compares at hc
      split at hc
      · rename_i hsame
        exact hfits hbn hsame.1 hsame.2 hc
      · rename_i hsame
        exact hresolved hsame hc

/-- For a source that is no name it is enough to look at targets that are none. -/
theorem leavesFit_of_target (ha : Regular Γ env Q a) (hra : Γ.resolved a = a)
    (hfits : ∀ b, Regular Γ env Q b → b ≠ .never → Γ.resolved b = b →
      (∀ ms, Γ.store.node b = .union ms → ∀ m ∈ ms, Assignable Γ a m →
        LeavesFit Γ env (Carried Γ env Q) a m) →
      Fits Γ (Assignable Γ) a b (Γ.store.node a) (Γ.store.node b) →
      LeavesFit Γ env (Carried Γ env Q) a b)
    (hb : Regular Γ env Q b) (h : Assignable Γ a b) : LeavesFit Γ env (Carried Γ env Q) a b := by
  have hplain : ∀ b, Regular Γ env Q b → (∀ name args, Γ.store.node b ≠ .reference name args) →
      Assignable Γ a b → (∀ ms, Γ.store.node b = .union ms → ∀ m ∈ ms, Assignable Γ a m →
        LeavesFit Γ env (Carried Γ env Q) a m) → LeavesFit Γ env (Carried Γ env Q) a b := by
    intro b hb hn h hmembers
    refine leavesFit_of_assignable_cases hΓ hnames ha hb h (fun hbn _ hrb => ?_) fun hne _ => ?_
    · exact hfits b hb hbn hrb hmembers
    · exact absurd ⟨hra, hb.resolved_eq hn⟩ hne
  have hsettles := hb.settles hΓ hnames
  induction hsettles with
  | never =>
      have hn : Γ.store.node .never = .intrinsic .never := hΓ.node_intrinsic .never
      exact hplain _ hb (by simp [hn]) h (by simp [hn])
  | boolean =>
      have hn := node_boolean hΓ
      exact hplain _ hb (by simp [hn]) h (by simp [hn])
  | @atom b hba =>
      refine hplain b hb (fun _ _ hn => ?_) h fun _ hn => ?_
      · simp [hn, Node.isAtom] at hba
      · exact absurd hn ((isSingle_of_isAtom hba).1 _)
  | @union b ms hn _ ih =>
      refine hplain b hb (by simp [hn]) h fun ms' hn' m hm => ?_
      cases hn.symm.trans hn'
      exact ih m hm (hb.opens (.member hn hm))
  | @reference b _ _ hn _ ih =>
      refine leavesFit_of_assignable_cases hΓ hnames ha hb h ?_ fun _ h => ?_
      · exact fun _ _ hrb => absurd hrb (hb.resolved_ne hnames hn)
      · have hbr := hb.becomes_resolved hΓ hnames
        rw [hra] at h
        exact (ih hbr.regular h).similar hΓ (ha.similar_self hΓ) hbr.similar

omit hnames in
theorem shapeFits_boolean_inv (haa : (Γ.store.node a).isAtom)
    (h : ShapeFits Γ R a .boolean (Γ.store.node a) (Γ.store.node .boolean)) :
    ∃ v, a = .ofBool v := by
  have hempty : ¬FitsEmptyObject Γ a .boolean := fun h => by
    simp [FitsEmptyObject, Store.isEmptyObject, Store.objectShape?, node_boolean hΓ] at h
  rw [node_boolean hΓ] at h
  generalize hn : Γ.store.node a = n at h haa
  cases h with
  | @literal v _ hv =>
      cases v with
      | boolean v => exact ⟨v, eq_ofBool hΓ hn⟩
      | string _ | number _ => cases hv
  | literalInEmpty he | intrinsicInEmpty he | functionInEmpty he | arrayInEmpty he =>
      exact absurd he hempty
  | undefined hv => cases hv
  | template _ | constraint _ _ _ => cases haa

theorem leavesFit_atom (ha : Regular Γ env Q a) (haa : (Γ.store.node a).isAtom)
    (hb : Regular Γ env Q b) (h : Assignable Γ a b) : LeavesFit Γ env (Carried Γ env Q) a b := by
  have hra : Γ.resolved a = a := ha.resolved_eq fun _ _ hn => by simp [hn, Node.isAtom] at haa
  refine leavesFit_of_target hΓ hnames ha hra (fun b hb hbn hrb hmembers hfits => ?_) hb h
  intro x hx
  rw [(leaf_atom_iff hΓ haa).mp hx]
  cases hb.settles hΓ hnames with
  | never => exact absurd rfl hbn
  | reference hn _ => exact absurd hrb (hb.resolved_ne hnames hn)
  | boolean =>
      rw [fits_single (isSingle_of_isAtom haa)
        (isSingle_of_isBasic (by rw [node_boolean hΓ]; rfl))] at hfits
      obtain ⟨v, rfl⟩ := shapeFits_boolean_inv hΓ haa hfits
      exact ⟨_, .boolean v, .basic rfl (by rw [hΓ.node_ofBool]; rfl)⟩
  | atom hba =>
      rw [fits_single (isSingle_of_isAtom haa) (isSingle_of_isAtom hba)] at hfits
      refine ⟨b, .atom hba, .shape (hfits.restrict hΓ (fun c d hc hd hcd => ?_) ha hb haa hba)⟩
      exact .assignable hc hd hcd
  | union hn _ =>
      rw [hn, Fits.eq_3 _ _ _ _ _ _ (isSingle_of_isAtom haa).1
        (fun he => by simp [he, Node.isAtom] at haa)] at hfits
      rcases hfits with hmem | ⟨m, hm, ham⟩
      · exact ⟨a, .opens (.member hn hmem) (.atom haa), leafFits_self hΓ hnames ha haa⟩
      · obtain ⟨y, hy, hfits⟩ := hmembers _ hn m hm ham a (.atom haa)
        exact ⟨y, .opens (.member hn hm) hy, hfits⟩

theorem leavesFit_boolean (hb : Regular Γ env Q b) (h : Assignable Γ .boolean b) :
    LeavesFit Γ env (Carried Γ env Q) .boolean b := by
  have hn := node_boolean hΓ
  have ha : Regular Γ env Q .boolean := .of_basic (by rw [hn]; rfl)
  have hra : Γ.resolved .boolean = .boolean := ha.resolved_eq (by simp [hn])
  refine leavesFit_of_target hΓ hnames ha hra (fun b hb hbn hrb hmembers hfits => ?_) hb h
  cases hb.settles hΓ hnames with
  | never => exact absurd rfl hbn
  | reference hn _ => exact absurd hrb (hb.resolved_ne hnames hn)
  | boolean => exact leavesFit_self hΓ hnames ha
  | atom hba =>
      rw [fits_single (isSingle_of_isBasic (by rw [hn]; rfl)) (isSingle_of_isAtom hba), hn] at hfits
      intro x hx
      obtain ⟨v, rfl⟩ := (leaf_boolean_iff hΓ).mp hx
      have hv := hΓ.node_ofBool v
      refine ⟨b, .atom hba, .shape ?_⟩
      rw [hv]
      exact .literalInEmpty (fitsEmptyObject_literal hΓ hv (hfits.fitsEmptyObject (by decide)).1)
  | union hn' _ =>
      rw [hn, hn'] at hfits
      intro x hx
      obtain ⟨v, rfl⟩ := (leaf_boolean_iff hΓ).mp hx
      have hatom : (Γ.store.node (.ofBool v)).isAtom := hx.isAtom hΓ
      have hassignable : Assignable Γ (.ofBool v) b := by
        cases v with
        | true => exact hfits.1
        | false => exact hfits.2
      exact leavesFit_atom hΓ hnames (ha.leaf hΓ hx) hatom hb hassignable _ (.atom hatom)

theorem leavesFit_of_assignable (ha : Regular Γ env Q a) (hb : Regular Γ env Q b)
    (h : Assignable Γ a b) : LeavesFit Γ env (Carried Γ env Q) a b := by
  have hsettles := ha.settles hΓ hnames
  induction hsettles generalizing b with
  | never => exact fun x hx => absurd hx (not_leaf_never hΓ)
  | boolean => exact leavesFit_boolean hΓ hnames hb h
  | atom haa => exact leavesFit_atom hΓ hnames ha haa hb h
  | @union a ms hn _ ih =>
      have hra : Γ.resolved a = a := ha.resolved_eq (by simp [hn])
      refine leavesFit_of_target hΓ hnames ha hra (fun b hb hbn hrb hmembers hfits => ?_) hb h
      rw [hn] at hfits
      intro x hx
      obtain ⟨m, hm, hx⟩ := (leaf_union_iff hΓ hn).mp hx
      exact ih m hm (ha.opens (.member hn hm)) hb (hfits m hm) x hx
  | @reference a _ _ hn _ ih =>
      refine leavesFit_of_assignable_cases hΓ hnames ha hb h ?_ fun _ h => ?_
      · exact fun _ hra => absurd hra (ha.resolved_ne hnames hn)
      · have har := ha.becomes_resolved hΓ hnames
        have hbr := hb.becomes_resolved hΓ hnames
        exact (ih har.regular hbr.regular h).similar hΓ har.similar hbr.similar

/-- For regular types, assignability is a question about their leaves. -/
theorem assignable_iff_compatible (ha : Regular Γ env Q a) (hb : Regular Γ env Q b) :
    Assignable Γ a b ↔ Compatible Γ env a b := by
  constructor
  · intro h
    refine ⟨Carried Γ env Q, .assignable ha hb h, fun x y hxy => ?_⟩
    induction hxy with
    | assignable hx hy h => exact leavesFit_of_assignable hΓ hnames hx hy h
    | similar hx hy _ ih => exact ih.similar hΓ hx hy
  · exact assignable_of_compatible hΓ hnames ha hb

end structural

end Assignability

end TypeResolution
