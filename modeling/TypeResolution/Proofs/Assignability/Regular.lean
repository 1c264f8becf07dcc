import TypeResolution.Proofs.Assignability.Leaves

/-!
Regular types: what can be built from basic types, objects, functions, arrays, unions and names of
types without parameters, recursively or not. A regular type is compatible with itself, and its
leaves tell whether it is `never` or `void`.
-/

namespace TypeResolution

namespace Assignability

open Store

/-- One step into a type: to a component, or from a name to what it stands for. -/
def Part (s : Store) (env : Environment) (t u : TypeId) : Prop :=
  u ∈ (s.node t).components ∨ Opens s env t u

/-- All that a type consists of. -/
abbrev Reaches (s : Store) (env : Environment) : TypeId → TypeId → Prop :=
  Relation.ReflTransGen (Part s env)

/-- What a regular type may consist of, with `Q` for the names. Fields fit the index signature
beside them. A union or a name stands for more than `never` or `void`, and no union for `any`. -/
inductive Admits (Γ : Context) (env : Environment) (Q : TypeId → Prop) (t : TypeId) : Prop
  | basic : (Γ.store.node t).isBasic → Admits Γ env Q t
  | object {o : ObjectShape} : Γ.store.node t = .object o → o.Distinct →
      (∀ i, o.stringIndex = some i → ∀ f ∈ o.fields, Compatible Γ env f.type i) → Admits Γ env Q t
  | function {f : FunctionShape} : Γ.store.node t = .function f → Admits Γ env Q t
  | array {c : TypeId} : Γ.store.node t = .array c → Admits Γ env Q t
  | union {ms : List TypeId} : Γ.store.node t = .union ms →
      (∃ x, Leaf Γ.store env t x ∧ x ≠ .void) → ¬Leaf Γ.store env t .any → Admits Γ env Q t
  | reference {name : String} {a : Alias} : Γ.store.node t = .reference name [] →
      env.get? name = some a → a.params = [] → (∃ x, Leaf Γ.store env t x ∧ x ≠ .void) → Q t →
      Admits Γ env Q t

/-- A type that consists of what is admitted; no name stands for itself. -/
structure Regular (Γ : Context) (env : Environment) (Q : TypeId → Prop) (t : TypeId) : Prop where
  admits : ∀ u, Reaches Γ.store env t u → Admits Γ env Q u
  grounded : ∀ u, Reaches Γ.store env t u → Acc (fun v w => Opens Γ.store env w v) u

section regular

variable {Γ : Context} {env : Environment} {Q : TypeId → Prop} {t u x : TypeId}

theorem Regular.part (h : Regular Γ env Q t) (hu : Part Γ.store env t u) : Regular Γ env Q u :=
  ⟨fun v hv => h.admits v (.head hu hv), fun v hv => h.grounded v (.head hu hv)⟩

theorem Regular.component (h : Regular Γ env Q t) (hu : u ∈ (Γ.store.node t).components) :
    Regular Γ env Q u :=
  h.part (.inl hu)

theorem Regular.opens (h : Regular Γ env Q t) (hu : Opens Γ.store env t u) : Regular Γ env Q u :=
  h.part (.inr hu)

theorem Regular.intro (h : Admits Γ env Q t) (hparts : ∀ u, Part Γ.store env t u → Regular Γ env Q u) :
    Regular Γ env Q t where
  admits u hu := by
    rcases hu.cases_head with rfl | ⟨v, hv, hu⟩
    · exact h
    · exact (hparts v hv).admits u hu
  grounded u hu := by
    rcases hu.cases_head with rfl | ⟨v, hv, hu⟩
    · exact .intro _ fun v hv => (hparts v (.inr hv)).grounded v .refl
    · exact (hparts v hv).grounded u hu

theorem Regular.of_basic (h : (Γ.store.node t).isBasic) : Regular Γ env Q t := by
  refine .intro (.basic h) fun u hu => ?_
  rcases hu with hu | hu
  · generalize Γ.store.node t = n at h hu
    cases n with
    | intrinsic _ | literal _ => cases hu
    | _ => cases h
  · exact absurd hu (not_opens_of_isBasic h)

theorem Regular.node_ne_error (h : Regular Γ env Q t) : Γ.store.node t ≠ .error := by
  intro hn
  cases h.admits t .refl with
  | basic hb => simp [hn, Node.isBasic] at hb
  | object ho _ _ | function ho | array ho | union ho _ _ | reference ho _ _ _ _ =>
      cases hn.symm.trans ho

theorem Regular.known (h : Regular Γ env Q t) : t.index < Γ.store.size :=
  known_of_node rfl h.node_ne_error

theorem Regular.not_opens_self (h : Regular Γ env Q t) :
    ¬Relation.TransGen (Opens Γ.store env) t t := by
  have hacc := (h.grounded t .refl).transGen
  induction hacc with
  | intro t _ ih => exact fun hcycle => ih t (Relation.transGen_swap.mpr hcycle) h hcycle

variable (hΓ : Γ.store.Formed)

include hΓ

theorem Regular.of_fixed (ht : t.isFixed) (herror : t ≠ .error) : Regular Γ env Q t := by
  refine .of_basic ?_
  obtain ⟨i⟩ := t
  have hi : i < TypeId.fixedCount := by simpa [TypeId.isFixed] using ht
  have hi' : i < 12 := hi
  rw [hΓ.node_fixed hi]
  interval_cases i
  · exact absurd rfl herror
  all_goals rfl

theorem Regular.leaf (h : Regular Γ env Q t) (hx : Leaf Γ.store env t x) : Regular Γ env Q x := by
  induction hx with
  | atom _ => exact h
  | boolean b => exact .of_fixed hΓ (by cases b <;> rfl) (by cases b <;> decide)
  | opens ho _ ih => exact ih (h.opens ho)

theorem Regular.exists_leaf (h : Regular Γ env Q t) (hne : t ≠ .never) :
    ∃ x, Leaf Γ.store env t x ∧ (x = .void → t = .void) := by
  have hatom : (Γ.store.node t).isAtom → ∃ x, Leaf Γ.store env t x ∧ (x = .void → t = .void) :=
    fun ha => ⟨t, .atom ha, id⟩
  cases h.admits t .refl with
  | basic hb =>
      cases hn : Γ.store.node t with
      | intrinsic k =>
          obtain rfl := hΓ.eq_of_intrinsic h.known hn
          cases k with
          | never => exact absurd rfl hne
          | boolean => exact ⟨.ofBool true, .boolean true, nofun⟩
          | _ => exact hatom (by rw [hn]; rfl)
      | literal v => exact hatom (by rw [hn]; rfl)
      | _ => simp [hn, Node.isBasic] at hb
  | object ho _ _ | function ho | array ho => exact hatom (by rw [ho]; rfl)
  | union _ hleaf _ | reference _ _ _ hleaf _ =>
      obtain ⟨x, hx, hvoid⟩ := hleaf
      exact ⟨x, hx, fun he => absurd he hvoid⟩

omit hΓ in
theorem Regular.field {o : ObjectShape} {f : Field} (h : Regular Γ env Q t)
    (hn : Γ.store.node t = .object o) (hf : f ∈ o.fields) : Regular Γ env Q f.type :=
  h.component (by rw [hn]; exact List.mem_append_left _ (List.mem_map_of_mem hf))

omit hΓ in
theorem Regular.stringIndex {o : ObjectShape} {i : TypeId} (h : Regular Γ env Q t)
    (hn : Γ.store.node t = .object o) (hi : o.stringIndex = some i) : Regular Γ env Q i :=
  h.component (by rw [hn]; exact List.mem_append_right _ (by simp [hi]))

omit hΓ in
theorem Regular.distinct {o : ObjectShape} (h : Regular Γ env Q t)
    (hn : Γ.store.node t = .object o) : o.Distinct := by
  cases h.admits t .refl with
  | basic hb => simp [hn, Node.isBasic] at hb
  | object ho hd _ =>
      cases hn.symm.trans ho
      exact hd
  | function ho | array ho | union ho _ _ | reference ho _ _ _ _ => cases hn.symm.trans ho

omit hΓ in
theorem Regular.fields_fit {o : ObjectShape} {i : TypeId} {f : Field} (h : Regular Γ env Q t)
    (hn : Γ.store.node t = .object o) (hi : o.stringIndex = some i) (hf : f ∈ o.fields) :
    Compatible Γ env f.type i := by
  cases h.admits t .refl with
  | basic hb => simp [hn, Node.isBasic] at hb
  | object ho _ hfit =>
      cases hn.symm.trans ho
      exact hfit i hi f hf
  | function ho | array ho | union ho _ _ | reference ho _ _ _ _ => cases hn.symm.trans ho

omit hΓ in
/-- A leaf of a regular type matches itself. -/
theorem Regular.matches_self {E : Relation} (h : Regular Γ env Q t) (ht : (Γ.store.node t).isAtom)
    (hE : ∀ c, Regular Γ env Q c → E c c) : Matches Γ.store Γ.store E t t := by
  cases hn : Γ.store.node t with
  | intrinsic _ | literal _ => exact .basic (by rw [hn]; rfl) rfl
  | object o =>
      refine .object hn hn ⟨h.distinct hn, h.distinct hn, fun name => ?_, ?_⟩
      · cases hf : o.find? name with
        | none => exact .none
        | some f => exact .some ⟨rfl, hE _ (h.field hn (ObjectShape.mem_of_find? hf))⟩
      · cases hi : o.stringIndex with
        | none => exact .none
        | some i => exact .some (hE _ (h.stringIndex hn hi))
  | function f =>
      have hpart : ∀ c ∈ f.params ++ [f.result], E c c := fun c hc =>
        hE c (h.component (by rw [hn]; exact hc))
      refine .function hn hn ⟨?_, hpart _ (by simp), Iff.rfl⟩
      exact List.forall₂_same.mpr fun c hc => hpart c (by simp [hc])
  | array c => exact .array hn hn (hE c (h.component (by rw [hn]; exact List.mem_singleton_self c)))
  | _ => simp [hn, Node.isAtom] at ht

theorem Regular.similar_self (h : Regular Γ env Q t) : Similar Γ.store env t t := by
  refine ⟨fun a b => a = b ∧ Regular Γ env Q a, ⟨rfl, h⟩, ?_⟩
  rintro a _ ⟨rfl, ha⟩
  have hself : ∀ x, Leaf Γ.store env a x →
      Matches Γ.store Γ.store (fun a b => a = b ∧ Regular Γ env Q a) x x := fun x hx =>
    (ha.leaf hΓ hx).matches_self (hx.isAtom hΓ) fun c hc => ⟨rfl, hc⟩
  exact ⟨fun x hx => ⟨x, hx, .same (hself x hx)⟩, fun x hx => ⟨x, hx, hself x hx⟩⟩

omit hΓ in
/-- A leaf of a regular type fits itself when its components do. -/
theorem Regular.fits_self {R : Relation} (h : Regular Γ env Q t) (ht : (Γ.store.node t).isAtom)
    (hR : ∀ c, Regular Γ env Q c → R c c)
    (hfields : ∀ c d, Regular Γ env Q c → Regular Γ env Q d → Compatible Γ env c d → R c d) :
    LeafFits Γ R t t := by
  cases hn : Γ.store.node t with
  | intrinsic _ | literal _ => exact .basic rfl (by rw [hn]; rfl)
  | object o =>
      refine .shape ?_
      rw [hn]
      refine .object ⟨fun f hf => ?_, fun i hi => ⟨fun f hf => ?_, fun u hu => ?_⟩,
        fun _ _ f hf => ?_⟩
      · unfold FieldFits
        rw [(h.distinct hn).find? hf]
        exact ⟨id, hR _ (h.field hn hf)⟩
      · exact hfields _ _ (h.field hn hf) (h.stringIndex hn hi) (h.fields_fit hn hi hf)
      · cases hi.symm.trans hu
        exact hR _ (h.stringIndex hn hi)
      · rw [(h.distinct hn).find? hf]
        rfl
  | function f =>
      have hpart : ∀ c ∈ f.params ++ [f.result], R c c := fun c hc =>
        hR c (h.component (by rw [hn]; exact hc))
      refine .shape ?_
      rw [hn]
      have hparams : List.Forall₂ (fun c d => R d c) f.params f.params :=
        List.forall₂_same.mpr fun c hc => hpart c (by simp [hc])
      exact .function ⟨Nat.le_refl _, fun p hp => (List.forall₂_iff_zip.mp hparams).2 hp,
        .inr (hpart _ (by simp))⟩
  | array c =>
      refine .shape ?_
      rw [hn]
      exact .array (hR c (h.component (by rw [hn]; exact List.mem_singleton_self c)))
  | _ => simp [hn, Node.isAtom] at ht

end regular

/-- The names among the members of a type. -/
inductive Head (s : Store) : TypeId → TypeId → Prop
  | self {t : TypeId} {name : String} {args : List TypeId} : s.node t = .reference name args →
      Head s t t
  | member {t m y : TypeId} {ms : List TypeId} : s.node t = .union ms → m ∈ ms → Head s m y →
      Head s t y

/-- A regular type that can take the place of `t`; the names among its members come from those
that `t` stands for. -/
structure Becomes (Γ : Context) (env : Environment) (Q : TypeId → Prop) (t r : TypeId) : Prop where
  similar : Similar Γ.store env t r
  regular : Regular Γ env Q r
  heads : ∀ y, Head Γ.store r y → Relation.ReflTransGen (Opens Γ.store env) t y

section becomes

variable {Γ : Context} {env : Environment} {Q : TypeId → Prop} {t r y : TypeId}

theorem Head.opens (h : Head Γ.store t y) : Relation.ReflTransGen (Opens Γ.store env) t y := by
  induction h with
  | self _ => exact .refl
  | member hn hm _ ih => exact .head (.member hn hm) ih

theorem Head.node (h : Head Γ.store t y) : ∃ name args, Γ.store.node y = .reference name args := by
  induction h with
  | self hn => exact ⟨_, _, hn⟩
  | member _ _ _ ih => exact ih

theorem Regular.becomes_self (hΓ : Γ.store.Formed) (h : Regular Γ env Q t) : Becomes Γ env Q t t :=
  ⟨h.similar_self hΓ, h, fun _ hy => hy.opens⟩

theorem Becomes.reference {name : String} {args : List TypeId} {a : Alias} (hΓ : Γ.store.Formed)
    (hn : Γ.store.node t = .reference name args) (ha : env.get? name = some a)
    (h : Becomes Γ env Q a.body r) : Becomes Γ env Q t r where
  similar := h.similar.congr_left fun _ => leaf_reference_iff hΓ hn ha
  regular := h.regular
  heads y hy := .head (.body hn ha) (h.heads y hy)

end becomes

end Assignability

end TypeResolution
