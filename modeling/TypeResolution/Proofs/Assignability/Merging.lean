import TypeResolution.Proofs.Assignability.Leaves
import TypeResolution.Proofs.Assignability.Unions
import TypeResolution.Proofs.Normal.Kept
import TypeResolution.Proofs.Store.Description

/-!
Objects that meet in an intersection. The fields of one name in two objects are merged to a field
whose type is made of both, so the merged object is assignable to both objects when such types are
assignable to what they are made of. What holds of the members of a union or an intersection as
targets is proved here as well.
-/

namespace TypeResolution

namespace Assignability

open Store

section targets

variable {Γ : Context} (hΓ : Γ.store.Formed) {a b c m x : TypeId} {ms : List TypeId}

include hΓ

/-- What `boolean` is assignable to takes its halves. -/
theorem assignable_ofBool (h : Assignable Γ .boolean c) (half : Bool) :
    Assignable Γ (.ofBool half) c := by
  let R : Relation := fun x y => x = .ofBool half ∧ Assignable Γ .boolean y
  have hhalf : Γ.resolved (.ofBool half) = .ofBool half :=
    resolved_of_isFixed hΓ (by cases half <;> rfl)
  have hboolean : Γ.resolved .boolean = .boolean := resolved_of_isFixed hΓ rfl
  have hnode : Γ.store.node .boolean = .intrinsic .boolean := hΓ.node_intrinsic .boolean
  refine assignable_of_relation (R := R) (fun x y hxy => ?_) ⟨rfl, h⟩
  obtain ⟨rfl, hy⟩ := hxy
  have hknown : Assignable Γ (.ofBool half) y →
      .ofBool half = y ∨ Unfolds Γ (fun u v => R u v ∨ Assignable Γ u v) (.ofBool half) y := fun h =>
    (Assignable.consistent _ y h).imp_right (Unfolds.mono fun _ _ => .inr)
  by_cases heq : TypeId.boolean = y
  · exact hknown (heq ▸ assignable_of_choice hΓ (choice_ofBool hΓ half))
  by_cases htop : y = .any ∨ y = .unknown ∨ y = .error
  · exact .inr (.top htop)
  have hproper : Proper Γ y := hy.proper hΓ hboolean (by decide)
  by_cases hry : Γ.resolved y = y
  · have hfits := hy.fits heq (by decide) (by simpa using htop) hboolean hry
    rw [hnode] at hfits
    have hunfold : Fits Γ (fun u v => R u v ∨ Assignable Γ u v) (.ofBool half) y
        (.literal (.boolean half)) (Γ.store.node y) →
        Unfolds Γ (fun u v => R u v ∨ Assignable Γ u v) (.ofBool half) y := by
      intro hfits
      refine unfolds_of_cases hproper.ne_never (fun hdiffer => absurd ⟨hhalf, hry⟩ hdiffer)
        fun _ _ => ?_
      rwa [hΓ.node_ofBool half]
    cases hn : Γ.store.node y with
    | union ms =>
        rw [hn] at hfits
        cases half with
        | true => exact hknown hfits.1
        | false => exact hknown hfits.2
    | intersection ms =>
        rw [hn] at hfits hunfold
        exact .inr (hunfold fun m hm => .inl ⟨rfl, hfits m hm⟩)
    | _ =>
        rw [hn] at hfits hunfold
        cases hfits with
        | intrinsicInEmpty he =>
            refine .inr (hunfold (ShapeFits.literalInEmpty ⟨he.1, ?_, ?_⟩))
            · cases half <;> rfl
            · cases half <;> decide
  · have hb := hy.resolved hΓ (hproper 1)
    rw [hboolean] at hb
    exact .inr (unfolds_of_cases hproper.ne_never (fun _ => .inl ⟨hhalf, hb⟩)
      fun _ hr => absurd hr hry)

/-- What is assignable to a member of a union is assignable to the union. -/
theorem assignable_into_union (hn : Γ.store.node b = .union ms) (hm : m ∈ ms)
    (hresolved : Γ.resolved m = m) (h : Assignable Γ x m) : Assignable Γ x b := by
  by_cases hne : m = .never
  · subst hne
    exact assignable_of_unfolds (.bottom (eq_of_assignable_never h))
  have hproper : Proper Γ m := proper_of_fixed hresolved hne
  have hb : Γ.resolved b = b := resolved_of_plain (by rw [hn]; rfl)
  have hnever : b ≠ .never := by
    rintro rfl
    cases not_isFixed_of_union hΓ hn
  let R : Relation := fun x y => y = b ∧ Assignable Γ x m
  refine assignable_of_relation (R := R) (fun x y hxy => ?_) ⟨rfl, h⟩
  obtain ⟨rfl, hx⟩ := hxy
  refine .inr (unfolds_of_cases hnever (fun _ => .inl ⟨hb, ?_⟩) fun _ _ => ?_)
  · have hx' := hx.resolved hΓ (by rwa [hresolved])
    rwa [hresolved] at hx'
  · apply fits_union hΓ hn _ _ ⟨m, hm, .inr hx⟩
    · exact fun xs hxs y hy => .inl ⟨rfl, (assignable_union_iff hΓ hxs hproper).mp hx y hy⟩
    · rintro rfl half
      exact .inl ⟨rfl, assignable_ofBool hΓ hx half⟩

/-- What is assignable to all members of an intersection is assignable to the intersection. -/
theorem assignable_into_intersection (hn : Γ.store.node b = .intersection ms)
    (hresolved : ∀ m ∈ ms, Γ.resolved m = m) (h : ∀ m ∈ ms, Assignable Γ x m) :
    Assignable Γ x b := by
  by_cases hempty : .never ∈ ms
  · exact assignable_of_unfolds (.bottom (eq_of_assignable_never (h _ hempty)))
  have hne : ∀ m ∈ ms, m ≠ .never := fun m hm heq => hempty (heq ▸ hm)
  have hb : Γ.resolved b = b := resolved_of_plain (by rw [hn]; rfl)
  have hnever : b ≠ .never := by
    rintro rfl
    cases hn.symm.trans (hΓ.node_intrinsic .never)
  let R : Relation := fun x y => y = b ∧ ∀ m ∈ ms, Assignable Γ x m
  refine assignable_of_relation (R := R) (fun x y hxy => ?_) ⟨rfl, h⟩
  obtain ⟨rfl, hx⟩ := hxy
  refine .inr (unfolds_of_cases hnever (fun _ => .inl ⟨hb, fun m hm => ?_⟩) fun _ _ => ?_)
  · have hx' := (hx m hm).resolved hΓ (by rw [hresolved m hm]; exact hne m hm)
    rwa [hresolved m hm] at hx'
  · have hall : ∀ m ∈ ms, R x m ∨ Assignable Γ x m := fun m hm => .inr (hx m hm)
    rw [hn]
    cases hnx : Γ.store.node x with
    | union xs =>
        intro y hy
        refine .inl ⟨rfl, fun m hm => ?_⟩
        have hproper : Proper Γ m := proper_of_fixed (hresolved m hm) (hne m hm)
        exact (assignable_union_iff hΓ hnx hproper).mp (hx m hm) y hy
    | intrinsic k => cases k <;> exact hall
    | _ => exact hall

omit hΓ in
/-- An intersection is assignable to what one of its members is assignable to, unless that is a
union or an intersection itself. -/
theorem assignable_from_member (hn : Γ.store.node a = .intersection ms) (hm : m ∈ ms)
    (hresolved : Γ.resolved b = b) (hne : b ≠ .never) (hunion : ∀ us, Γ.store.node b ≠ .union us)
    (hmeet : ∀ us, Γ.store.node b ≠ .intersection us) (h : Assignable Γ m b) :
    Assignable Γ a b := by
  have ha : Γ.resolved a = a := resolved_of_plain (by rw [hn]; rfl)
  apply assignable_of_fits ha hresolved hne
  rw [hn, Fits.eq_5 _ _ _ _ _ _ hunion hmeet]
  exact ⟨m, hm, h⟩

/-- Without a check for excess fields, an object is assignable to one whose fields it meets. -/
theorem assignable_of_fields {o p : ObjectShape} (hexcess : Γ.excess = false)
    (hna : Γ.store.node a = .object o) (hnb : Γ.store.node b = .object p)
    (hindex : p.stringIndex = none) (hfits : ∀ f ∈ p.fields, FieldFits (Assignable Γ) o f) :
    Assignable Γ a b := by
  have ha : Γ.resolved a = a := resolved_of_plain (by rw [hna]; rfl)
  have hb : Γ.resolved b = b := resolved_of_plain (by rw [hnb]; rfl)
  have hne : b ≠ .never := by
    rintro rfl
    cases hnb.symm.trans (hΓ.node_intrinsic .never)
  apply assignable_of_fits ha hb hne
  rw [hna, hnb]
  refine ShapeFits.object ⟨hfits, fun t ht => ?_, fun _ hon => ?_⟩
  · cases hindex.symm.trans ht
  · simp [hexcess] at hon

end targets

end Assignability

/-- Nodes that evaluation leaves alone and that an intersection does not look into. -/
def Node.isUndivided : Node → Bool
  | .object _ | .union _ | .intersection _ => false
  | n => !n.isMeta

theorem ObjectShape.find?_eq_of_sorted_eq {o p : ObjectShape} (h : o.sorted = p.sorted)
    (name : String) : o.find? name = p.find? name := by
  simp only [ObjectShape.find?, ← List.head?_filter, (sorted_eq_iff.mp h).2 name]

namespace Normal

open Store Assignability

/-- Two unions of this size are distributed. -/
def unionSize : Nat := 8

/-- Types that are intersected part by part. Evaluation has nothing to do in these parts. The unions
are small, the fields of objects are distinct and without an index signature, and in an intersection
there is at most one object and no union. -/
inductive Meetable (s : Store) : TypeId → Prop
  | undivided {t : TypeId} : t.index < s.size → (s.node t).isUndivided → Meetable s t
  | object {t : TypeId} {o : ObjectShape} : t.index < s.size → s.node t = .object o → o.Distinct →
      o.stringIndex = none → (∀ f ∈ o.fields, Meetable s f.type) → Meetable s t
  | union {t : TypeId} {ms : List TypeId} : t.index < s.size → s.node t = .union ms →
      ms.length ≤ unionSize → (∀ m ∈ ms, Meetable s m) → Meetable s t
  | intersection {t : TypeId} {ms : List TypeId} : t.index < s.size →
      s.node t = .intersection ms → (∀ m ∈ ms, s.unionMembers? m = none) →
      (∀ m ∈ ms, (s.node m).intersectionMembers? = none) → ms.countP s.isObject ≤ 1 →
      (∀ m ∈ ms, Meetable s m) → Meetable s t

namespace Meetable

variable {s s' : Store} {t : TypeId}

theorem known (h : Meetable s t) : t.index < s.size := by
  cases h <;> assumption

theorem isMeta (h : Meetable s t) : (s.node t).isMeta = false := by
  cases h with
  | undivided _ hn =>
      revert hn
      cases s.node t <;> simp [Node.isUndivided, Node.isMeta]
  | object _ hn | union _ hn | intersection _ hn =>
      rw [hn]
      rfl

theorem mono (h : Meetable s t) (hs : s.Extends s') : Meetable s' t := by
  induction h with
  | @undivided t ht hn =>
      exact .undivided (Nat.lt_of_lt_of_le ht hs.size_le) (by rwa [hs.node_eq t ht])
  | @object t o ht hn hdistinct hindex _ ih =>
      exact .object (Nat.lt_of_lt_of_le ht hs.size_le) ((hs.node_eq t ht).trans hn) hdistinct hindex
        ih
  | @union t ms ht hn hsize _ ih =>
      exact .union (Nat.lt_of_lt_of_le ht hs.size_le) ((hs.node_eq t ht).trans hn) hsize ih
  | @intersection t ms ht hn hunion hflat hobject hms ih =>
      have hnode : ∀ m ∈ ms, s'.node m = s.node m := fun m hm => hs.node_eq m (hms m hm).known
      refine .intersection (Nat.lt_of_lt_of_le ht hs.size_le) ((hs.node_eq t ht).trans hn)
        (fun m hm => ?_) (fun m hm => ?_) ?_ ih
      · rw [unionMembers?, hnode m hm]
        exact hunion m hm
      · rw [hnode m hm]
        exact hflat m hm
      · have hsame : ms.countP s'.isObject = ms.countP s.isObject := by
          refine List.countP_congr fun m hm => ?_
          simp only [isObject, objectShape?, hnode m hm]
        exact hsame ▸ hobject

theorem of_mem_union {ms : List TypeId} (h : Meetable s t) (hn : s.node t = .union ms) :
    ms.length ≤ unionSize ∧ ∀ m ∈ ms, Meetable s m := by
  cases h with
  | undivided _ hn' => simp [hn, Node.isUndivided] at hn'
  | union _ hn' hsize hms =>
      cases hn.symm.trans hn'
      exact ⟨hsize, hms⟩
  | object _ hn' | intersection _ hn' => cases hn.symm.trans hn'

theorem of_mem_intersection {ms : List TypeId} (h : Meetable s t)
    (hn : s.node t = .intersection ms) : ms.countP s.isObject ≤ 1 ∧
      ∀ m ∈ ms, Meetable s m ∧ s.unionMembers? m = none ∧
        (s.node m).intersectionMembers? = none := by
  cases h with
  | undivided _ hn' => simp [hn, Node.isUndivided] at hn'
  | intersection _ hn' hunion hflat hobject hms =>
      cases hn.symm.trans hn'
      exact ⟨hobject, fun m hm => ⟨hms m hm, hunion m hm, hflat m hm⟩⟩
  | object _ hn' | union _ hn' => cases hn.symm.trans hn'

theorem of_object {o : ObjectShape} (h : Meetable s t) (hn : s.node t = .object o) :
    o.Distinct ∧ o.stringIndex = none ∧ ∀ f ∈ o.fields, Meetable s f.type := by
  cases h with
  | undivided _ hn' => simp [hn, Node.isUndivided] at hn'
  | object _ hn' hdistinct hindex hfields =>
      cases hn.symm.trans hn'
      exact ⟨hdistinct, hindex, hfields⟩
  | union _ hn' | intersection _ hn' => cases hn.symm.trans hn'

theorem resolved_eq {Γ : Context} (h : Meetable s t) (hF : s.Extends Γ.store) :
    Γ.resolved t = t :=
  resolved_of_plain (h.mono hF).isMeta

end Meetable

section merge

variable (Γ : Context) {s s' : Store} {meet : List TypeId → Reporting TypeId}
  {site : Option SourceTag} {name : String}

/-- A type that, in the last store, is assignable to all of the given ones. -/
def Below (ts : List TypeId) (s : Store) (r : TypeId) : Prop :=
  r.index < s.size ∧ (s.Extends Γ.store → ∀ t ∈ ts, Assignable Γ r t)

/-- From a store on, `meet` makes types that are assignable to the two that they are made of. -/
def Lowers (s : Store) (meet : List TypeId → Reporting TypeId) : Prop :=
  ∀ s₁, s.Extends s₁ → ∀ t u, Meetable s₁ t → Meetable s₁ u →
    reporting.Holds s₁ (meet [t, u]) (Below Γ [t, u])

/-- A field that meets what the other one asks for. -/
structure FieldBelow (g f : Field) : Prop where
  optional : g.optional → f.optional
  type : Assignable Γ g.type f.type

/-- What becomes of the fields of one name in two objects that are merged. -/
inductive MergesTo (s : Store) : Option Field → Option Field → Option Field → Prop
  | left (f : Option Field) : MergesTo s f none f
  | right (g : Option Field) : MergesTo s none g g
  | both {f g h : Field} : (s.Extends Γ.store → FieldBelow Γ h f ∧ FieldBelow Γ h g) →
      MergesTo s (some f) (some g) (some h)

variable {Γ}

theorem Below.mono {ts : List TypeId} {r : TypeId} (h : Below Γ ts s r) (hs : s.Extends s') :
    Below Γ ts s' r :=
  ⟨Nat.lt_of_lt_of_le h.1 hs.size_le, fun hF => h.2 (hs.trans hF)⟩

theorem Lowers.mono (h : Lowers Γ s meet) (hs : s.Extends s') : Lowers Γ s' meet :=
  fun s₁ h₁ => h s₁ (hs.trans h₁)

theorem MergesTo.mono {f g h : Option Field} (hm : MergesTo Γ s f g h) (hs : s.Extends s') :
    MergesTo Γ s' f g h := by
  cases hm with
  | left => exact .left f
  | right => exact .right g
  | both hbelow => exact .both fun hF => hbelow (hs.trans hF)

theorem MergesTo.eq_left {f h : Option Field} (hm : MergesTo Γ s f none h) : h = f := by
  cases hm <;> rfl

theorem MergesTo.fits_left {f : Field} {g h : Option Field} (hm : MergesTo Γ Γ.store (some f) g h) :
    ∃ k, h = some k ∧ FieldBelow Γ k f := by
  cases hm with
  | left => exact ⟨f, rfl, id, assignable_refl _⟩
  | both hbelow => exact ⟨_, rfl, (hbelow (.refl _)).1⟩

theorem MergesTo.fits_right {f h : Option Field} {g : Field}
    (hm : MergesTo Γ Γ.store f (some g) h) : ∃ k, h = some k ∧ FieldBelow Γ k g := by
  cases hm with
  | right => exact ⟨g, rfl, id, assignable_refl _⟩
  | both hbelow => exact ⟨_, rfl, (hbelow (.refl _)).2⟩

/-- The field that stands for a name among those merged so far. -/
def lookup (fields : List Owned) (name : String) : Option Field :=
  (fields.map (·.field)).find? (·.name = name)

theorem lookup_cons_of_eq {old : Owned} {rest : List Owned} (h : old.field.name = name) :
    lookup (old :: rest) name = some old.field := by
  simp [lookup, h]

theorem lookup_cons_of_ne {old : Owned} {rest : List Owned} (h : old.field.name ≠ name) :
    lookup (old :: rest) name = lookup rest name := by
  simp [lookup, h]

variable (hmeet : Lowers Γ s meet)

include hmeet

theorem lowers_meetFields {old new : Owned} (hold : Meetable s old.field.type)
    (hnew : Meetable s new.field.type) :
    reporting.Holds s (meetFields meet site old new) fun s' f =>
      f.field.name = old.field.name ∧ f.field.type.index < s'.size ∧
        MergesTo Γ s' (some old.field) (some new.field) (some f.field) := by
  have hresult : ∀ {s₁ merged}, Below Γ [old.field.type, new.field.type] s₁ merged →
      MergesTo Γ s₁ (some old.field) (some new.field) (some { old.field with
        type := merged
        optional := old.field.optional && new.field.optional
        readonly := old.field.readonly || new.field.readonly }) := by
    intro s₁ merged hm
    refine .both fun hF => ⟨⟨fun h => ?_, hm.2 hF _ (by simp)⟩, ⟨fun h => ?_, hm.2 hF _ (by simp)⟩⟩
    · exact (Bool.and_eq_true_iff.mp h).1
    · exact (Bool.and_eq_true_iff.mp h).2
  have hsame : old.field.type = new.field.type →
      Below Γ [old.field.type, new.field.type] s old.field.type := by
    refine fun heq => ⟨hold.known, fun _ t ht => ?_⟩
    have ht : t = new.field.type := by simpa [heq] using ht
    rw [ht, heq]
    exact assignable_refl _
  unfold meetFields
  split
  on_goal 1 => refine reporting.bind (reporting.pure (hsame ‹_›)) fun s₁ merged _ _ hm => ?_
  on_goal 2 => refine reporting.bind (hmeet s (.refl s) _ _ hold hnew) fun s₁ merged _ _ hm => ?_
  all_goals
    dsimp only
    split
    · exact reporting.bind reporting_reportConflict fun s₂ _ h₂ _ _ =>
        reporting.pure ⟨rfl, (hm.mono h₂).1, hresult (hm.mono h₂)⟩
    · exact reporting.pure ⟨rfl, hm.1, hresult hm⟩

/-- Adding a field changes what stands for its name only. -/
theorem lowers_mergeField {new : Owned} {fields : List Owned} (hnew : Meetable s new.field.type)
    (hfields : ∀ f, lookup fields new.field.name = some f → Meetable s f.type)
    (hknown : ∀ f ∈ fields, f.field.type.index < s.size) :
    reporting.Holds s (mergeField meet site new fields) fun s' merged =>
      (∀ f ∈ merged, f.field.type.index < s'.size) ∧
      (∀ n, n ≠ new.field.name → lookup merged n = lookup fields n) ∧
      MergesTo Γ s' (lookup fields new.field.name) (some new.field)
        (lookup merged new.field.name) := by
  induction fields with
  | nil =>
      refine reporting.pure ⟨by simpa using hnew.known, fun n hn => ?_, ?_⟩
      · exact lookup_cons_of_ne hn.symm
      · rw [lookup_cons_of_eq rfl]
        exact .right _
  | cons old rest ih =>
      obtain ⟨hold, hrest⟩ := List.forall_mem_cons.mp hknown
      unfold mergeField
      split
      · rename_i hname
        rw [lookup_cons_of_eq hname] at hfields ⊢
        refine reporting.bind (lowers_meetFields hmeet (hfields _ rfl) hnew)
          fun s₁ f h₁ _ hf => ?_
        obtain ⟨hfname, hftype, hmerges⟩ := hf
        refine reporting.pure ⟨List.forall_mem_cons.mpr ⟨hftype, fun g hg => ?_⟩, fun n hn => ?_, ?_⟩
        · exact Nat.lt_of_lt_of_le (hrest g hg) h₁.size_le
        · rw [lookup_cons_of_ne (by rw [hfname, hname]; exact hn.symm),
            lookup_cons_of_ne (by rw [hname]; exact hn.symm)]
        · rwa [lookup_cons_of_eq (hfname.trans hname)]
      · rename_i hname
        rw [lookup_cons_of_ne hname] at hfields ⊢
        refine reporting.bind (ih hfields hrest) fun s₁ merged h₁ _ hm => ?_
        obtain ⟨hall, hothers, hmerges⟩ := hm
        refine reporting.pure ⟨List.forall_mem_cons.mpr ⟨?_, hall⟩, fun n hn => ?_, ?_⟩
        · exact Nat.lt_of_lt_of_le hold h₁.size_le
        · by_cases hold : old.field.name = n
          · rw [lookup_cons_of_eq hold, lookup_cons_of_eq hold]
          · rw [lookup_cons_of_ne hold, lookup_cons_of_ne hold, hothers n hn]
        · rwa [lookup_cons_of_ne hname]

theorem lowers_mergeFields {object : TypeId} {fs : List Field} {fields : List Owned}
    (hdistinct : (fs.map (·.name)).Nodup) (hfs : ∀ f ∈ fs, Meetable s f.type)
    (hfields : ∀ f ∈ fs, ∀ g, lookup fields f.name = some g → Meetable s g.type)
    (hknown : ∀ f ∈ fields, f.field.type.index < s.size) :
    reporting.Holds s (fs.foldlM (fun fields f => mergeField meet site ⟨f, object⟩ fields) fields)
      fun s' merged => (∀ f ∈ merged, f.field.type.index < s'.size) ∧
        ∀ n, MergesTo Γ s' (lookup fields n) (fs.find? (·.name = n)) (lookup merged n) := by
  induction fs generalizing s fields with
  | nil =>
      exact reporting.pure ⟨hknown, fun n => .left _⟩
  | cons f rest ih =>
      obtain ⟨hf, hrest⟩ := List.forall_mem_cons.mp hfs
      rw [List.map_cons, List.nodup_cons] at hdistinct
      rw [List.foldlM_cons]
      have hnew : Meetable s (Owned.mk f object).field.type := hf
      have hother : ∀ g ∈ rest, g.name ≠ f.name := fun g hg heq =>
        hdistinct.1 (heq ▸ List.mem_map_of_mem hg)
      refine reporting.bind (lowers_mergeField hmeet hnew (hfields f (List.mem_cons_self ..)) hknown)
        fun s₁ merged h₁ _ hm => ?_
      obtain ⟨hknown₁, hothers, hmerges⟩ := hm
      have hfields₁ : ∀ g ∈ rest, ∀ u, lookup merged g.name = some u → Meetable s₁ u.type := by
        intro g hg u hu
        rw [hothers g.name (hother g hg)] at hu
        exact (hfields g (List.mem_cons_of_mem _ hg) u hu).mono h₁
      refine reporting.mono (ih (hmeet.mono h₁) hdistinct.2 (fun g hg => (hrest g hg).mono h₁)
        hfields₁ hknown₁) fun s₂ all h₂ _ hall => ⟨hall.1, fun n => ?_⟩
      have hn := hall.2 n
      by_cases heq : f.name = n
      · have hnone : rest.find? (·.name = n) = none := by
          rw [List.find?_eq_none]
          exact fun g hg => by simpa [← heq] using hother g hg
        rw [hnone] at hn
        rw [hn.eq_left, List.find?_cons_of_pos (by simpa using heq), ← heq]
        exact hmerges.mono h₂
      · rwa [List.find?_cons_of_neg (by simpa using heq), ← hothers n fun h => heq h.symm]

omit hmeet in
theorem mergesTo_nil {g h : Option Field} (hm : MergesTo Γ s (lookup [] name) g h) : h = g := by
  cases hm <;> rfl

theorem lowers_mergeObject {merged : List Owned × Option TypeId} {object : TypeId}
    {o : ObjectShape} (hobject : Meetable s object) (hn : s.node object = .object o)
    (hfields : ∀ n f, lookup merged.1 n = some f → Meetable s f.type)
    (hknown : ∀ f ∈ merged.1, f.field.type.index < s.size) (hindex : merged.2 = none) :
    reporting.Holds s (mergeObject meet site merged object) fun s' all =>
      (∀ f ∈ all.1, f.field.type.index < s'.size) ∧ all.2 = none ∧
        ∀ n, MergesTo Γ s' (lookup merged.1 n) (o.find? n) (lookup all.1 n) := by
  obtain ⟨hdistinct, hnone, hparts⟩ := hobject.of_object hn
  refine reporting_store fun _ => ?_
  have hshape : s.objectShape? object = some o := by rw [objectShape?, hn]
  rw [hshape]
  refine reporting.bind (lowers_mergeFields hmeet hdistinct hparts (fun f _ => hfields f.name) hknown)
    fun s₁ fields _ _ hf => ?_
  rw [hindex, hnone]
  exact reporting.pure ⟨hf.1, rfl, hf.2⟩

variable (hΓ : Γ.store.Formed) (hexcess : Γ.excess = false)

include hΓ hexcess

/-- Two objects are merged to one that is assignable to both. -/
theorem lowers_mergeObjects {a b : TypeId} {o p : ObjectShape} (ha : Meetable s a)
    (hb : Meetable s b) (hna : s.node a = .object o) (hnb : s.node b = .object p) :
    reporting.Holds s (mergeObjects meet site [a, b]) (Below Γ [a, b]) := by
  have hfold : reporting.Holds s ([a, b].foldlM (mergeObject meet site) ([], none)) fun s' all =>
      (∀ f ∈ all.1, f.field.type.index < s'.size) ∧ all.2 = none ∧
        ∀ n, MergesTo Γ s' (o.find? n) (p.find? n) (lookup all.1 n) := by
    simp only [List.foldlM_cons, List.foldlM_nil, bind_pure]
    refine reporting.bind (lowers_mergeObject hmeet ha hna (by simp [lookup]) (by simp) rfl)
      fun s₁ first h₁ _ hfirst => ?_
    obtain ⟨hknown, hindex, hmerges⟩ := hfirst
    have hlookup : ∀ n, lookup first.1 n = o.find? n := fun n => mergesTo_nil (hmerges n)
    simp only [← hlookup]
    refine lowers_mergeObject (hmeet.mono h₁) (hb.mono h₁) ((h₁.node_eq b hb.known).trans hnb)
      (fun n f hf => ?_) hknown hindex
    rw [hlookup] at hf
    exact ((ha.of_object hna).2.2 f (ObjectShape.mem_of_find? hf)).mono h₁
  refine reporting.bind hfold fun s₁ all h₁ _ hall => ?_
  obtain ⟨hknown, hindex, hmerges⟩ := hall
  have hparts : ∀ c ∈ (Node.object ⟨all.1.map (·.field), all.2⟩).components, c.index < s₁.size := by
    intro c hc
    simp only [Node.components, hindex, List.map_map, List.mem_append, List.mem_map,
      Option.mem_toList, reduceCtorEq, or_false] at hc
    obtain ⟨f, hf, rfl⟩ := hc
    exact hknown f hf
  refine reporting.bind (reporting_lift (building_intern hparts)) fun s₂ r h₂ hs₂ hr => ?_
  refine reporting.bind (reporting_copyOrigins all.1) fun s₃ _ h₃ _ _ => ?_
  obtain ⟨hr, hid⟩ := hr
  obtain ⟨q, hq, hsorted⟩ := Node.exists_object_of_identity_eq hid
  have hr₃ := Nat.lt_of_lt_of_le hr h₃.size_le
  refine reporting.pure ⟨hr₃, fun hF => ?_⟩
  have hsF := h₁.trans (h₂.trans (h₃.trans hF))
  have hmergesF : ∀ n, MergesTo Γ Γ.store (o.find? n) (p.find? n) (q.find? n) := by
    intro n
    rw [ObjectShape.find?_eq_of_sorted_eq hsorted n]
    exact (hmerges n).mono (h₂.trans (h₃.trans hF))
  have hnr : Γ.store.node r = .object q := ((h₃.trans hF).node_eq r hr).trans hq
  have hbelow : ∀ u ∈ [a, b], ∃ shape, Γ.store.node u = .object shape ∧ shape.stringIndex = none ∧
      ∀ f ∈ shape.fields, ∃ g, q.find? f.name = some g ∧ FieldBelow Γ g f := by
    intro u hu
    rcases List.mem_cons.mp hu with rfl | hu
    · obtain ⟨hdistinct, hnone, -⟩ := ha.of_object hna
      refine ⟨o, (hsF.node_eq u ha.known).trans hna, hnone, fun f hf => ?_⟩
      exact (hdistinct.find? hf ▸ hmergesF f.name).fits_left
    · obtain rfl := List.mem_singleton.mp hu
      obtain ⟨hdistinct, hnone, -⟩ := hb.of_object hnb
      refine ⟨p, (hsF.node_eq u hb.known).trans hnb, hnone, fun f hf => ?_⟩
      exact (hdistinct.find? hf ▸ hmergesF f.name).fits_right
  intro u hu
  obtain ⟨shape, hnu, hnone, hfits⟩ := hbelow u hu
  refine assignable_of_fields hΓ hexcess hnr hnu hnone fun f hf => ?_
  obtain ⟨g, hg, hgf⟩ := hfits f hf
  unfold FieldFits
  rw [hg]
  exact ⟨hgf.optional, hgf.type⟩

end merge

end Normal

end TypeResolution
