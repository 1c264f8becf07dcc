import TypeResolution.Proofs.Narrowing.Services

/-!
Narrowing a union of objects by a discriminant keeps every value that is on the side of the branch.
A member that does not declare the discriminant is kept when the condition fails and dropped when it
holds, whatever it is compared with; so a value whose member lacks the field is on the failing side,
also when the field is compared with `undefined`.
-/

namespace TypeResolution

open Store

variable {F s : Store} {setting : Setting} {c t : TypeId} {branch : Branch} {property : String}

def ObjectShape.Declares (o : ObjectShape) (name : String) : Prop := ∃ f ∈ o.fields, f.name = name

/-- The value is one that the condition on its unit type, on this side of the branch, is about. -/
def SideOf (F : Store) (c : TypeId) (branch : Branch) (y : Datum) : Prop :=
  y ∈ F.values c ↔ branch.isTrue

/-- The side of a branch that a value of an object belongs to. Where the object does not declare the
field, that is the failing one. Where it does, reading the field decides; if the field is absent, a
value of its declared type must be on the same side. -/
structure OnSide (F : Store) (property : String) (c : TypeId) (branch : Branch) (o : ObjectShape)
    (x : Datum) : Prop where
  undeclared : ¬o.Declares property → branch = .whenFalse
  declared : o.Declares property → SideOf F c branch (x.read property)
  absent : x.get property = none → ∀ f ∈ o.fields, f.name = property →
    ∃ y ∈ F.values f.type, SideOf F c branch y

theorem ShapeWidens.declares_iff {o p : ObjectShape} (h : ShapeWidens F o p) (name : String) :
    p.Declares name ↔ o.Declares name := by
  constructor
  · rintro ⟨g, hg, rfl⟩
    obtain ⟨f, hf, hname, -⟩ := h.fields g hg
    exact ⟨f, hf, hname⟩
  · rintro ⟨f, hf, rfl⟩
    exact h.names f hf

theorem OnSide.widens {o p : ObjectShape} {x : Datum} (hx : OnSide F property c branch o x)
    (h : ShapeWidens F o p) : OnSide F property c branch p x where
  undeclared hp := hx.undeclared fun ho => hp ((h.declares_iff property).mpr ho)
  declared hp := hx.declared ((h.declares_iff property).mp hp)
  absent hnone g hg hname := by
    obtain ⟨f, hf, hfg, -, hvalues⟩ := h.fields g hg
    obtain ⟨y, hy, hside⟩ := hx.absent hnone f hf (hfg.trans hname)
    exact ⟨y, hvalues hy, hside⟩

theorem ObjectShape.find?_eq_none_iff {o : ObjectShape} :
    o.find? property = none ↔ ¬o.Declares property := by
  simp [find?, Declares]

/-- A value that a declared field leaves on the side of the branch has, in the declared type, a value
of the field on that side, which is the field's own if it is there. -/
theorem OnSide.exists_mem {o : ObjectShape} {x : Datum} (hside : OnSide F property c branch o x)
    (hx : HasShape F.values Datum.get x o) {f : Field} (hf : f ∈ o.fields)
    (hname : f.name = property) :
    ∃ y ∈ F.values f.type, SideOf F c branch y ∧ ∀ z, x.get property = some z → z = y := by
  cases hy : x.get property with
  | none =>
      obtain ⟨y, hy, hyside⟩ := hside.absent hy f hf hname
      exact ⟨y, hy, hyside, nofun⟩
  | some y =>
      have hfield := hx.fields f hf
      have hread := hside.declared ⟨f, hf, hname⟩
      unfold HasField at hfield
      rw [hname, hy] at hfield
      rw [Datum.read, hy] at hread
      exact ⟨y, hfield, hread, fun z hz => (Option.some.inj hz).symm⟩

namespace Narrowing

variable (hF : F.Formed) (ho : setting.options.Positive)

include hF ho

/-- Every constituent that has a value on the side of the branch fits. -/
theorem reporting_fitting {constituents : List TypeId} (hc : isUnit s c)
    (hconstituents : ∀ k ∈ constituents, s.Concrete k ∧ s.unionMembers? k = none) :
    reporting.Holds s (constituents.filterM (agrees setting c branch)) fun s' fitting =>
      (∀ k ∈ fitting, k ∈ constituents) ∧ (s'.Extends F → ∀ k ∈ constituents,
        ∀ y ∈ F.values k, SideOf F c branch y → k ∈ fitting) := by
  refine reporting.formed fun hs => ?_
  refine reporting.mono (reporting_filterM (Q := fun s' k found => s'.Extends F →
    ∀ y ∈ F.values k, SideOf F c branch y → found = true) ?_ ?_) ?_
  · exact fun h hQ hF => hQ (h.trans hF)
  · intro k hk s₁ h₁
    obtain ⟨hconcrete, hunion⟩ := hconstituents k hk
    have hunion₁ : s₁.unionMembers? k = none := by
      rw [unionMembers?, h₁.node_eq k hconcrete.known]
      exact hunion
    have hc₁ := isUnit_mono hs h₁ hc
    refine reporting.formed fun hs₁ => ?_
    by_cases hside : s₁.Extends F ∧ ∃ y ∈ F.values k, SideOf F c branch y
    · obtain ⟨hsF, y, hy, hside⟩ := hside
      refine reporting.mono (reporting_agrees_of_mem hF hsF ho hc₁ (hconcrete.mono h₁) hunion₁ hy
        hside) ?_
      exact fun _ _ _ _ hfound _ _ _ _ => hfound
    · refine reporting.mono (reporting_agrees (concrete_of_isUnit hs₁ hc₁) (hconcrete.mono h₁)) ?_
      exact fun s₂ found h₂ _ _ hsF y hy hy' => absurd ⟨h₂.trans hsF, y, hy, hy'⟩ hside
  · rintro s' fitting _ _ ⟨hsub, hall⟩
    refine ⟨hsub, fun hsF k hk y hy hside => ?_⟩
    obtain ⟨b, hb, hkept⟩ := hall k hk
    exact hkept (hb hsF y hy hside)

omit ho in
/-- An object whose field gets another type has the values whose field, where it is there, belongs to
that type. -/
theorem building_withFieldType {o : ObjectShape}
    (hparts : ∀ c ∈ (Node.object o).components, s.Concrete c) (ht : s.Concrete t) :
    building.Holds s (withFieldType o property t) fun s' r => s'.Concrete r ∧
      (s'.Extends F → ∀ x : Datum, x.isRecord → HasShape F.values Datum.get x o →
        (∀ y, x.get property = some y → y ∈ F.values t) → x ∈ F.values r) := by
  refine building.mono (building_shape (forall_components_replaced hparts ht)) ?_
  rintro s' r h _ ⟨hconcrete, p, hp, hperm, hindex⟩
  refine ⟨hconcrete, fun hsF x hrecord hx hproperty => ?_⟩
  rw [mem_values_object hF ((hsF.node_eq r hconcrete.known).trans hp)]
  have hpresent : x ∈ Datum.present := by
    cases x <;> simp [Datum.isRecord] at hrecord
    simp [Datum.present]
  refine ⟨⟨hpresent, fun g hg => ?_, ?_⟩, .inr hrecord⟩
  · obtain ⟨f, hf, rfl⟩ := List.mem_map.mp (hperm.mem_iff.mp hg)
    have hfield := hx.fields f hf
    split
    · rename_i hname
      unfold HasField at hfield ⊢
      dsimp only
      cases hy : x.get f.name with
      | some y => exact hproperty y (hname ▸ hy)
      | none =>
          rw [hy] at hfield
          exact hfield
    · exact hfield
  · rw [hindex]
    exact hx.index

/-- What is left of a member, if anything, has its values on the side of the branch. -/
structure Keeps (F s : Store) (property : String) (c : TypeId) (branch : Branch) (m : TypeId)
    (kept : Option TypeId) : Prop where
  concrete : ∀ r, kept = some r → s.Concrete r
  values : s.Extends F → ∀ o x, F.node m = .object o → x ∈ F.values m →
    OnSide F property c branch o x → ∃ r, kept = some r ∧ x ∈ F.values r

omit hF ho in
theorem Keeps.mono {s' : Store} {m : TypeId} {kept : Option TypeId}
    (h : Keeps F s property c branch m kept) (hs : s.Extends s') :
    Keeps F s' property c branch m kept where
  concrete r hr := (h.concrete r hr).mono hs
  values hF := h.values (hs.trans hF)

omit hF ho in
theorem reporting_undeclared {m : TypeId} (hm : s.Concrete m)
    (hundeclared : ∀ o, s.node m = .object o → ¬o.Declares property) :
    reporting.Holds s (pure (if branch.isTrue then none else some m))
      (Keeps F · property c branch m) := by
  refine reporting.pure ⟨fun r hr => ?_, fun hsF o x hn hx hside => ?_⟩
  · split at hr
    · cases hr
    · cases hr
      exact hm
  · have hbranch := hside.undeclared (hundeclared o ((hsF.node_eq m hm.known).symm.trans hn))
    subst hbranch
    exact ⟨m, rfl, hx⟩

omit ho in
/-- What is made of a member of whose field some constituents fit. -/
theorem reporting_fitted {m : TypeId} {o : ObjectShape} {fitting : List TypeId} {n : Nat}
    (hm : s.Concrete m) (hn : s.node m = .object o) (hproperty : o.Declares property)
    (hfitting : ∀ k ∈ fitting, s.Concrete k) :
    reporting.Holds s (do
        if fitting.isEmpty then
          return none
        else if fitting.length = n then
          return some m
        else
          let narrowed ← Build.union fitting
          return some (← withFieldType o property narrowed) : Reporting (Option TypeId))
      fun s' kept => (∀ r, kept = some r → s'.Concrete r) ∧ (s'.Extends F → ∀ x ∈ F.values m,
        (∃ k ∈ fitting, ∃ y ∈ F.values k, ∀ z, x.get property = some z → z = y) →
          ∃ r, kept = some r ∧ x ∈ F.values r) := by
  split
  · rename_i hempty
    rw [List.isEmpty_iff] at hempty
    exact reporting.pure ⟨by simp, fun _ x _ hx => by simp [hempty] at hx⟩
  split
  · refine reporting.pure ⟨fun r hr => ?_, fun _ x hx _ => ⟨m, rfl, hx⟩⟩
    cases hr
    exact hm
  refine reporting.bind (reporting_lift (building_unites hF hfitting)) ?_
  rintro s₁ narrowed h₁ _ ⟨hnarrowed, -, hunites⟩
  have hparts : ∀ d ∈ (Node.object o).components, s₁.Concrete d := fun d hd =>
    (hm.of_components hn d hd).mono h₁
  refine reporting.bind (reporting_lift (building_withFieldType hF hparts hnarrowed)) ?_
  rintro s₂ r h₂ _ ⟨hr, hvalues⟩
  refine reporting.pure ⟨fun r' hr' => ?_, fun hsF x hx ⟨k, hk, y, hy, hread⟩ => ⟨r, rfl, ?_⟩⟩
  · cases hr'
    exact hr
  · have hsF₁ := h₂.trans hsF
    have hmF : F.node m = .object o := ((h₁.trans hsF₁).node_eq m hm.known).trans hn
    have hx := (mem_values_object hF hmF).mp hx
    refine hvalues hsF x (hx.2.resolve_left ?_) hx.1.2 fun z hz => ?_
    · obtain ⟨f, hf, -⟩ := hproperty
      simp [ObjectShape.isEmpty, List.ne_nil_of_mem hf]
    · rw [hread z hz]
      exact (hunites hsF₁).values k hk hy

/-- Deciding about a member of the union loses no value that is on the side of the branch. -/
theorem reporting_discriminate {m : TypeId} (hc : isUnit s c) (hm : s.Concrete m) :
    reporting.Holds s (discriminate setting property c branch m)
      (Keeps F · property c branch m) := by
  refine reporting_store fun hs => ?_
  cases hn : s.node m with
  | object o =>
      rw [show s.objectShape? m = some o by rw [objectShape?, hn]]
      simp only [Option.bind_some]
      cases hfind : o.find? property with
      | none =>
          refine reporting_undeclared hm fun p hp => ?_
          cases hn.symm.trans hp
          exact ObjectShape.find?_eq_none_iff.mp hfind
      | some f =>
          have hf : f ∈ o.fields := List.mem_of_find?_eq_some hfind
          have hname : f.name = property := by simpa using List.find?_some hfind
          have hfield : s.Concrete f.type :=
            hm.of_components hn f.type (List.mem_append_left _ (List.mem_map_of_mem hf))
          refine reporting.bind (reporting_resolve hF ho hfield) ?_
          rintro s₁ field h₁ hs₁ ⟨hwidens, hflat⟩
          refine reporting_store fun _ => ?_
          have hmembers : ∀ k ∈ s₁.unionMembers field, s₁.Concrete k ∧ s₁.unionMembers? k = none :=
            fun k hk => ⟨hwidens.right.of_mem_unionLeaves (hflat.mem_unionLeaves ▸ hk), hflat k hk⟩
          refine reporting.bind (reporting_fitting hF ho (isUnit_mono hs h₁ hc) hmembers) ?_
          rintro s₂ fitting h₂ _ ⟨hsub, hfit⟩
          have h₁₂ := h₁.trans h₂
          have hnode := (h₁₂.node_eq m hm.known).trans hn
          refine reporting.mono (reporting_fitted hF (hm.mono h₁₂) hnode ⟨f, hf, hname⟩ fun k hk =>
            (hmembers k (hsub k hk)).1.mono h₂) ?_
          rintro s₃ kept h₃ _ ⟨hconcrete, hkept⟩
          refine ⟨hconcrete, fun hsF p x hp hx hside => hkept hsF x hx ?_⟩
          have hsF₁ := (h₂.trans h₃).trans hsF
          obtain rfl : o = p := by
            cases hp.symm.trans (((h₃.trans hsF).node_eq m (hm.mono h₁₂).known).trans hnode)
            rfl
          obtain ⟨y, hy, hyside, hread⟩ :=
            hside.exists_mem ((mem_values_object hF hp).mp hx).1.2 hf hname
          have hknown := Nat.lt_of_lt_of_le hwidens.right.known hsF₁.size_le
          obtain ⟨k, hk, hy⟩ := (exists_mem_unionLeaves_values hF hknown).mpr
            ((hwidens.encloses hsF₁).values hy)
          rw [unionLeaves_eq hsF₁ hs₁ hwidens.right.known, hflat.mem_unionLeaves] at hk
          exact ⟨k, hfit (h₃.trans hsF) k hk y hy hyside, y, hy, hread⟩
  | _ =>
      rw [show s.objectShape? m = none by rw [objectShape?, hn]]
      exact reporting_undeclared hm fun p hp => by cases hn.symm.trans hp

/-- The union keeps, of each of its members, the values that are on the side of the branch. -/
theorem reporting_byDiscriminant (hc : isUnit s c) (ht : s.Concrete t) (hflat : s.IsFlat t) :
    reporting.Holds s (byDiscriminant setting property c branch t) fun s' r => s'.Extends F →
      ∀ m ∈ F.unionLeaves t, ∀ o x, F.node m = .object o → x ∈ F.values m →
        OnSide F property c branch o x → x ∈ F.values r := by
  refine reporting_store fun hs => ?_
  have hmembers : ∀ m ∈ s.unionMembers t, s.Concrete m := fun m hm =>
    ht.of_mem_unionLeaves (hflat.mem_unionLeaves ▸ hm)
  refine reporting.bind (reporting.mapM (P := fun s' m kept => Keeps F s' property c branch m kept)
    (fun h hk => hk.mono h) fun m hm s₁ h₁ _ =>
      reporting_discriminate hF ho (isUnit_mono hs h₁ hc) ((hmembers m hm).mono h₁))
    fun s₁ kept h₁ _ hkept => ?_
  have hconcrete : ∀ r ∈ kept.filterMap id, s₁.Concrete r := by
    intro r hr
    obtain ⟨o, ho, rfl⟩ := List.mem_filterMap.mp hr
    exact forall_right_of_forall₂ hkept (fun _ _ h => h.concrete) _ ho r rfl
  refine reporting_lift (building.mono (building_unites hF hconcrete) ?_)
  rintro s₂ r h₂ _ ⟨-, -, hunites⟩ hsF m hm o x hn hx hside
  have hsF₁ := h₂.trans hsF
  rw [unionLeaves_eq (h₁.trans hsF₁) hs ht.known, hflat.mem_unionLeaves] at hm
  obtain ⟨k, hk, hkeeps⟩ := exists_of_forall₂ (p := (· = m))
    (q := fun k => Keeps F s₁ property c branch m k) hkept (fun _ _ h heq => heq ▸ h) ⟨m, hm, rfl⟩
  obtain ⟨r', rfl, hx⟩ := hkeeps.values hsF₁ o x hn hx hside
  exact (hunites hsF).values r' (List.mem_filterMap.mpr ⟨_, hk, rfl⟩) hx

theorem reporting_narrow (hc : isUnit s c) (ht : s.Concrete t) :
    reporting.Holds s (narrow setting t (.discriminant property c) branch) fun s' r =>
      s'.Extends F → F.OnlyObjects t → ∀ m ∈ F.unionLeaves t, ∀ o x, F.node m = .object o →
        x ∈ F.values m → OnSide F property c branch o x → x ∈ F.values r := by
  refine reporting.formed fun hs => ?_
  refine reporting.bind (reporting_resolve hF ho ht) ?_
  rintro s₁ u h₁ _ ⟨hwidens, hflat⟩
  refine reporting.mono (reporting_byDiscriminant hF ho (isUnit_mono hs h₁ hc) hwidens.right hflat) ?_
  intro s₂ r h₂ _ hkeeps hsF hobjects m hm o x hn hx hside
  have hleaves := (hwidens.encloses (h₂.trans hsF)).leaves hobjects
  rcases hleaves.forth m hm with rfl | ⟨k, hk, o', p, ho', hp, hshape⟩
  · cases (hF.node_intrinsic .never).symm.trans hn
  · cases hn.symm.trans ho'
    exact hkeeps hsF k hk p x hp (hshape.values_subset hF hn hp hx) (hside.widens hshape)

end Narrowing

theorem OnSide.later {s' : Store} {o : ObjectShape} {x : Datum} {m : TypeId} (hs : s.Formed)
    (h : s.Extends s') (hc : c.index < s.size) (hm : m.index < s.size) (hn : s.node m = .object o)
    (hx : OnSide s property c branch o x) : OnSide s' property c branch o x where
  undeclared := hx.undeclared
  declared hp := by
    have hside := hx.declared hp
    unfold SideOf at hside ⊢
    rwa [h.values_eq hs hc]
  absent hnone f hf hname := by
    have hlt := hs.descends m hm f.type
      (hn ▸ List.mem_append_left _ (List.mem_map_of_mem hf))
    have hside := hx.absent hnone f hf hname
    simp only [SideOf] at hside ⊢
    rwa [h.values_eq hs hc, h.values_eq hs (Nat.lt_trans hlt hm)]

/-- Narrowing a union of objects by a discriminant loses no value that is on the side of the
branch. -/
theorem narrow_discriminant_keeps (hs : s.Formed) (ho : setting.options.Positive)
    (ht : s.Concrete t) (hobjects : ∀ m ∈ s.unionLeaves t, s.isObject m)
    (hc : Narrowing.isUnit s c) (property : String) (branch : Branch) (ds : Array Diagnostic)
    {m : TypeId} {o : ObjectShape} {x : Datum} (hm : m ∈ s.unionLeaves t)
    (hn : s.node m = .object o) (hx : x ∈ s.values m) (hside : OnSide s property c branch o x) :
    let run := Narrowing.narrow setting t (.discriminant property c) branch ds s
    x ∈ run.2.values run.1.1 := by
  intro run
  have hcknown := Narrowing.known_of_isUnit hs hc
  have hmknown := (ht.of_mem_unionLeaves hm).known
  obtain ⟨hgrows, hformed⟩ : s.Extends run.2 ∧ run.2.Formed :=
    extends_narrow hs ht (Narrowing.concrete_of_isUnit hs hc).closed ds
  have hobjects : run.2.OnlyObjects t := by
    intro l hl
    rw [unionLeaves_eq hgrows hs ht.known] at hl
    have hl' := hobjects l hl
    unfold isObject objectShape? at hl'
    rw [hgrows.node_eq l (ht.of_mem_unionLeaves hl).known]
    split at hl'
    · exact .inr ⟨_, ‹_›⟩
    · cases hl'
  have hside := hside.later hs hgrows hcknown hmknown hn
  have hrun : reporting.Holds s (Narrowing.narrow setting t (.discriminant property c) branch) _ :=
    Narrowing.reporting_narrow hformed ho hc ht
  refine (hrun ds hs).2.2 (.refl _) hobjects m ?_ o x ?_ ?_ hside
  · rwa [unionLeaves_eq hgrows hs ht.known]
  · rw [hgrows.node_eq m hmknown, hn]
  · rwa [hgrows.values_eq hs hmknown]

/-- The objects with one field, which they must have. -/
def ObjectShape.single (name : String) (t : TypeId) : ObjectShape := ⟨[⟨name, t, false, false⟩], none⟩

@[simp] theorem ObjectShape.declares_single {name other : String} :
    (single name t).Declares other ↔ name = other := by
  simp [Declares, single]

theorem node_intern_single (hs : s.Formed) (name : String) (ht : t.index < s.size) :
    let made := s.intern (.object (.single name t))
    made.2.Formed ∧ made.1.index < made.2.size ∧ made.2.node made.1 = .object (.single name t) := by
  have hparts : ∀ c ∈ (Node.object (.single name t)).components, c.index < s.size := by
    simpa [Node.components, ObjectShape.single] using ht
  obtain ⟨hknown, hid⟩ := hs.node_intern (n := .object (.single name t))
  refine ⟨hs.intern hparts, hknown, ?_⟩
  obtain ⟨⟨fields, index⟩, hp, hsorted⟩ := Node.exists_object_of_identity_eq hid
  obtain rfl := List.perm_singleton.mp (ObjectShape.perm_of_sorted_eq hsorted)
  obtain rfl : index = none := ObjectShape.stringIndex_of_sorted_eq hsorted
  exact hp

/-- The union of `{ p: true }` and `{ q: number }`. -/
def twoShapes : TypeId × Store :=
  let p := Store.empty.intern (.object (.single "p" .trueLiteral))
  let q := p.2.intern (.object (.single "q" .number))
  q.2.intern (.union [p.1, q.1])

/-- A value of the first of the two shapes. -/
def firstShaped : Datum :=
  .record fun name => if name = "p" then some (.literal (.boolean true)) else none

theorem formed_twoShapes : twoShapes.2.Formed ∧ twoShapes.1.index < twoShapes.2.size ∧
    ∃ m k, twoShapes.2.node twoShapes.1 = .union [m, k] ∧
      twoShapes.2.node m = .object (.single "p" .trueLiteral) ∧
      twoShapes.2.node k = .object (.single "q" .number) := by
  let p := Store.empty.intern (.object (.single "p" .trueLiteral))
  let q := p.2.intern (.object (.single "q" .number))
  obtain ⟨hp, hpknown, hpnode⟩ : p.2.Formed ∧ p.1.index < p.2.size ∧ p.2.node p.1 = _ :=
    node_intern_single formed_empty "p" (formed_empty.known_of_isFixed rfl)
  obtain ⟨hq, hqknown, hqnode⟩ : q.2.Formed ∧ q.1.index < q.2.size ∧ q.2.node q.1 = _ :=
    node_intern_single hp "q" (hp.known_of_isFixed rfl)
  obtain ⟨hknown, hid⟩ := hq.node_intern (n := .union [p.1, q.1])
  have hgrows : p.2.Extends q.2 := extends_intern
  have hpknown' := Nat.lt_of_lt_of_le hpknown hgrows.size_le
  refine ⟨hq.intern ?_, hknown, p.1, q.1, Node.eq_of_identity_eq hid (by simp), ?_, ?_⟩
  · simpa [Node.components] using ⟨hpknown', hqknown⟩
  · exact (extends_intern.node_eq _ hpknown').trans ((hgrows.node_eq _ hpknown).trans hpnode)
  · exact (extends_intern.node_eq _ hqknown).trans hqnode

theorem unionLeaves_twoShapes {m k : TypeId} (hn : twoShapes.2.node twoShapes.1 = .union [m, k])
    (hm : twoShapes.2.node m = .object (.single "p" .trueLiteral))
    (hk : twoShapes.2.node k = .object (.single "q" .number)) :
    twoShapes.2.unionLeaves twoShapes.1 = [m, k] := by
  have hleaf : ∀ {l o}, twoShapes.2.node l = .object o → twoShapes.2.unionLeaves l = [l] :=
    fun h => unionLeaves_of_not_union (by rw [h]; rfl)
  rw [unionLeaves_union formed_twoShapes.1 hn]
  simp [hleaf hm, hleaf hk]

theorem concrete_twoShapes : twoShapes.2.Concrete twoShapes.1 := by
  obtain ⟨hs, hknown, m, k, hn, hm, hk⟩ := formed_twoShapes
  have hsingle : ∀ {l name t}, l ∈ [m, k] → twoShapes.2.node l = .object (.single name t) →
      t.isFixed → twoShapes.2.Concrete l := by
    intro l name t hl hnode ht
    have hlt := hs.descends _ hknown l (by rw [hn]; exact hl)
    refine .intro (Nat.lt_trans hlt hknown) (by rw [hnode]; rfl) fun d hd => ?_
    rw [hnode] at hd
    obtain rfl : d = t := by simpa [Node.components, ObjectShape.single] using hd
    exact .of_fixed hs ht
  refine .intro hknown (by rw [hn]; rfl) fun c hc => ?_
  rw [hn] at hc
  rcases List.mem_pair.mp hc with rfl | rfl
  · exact hsingle hc hm rfl
  · exact hsingle hc hk rfl

theorem firstShaped_mem {m : TypeId}
    (hm : twoShapes.2.node m = .object (.single "p" .trueLiteral)) :
    firstShaped ∈ twoShapes.2.values m := by
  have hs := formed_twoShapes.1
  rw [mem_values_object hs hm]
  refine ⟨⟨by simp [Datum.present, firstShaped], fun f hf => ?_, nofun⟩, .inr rfl⟩
  obtain rfl := List.mem_singleton.mp hf
  exact (mem_values_literal hs (hs.node_ofBool true)).mpr rfl

/-- Comparing `p` with `true` keeps the values of the first of two shapes. -/
theorem narrow_discriminant_keeps_shape : ∃ m ∈ twoShapes.2.unionLeaves twoShapes.1,
    ∃ o, twoShapes.2.node m = .object o ∧ firstShaped ∈ twoShapes.2.values m ∧
      OnSide twoShapes.2 "p" .trueLiteral .whenTrue o firstShaped ∧
      let run := Narrowing.narrow ⟨.empty, .standard⟩ twoShapes.1 (.discriminant "p" .trueLiteral)
        .whenTrue #[] twoShapes.2
      firstShaped ∈ run.2.values run.1.1 := by
  obtain ⟨hs, -, m, k, hn, hm, hk⟩ := formed_twoShapes
  have hleaves := unionLeaves_twoShapes hn hm hk
  have hmem : m ∈ twoShapes.2.unionLeaves twoShapes.1 := by simp [hleaves]
  have hobjects : ∀ l ∈ twoShapes.2.unionLeaves twoShapes.1, twoShapes.2.isObject l := by
    simp [hleaves, isObject, objectShape?, hm, hk]
  have hunit : Narrowing.isUnit twoShapes.2 .trueLiteral := by
    have htrue : twoShapes.2.node .trueLiteral = .literal (.boolean true) := hs.node_ofBool true
    simp [Narrowing.isUnit, isLiteral, htrue]
  have hread : firstShaped.read "p" ∈ twoShapes.2.values .trueLiteral :=
    (mem_values_literal hs (hs.node_ofBool true)).mpr rfl
  have hside : OnSide twoShapes.2 "p" .trueLiteral .whenTrue (.single "p" .trueLiteral) firstShaped :=
    ⟨by simp, fun _ => iff_of_true hread rfl, fun h => absurd h (by simp [firstShaped, Datum.get])⟩
  have hpositive : Options.standard.Positive := ⟨by decide, by decide, by decide⟩
  exact ⟨m, hmem, _, hm, firstShaped_mem hm, hside, narrow_discriminant_keeps hs hpositive
    concrete_twoShapes hobjects hunit "p" .whenTrue #[] hmem hm (firstShaped_mem hm) hside⟩

namespace Narrowing

/-- A member that does not declare the field is dropped where the condition holds. -/
theorem reporting_discriminate_undeclared {m : TypeId}
    (h : ∀ o, s.node m = .object o → ¬o.Declares property) :
    reporting.Holds s (discriminate setting property c .whenTrue m) fun s' kept =>
      s' = s ∧ kept = none := by
  refine reporting_store fun _ => ?_
  cases hn : s.node m with
  | object o =>
      rw [show s.objectShape? m = some o by rw [objectShape?, hn]]
      simp only [Option.bind_some, ObjectShape.find?_eq_none_iff.mpr (h o hn)]
      exact reporting.pure ⟨rfl, rfl⟩
  | _ =>
      rw [show s.objectShape? m = none by rw [objectShape?, hn]]
      exact reporting.pure ⟨rfl, rfl⟩

theorem reporting_mapM_undeclared {ms : List TypeId}
    (h : ∀ m ∈ ms, ∀ o, s.node m = .object o → ¬o.Declares property) :
    reporting.Holds s (ms.mapM (discriminate setting property c .whenTrue)) fun _ kept =>
      kept.filterMap id = [] := by
  induction ms with
  | nil => exact reporting.pure rfl
  | cons m rest ih =>
      obtain ⟨hm, hrest⟩ := List.forall_mem_cons.mp h
      simp only [List.mapM_cons]
      refine reporting.bind (reporting_discriminate_undeclared hm) ?_
      rintro s₁ kept _ _ ⟨rfl, rfl⟩
      exact reporting.bind (ih hrest) fun s₂ kept _ _ hkept => reporting.pure hkept

/-- Where no object of a union declares the field, nothing is left where the condition holds,
whatever the field is compared with. -/
theorem reporting_narrow_undeclared (hF : F.Formed) (ho : setting.options.Positive)
    (hc : isUnit s c) (ht : s.Concrete t) :
    reporting.Holds s (narrow setting t (.discriminant property c) .whenTrue) fun s' r =>
      s'.Extends F → F.OnlyObjects t →
        (∀ l ∈ F.unionLeaves t, ∀ o, F.node l = .object o → ¬o.Declares property) →
        r = .never := by
  refine reporting.formed fun hs => reporting.bind (reporting_resolve hF ho ht) ?_
  rintro s₁ u h₁ hs₁ ⟨hwidens, hflat⟩
  by_cases hundeclared : s₁.Extends F ∧ F.OnlyObjects t ∧
      ∀ l ∈ F.unionLeaves t, ∀ o, F.node l = .object o → ¬o.Declares property
  · obtain ⟨hsF, hobjects, hundeclared⟩ := hundeclared
    have hmembers : ∀ m ∈ s₁.unionMembers u, ∀ p, s₁.node m = .object p → ¬p.Declares property := by
      intro m hm p hp
      rw [← hflat.mem_unionLeaves] at hm
      rw [← hsF.node_eq m (hwidens.right.of_mem_unionLeaves hm).known] at hp
      rw [← unionLeaves_eq hsF hs₁ hwidens.right.known] at hm
      rcases ((hwidens.encloses hsF).leaves hobjects).back m hm with rfl | ⟨l, hl, o, q, hl', hq, h⟩
      · cases (hF.node_intrinsic .never).symm.trans hp
      · cases hp.symm.trans hq
        exact fun hdeclares => hundeclared l hl o hl' ((h.declares_iff property).mp hdeclares)
    refine reporting_store fun _ => reporting.bind (reporting_mapM_undeclared hmembers) ?_
    rintro s₂ kept _ _ hkept
    rw [hkept]
    exact reporting_lift fun hs₂ => ⟨.refl s₂, hs₂, fun _ _ _ => rfl⟩
  · refine reporting.mono (reporting_byDiscriminant hF ho (isUnit_mono hs h₁ hc) hwidens.right hflat)
      fun s₂ r h₂ _ _ hsF hobjects h => ?_
    exact absurd ⟨h₂.trans hsF, hobjects, h⟩ hundeclared

end Narrowing

/-- Comparing a field that no object of the union declares with `undefined`, which is what reading it
gives, leaves nothing. -/
theorem narrow_discriminant_drops_undeclared :
    (∀ m ∈ twoShapes.2.unionLeaves twoShapes.1, twoShapes.2.isObject m) ∧
    (∃ m ∈ twoShapes.2.unionLeaves twoShapes.1, ∃ o, twoShapes.2.node m = .object o ∧
      firstShaped ∈ twoShapes.2.values m ∧ ∀ name, firstShaped.get name ≠ none → o.Declares name) ∧
    Narrowing.isUnit twoShapes.2 .undefined ∧
    firstShaped.read "z" ∈ twoShapes.2.values .undefined ∧
    let run := Narrowing.narrow ⟨.empty, .standard⟩ twoShapes.1 (.discriminant "z" .undefined)
      .whenTrue #[] twoShapes.2
    firstShaped ∉ run.2.values run.1.1 := by
  obtain ⟨hs, hknown, m, k, hn, hm, hk⟩ := formed_twoShapes
  have hleaves := unionLeaves_twoShapes hn hm hk
  have hunit : Narrowing.isUnit twoShapes.2 .undefined := by simp [Narrowing.isUnit]
  refine ⟨by simp [hleaves, isObject, objectShape?, hm, hk],
    ⟨m, by simp [hleaves], _, hm, firstShaped_mem hm, fun name hname => ?_⟩, hunit, ?_, ?_⟩
  · rw [ObjectShape.declares_single]
    by_contra hne
    exact hname (if_neg fun h => hne h.symm)
  · exact (mem_values_intrinsic hs .undefined).mpr rfl
  · intro run
    have hpositive : Options.standard.Positive := ⟨by decide, by decide, by decide⟩
    obtain ⟨hgrows, hformed⟩ : twoShapes.2.Extends run.2 ∧ run.2.Formed :=
      extends_narrow hs concrete_twoShapes (Narrowing.concrete_of_isUnit hs hunit).closed #[]
    have hleavesLater : run.2.unionLeaves twoShapes.1 = [m, k] := by
      rw [unionLeaves_eq hgrows hs hknown, hleaves]
    have hobjects : ∀ l ∈ run.2.unionLeaves twoShapes.1, ∃ o, run.2.node l = .object o ∧
        ¬o.Declares "z" := by
      intro l hl
      rw [hleavesLater] at hl
      rw [hgrows.node_eq l (concrete_twoShapes.component (by rw [hn]; exact hl)).known]
      rcases List.mem_pair.mp hl with rfl | rfl
      · exact ⟨_, hm, by simp⟩
      · exact ⟨_, hk, by simp⟩
    have hnever : run.1.1 = .never := by
      refine (Narrowing.reporting_narrow_undeclared (c := .undefined) hformed hpositive hunit
        concrete_twoShapes #[] hs).2.2 (.refl _) (fun l hl => ?_) fun l hl o ho => ?_
      · obtain ⟨o, ho, -⟩ := hobjects l hl
        exact .inr ⟨o, ho⟩
      · obtain ⟨o', ho', hundeclared⟩ := hobjects l hl
        cases ho.symm.trans ho'
        exact hundeclared
    rw [hnever]
    exact fun h => (mem_values_intrinsic hformed .never).mp h

end TypeResolution
