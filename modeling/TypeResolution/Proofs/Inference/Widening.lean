import TypeResolution.Inference.Basic
import TypeResolution.Proofs.Normal.Absorption

/-!
Widening gives types without literals: none is left in a union, in a mutable field, in the element
of an array or in the result of a function, at any depth. Widening such a type changes nothing, and
a union of such types is such a type.
-/

namespace TypeResolution

open Store

/-- The components that widening goes to. -/
def Node.widening : Node → List TypeId
  | .union members => members
  | .object shape => (shape.fields.filter (!·.readonly)).map (·.type)
  | .array element => [element]
  | .function shape => [shape.result]
  | _ => []

theorem Node.widening_subset (n : Node) : n.widening ⊆ n.components := by
  intro c hc
  cases n with
  | object shape =>
      obtain ⟨f, hf, rfl⟩ := List.mem_map.mp hc
      exact List.mem_append_left _ (List.mem_map_of_mem (List.mem_of_mem_filter hf))
  | function shape => exact List.mem_append_right _ hc
  | union members => exact hc
  | array element => exact hc
  | _ => cases hc

theorem Node.mem_widening_of_identity_eq {m n : Node} (h : m.identity = n.identity) (c : TypeId) :
    c ∈ m.widening ↔ c ∈ n.widening := by
  rcases Node.eq_or_objects_of_identity_eq h with rfl | ⟨o, p, rfl, rfl, hop⟩
  · exact Iff.rfl
  · have hperm := ((ObjectShape.perm_of_sorted_eq hop).filter (!·.readonly)).map Field.type
    exact hperm.mem_iff

namespace Inference

variable {s s' : Store} {t : TypeId} {ts : List TypeId}

/-- No literal is left, and the unions on the way are in normal form. -/
inductive Widened (s : Store) : TypeId → Prop
  | intro {t : TypeId} (known : t.index < s.size) (plain : ∀ v, s.node t ≠ .literal v)
      (form : InUnionForm s t) (parts : ∀ c ∈ (s.node t).widening, Widened s c) : Widened s t

namespace Widened

theorem known (h : Widened s t) : t.index < s.size := by
  cases h
  assumption

theorem plain (h : Widened s t) (v : Literal) : s.node t ≠ .literal v := by
  cases h with
  | intro _ plain _ _ => exact plain v

theorem form (h : Widened s t) : InUnionForm s t := by
  cases h
  assumption

theorem part {c : TypeId} (h : Widened s t) (hc : c ∈ (s.node t).widening) : Widened s c := by
  cases h with
  | intro _ _ _ parts => exact parts c hc

theorem mono (h : s.Extends s') (ht : Widened s t) : Widened s' t := by
  induction ht with
  | @intro t known plain form parts ih =>
      have hnode := h.node_eq t known
      refine .intro (Nat.lt_of_lt_of_le known h.size_le) ?_ (fun ms hn => ?_) ?_
      · rwa [hnode]
      · rw [hnode] at hn
        obtain ⟨hmany, hsorted, hform⟩ := form ms hn
        refine ⟨hmany, hsorted.congr h.numbers_eq, hform.congr fun m hm => h.node_eq m (parts m ?_).known⟩
        rw [hn]
        exact hm
      · rwa [hnode]

/-- A type without parts that widening goes to. -/
theorem of_leaf (ht : t.index < s.size) (hplain : ∀ v, s.node t ≠ .literal v)
    (hunion : (s.node t).unionMembers? = none) (hparts : (s.node t).widening = []) :
    Widened s t := by
  refine .intro ht hplain (InUnionForm.of_not_union hunion) fun c hc => ?_
  rw [hparts] at hc
  cases hc

theorem intrinsic (hs : s.Formed) (k : Intrinsic) : Widened s k.typeId := by
  have hn := hs.node_intrinsic k
  have hknown := hs.known_of_isFixed (t := k.typeId) (by cases k <;> rfl)
  exact of_leaf hknown (by simp [hn]) (by rw [hn]; rfl) (by rw [hn]; rfl)

theorem error (hs : s.Formed) : Widened s .error := by
  have hn : s.node .error = .error := hs.node_fixed (i := 0) (by decide)
  exact of_leaf (hs.known_of_isFixed rfl) (by simp [hn]) (by rw [hn]; rfl) (by rw [hn]; rfl)

theorem primitive (hs : s.Formed) (v : Literal) : Widened s v.primitive := by
  cases v with
  | string _ => exact intrinsic hs .string
  | number _ => exact intrinsic hs .number
  | boolean _ => exact intrinsic hs .boolean

end Widened

/-- A union of types without literals has none. -/
theorem widened_union (hts : ∀ t ∈ ts, Widened s t) :
    building.Holds s (Build.union ts) Widened := by
  refine building.formed fun hs => ?_
  have hknown : ∀ t ∈ ts, t.index < s.size := fun t ht => (hts t ht).known
  refine building.mono (building_and (building_joined hknown) (building_inUnionForm hknown))
    fun s' r h hs' hr => ?_
  obtain ⟨⟨hr, hjoined⟩, hform⟩ := hr
  have hflat : ∀ l ∈ TypeId.sortUnique s.numbers (ts.flatMap s.unionLeaves), Widened s l := by
    refine forall_mem_flatLeaves (fun u ms hu hn m hm => hu.part ?_) hts
    rw [Node.eq_union_of_members hn]
    exact hm
  generalize TypeId.sortUnique s.numbers (ts.flatMap s.unionLeaves) = flat at hjoined hflat
  have hleft : ∀ m ∈ s.absorbLiterals (flat.filter (· ≠ .never)), Widened s m := by
    intro m hm
    rcases mem_of_mem_absorbLiterals hm with hm | ⟨rfl, -, -⟩
    · exact hflat m (List.mem_filter.mp hm).1
    · exact .intrinsic hs .boolean
  cases hjoined with
  | error _ => exact .error hs'
  | any _ => exact .intrinsic hs' .any
  | unknown _ => exact .intrinsic hs' .unknown
  | never _ => exact .intrinsic hs' .never
  | single hone => exact (hleft r (hone ▸ List.mem_singleton_self r)).mono h
  | @union _ ms _ _ _ hms _ hn =>
      subst hms
      refine .intro hr (by simp [hn]) hform fun m hm => ?_
      rw [hn] at hm
      exact (hleft m hm).mono h

/-- An interned node is without literals when its parts are. -/
theorem widened_intern {n : Node} (hknown : ∀ c ∈ n.components, c.index < s.size)
    (hplain : ∀ v, n ≠ .literal v) (hunion : n.unionMembers? = none)
    (hparts : ∀ c ∈ n.widening, Widened s c) : building.Holds s (Build.intern n) Widened := by
  refine building.formed fun hs => building.mono (building_intern hknown) fun s' r h _ hr => ?_
  obtain ⟨hr, hid⟩ := hr
  refine .intro hr (fun v hv => ?_) (InUnionForm.of_not_union ?_) fun c hc => ?_
  · rcases Node.eq_or_objects_of_identity_eq hid with he | ⟨o, p, ho, -, -⟩
    · exact hplain v (he ▸ hv)
    · rw [hv] at ho
      cases ho
  · rcases Node.eq_or_objects_of_identity_eq hid with he | ⟨o, p, ho, -, -⟩
    · rw [he]
      exact hunion
    · rw [ho]
      rfl
  · exact (hparts c ((Node.mem_widening_of_identity_eq hid c).mp hc)).mono h

section widen

variable {fuel : Nat}

/-- A field of a widened object: literals may be left if it is readonly. -/
structure FieldWidened (s : Store) (f : Field) : Prop where
  known : f.type.index < s.size
  mutable : f.readonly = false → Widened s f.type

theorem FieldWidened.mono {f : Field} (h : s.Extends s') (hf : FieldWidened s f) :
    FieldWidened s' f where
  known := Nat.lt_of_lt_of_le hf.known h.size_le
  mutable hmutable := (hf.mutable hmutable).mono h

theorem widened_widenAt (ht : t.index < s.size) (hfuel : t.index < fuel) :
    building.Holds s (widenAt fuel t) Widened := by
  induction fuel generalizing s t with
  | zero => exact absurd hfuel (Nat.not_lt_zero _)
  | succ fuel ih =>
      refine building.formed fun hs => ?_
      have hpart : ∀ c ∈ (s.node t).components, ∀ s₁, s.Extends s₁ →
          building.Holds s₁ (widenAt fuel c) Widened := by
        intro c hc s₁ h₁
        have hlt := hs.descends t ht c hc
        have hknown := Nat.lt_of_lt_of_le (Nat.lt_trans hlt ht) h₁.size_le
        exact ih hknown (Nat.lt_of_lt_of_le hlt (Nat.le_of_lt_succ hfuel))
      have hknown : ∀ c ∈ (s.node t).components, c.index < s.size := fun c hc =>
        Nat.lt_trans (hs.descends t ht c hc) ht
      unfold widenAt
      refine building_get ?_
      cases hn : s.node t with
      | literal value => exact building.pure (.primitive hs value)
      | union members =>
          rw [hn] at hpart
          refine building.bind (building.mapM (P := fun s' _ r => Widened s' r)
            (fun h hr => hr.mono h) fun c hc s₁ h₁ _ => hpart c hc s₁ h₁) fun s₁ rs _ _ hrs => ?_
          exact widened_union (forall_right_of_forall₂ hrs fun _ _ h => h)
      | object shape =>
          rw [hn] at hpart hknown
          have hfield : ∀ f ∈ shape.fields, f.type ∈ (Node.object shape).components := fun f hf =>
            List.mem_append_left _ (List.mem_map_of_mem hf)
          refine building.bind (building.mapM (P := fun s' _ g => FieldWidened s' g)
            (fun h hg => hg.mono h) fun f hf s₁ h₁ _ => ?_) fun s₁ gs h₁ _ hgs => ?_
          · split
            · rename_i hreadonly
              have hf := Nat.lt_of_lt_of_le (hknown _ (hfield f hf)) h₁.size_le
              exact building.pure ⟨hf, by simp [hreadonly]⟩
            · exact building.bind (hpart _ (hfield f hf) s₁ h₁) fun s₂ r _ _ hr =>
                building.pure ⟨hr.known, fun _ => hr⟩
          have hgs : ∀ g ∈ gs, FieldWidened s₁ g := forall_right_of_forall₂ hgs fun _ _ h => h
          refine widened_intern (fun c hc => ?_) (by simp) rfl fun c hc => ?_
          · rcases List.mem_append.mp hc with hc | hc
            · obtain ⟨g, hg, rfl⟩ := List.mem_map.mp hc
              exact (hgs g hg).known
            · exact Nat.lt_of_lt_of_le (hknown c (List.mem_append_right _ hc)) h₁.size_le
          · obtain ⟨g, hg, rfl⟩ := List.mem_map.mp hc
            obtain ⟨hg, hmutable⟩ := List.mem_filter.mp hg
            exact (hgs g hg).mutable (by simpa using hmutable)
      | array element =>
          rw [hn] at hpart
          refine building.bind (hpart element (by simp [Node.components]) s (.refl s))
            fun s₁ r _ _ hr => ?_
          exact widened_intern (by simpa [Node.components] using hr.known) (by simp) rfl
            (by simpa [Node.widening] using hr)
      | function shape =>
          rw [hn] at hpart hknown
          refine building.bind (hpart shape.result (by simp [Node.components]) s (.refl s))
            fun s₁ r h₁ _ hr => ?_
          refine widened_intern (fun c hc => ?_) (by simp) rfl (by simpa [Node.widening] using hr)
          rcases List.mem_append.mp hc with hc | hc
          · exact Nat.lt_of_lt_of_le (hknown c (List.mem_append_left _ hc)) h₁.size_le
          · exact List.mem_singleton.mp hc ▸ hr.known
      | _ => exact building.pure (.of_leaf ht (by simp [hn]) (by rw [hn]; rfl) (by rw [hn]; rfl))

/-- Widening leaves no literals. -/
theorem widened_widen (ht : t.index < s.size) : building.Holds s (widen t) Widened :=
  widened_widenAt ht (Nat.lt_succ_self _)

section idle

variable {α β : Type}

theorem bind_idle {m : Build α} {a : α} {f : α → Build β} (h : m s = (a, s)) :
    (m >>= f) s = f a s := by
  change f (m s).1 (m s).2 = f a s
  rw [h]

theorem mapM_idle {f : α → Build α} {l : List α} (h : ∀ a ∈ l, f a s = (a, s)) :
    l.mapM f s = (l, s) := by
  induction l with
  | nil => rfl
  | cons a rest ih =>
      rw [List.mapM_cons, bind_idle (h a (by simp)), bind_idle (ih fun b hb => h b (by simp [hb]))]
      rfl

end idle

/-- Where no literals are left, widening has nothing to do. -/
theorem widenAt_of_widened (hs : s.Formed) (ht : Widened s t) : widenAt fuel t s = (t, s) := by
  induction ht generalizing fuel with
  | @intro t known plain form parts ih =>
      cases fuel with
      | zero => rfl
      | succ fuel =>
          have hnode : Build.node t s = (s.node t, s) := rfl
          unfold widenAt
          rw [bind_idle hnode]
          cases hn : s.node t with
          | literal v => exact absurd hn (plain v)
          | union members =>
              rw [hn] at ih
              obtain ⟨hmany, hsorted, hform⟩ := form members hn
              have hmembers : members.mapM (widenAt fuel) s = (members, s) :=
                mapM_idle fun m hm => ih m hm
              dsimp only
              rw [bind_idle hmembers]
              exact union_again hs known hn hmany hsorted hform
          | object shape =>
              rw [hn] at ih
              dsimp only
              rw [bind_idle (mapM_idle fun f hf => ?_)]
              · exact hs.intern_node known hn
              · split
                · rfl
                · rename_i hmutable
                  have hpart : f.type ∈ (Node.object shape).widening :=
                    List.mem_map_of_mem (List.mem_filter.mpr ⟨hf, by simpa using hmutable⟩)
                  rw [bind_idle (ih _ hpart)]
                  rfl
          | array element =>
              rw [hn] at ih
              dsimp only
              rw [bind_idle (ih element (List.mem_singleton_self _))]
              exact hs.intern_node known hn
          | function shape =>
              rw [hn] at ih
              dsimp only
              rw [bind_idle (ih shape.result (List.mem_singleton_self _))]
              exact hs.intern_node known hn
          | _ => rfl

theorem widen_of_widened (hs : s.Formed) (ht : Widened s t) : widen t s = (t, s) :=
  widenAt_of_widened hs ht

/-- Widening keeps what holds of the components of types and of what is made of them. -/
theorem kept_widenAt {K : Store → TypeId → Prop} (M : Normal.Kept K) (ht : K s t) :
    building.Holds s (widenAt fuel t) K := by
  induction fuel generalizing s t with
  | zero => exact building.pure ht
  | succ fuel ih =>
      refine building.formed fun hs => ?_
      have hpart : (s.node t).isStructural → ∀ c ∈ (s.node t).components, K s c :=
        fun hn c hc => M.component ht hn hc
      unfold widenAt
      refine building_get ?_
      cases hn : s.node t with
      | literal value => exact building.pure (M.fixed hs (by cases value <;> rfl))
      | union members =>
          rw [hn] at hpart
          refine building.bind (building.mapM (P := fun s' _ r => K s' r) (fun h hr => M.mono h hr)
            fun c hc s₁ h₁ _ => ih (M.mono h₁ (hpart rfl c hc))) fun s₁ rs _ _ hrs => ?_
          exact M.union (forall_right_of_forall₂ hrs fun _ _ h => h)
      | object shape =>
          rw [hn] at hpart
          refine building.bind (building.mapM (P := fun s' _ (g : Field) => K s' g.type)
            (fun h hg => M.mono h hg) fun f hf s₁ h₁ _ => ?_) fun s₁ gs h₁ _ hgs => ?_
          · have hf : f.type ∈ (Node.object shape).components :=
              List.mem_append_left _ (List.mem_map_of_mem hf)
            have hf := M.mono h₁ (hpart rfl _ hf)
            split
            · exact building.pure hf
            · exact building.bind (ih hf) fun s₂ r _ _ hr => building.pure hr
          · refine building.mono (M.makes_object fun c hc => ?_) fun _ _ _ _ h => h.1
            rcases List.mem_append.mp hc with hc | hc
            · obtain ⟨g, hg, rfl⟩ := List.mem_map.mp hc
              exact forall_right_of_forall₂ hgs (q := fun g => K s₁ g.type) (fun _ _ h => h) g hg
            · exact M.mono h₁ (hpart rfl c (List.mem_append_right _ hc))
      | array element =>
          rw [hn] at hpart
          have helement := hpart rfl element (List.mem_singleton_self _)
          refine building.bind (ih helement) fun s₁ r _ _ hr => ?_
          exact M.intern rfl (by simp) (by simpa [Node.components] using hr) fun _ _ _ => trivial
      | function shape =>
          rw [hn] at hpart
          have hresult : K s shape.result :=
            hpart rfl _ (List.mem_append_right _ (List.mem_singleton_self _))
          refine building.bind (ih hresult) fun s₁ r h₁ _ hr => ?_
          refine M.intern rfl (by simp) (fun c hc => ?_) fun _ _ _ => trivial
          rcases List.mem_append.mp hc with hc | hc
          · exact M.mono h₁ (hpart rfl c (List.mem_append_left _ hc))
          · exact List.mem_singleton.mp hc ▸ hr
      | _ => exact building.pure ht

end widen

end Inference

end TypeResolution
