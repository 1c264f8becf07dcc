import TypeResolution.Proofs.Normal.Interpretation
import TypeResolution.Proofs.Outcomes
import TypeResolution.Proofs.Replay.Mirror

/-!
Unions and intersections of definite types are made so that every interpretation of a later store
gives them the union and the intersection of the sets of their members. For an intersection this
holds whether or not it is distributed over its unions.
-/

namespace TypeResolution

open Store

section members

variable {F s : Store} {V : Type} (I : Interpretation F V) {n : Nat} {ts : List TypeId}

/-- A definite type whose values, in every later store, are those that satisfy `p`. -/
def Denotes (n : Nat) (p : V → Prop) (s : Store) (t : TypeId) : Prop :=
  Definite s n t ∧ (s.Extends F → ∀ x, x ∈ I.set t ↔ p x)

variable {I}

theorem Denotes.mono {p : V → Prop} {s' : Store} {t : TypeId} (h : Denotes I n p s t)
    (hs : s.Extends s') : Denotes I n p s' t :=
  ⟨h.1.mono hs, fun hF => h.2 (hs.trans hF)⟩

theorem Denotes.congr {p q : V → Prop} {t : TypeId} (h : Denotes I n p s t)
    (hpq : s.Extends F → ∀ x, p x ↔ q x) : Denotes I n q s t :=
  ⟨h.1, fun hF x => (h.2 hF x).trans (hpq hF x)⟩

theorem denotes_never (hs : s.Formed) {p : V → Prop} (h : s.Extends F → ∀ x, ¬p x) :
    Denotes I n p s .never := by
  refine ⟨.of_fixed hs rfl (by decide) (by decide), fun hF x => ?_⟩
  simpa [I.set_never] using h hF x

theorem denotes_unknown (hs : s.Formed) {p : V → Prop} (h : s.Extends F → ∀ x, p x) :
    Denotes I n p s .unknown := by
  refine ⟨.of_fixed hs rfl (by decide) (by decide), fun hF x => ?_⟩
  simpa [I.set_unknown] using h hF x

theorem building_intern_intersection (hts : ∀ t ∈ ts, Definite s n t) :
    building.Holds s (Build.intern (.intersection ts))
      (Denotes I n fun x => ∀ t ∈ ts, x ∈ I.set t) := by
  have hnode : building.Holds s (Build.intern (.intersection ts)) fun s' t =>
      t.index < s'.size ∧ s'.node t = .intersection ts :=
    building_node (fun c hc => (hts c hc).known) (by simp)
  refine building.mono hnode fun s' t h' _ ht => ?_
  refine ⟨.intersection ht.1 ht.2 fun m hm => (hts m hm).mono h', fun hF x => ?_⟩
  exact I.mem_intersection ((hF.node_eq t ht.1).trans ht.2)

/-- Functions and arrays are not taken apart. -/
theorem building_intern_leaf {node : Node}
    (hnode : (∃ f, node = .function f) ∨ ∃ c, node = .array c)
    (hknown : ∀ c ∈ node.components, c.index < s.size) :
    building.Holds s (Build.intern node) fun s' t => Definite s' n t ∧ s'.node t = node := by
  have hobject : ∀ o, node ≠ .object o := by
    rcases hnode with ⟨_, rfl⟩ | ⟨_, rfl⟩ <;> simp
  refine building.mono (building_node hknown hobject) fun s' t _ hs' ht => ?_
  have hn := ht.2
  have hany : t ≠ .any := by
    rintro rfl
    have hany : s'.node .any = .intrinsic .any := hs'.node_intrinsic .any
    rcases hnode with ⟨_, rfl⟩ | ⟨_, rfl⟩ <;> cases hany.symm.trans hn
  have herror : t ≠ .error := by
    rintro rfl
    have herror : s'.node .error = .error := hs'.node_fixed (i := 0) (by decide)
    rcases hnode with ⟨_, rfl⟩ | ⟨_, rfl⟩ <;> cases herror.symm.trans hn
  refine ⟨.leaf ht.1 hany herror ?_ ?_ ?_, hn⟩ <;> rw [hn] <;>
    rcases hnode with ⟨_, rfl⟩ | ⟨_, rfl⟩ <;> simp

theorem hasShape_congr {o p : ObjectShape} (h : o.sorted = p.sorted) (x : V) :
    HasShape I.set I.get x o ↔ HasShape I.set I.get x p := by
  have hperm := ObjectShape.perm_of_sorted_eq h
  have hindex := ObjectShape.stringIndex_of_sorted_eq h
  constructor
  · exact fun hx => ⟨fun f hf => hx.fields f (hperm.mem_iff.mpr hf), hindex ▸ hx.index⟩
  · exact fun hx => ⟨fun f hf => hx.fields f (hperm.mem_iff.mp hf), hindex ▸ hx.index⟩

theorem building_object {o : ObjectShape} (ho : ∀ c ∈ (Node.object o).components, Definite s n c) :
    building.Holds s (Build.object o) (Denotes I (n + 1) fun x =>
      x ∉ I.set .null ∧ x ∉ I.set .undefined ∧ HasShape I.set I.get x o) := by
  refine building.mono (building_intern fun c hc => (ho c hc).known) fun s' t h' _ ht => ?_
  obtain ⟨p, hn, hp⟩ := Node.exists_object_of_identity_eq ht.2
  refine ⟨.object ht.1 hn fun c hc => (ho c ?_).mono h', fun hF x => ?_⟩
  · exact (Node.mem_components_of_identity_eq (m := .object p) (n := .object o)
      (congrArg Node.object hp) c).mp hc
  · rw [I.mem_object ((hF.node_eq t ht.1).trans hn), hasShape_congr hp]

theorem building_rawIntersection (hs : s.Formed) (hts : ∀ t ∈ ts, Definite s n t) :
    building.Holds s (Build.rawIntersection ts) (Denotes I n fun x => ∀ t ∈ ts, x ∈ I.set t) := by
  have hmem : ∀ {t}, t ∈ TypeId.sortUnique s.numbers ts ↔ t ∈ ts := TypeId.mem_sortUnique
  refine building_members ?_
  simp only [← hmem] at hts ⊢
  generalize TypeId.sortUnique s.numbers ts = us at hts ⊢
  match us with
  | [] => exact building.pure (denotes_unknown hs (by simp))
  | [t] => exact building.pure ⟨hts t (by simp), by simp⟩
  | t :: u :: rest => exact building_intern_intersection hts

theorem building_union (hs : s.Formed) (hts : ∀ t ∈ ts, Definite s n t) :
    building.Holds s (Build.union ts) (Denotes I n fun x => ∃ t ∈ ts, x ∈ I.set t) := by
  refine building.mono (building_joined fun t ht => (hts t ht).known) fun s' r h' hs' hr => ?_
  have hflat := definite_unionLeaves hts
  have hmeaning : s.Extends F → ∀ x,
      (∃ l ∈ TypeId.sortUnique s.numbers (ts.flatMap s.unionLeaves), x ∈ I.set l) ↔ ∃ t ∈ ts, x ∈ I.set t :=
    fun hF x => exists_mem_unionLeaves I hs hF fun t ht => (hts t ht).known
  generalize TypeId.sortUnique s.numbers (ts.flatMap s.unionLeaves) = flat at hflat hmeaning hr
  have hrest : ∀ t ∈ flat.filter (· ≠ .never), Definite s n t := fun t ht =>
    hflat t (List.mem_filter.mp ht).1
  have habsorbed : ∀ t ∈ s.absorbLiterals (flat.filter (· ≠ .never)), Definite s n t := by
    intro t ht
    rcases mem_of_mem_absorbLiterals ht with ht | ⟨rfl, -, -⟩
    · exact hrest t ht
    · exact .of_fixed hs rfl (by decide) (by decide)
  have hvalues : s.Extends F → ∀ x,
      (∃ t ∈ s.absorbLiterals (flat.filter (· ≠ .never)), x ∈ I.set t) ↔ ∃ t ∈ ts, x ∈ I.set t := by
    intro hF x
    rw [exists_mem_absorbLiterals I hs hF fun t ht => (hrest t ht).known, ← hmeaning hF x]
    refine exists_congr fun t => ?_
    simp only [List.mem_filter, decide_eq_true_eq, and_assoc, and_congr_right_iff,
      and_iff_right_iff_imp]
    rintro _ hx rfl
    simp [I.set_never] at hx
  obtain ⟨hknown, hr⟩ := hr
  cases hr with
  | error h => exact absurd rfl ((hflat _ h).ne_error hs)
  | any h => exact absurd rfl ((hflat _ h).ne_any hs)
  | unknown h =>
      refine denotes_unknown hs' fun hF x => (hmeaning (h'.trans hF) x).mp ⟨.unknown, h, ?_⟩
      simp [I.set_unknown]
  | never h =>
      rw [h] at hvalues
      exact denotes_never hs' fun hF x => by simpa using (hvalues (h'.trans hF) x).mpr.mt
  | single h =>
      rw [h] at habsorbed hvalues
      exact ⟨(habsorbed r (by simp)).mono h', fun hF x => by simpa using hvalues (h'.trans hF) x⟩
  | union _ _ _ h _ hn =>
      rw [h] at habsorbed hvalues
      refine ⟨.union hknown hn fun m hm => (habsorbed m hm).mono h', fun hF x => ?_⟩
      rw [I.mem_union ((hF.node_eq r hknown).trans hn)]
      exact hvalues (h'.trans hF) x

end members

namespace Normal

section merge

variable {F s : Store} {V : Type} (I : Interpretation F V) {k : Nat}
  {meet : List TypeId → Reporting TypeId} {site : Option SourceTag}

/-- From a store on, `meet` makes intersections of types that nest objects at most `k` deep. -/
def Meets (k : Nat) (s : Store) (meet : List TypeId → Reporting TypeId) : Prop :=
  ∀ s₁, s.Extends s₁ → s₁.Formed → ∀ ts, (∀ t ∈ ts, Definite s₁ k t) →
    reporting.Holds s₁ (meet ts) (Denotes I k fun x => ∀ t ∈ ts, x ∈ I.set t)

variable {I}

theorem Meets.mono {s' : Store} (h : Meets I k s meet) (hs : s.Extends s') : Meets I k s' meet :=
  fun s₁ h₁ => h s₁ (hs.trans h₁)

theorem reporting_reportConflict {name : String} {first second : Owned} :
    reporting.Holds s (reportConflict site name first second) fun s' _ => s.Extends s' :=
  fun _ hs => ⟨.refl s, hs, .refl s⟩

variable (hmeet : Meets I k s meet) (hs : s.Formed)

include hmeet hs

theorem reporting_meetFields {old new : Owned} (hname : old.field.name = new.field.name)
    (hold : Definite s k old.field.type) (hnew : Definite s k new.field.type) :
    reporting.Holds s (meetFields meet site old new) fun s' f =>
      Definite s' k f.field.type ∧ (s'.Extends F → ∀ x, HasField I.set I.get x f.field ↔
        HasField I.set I.get x old.field ∧ HasField I.set I.get x new.field) := by
  have hrest : ∀ s₁ merged, s.Extends s₁ →
      Denotes I k (fun x => x ∈ I.set old.field.type ∧ x ∈ I.set new.field.type) s₁ merged →
      reporting.Holds s₁ (do
        if merged = .never && old.field.type ≠ .never && new.field.type ≠ .never then
          reportConflict site new.field.name old new
        return { old with
          field := { old.field with
            type := merged
            optional := old.field.optional && new.field.optional
            readonly := old.field.readonly || new.field.readonly } }) fun s' f =>
        Definite s' k f.field.type ∧ (s'.Extends F → ∀ x, HasField I.set I.get x f.field ↔
          HasField I.set I.get x old.field ∧ HasField I.set I.get x new.field) := by
    intro s₁ merged _ hm
    have hresult : ∀ s₂, s₁.Extends s₂ → Definite s₂ k merged ∧ (s₂.Extends F → ∀ x,
        HasField I.set I.get x { old.field with
          type := merged
          optional := old.field.optional && new.field.optional
          readonly := old.field.readonly || new.field.readonly } ↔
          HasField I.set I.get x old.field ∧ HasField I.set I.get x new.field) := by
      intro s₂ h₂
      refine ⟨hm.1.mono h₂, fun hF x => ?_⟩
      simp only [HasField, ← hname]
      cases I.get x old.field.name with
      | some y => exact hm.2 (h₂.trans hF) y
      | none => simp
    split
    · exact reporting.bind reporting_reportConflict fun s₂ _ h₂ _ _ => reporting.pure (hresult s₂ h₂)
    · exact reporting.pure (hresult s₁ (.refl s₁))
  unfold meetFields
  split
  · rename_i heq
    refine reporting.bind (reporting.pure ?_) fun s₁ merged h₁ _ => hrest s₁ merged h₁
    exact ⟨hold, fun _ x => by simp [heq]⟩
  · refine reporting.bind (hmeet s (.refl s) hs _ (by simp [hold, hnew])) fun s₁ merged h₁ _ hm => ?_
    exact hrest s₁ merged h₁ (hm.congr fun _ x => by simp)

theorem reporting_mergeField {new : Owned} {fields : List Owned}
    (hnew : Definite s k new.field.type) (hfields : ∀ f ∈ fields, Definite s k f.field.type) :
    reporting.Holds s (mergeField meet site new fields) fun s' merged =>
      (∀ f ∈ merged, Definite s' k f.field.type) ∧ (s'.Extends F → ∀ x,
        (∀ f ∈ merged, HasField I.set I.get x f.field) ↔
          (∀ f ∈ fields, HasField I.set I.get x f.field) ∧ HasField I.set I.get x new.field) := by
  induction fields with
  | nil => exact reporting.pure ⟨by simpa using hnew, fun _ x => by simp⟩
  | cons old rest ih =>
      obtain ⟨hold, hrest⟩ := List.forall_mem_cons.mp hfields
      unfold mergeField
      split
      · rename_i hname
        refine reporting.bind (reporting_meetFields hmeet hs hname hold hnew) fun s₁ f h₁ _ hf => ?_
        refine reporting.pure ⟨?_, fun hF x => ?_⟩
        · exact List.forall_mem_cons.mpr ⟨hf.1, fun g hg => (hrest g hg).mono h₁⟩
        · simp only [List.forall_mem_cons, hf.2 hF x]
          tauto
      · refine reporting.bind (ih hrest) fun s₁ merged h₁ _ hm => ?_
        refine reporting.pure ⟨?_, fun hF x => ?_⟩
        · exact List.forall_mem_cons.mpr ⟨hold.mono h₁, hm.1⟩
        · simp only [List.forall_mem_cons, hm.2 hF x]
          tauto

theorem reporting_mergeIndex {old new : Option TypeId} (hold : ∀ t, old = some t → Definite s k t)
    (hnew : ∀ t, new = some t → Definite s k t) :
    reporting.Holds s (mergeIndex meet old new) fun s' merged =>
      (∀ t, merged = some t → Definite s' k t) ∧ (s'.Extends F → ∀ x,
        HasIndex I.set I.get x merged ↔ HasIndex I.set I.get x old ∧ HasIndex I.set I.get x new) := by
  cases old with
  | none => exact reporting.pure ⟨hnew, fun _ x => by simp [HasIndex]⟩
  | some a =>
      cases new with
      | none => exact reporting.pure ⟨hold, fun _ x => by simp [HasIndex]⟩
      | some b =>
          have hab : ∀ t ∈ [a, b], Definite s k t := by simpa using ⟨hold a rfl, hnew b rfl⟩
          refine reporting.bind (hmeet s (.refl s) hs _ hab) fun s₁ t h₁ _ ht => ?_
          refine reporting.pure ⟨?_, fun hF x => ?_⟩
          · rintro u ⟨⟩
            exact ht.1
          · simp only [HasIndex, Option.some.injEq, forall_eq', ht.2 hF]
            simp only [List.mem_cons, List.not_mem_nil, or_false, forall_eq_or_imp, forall_eq]
            constructor
            · exact fun h => ⟨fun n y hy => (h n y hy).1, fun n y hy => (h n y hy).2⟩
            · exact fun h n y hy => ⟨h.1 n y hy, h.2 n y hy⟩

omit hmeet hs in
/-- What has been merged of the objects in `done`. -/
def Merges (I : Interpretation F V) (k : Nat) (s : Store) (done : List TypeId)
    (merged : List Owned × Option TypeId) : Prop :=
  (∀ f ∈ merged.1, Definite s k f.field.type) ∧ (∀ t, merged.2 = some t → Definite s k t) ∧
    (s.Extends F → ∀ x, (∀ f ∈ merged.1, HasField I.set I.get x f.field) ∧
      HasIndex I.set I.get x merged.2 ↔
        ∀ o ∈ done, ∀ shape, F.node o = .object shape → HasShape I.set I.get x shape)

omit hs in
theorem reporting_mergeObject {done : List TypeId} {merged : List Owned × Option TypeId}
    {object : TypeId} {shape : ObjectShape} (hmerged : Merges I k s done merged)
    (hobject : Definite s (k + 1) object) (hn : s.node object = .object shape) :
    reporting.Holds s (mergeObject meet site merged object) (Merges I k · (done ++ [object])) := by
  obtain ⟨hfields, hindex, hmeaning⟩ := hmerged
  obtain ⟨_, hk, hparts⟩ := hobject.of_mem_object hn
  cases hk
  refine reporting_store fun hs => ?_
  have hshape : s.objectShape? object = some shape := by rw [objectShape?, hn]
  rw [hshape]
  have hfold : reporting.Holds s
      (shape.fields.foldlM (fun fields f => mergeField meet site ⟨f, object⟩ fields) merged.1)
      fun s' fields => (∀ f ∈ fields, Definite s' k f.field.type) ∧ (s'.Extends F → ∀ x,
        (∀ f ∈ fields, HasField I.set I.get x f.field) ↔
          (∀ f ∈ merged.1, HasField I.set I.get x f.field) ∧
            ∀ f ∈ shape.fields, HasField I.set I.get x f) := by
    refine reporting.foldlM (P := fun s' (fs : List Field) (fields : List Owned) =>
      (∀ f ∈ fields, Definite s' k f.field.type) ∧ (s'.Extends F → ∀ x,
        (∀ f ∈ fields, HasField I.set I.get x f.field) ↔
          (∀ f ∈ merged.1, HasField I.set I.get x f.field) ∧ ∀ f ∈ fs, HasField I.set I.get x f))
      ⟨hfields, fun _ x => by simp⟩ fun f hf s₁ fs fields h₁ hs₁ hprev => ?_
    obtain ⟨hdef, hvalues⟩ := hprev
    have hf : Definite s₁ k f.type := (hparts f.type (by
      simp only [Node.components, List.mem_append, List.mem_map]
      exact .inl ⟨f, hf, rfl⟩)).mono h₁
    refine reporting.mono (reporting_mergeField (hmeet.mono h₁) hs₁ hf hdef)
      fun s₂ merged' h₂ _ hm => ⟨hm.1, fun hF x => ?_⟩
    rw [hm.2 hF x, hvalues (h₂.trans hF) x]
    simp only [List.mem_append, List.mem_singleton, or_imp, forall_and, forall_eq]
    tauto
  refine reporting.bind hfold fun s₁ fields h₁ hs₁ hf => ?_
  have hold : ∀ t, merged.2 = some t → Definite s₁ k t := fun t ht => (hindex t ht).mono h₁
  have hnew : ∀ t, shape.stringIndex = some t → Definite s₁ k t := fun t ht =>
    (hparts t (by simp [Node.components, ht])).mono h₁
  refine reporting.bind (reporting_mergeIndex (hmeet.mono h₁) hs₁ hold hnew)
    fun s₂ index h₂ _ hi => ?_
  refine reporting.pure ⟨fun f hmem => (hf.1 f hmem).mono h₂, hi.1, fun hF x => ?_⟩
  have hnF : F.node object = .object shape :=
    ((h₁.trans (h₂.trans hF)).node_eq object hobject.known).trans hn
  rw [hf.2 (h₂.trans hF) x, hi.2 hF x]
  simp only [List.mem_append, List.mem_singleton, or_imp, forall_and, forall_eq, hnF,
    Node.object.injEq, forall_eq', ← hmeaning (h₁.trans (h₂.trans hF)) x]
  constructor
  · rintro ⟨⟨hx₁, hx₂⟩, hx₃, hx₄⟩
    exact ⟨⟨hx₁, hx₃⟩, hx₂, hx₄⟩
  · rintro ⟨⟨hx₁, hx₃⟩, hx₂, hx₄⟩
    exact ⟨⟨hx₁, hx₂⟩, hx₃, hx₄⟩

omit hmeet hs in
theorem Merges.mem_iff {objects : List TypeId} {merged : List Owned × Option TypeId}
    (hm : Merges I k s objects merged) (hne : objects ≠ [])
    (hnode : ∀ o ∈ objects, ∃ shape, F.node o = .object shape) (hF : s.Extends F) (x : V) :
    (x ∉ I.set .null ∧ x ∉ I.set .undefined ∧
      HasShape I.set I.get x ⟨merged.1.map (·.field), merged.2⟩) ↔ ∀ o ∈ objects, x ∈ I.set o := by
  have hshape : HasShape I.set I.get x ⟨merged.1.map (·.field), merged.2⟩ ↔
      ∀ o ∈ objects, ∀ shape, F.node o = .object shape → HasShape I.set I.get x shape := by
    rw [← hm.2.2 hF x]
    constructor
    · exact fun h => ⟨fun f hf => h.fields _ (List.mem_map_of_mem hf), h.index⟩
    · rintro ⟨hfields, hindex⟩
      refine ⟨fun g hg => ?_, hindex⟩
      obtain ⟨f, hf, rfl⟩ := List.mem_map.mp hg
      exact hfields f hf
  rw [hshape]
  constructor
  · rintro ⟨hnull, hundefined, hx⟩ o ho
    obtain ⟨shape, hn⟩ := hnode o ho
    exact (I.mem_object hn).mpr ⟨hnull, hundefined, hx o ho shape hn⟩
  · intro hx
    obtain ⟨o, ho⟩ := List.exists_mem_of_ne_nil objects hne
    obtain ⟨shape, hn⟩ := hnode o ho
    have hxo := (I.mem_object hn).mp (hx o ho)
    exact ⟨hxo.1, hxo.2.1, fun o ho shape hn => ((I.mem_object hn).mp (hx o ho)).2.2⟩

omit hmeet hs in
theorem reporting_copyOrigins {t : TypeId} (fs : List Owned) : reporting.Holds s
    (fs.forM fun f => liftM (Build.copyFieldOrigins f.owner t [f.field.name])) fun _ _ => True := by
  induction fs generalizing s with
  | nil => exact reporting.pure trivial
  | cons f rest ih =>
      refine reporting.bind (reporting_lift (building_quiet (Q := fun _ _ => True) ?_ trivial))
        fun s₁ _ _ _ _ => ih
      exact alike_copyFieldOrigins _ _ _ _

omit hs in
theorem reporting_mergeObjects {objects : List TypeId} (hne : objects ≠ [])
    (hobjects : ∀ o ∈ objects, Definite s (k + 1) o ∧ ∃ shape, s.node o = .object shape) :
    reporting.Holds s (mergeObjects meet site objects)
      (Denotes I (k + 1) fun x => ∀ o ∈ objects, x ∈ I.set o) := by
  have hfold : reporting.Holds s (objects.foldlM (mergeObject meet site) ([], none))
      (Merges I k · objects) := by
    refine reporting.foldlM (P := Merges I k) ?_ fun o ho s₁ done merged h₁ _ hm => ?_
    · exact ⟨by simp, by simp, fun _ x => by simp [HasIndex]⟩
    · obtain ⟨hdef, shape, hn⟩ := hobjects o ho
      exact reporting_mergeObject (hmeet.mono h₁) hm (hdef.mono h₁)
        ((h₁.node_eq o hdef.known).trans hn)
  refine reporting.bind hfold fun s₁ merged h₁ _ hm => ?_
  have hparts : ∀ c ∈ (Node.object ⟨merged.1.map (·.field), merged.2⟩).components,
      Definite s₁ k c := by
    intro c hc
    simp only [Node.components, List.map_map, List.mem_append, List.mem_map, Option.mem_toList] at hc
    rcases hc with ⟨f, hf, rfl⟩ | hc
    · exact hm.1 f hf
    · exact hm.2.1 c hc
  refine reporting.bind (reporting_lift (building_object (I := I) hparts)) fun s₂ t h₂ _ ht => ?_
  refine reporting.bind (reporting_copyOrigins merged.1) fun s₃ _ h₃ _ _ => ?_
  refine reporting.pure ((ht.mono h₃).congr fun hF x => ?_)
  have hs₁ := h₂.trans (h₃.trans hF)
  refine hm.mem_iff hne (fun o ho => ?_) hs₁ x
  obtain ⟨hdef, shape, hn⟩ := hobjects o ho
  exact ⟨shape, ((h₁.trans hs₁).node_eq o hdef.known).trans hn⟩

end merge

section intersection

variable {F s : Store} {V : Type} {I : Interpretation F V} {n : Nat} {ts : List TypeId}
  {meet : List TypeId → Reporting TypeId} {site : Option SourceTag}

theorem node_of_mem_objects (hts : ∀ t ∈ ts, Definite s n t) {o : TypeId}
    (ho : o ∈ ts.filter s.isObject) : Definite s n o ∧ ∃ shape, s.node o = .object shape := by
  obtain ⟨ho, hshape⟩ := List.mem_filter.mp ho
  refine ⟨hts o ho, ?_⟩
  unfold isObject objectShape? at hshape
  split at hshape
  · exact ⟨_, ‹_›⟩
  · cases hshape

theorem reporting_meetParts (hmeet : ∀ k, n = k + 1 → Meets I k s meet) (hunique : ts.Nodup)
    (hts : ∀ t ∈ ts, Definite s n t) :
    reporting.Holds s (meetParts meet site ts) (Denotes I n fun x => ∀ t ∈ ts, x ∈ I.set t) := by
  refine reporting_store fun hs => ?_
  have hreduced : s.Extends F → ∀ x, Reduced I x ts (reducePrimitives s ts) := fun hF x =>
    reduced_reducePrimitives I hs hF (fun t ht => (hts t ht).known) hunique
  cases hr : reducePrimitives s ts with
  | none =>
      rw [hr] at hreduced
      exact reporting.pure (denotes_never hs hreduced)
  | some us =>
      rw [hr] at hreduced
      have hus : ∀ t ∈ us, Definite s n t := fun t ht =>
        hts t (mem_of_mem_reducePrimitives hr t ht)
      have hmake : ∀ s₁ l, s₁.Formed → (∀ t ∈ l, Definite s₁ n t) →
          (s₁.Extends F → ∀ x, (∀ t ∈ l, x ∈ I.set t) ↔ ∀ t ∈ ts, x ∈ I.set t) →
          reporting.Holds s₁ (liftM (Build.rawIntersection l))
            (Denotes I n fun x => ∀ t ∈ ts, x ∈ I.set t) := by
        intro s₁ l hs₁ hl hvalues
        refine reporting_lift (building.mono (building_rawIntersection (I := I) hs₁ hl) ?_)
        exact fun s₂ t h₂ _ ht => ht.congr fun hF x => hvalues (h₂.trans hF) x
      dsimp only
      split
      · rename_i hmany
        have hne : us.filter s.isObject ≠ [] := fun h => by simp [h] at hmany
        have hobjects := fun o (ho : o ∈ us.filter s.isObject) => node_of_mem_objects hus ho
        obtain ⟨k, rfl⟩ : ∃ k, n = k + 1 := by
          obtain ⟨o, ho⟩ := List.exists_mem_of_ne_nil _ hne
          obtain ⟨hdef, shape, hn⟩ := hobjects o ho
          obtain ⟨k, hk, _⟩ := hdef.of_mem_object hn
          exact ⟨k, hk⟩
        refine reporting.bind (reporting_mergeObjects (hmeet k rfl) hne hobjects)
          fun s₁ merged h₁ hs₁ hm => ?_
        refine hmake s₁ _ hs₁ ?_ fun hF x => ?_
        · refine List.forall_mem_cons.mpr ⟨hm.1, fun t ht => ?_⟩
          exact (hus t (List.mem_filter.mp ht).1).mono h₁
        · rw [← (hreduced (h₁.trans hF) x).2, List.forall_mem_cons, hm.2 hF x]
          constructor
          · rintro ⟨hobject, hother⟩ t ht
            by_cases hmem : t ∈ us.filter s.isObject
            · exact hobject t hmem
            · refine hother t (List.mem_filter.mpr ⟨ht, ?_⟩)
              simp only [Bool.not_eq_true', List.contains_eq_mem, decide_eq_false_iff_not]
              exact hmem
          · exact fun hx => ⟨fun t ht => hx t (List.mem_filter.mp ht).1,
              fun t ht => hx t (List.mem_filter.mp ht).1⟩
      · exact hmake s us hs hus fun hF x => (hreduced hF x).2

/-- A type that is taken apart, if it is, within the first `nesting` ids. -/
def Shallow (s : Store) (nesting : Nat) (t : TypeId) : Prop :=
  (s.node t).unionMembers?.isSome ∨ (s.node t).intersectionMembers?.isSome → t.index + 1 < nesting

theorem Shallow.mono {s' : Store} {nesting : Nat} {t : TypeId} (h : Shallow s nesting t)
    (hs : s.Extends s') (ht : t.index < s.size) : Shallow s' nesting t := by
  unfold Shallow
  rw [hs.node_eq t ht]
  exact h

/-- What absorbs the members of an intersection, or what is left of them. -/
theorem denotes_absorbMeet (hs : s.Formed) (hts : ∀ t ∈ ts, Definite s n t) :
    match absorbMeet ts with
    | .inl t => Denotes I n (fun x => ∀ u ∈ ts, x ∈ I.set u) s t
    | .inr us => us = ts.filter (· ≠ .unknown) ∧
        (s.Extends F → ∀ x, (∀ t ∈ us, x ∈ I.set t) ↔ ∀ t ∈ ts, x ∈ I.set t) := by
  have hrest : ∀ x, (∀ t ∈ ts.filter (· ≠ .unknown), x ∈ I.set t) ↔ ∀ t ∈ ts, x ∈ I.set t := by
    refine fun x => forall_mem_filter I fun t _ ht _ => ?_
    have ht : t = .unknown := by simpa using ht
    simp [ht, I.set_unknown]
  have herror : ts.contains .error = false := by
    simpa using fun h => (hts _ h).ne_error hs rfl
  have hany : ts.contains .any = false := by
    simpa using fun h => (hts _ h).ne_any hs rfl
  unfold absorbMeet
  simp only [herror, hany, Bool.false_eq_true, if_false]
  by_cases hnever : ts.contains .never
  · simp only [hnever, if_true]
    refine denotes_never hs fun _ x hx => ?_
    have hx := hx .never (by simpa using hnever)
    simp [I.set_never] at hx
  simp only [hnever, Bool.false_eq_true, if_false]
  have hdef : ∀ t ∈ ts.filter (· ≠ .unknown), Definite s n t := fun t ht =>
    hts t (List.mem_filter.mp ht).1
  generalize hus : ts.filter (· ≠ .unknown) = us at hrest hdef
  match us with
  | [] => exact denotes_unknown hs fun _ x => (hrest x).mp (by simp)
  | [t] => exact ⟨hdef t (by simp), fun _ x => by simpa using hrest x⟩
  | t :: u :: rest => exact ⟨rfl, fun _ => hrest⟩

theorem definite_shallow_leaves (hs : s.Formed) {nesting : Nat} (hts : ∀ t ∈ ts, Definite s n t)
    (hshallow : ∀ t ∈ ts, Shallow s nesting t) :
    ∀ l ∈ TypeId.sortUnique s.numbers (ts.flatMap s.intersectionLeaves),
      Definite s n l ∧ Shallow s nesting l ∧ (s.node l).intersectionMembers? = none := by
  intro l hl
  refine ⟨definite_intersectionLeaves hts l hl, ?_, ?_⟩
  · obtain ⟨t, ht, hl⟩ := List.mem_flatMap.mp (TypeId.mem_sortUnique.mp hl)
    refine (forall_mem_leavesAt (p := fun u => u.index < s.size ∧ Shallow s nesting u) ?_
      ⟨(hts t ht).known, hshallow t ht⟩ l hl).2
    rintro u members ⟨hu, hshallow⟩ hn m hm
    have hlt := hs.descends u hu m (Node.intersectionMembers?_subset _ _ hn hm)
    have hu' := hshallow (.inr (by simp [hn]))
    exact ⟨by omega, fun _ => by omega⟩
  · obtain ⟨t, ht, hl⟩ := List.mem_flatMap.mp (TypeId.mem_sortUnique.mp hl)
    exact leavesAt_flat hs Node.intersectionMembers?_subset (hts t ht).known (Nat.lt_succ_self _) l hl

/-- An intersection is the union of the intersections of one member of each union. -/
theorem reporting_distribute {nesting : Nat} {inner : List TypeId → Reporting TypeId}
    (hs : s.Formed) (hinner : ∀ s₁, s.Extends s₁ → ∀ ms, (∀ m ∈ ms, Definite s₁ n m) →
      (∀ m ∈ ms, Shallow s₁ nesting m) →
      reporting.Holds s₁ (inner ms) (Denotes I n fun x => ∀ m ∈ ms, x ∈ I.set m))
    (hts : ∀ t ∈ ts, Definite s n t ∧ Shallow s (nesting + 1) t ∧
      (s.node t).intersectionMembers? = none) :
    reporting.Holds s (do
      let results ← (choices (ts.filter fun t => (s.unionMembers? t).isNone)
        (ts.filterMap s.unionMembers?)).mapM inner
      Build.union results) (Denotes I n fun x => ∀ t ∈ ts, x ∈ I.set t) := by
  have hchoices : ∀ ms ∈ choices (ts.filter fun t => (s.unionMembers? t).isNone)
      (ts.filterMap s.unionMembers?), ∀ m ∈ ms, Definite s n m ∧ Shallow s nesting m := by
    refine forall_mem_choices (p := fun m => Definite s n m ∧ Shallow s nesting m) ?_ ?_
    · intro m hm
      obtain ⟨hm, hunion⟩ := List.mem_filter.mp hm
      refine ⟨(hts m hm).1, fun hshallow => ?_⟩
      rw [(hts m hm).2.2] at hshallow
      unfold unionMembers? at hunion
      simp only [Option.isNone_iff_eq_none] at hunion
      simp [hunion] at hshallow
    · intro members hmembers m hm
      obtain ⟨t, ht, hn⟩ := List.mem_filterMap.mp hmembers
      have hlt := hs.descends t (hts t ht).1.known m (Node.unionMembers?_subset _ _ hn hm)
      have hshallow := (hts t ht).2.1 (.inl (Option.isSome_of_eq_some hn))
      exact ⟨(hts t ht).1.of_mem_union (Node.eq_union_of_members hn) m hm, fun _ => by omega⟩
  have hvalues : s.Extends F → ∀ x, (∃ ms ∈ choices (ts.filter fun t => (s.unionMembers? t).isNone)
      (ts.filterMap s.unionMembers?), ∀ m ∈ ms, x ∈ I.set m) ↔ ∀ t ∈ ts, x ∈ I.set t := by
    intro hF x
    rw [exists_mem_choices]
    constructor
    · rintro ⟨hothers, hunions⟩ t ht
      cases hn : s.unionMembers? t with
      | none => exact hothers t (List.mem_filter.mpr ⟨ht, by simp [hn]⟩)
      | some members =>
          have hnF := (hF.node_eq t (hts t ht).1.known).trans (Node.eq_union_of_members hn)
          exact (I.mem_union hnF).mpr (hunions members (List.mem_filterMap.mpr ⟨t, ht, hn⟩))
    · intro hx
      refine ⟨fun t ht => hx t (List.mem_filter.mp ht).1, fun members hmembers => ?_⟩
      obtain ⟨t, ht, hn⟩ := List.mem_filterMap.mp hmembers
      have hnF := (hF.node_eq t (hts t ht).1.known).trans (Node.eq_union_of_members hn)
      exact (I.mem_union hnF).mp (hx t ht)
  generalize choices (ts.filter fun t => (s.unionMembers? t).isNone) (ts.filterMap s.unionMembers?)
    = combinations at hchoices hvalues
  have hresults : reporting.Holds s (combinations.mapM inner) fun s' results =>
      List.Forall₂ (fun ms t => Denotes I n (fun x => ∀ m ∈ ms, x ∈ I.set m) s' t)
        combinations results := by
    refine reporting.mapM (fun h ht => ht.mono h) fun ms hms s₁ h₁ _ => hinner s₁ h₁ ms ?_ ?_
    · exact fun m hm => (hchoices ms hms m hm).1.mono h₁
    · exact fun m hm => (hchoices ms hms m hm).2.mono h₁ (hchoices ms hms m hm).1.known
  refine reporting.bind hresults fun s₁ results h₁ hs₁ hr => ?_
  have hdef : ∀ t ∈ results, Definite s₁ n t := forall_right_of_forall₂ hr fun _ _ h => h.1
  refine reporting_lift (building.mono (building_union (I := I) hs₁ hdef) fun s₂ t h₂ _ ht => ?_)
  refine ht.congr fun hF x => ?_
  rw [← hvalues (h₁.trans (h₂.trans hF)) x]
  exact exists_iff_of_forall₂ hr fun ms t h => h.2 (h₂.trans hF) x

theorem reporting_intersectionAt {nesting : Nat} (hmeet : ∀ k, n = k + 1 → Meets I k s meet)
    (hnesting : 0 < nesting) (hts : ∀ t ∈ ts, Definite s n t)
    (hshallow : ∀ t ∈ ts, Shallow s nesting t) :
    reporting.Holds s (intersectionAt meet site nesting ts)
      (Denotes I n fun x => ∀ t ∈ ts, x ∈ I.set t) := by
  induction nesting generalizing s ts with
  | zero => omega
  | succ nesting ih =>
      refine reporting_store fun hs => ?_
      have hleaves := definite_shallow_leaves hs hts hshallow
      have hvalues : s.Extends F → ∀ x,
          (∀ l ∈ TypeId.sortUnique s.numbers (ts.flatMap s.intersectionLeaves), x ∈ I.set l) ↔
            ∀ t ∈ ts, x ∈ I.set t :=
        fun hF x => forall_mem_intersectionLeaves I hs hF fun t ht => (hts t ht).known
      have hunique : (TypeId.sortUnique s.numbers (ts.flatMap s.intersectionLeaves)).Nodup :=
        TypeId.nodup_sortUnique _
      generalize TypeId.sortUnique s.numbers (ts.flatMap s.intersectionLeaves) = flat at hleaves hvalues hunique
      have habsorb := denotes_absorbMeet (I := I) hs fun l hl => (hleaves l hl).1
      cases ha : absorbMeet flat with
      | inl t =>
          rw [ha] at habsorb
          exact reporting.pure (habsorb.congr hvalues)
      | inr us =>
          rw [ha] at habsorb
          obtain ⟨rfl, hrest⟩ := habsorb
          have hus : ∀ t ∈ flat.filter (· ≠ .unknown), t ∈ flat := fun t ht =>
            (List.mem_filter.mp ht).1
          have hvalues : s.Extends F → ∀ x, (∀ t ∈ flat.filter (· ≠ .unknown), x ∈ I.set t) ↔
              ∀ t ∈ ts, x ∈ I.set t := fun hF x => (hrest hF x).trans (hvalues hF x)
          have hunique := hunique.filter (· ≠ .unknown)
          generalize flat.filter (· ≠ .unknown) = us at hus hvalues hunique
          have hdef : ∀ t ∈ us, Definite s n t := fun t ht => (hleaves t (hus t ht)).1
          dsimp only
          split
          · exact reporting.mono (reporting_meetParts hmeet hunique hdef) fun s₁ t h₁ _ ht =>
              ht.congr fun hF x => hvalues (h₁.trans hF) x
          · rename_i hunions
            have hnesting : 0 < nesting := by
              simp only [Bool.or_eq_true, List.isEmpty_iff, not_or] at hunions
              obtain ⟨members, hmembers⟩ := List.exists_mem_of_ne_nil _ hunions.1
              obtain ⟨t, ht, hn⟩ := List.mem_filterMap.mp hmembers
              have hlt := (hleaves t (hus t ht)).2.1 (.inl (Option.isSome_of_eq_some hn))
              omega
            refine reporting.mono (reporting_distribute (I := I) hs (fun s₁ h₁ ms hdef hshallow => ?_)
              fun t ht => hleaves t (hus t ht)) fun s₁ t h₁ _ ht => ?_
            · exact ih (fun k hk => (hmeet k hk).mono h₁) hnesting hdef hshallow
            · exact ht.congr fun hF x => hvalues (h₁.trans hF) x

theorem lt_rank {t : TypeId} (ht : t ∈ ts) : t.index + 1 < rank ts := by
  induction ts with
  | nil => cases ht
  | cons u rest ih =>
      simp only [rank, List.foldr_cons]
      rcases List.mem_cons.mp ht with rfl | ht
      · omega
      · have := ih ht
        simp only [rank] at this
        omega

theorem rank_pos (ts : List TypeId) : 0 < rank ts := by
  cases ts with
  | nil => exact Nat.one_pos
  | cons t rest => exact Nat.lt_of_le_of_lt (Nat.zero_le _) (lt_rank (List.mem_cons_self))

theorem reporting_intersectionIn {levels : Nat} (hlevels : n < levels)
    (hts : ∀ t ∈ ts, Definite s n t) :
    reporting.Holds s (intersectionIn site levels ts)
      (Denotes I n fun x => ∀ t ∈ ts, x ∈ I.set t) := by
  induction levels generalizing s n ts with
  | zero => omega
  | succ levels ih =>
      refine reporting_intersectionAt ?_ (rank_pos ts) hts fun t ht _ => lt_rank ht
      rintro k rfl s₁ _ _ us hus
      exact ih (by omega) hus

end intersection

end Normal

end TypeResolution
