import Mathlib.Logic.Relation
import TypeResolution.Proofs.Normal.Members
import TypeResolution.Proofs.Normal.Rewriting
import TypeResolution.Proofs.Normal.Values

/-!
Normalizing a type that mentions neither `any` nor the error type gives a type with the same
values, whatever it remembers and also where the depth limit stops it.
-/

namespace TypeResolution

open Store

section normalize

variable {F s : Store} {V : Type} {I : Interpretation F V} {n : Nat} {ts : List TypeId}
  {site : Option SourceTag}

/-- A definite type with the values of `t`. -/
def Restates (I : Interpretation F V) (s : Store) (t r : TypeId) : Prop :=
  ∃ n, Denotes I n (fun x => x ∈ I.set t) s r

theorem Restates.mono {s' : Store} {t r : TypeId} (h : Restates I s t r) (hs : s.Extends s') :
    Restates I s' t r := by
  obtain ⟨n, h⟩ := h
  exact ⟨n, h.mono hs⟩

theorem reporting_intersection (hts : ∀ t ∈ ts, ∃ n, Definite s n t) :
    reporting.Holds s (Reporting.intersection site ts) fun s' r =>
      ∃ n, Denotes I n (fun x => ∀ t ∈ ts, x ∈ I.set t) s' r := by
  refine reporting.formed fun hs => ?_
  have hbound : ∀ t ∈ ts, Definite s (Normal.rank ts - 1) t := by
    intro t ht
    obtain ⟨n, hdef⟩ := hts t ht
    have := Normal.lt_rank ht
    exact (hdef.of_index hs).of_le (by omega)
  have hpos := Normal.rank_pos ts
  exact reporting.mono (Normal.reporting_intersectionIn (by omega) hbound)
    fun s' r _ _ hr => ⟨_, hr⟩

theorem Restates.set_eq {t r : TypeId} (h : Restates I s t r) (hF : s.Extends F) :
    I.set r = I.set t := by
  obtain ⟨n, h⟩ := h
  exact Set.ext (h.2 hF)

/-- Mentions neither `any` nor the error type. -/
inductive Plain (s : Store) : TypeId → Prop
  | intro {t : TypeId} : t.index < s.size → t ≠ .any → t ≠ .error →
      (∀ c ∈ (s.node t).components, Plain s c) → Plain s t

theorem Plain.mono {s' : Store} {t : TypeId} (h : Plain s t) (hs : s.Extends s') : Plain s' t := by
  induction h with
  | intro hlt hany herror _ ih =>
      refine .intro (Nat.lt_of_lt_of_le hlt hs.size_le) hany herror ?_
      rw [hs.node_eq _ hlt]
      exact ih

theorem Plain.known {t : TypeId} (h : Plain s t) : t.index < s.size := by
  cases h
  assumption

theorem Plain.component {t c : TypeId} (h : Plain s t) (hc : c ∈ (s.node t).components) :
    Plain s c := by
  cases h with
  | intro _ _ _ hparts => exact hparts c hc

theorem exists_definite_all (h : ∀ t ∈ ts, ∃ n, Definite s n t) : ∃ n, ∀ t ∈ ts, Definite s n t := by
  induction ts with
  | nil => exact ⟨0, by simp⟩
  | cons t rest ih =>
      obtain ⟨⟨n, hn⟩, hrest⟩ := List.forall_mem_cons.mp h
      obtain ⟨m, hm⟩ := ih hrest
      refine ⟨max n m, List.forall_mem_cons.mpr ⟨hn.of_le (by omega), fun u hu => ?_⟩⟩
      exact (hm u hu).of_le (by omega)

theorem Plain.definite {t : TypeId} (h : Plain s t) : ∃ n, Definite s n t := by
  induction h with
  | @intro t hlt hany herror _ ih =>
      obtain ⟨n, hn⟩ := exists_definite_all ih
      cases hnode : s.node t with
      | union members =>
          rw [hnode] at hn
          exact ⟨n, .union hlt hnode hn⟩
      | intersection members =>
          rw [hnode] at hn
          exact ⟨n, .intersection hlt hnode hn⟩
      | object o =>
          rw [hnode] at hn
          exact ⟨n + 1, .object hlt hnode hn⟩
      | _ => exact ⟨n, .leaf hlt hany herror (by simp [hnode]) (by simp [hnode]) (by simp [hnode])⟩

theorem Plain.restates {t : TypeId} (h : Plain s t) : Restates I s t t := by
  obtain ⟨n, hn⟩ := h.definite
  exact ⟨n, hn, fun _ _ => Iff.rfl⟩

section rewriting

variable {t : TypeId} (ht : Plain s t)

include ht

theorem restates_union {ms rs : List TypeId} (hn : s.node t = .union ms)
    (hrs : List.Forall₂ (Restates I s) ms rs) :
    building.Holds s (Build.union rs) fun s' r => Restates I s' t r := by
  refine building.formed fun hs => ?_
  obtain ⟨n, hdef⟩ := exists_definite_all
    (forall_right_of_forall₂ hrs fun _ r ⟨n, hr⟩ => (⟨n, hr.1⟩ : ∃ n, Definite s n r))
  refine building.mono (building_union (I := I) hs hdef) fun s₁ r h₁ _ hr => ⟨n, hr.congr fun hF x => ?_⟩
  rw [I.mem_union (((h₁.trans hF).node_eq t ht.known).trans hn)]
  exact exists_iff_of_forall₂ hrs fun m r ⟨n, hr⟩ => hr.2 (h₁.trans hF) x

theorem restates_intersection {ms rs : List TypeId} (hn : s.node t = .intersection ms)
    (hrs : List.Forall₂ (Restates I s) ms rs) :
    reporting.Holds s (Reporting.intersection site rs) fun s' r => Restates I s' t r := by
  have hdef := forall_right_of_forall₂ hrs fun _ r ⟨n, hr⟩ => (⟨n, hr.1⟩ : ∃ n, Definite s n r)
  refine reporting.mono (reporting_intersection (I := I) hdef) ?_
  rintro s₁ r h₁ _ ⟨n, hr⟩
  refine ⟨n, hr.congr fun hF x => ?_⟩
  rw [I.mem_intersection (((h₁.trans hF).node_eq t ht.known).trans hn)]
  exact forall_iff_of_forall₂ hrs fun m r ⟨n, hr⟩ => hr.2 (h₁.trans hF) x

theorem restates_rebuildObject {o p : ObjectShape} (hn : s.node t = .object o)
    (hp : ∀ c ∈ (Node.object p).components, ∃ n, Definite s n c)
    (hvalues : s.Extends F → ∀ x, HasShape I.set I.get x p ↔ HasShape I.set I.get x o) :
    building.Holds s (Normal.rebuildObject t o p) fun s' r => Restates I s' t r := by
  unfold Normal.rebuildObject
  split
  · exact building.pure ht.restates
  · obtain ⟨n, hdef⟩ := exists_definite_all hp
    refine building.bind (building_object (I := I) hdef) fun s₁ r h₁ _ hr => ?_
    have hcopy : building.Holds s₁ (Build.copyFieldOrigins t r (p.fields.map (·.name))) fun _ _ =>
        True := building_quiet (alike_copyFieldOrigins _ _ _ _) trivial
    refine building.bind hcopy fun s₂ _ h₂ _ _ => building.pure ⟨n + 1, (hr.mono h₂).congr fun hF x => ?_⟩
    have hs := h₁.trans (h₂.trans hF)
    rw [hvalues hs x, I.mem_object ((hs.node_eq t ht.known).trans hn)]

theorem restates_object {o : ObjectShape} {gs : List Field} {index : Option TypeId}
    (hn : s.node t = .object o) (hgs : List.Forall₂ (FieldBecomes (Restates I s)) o.fields gs)
    (hi : Option.Rel (Restates I s) o.stringIndex index) :
    building.Holds s (Normal.rebuildObject t o ⟨gs, index⟩) fun s' r => Restates I s' t r := by
  refine restates_rebuildObject ht hn ?_ fun hF x => ?_
  · intro c hc
    simp only [Node.components, List.mem_append, List.mem_map, Option.mem_toList] at hc
    rcases hc with ⟨g, hg, rfl⟩ | hc
    · refine forall_right_of_forall₂ hgs (q := fun g => ∃ n, Definite s n g.type) ?_ g hg
      rintro f _ ⟨r, rfl, n, hr⟩
      exact ⟨n, hr.1⟩
    · generalize o.stringIndex = old at hi
      cases hi with
      | none => cases hc
      | some hr =>
          cases hc
          obtain ⟨n, hr⟩ := hr
          exact ⟨n, hr.1⟩
  · have hfield : (∀ g ∈ gs, HasField I.set I.get x g) ↔ ∀ f ∈ o.fields, HasField I.set I.get x f := by
      refine forall_iff_of_forall₂ hgs ?_
      rintro f _ ⟨r, rfl, n, hr⟩
      simp only [HasField]
      cases I.get x f.name with
      | some y => exact hr.2 hF y
      | none => rfl
    have hindex : HasIndex I.set I.get x index ↔ HasIndex I.set I.get x o.stringIndex := by
      generalize o.stringIndex = old at hi
      cases hi with
      | none => rfl
      | some hr =>
          obtain ⟨n, hr⟩ := hr
          simp only [HasIndex, Option.some.injEq, forall_eq', hr.2 hF]
    constructor
    · exact fun h => ⟨hfield.mp h.fields, hindex.mp h.index⟩
    · exact fun h => ⟨hfield.mpr h.fields, hindex.mpr h.index⟩

theorem restates_function {f : FunctionShape} {ps : List TypeId} {r : TypeId}
    (hn : s.node t = .function f) (hps : List.Forall₂ (Restates I s) f.params ps)
    (hr : Restates I s f.result r) :
    building.Holds s (Build.function ps r) fun s' u => Restates I s' t u := by
  have hknown : ∀ c ∈ (Node.function ⟨ps, r⟩).components, c.index < s.size := by
    intro c hc
    rcases List.mem_append.mp hc with hc | hc
    · refine forall_right_of_forall₂ hps (q := fun c => c.index < s.size) ?_ c hc
      exact fun _ p ⟨n, hp⟩ => hp.1.known
    · obtain ⟨n, hr⟩ := hr
      rw [List.mem_singleton.mp hc]
      exact hr.1.known
  have hleaf : building.Holds s (Build.function ps r) fun s' u =>
      Definite s' 0 u ∧ s'.node u = .function ⟨ps, r⟩ := building_intern_leaf (.inl ⟨_, rfl⟩) hknown
  refine building.mono hleaf fun s₁ u h₁ _ hu => ⟨0, hu.1, fun hF x => ?_⟩
  have hset : I.set u = I.set t := by
    rw [I.set_function u _ ((hF.node_eq u hu.1.known).trans hu.2),
      I.set_function t f (((h₁.trans hF).node_eq t ht.known).trans hn),
      map_eq_of_forall₂ hps fun _ p hp => hp.set_eq (h₁.trans hF), hr.set_eq (h₁.trans hF)]
  rw [hset]

theorem restates_array {c r : TypeId} (hn : s.node t = .array c) (hr : Restates I s c r) :
    building.Holds s (Build.array r) fun s' u => Restates I s' t u := by
  have hknown : ∀ d ∈ (Node.array r).components, d.index < s.size := by
    intro d hd
    obtain ⟨n, hr⟩ := hr
    rw [List.mem_singleton.mp hd]
    exact hr.1.known
  have hleaf : building.Holds s (Build.array r) fun s' u =>
      Definite s' 0 u ∧ s'.node u = .array r := building_intern_leaf (.inr ⟨_, rfl⟩) hknown
  refine building.mono hleaf fun s₁ u h₁ _ hu => ⟨0, hu.1, fun hF x => ?_⟩
  have hset : I.set u = I.set t := by
    rw [I.set_array u r ((hF.node_eq u hu.1.known).trans hu.2),
      I.set_array t c (((h₁.trans hF).node_eq t ht.known).trans hn), hr.set_eq (h₁.trans hF)]
  rw [hset]

end rewriting

theorem rewriting_restates (I : Interpretation F V) :
    Rewriting (fun _ => Plain) (Restates I) where
  mono h ht := ht.mono h
  known ht := ht.known
  component ht _ hc := ht.component hc
  keeps h hr := hr.mono h
  stop ht := ht.restates
  leaf ht _ := ht.restates
  again hr := by
    obtain ⟨n, hr⟩ := hr
    exact ⟨n, hr.1, fun _ _ => Iff.rfl⟩
  union ht hn hrs := restates_union ht hn hrs
  intersection ht hn hrs := restates_intersection ht hn hrs
  object ht hn hgs hi := restates_object ht hn hgs hi
  function ht hn hps hr := restates_function ht hn hps hr
  array ht hn hr := restates_array ht hn hr

/-- `u` is `t` or a part of it. -/
def Store.HasPart (s : Store) : TypeId → TypeId → Prop :=
  Relation.ReflTransGen fun t c => c ∈ (s.node t).components

theorem plain_of_not_hasPart {t : TypeId} (hs : s.Formed) (ht : t.index < s.size)
    (hany : ¬s.HasPart t .any) (herror : ¬s.HasPart t .error) : Plain s t := by
  induction hi : t.index using Nat.strong_induction_on generalizing t with
  | _ i ih =>
      subst hi
      refine .intro ht (fun h => hany (h ▸ .refl)) (fun h => herror (h ▸ .refl)) fun c hc => ?_
      have hlt := hs.descends t ht c hc
      exact ih c.index hlt (by omega) (fun h => hany (.head hc h)) (fun h => herror (.head hc h)) rfl

/-- Normalizing a type that mentions neither `any` nor the error type keeps its values, to every
interpretation of the types that are there afterwards. -/
theorem normalize_set_eq {t : TypeId} (hs : s.Formed) (ht : t.index < s.size)
    (hany : ¬s.HasPart t .any) (herror : ¬s.HasPart t .error) (site : Option SourceTag)
    (ds : Array Diagnostic) (hF : (Reporting.normalize site t ds s).2.Extends F)
    (I : Interpretation F V) :
    I.set (Reporting.normalize site t ds s).1.1 = I.set t := by
  have hrun := (rewriting_restates I).normalize site (plain_of_not_hasPart hs ht hany herror) ds hs
  exact hrun.2.2.set_eq hF

theorem hasPart_of_leaves {t u : TypeId} (hleaf : ∀ c ∈ (s.node t).components,
    (s.node c).components = []) (h : s.HasPart t u) : u = t ∨ u ∈ (s.node t).components := by
  rcases Relation.ReflTransGen.cases_head h with rfl | ⟨c, hc, h⟩
  · exact .inl rfl
  · rcases Relation.ReflTransGen.cases_head h with rfl | ⟨d, hd, _⟩
    · exact .inr hc
    · rw [hleaf c hc] at hd
      cases hd

/-- The union of `string`, `true` and `false`, in which the literals are folded. -/
theorem normalize_set_eq_folded :
    let made := Store.empty.intern (.union [.string, .trueLiteral, .falseLiteral])
    let run := Reporting.normalize none made.1 #[] made.2
    ∃ hformed : run.2.Formed, (Interpretation.standard hformed).set run.1.1 =
      (Interpretation.standard hformed).set made.1 := by
  intro made run
  have hmade : made.2.Formed := formed_empty.intern (by decide)
  obtain ⟨hknown, hid⟩ :=
    formed_empty.node_intern (n := .union [.string, .trueLiteral, .falseLiteral])
  have hnode : made.2.node made.1 = .union [.string, .trueLiteral, .falseLiteral] :=
    Node.eq_of_identity_eq hid (by simp)
  have hleaves : ∀ c ∈ (made.2.node made.1).components, (made.2.node c).components = [] := by
    have hstring : made.2.node .string = .intrinsic .string := hmade.node_intrinsic .string
    have htrue : made.2.node .trueLiteral = .literal (.boolean true) :=
      hmade.node_fixed (i := 10) (by decide)
    have hfalse : made.2.node .falseLiteral = .literal (.boolean false) :=
      hmade.node_fixed (i := 11) (by decide)
    simp [hnode, hstring, htrue, hfalse, Node.components]
  have hapart : ∀ u, made.2.node u = .intrinsic .any ∨ made.2.node u = .error →
      u ∉ (made.2.node made.1).components → ¬made.2.HasPart made.1 u := by
    intro u hu hmem hpart
    rcases hasPart_of_leaves hleaves hpart with rfl | h
    · simp [hnode] at hu
    · exact hmem h
  have hany : ¬made.2.HasPart made.1 .any :=
    hapart _ (.inl (hmade.node_intrinsic .any)) (by rw [hnode]; decide)
  have herror : ¬made.2.HasPart made.1 .error :=
    hapart _ (.inr (hmade.node_fixed (i := 0) (by decide))) (by rw [hnode]; decide)
  have hplain := plain_of_not_hasPart hmade hknown hany herror
  have hformed : run.2.Formed :=
    ((rewriting_restates (.standard hmade)).normalize none hplain #[] hmade).2.1
  exact ⟨hformed, normalize_set_eq hmade hknown hany herror none #[] (.refl _) _⟩

end normalize

end TypeResolution
