import TypeResolution.Proofs.Narrowing.Services
import TypeResolution.Proofs.Normal.Absorption

/-!
Where the members of an evaluated type come from. Evaluating makes no members up: apart from `never`
and `boolean`, which uniting may make, every member of the result is a member of the type, or an
object, a function or an array that one of its members has become. Objects do not lose their last
fields on the way, and get none.
-/

namespace TypeResolution

open Store Replay

/-- A member is another one, up to what its components have become. -/
inductive Resembles (s : Store) (l m : TypeId) : Prop
  | same : l = m → Resembles s l m
  | object {o p : ObjectShape} : s.node l = .object o → s.node m = .object p →
      p.isEmpty = o.isEmpty → Resembles s l m
  | function {f g : FunctionShape} : s.node l = .function f → s.node m = .function g →
      Resembles s l m
  | array {c d : TypeId} : s.node l = .array c → s.node m = .array d → Resembles s l m

/-- A member that uniting makes or that comes from one of the members `ls`. -/
def ComesFrom (s : Store) (ls : List TypeId) (m : TypeId) : Prop :=
  m = .never ∨ m = .boolean ∨ ∃ l ∈ ls, Resembles s l m

/-- All members of `r` come from members of `t`. -/
structure Traces (s : Store) (t r : TypeId) : Prop where
  left : s.Concrete t
  right : s.Concrete r
  leaves : ∀ m ∈ s.unionLeaves r, ComesFrom s (s.unionLeaves t) m

variable {s s' : Store} {t r l m : TypeId}

theorem Resembles.mono (h : Resembles s l m) (hs : s.Extends s') (hl : l.index < s.size)
    (hm : m.index < s.size) : Resembles s' l m := by
  cases h with
  | same h => exact .same h
  | object ho hp hempty =>
      exact .object ((hs.node_eq l hl).trans ho) ((hs.node_eq m hm).trans hp) hempty
  | function hf hg => exact .function ((hs.node_eq l hl).trans hf) ((hs.node_eq m hm).trans hg)
  | array hc hd => exact .array ((hs.node_eq l hl).trans hc) ((hs.node_eq m hm).trans hd)

theorem Store.Concrete.unionLeaves_eq (ht : s.Concrete t) (hs : s.Extends s') :
    s'.unionLeaves t = s.unionLeaves t := by
  have hclosed : s.Closed AnyName t := ht.closed
  exact leavesAt_eq hs Node.unionMembers?_subset hclosed

namespace ComesFrom

variable {ls ks : List TypeId}

theorem mono (h : ComesFrom s ls m) (hs : s.Extends s') (hls : ∀ l ∈ ls, l.index < s.size)
    (hm : m.index < s.size) : ComesFrom s' ls m :=
  h.imp_right (·.imp_right fun ⟨l, hl, hlm⟩ => ⟨l, hl, hlm.mono hs (hls l hl) hm⟩)

theorem of_subset (h : ComesFrom s ls m) (hsub : ls ⊆ ks) : ComesFrom s ks m :=
  h.imp_right (·.imp_right fun ⟨l, hl, hlm⟩ => ⟨l, hsub hl, hlm⟩)

end ComesFrom

namespace Traces

theorem refl (h : s.Concrete t) : Traces s t t :=
  ⟨h, h, fun m hm => .inr (.inr ⟨m, hm, .same rfl⟩)⟩

theorem mono (h : Traces s t r) (hs : s.Extends s') : Traces s' t r := by
  refine ⟨h.left.mono hs, h.right.mono hs, fun m hm => ?_⟩
  rw [h.right.unionLeaves_eq hs] at hm
  rw [h.left.unionLeaves_eq hs]
  exact (h.leaves m hm).mono hs (fun l hl => (h.left.of_mem_unionLeaves hl).known)
    (h.right.of_mem_unionLeaves hm).known

/-- A type that is no union and that another one has become. -/
theorem of_resembles (ht : s.Concrete t) (hr : s.Concrete r) (h : Resembles s t r)
    (htunion : (s.node t).unionMembers? = none) (hrunion : (s.node r).unionMembers? = none) :
    Traces s t r := by
  refine ⟨ht, hr, fun m hm => ?_⟩
  rw [unionLeaves_of_not_union hrunion, List.mem_singleton] at hm
  rw [unionLeaves_of_not_union htunion]
  exact .inr (.inr ⟨t, List.mem_singleton_self t, hm ▸ h⟩)

end Traces

/-- The members of a union are members of the types that are united, or made by uniting. -/
theorem building_unionLeaves {ts : List TypeId} (hts : ∀ t ∈ ts, s.Concrete t) :
    building.Holds s (Build.union ts) fun s' r => s'.Concrete r ∧
      ∀ m ∈ s'.unionLeaves r, m = .never ∨ m = .boolean ∨ ∃ t ∈ ts, m ∈ s.unionLeaves t := by
  refine building.formed fun hs => ?_
  refine building.mono (building_joined fun t ht => (hts t ht).known) ?_
  rintro s' r h hs' ⟨hknown, hr⟩
  have hmem : ∀ l, l ∈ TypeId.sortUnique s.numbers (ts.flatMap s.unionLeaves) ↔
      ∃ t ∈ ts, l ∈ s.unionLeaves t := fun l => by
    rw [TypeId.mem_sortUnique, List.mem_flatMap]
  have hflat : ∀ l ∈ TypeId.sortUnique s.numbers (ts.flatMap s.unionLeaves),
      s.Concrete l ∧ s.unionMembers? l = none := by
    refine fun l hl => ⟨?_, flatLeaves_flat hs Node.unionMembers?_subset
      (fun t ht => (hts t ht).known) l hl⟩
    obtain ⟨t, ht, hl⟩ := (hmem l).mp hl
    exact (hts t ht).of_mem_unionLeaves hl
  obtain ⟨hconcrete, hisFlat, hmembers⟩ := hr.members hs hs' h hflat hknown
  refine ⟨hconcrete, fun m hm => ?_⟩
  rw [hisFlat.mem_unionLeaves] at hm
  by_cases hnever : m = .never
  · exact .inl hnever
  rcases hmembers with ⟨hr, habsorbs⟩ | hmembers
  · have hfixed : r.isFixed := by
      rcases habsorbs with rfl | rfl | rfl <;> rfl
    rw [unionMembers_of_not_union (unionMembers?_fixed hs' hfixed), List.mem_singleton] at hm
    exact .inr (.inr ((hmem m).mp (hm ▸ hr)))
  · rcases mem_of_mem_absorbLiterals ((hmembers m hnever).mp hm) with hm | ⟨hboolean, -, -⟩
    · exact .inr (.inr ((hmem m).mp (List.mem_filter.mp hm).1))
    · exact .inr (.inl hboolean)

section rebuilding

variable (ht : s.Concrete t)

include ht

theorem traces_union {ms rs : List TypeId} (hn : s.node t = .union ms)
    (hrs : List.Forall₂ (Traces s) ms rs) :
    building.Holds s (Build.union rs) (Traces · t) := by
  refine building.formed fun hs => ?_
  have hright : ∀ r ∈ rs, s.Concrete r := forall_right_of_forall₂ hrs fun _ _ h => h.right
  have hmembers : ∀ r ∈ rs, ∀ m ∈ s.unionLeaves r, ComesFrom s (s.unionLeaves t) m := by
    have hpairs := (List.forall₂_and_left (p := (· ∈ ms)) _ _).mpr ⟨fun _ h => h, hrs⟩
    refine forall_right_of_forall₂ hpairs fun k r ⟨hk, h⟩ m hm => ?_
    rw [unionLeaves_union hs hn]
    exact (h.leaves m hm).of_subset fun l hl => List.mem_flatMap.mpr ⟨k, hk, hl⟩
  refine building.mono (building_unionLeaves hright) ?_
  rintro s' u h hs' ⟨hconcrete, hleaves⟩
  refine ⟨ht.mono h, hconcrete, fun m hm => ?_⟩
  rcases hleaves m hm with hm | hm | ⟨r, hr, hm⟩
  · exact .inl hm
  · exact .inr (.inl hm)
  · rw [ht.unionLeaves_eq h]
    exact (hmembers r hr m hm).mono h (fun l hl => (ht.of_mem_unionLeaves hl).known)
      ((hright r hr).of_mem_unionLeaves hm).known

theorem traces_object {o : ObjectShape} {gs : List Field} {index : Option TypeId}
    (hn : s.node t = .object o) (hgs : List.Forall₂ (FieldBecomes (Traces s)) o.fields gs)
    (hi : Option.Rel (Traces s) o.stringIndex index) :
    building.Holds s (Normal.rebuildObject t o ⟨gs, index⟩) fun s' r =>
      Traces s' t r ∧ (s'.node r).unionMembers? = none := by
  unfold Normal.rebuildObject
  split
  · exact building.pure ⟨.refl ht, by rw [hn]; rfl⟩
  refine building.bind (building_shape (concrete_shape (fun h => h.right) hgs hi)) ?_
  rintro s₁ r h₁ _ ⟨hconcrete, p, hp, hperm, hindex⟩
  have hcopy : building.Holds s₁ (Build.copyFieldOrigins t r (gs.map (·.name))) fun _ _ => True :=
    building_quiet (alike_copyFieldOrigins _ _ _ _) trivial
  refine building.bind hcopy fun s₂ _ h₂ _ _ => building.pure ?_
  have hempty : p.isEmpty = o.isEmpty := by
    have hnone : index.isNone = o.stringIndex.isNone := by
      generalize o.stringIndex = old at hi
      cases hi <;> rfl
    have hlength : p.fields.length = o.fields.length := hperm.length_eq.trans hgs.length_eq.symm
    have hisEmpty : p.fields.isEmpty = o.fields.isEmpty := by
      rw [Bool.eq_iff_iff, List.isEmpty_iff_length_eq_zero, List.isEmpty_iff_length_eq_zero,
        hlength]
    rw [ObjectShape.isEmpty, ObjectShape.isEmpty, hisEmpty, hindex, hnone]
  have htn := ((h₁.trans h₂).node_eq t ht.known).trans hn
  have hrn := (h₂.node_eq r hconcrete.known).trans hp
  have hrunion : (s₂.node r).unionMembers? = none := by rw [hrn]; rfl
  exact ⟨.of_resembles (ht.mono (h₁.trans h₂)) (hconcrete.mono h₂) (.object htn hrn hempty)
    (by rw [htn]; rfl) hrunion, hrunion⟩

theorem traces_function {f : FunctionShape} {ps : List TypeId} {r : TypeId}
    (hn : s.node t = .function f) (hps : List.Forall₂ (Traces s) f.params ps)
    (hr : Traces s f.result r) :
    building.Holds s (Build.function ps r) fun s' u =>
      Traces s' t u ∧ (s'.node u).unionMembers? = none := by
  have hparts : ∀ c ∈ (Node.function ⟨ps, r⟩).components, s.Concrete c := by
    intro c hc
    rcases List.mem_append.mp hc with hc | hc
    · exact forall_right_of_forall₂ hps (fun _ _ h => h.right) c hc
    · exact List.mem_singleton.mp hc ▸ hr.right
  refine building.mono (building_leaf hparts rfl (by simp)) ?_
  rintro s' u h _ ⟨hconcrete, hu⟩
  have htn := (h.node_eq t ht.known).trans hn
  have hunion : (s'.node u).unionMembers? = none := by rw [hu]; rfl
  exact ⟨.of_resembles (ht.mono h) hconcrete (.function htn hu) (by rw [htn]; rfl) hunion, hunion⟩

theorem traces_array {c r : TypeId} (hn : s.node t = .array c) (hr : Traces s c r) :
    building.Holds s (Build.array r) fun s' u =>
      Traces s' t u ∧ (s'.node u).unionMembers? = none := by
  have hparts : ∀ d ∈ (Node.array r).components, s.Concrete d := fun d hd =>
    List.mem_singleton.mp hd ▸ hr.right
  refine building.mono (building_leaf hparts rfl (by simp)) ?_
  rintro s' u h _ ⟨hconcrete, hu⟩
  have htn := (h.node_eq t ht.known).trans hn
  have hunion : (s'.node u).unionMembers? = none := by rw [hu]; rfl
  exact ⟨.of_resembles (ht.mono h) hconcrete (.array htn hu) (by rw [htn]; rfl) hunion, hunion⟩

/-- What a type is rebuilt to has no members that are not traced back, and unites them in normal
form. -/
theorem rebuilds_traces :
    Rebuilds Traces s t fun s' r => Traces s' t r ∧ InUnionForm s' r where
  leaf hstructural := by
    refine ⟨.refl ht, .of_not_union ?_⟩
    cases hn : s.node t with
    | union ms =>
        rw [hn] at hstructural
        cases hstructural
    | _ => rfl
  union hn hrs := building_and (traces_union ht hn hrs)
    (building_inUnionForm (forall_right_of_forall₂ hrs fun _ _ h => h.right.known))
  intersection hn _ := by
    have hconcrete := ht.node
    rw [hn] at hconcrete
    cases hconcrete
  object hn hgs hi := building.mono (traces_object ht hn hgs hi) fun _ _ _ _ h =>
    h.imp_right .of_not_union
  function hn hps hr := building.mono (traces_function ht hn hps hr) fun _ _ _ _ h =>
    h.imp_right .of_not_union
  array hn hr := building.mono (traces_array ht hn hr) fun _ _ _ _ h => h.imp_right .of_not_union

end rebuilding

theorem rewriting_traces : Rewriting (fun _ => Concrete) Traces where
  mono h ht := ht.mono h
  known ht := ht.known
  component ht _ hc := ht.component hc
  keeps h hr := hr.mono h
  stop ht := .refl ht
  leaf ht _ := .refl ht
  again hr := .refl hr.right
  union ht hn hrs := traces_union ht hn hrs
  intersection ht hn hrs := reporting.mono ((rebuilds_traces ht).intersection hn hrs)
    fun _ _ _ _ h => h.1
  object ht hn hgs hi := building.mono (traces_object ht hn hgs hi) fun _ _ _ _ h => h.1
  function ht hn hps hr := building.mono (traces_function ht hn hps hr) fun _ _ _ _ h => h.1
  array ht hn hr := building.mono (traces_array ht hn hr) fun _ _ _ _ h => h.1

namespace Narrowing

variable {setting : Setting}

/-- The members of what a type is resolved to come from its own, and are united in normal form. -/
theorem reporting_resolve_traces (ho : setting.options.Positive) (ht : s.Concrete t) :
    reporting.Holds s (resolve setting t) fun s' r => Traces s' t r ∧ InUnionForm s' r :=
  reporting_resolve_rebuilds rewriting_traces Concrete.isMeta
    (fun _ h₁ => rebuilds_traces (ht.mono h₁)) ho ht

end Narrowing

end TypeResolution
