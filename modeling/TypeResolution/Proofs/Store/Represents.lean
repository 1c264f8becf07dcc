import Mathlib.Tactic.Choose
import Mathlib.Tactic.FinCases
import TypeResolution.Proofs.Store.Description
import TypeResolution.Proofs.Store.Twin

/-!
Which type of a store a description is of. A type represents a description when the constructors,
called for its parts first, give that type and add nothing. Equivalent descriptions are represented
by one type, and descriptions that one type represents are equivalent, since each is equivalent to
what can be read off the store.
-/

namespace TypeResolution

open Store

def Entry.field (e : Entry TypeId) : Field := ⟨e.name, e.type, e.optional, e.readonly⟩

def Field.entry (f : Field) : Entry TypeId := ⟨f.name, f.type, f.optional, f.readonly⟩

def Piece.span : Piece TypeId → Span
  | .text a => .text a
  | .hole t => .hole t

def Span.piece : Span → Piece TypeId
  | .text a => .text a
  | .hole t => .hole t

/-- Calls the constructor of a shape. -/
def Shape.make : Shape TypeId → Build TypeId
  | .error => pure .error
  | .intrinsic kind => pure kind.typeId
  | .literal value => Build.literal value
  | .object fields index => Build.object ⟨fields.map Entry.field, index⟩
  | .union members => Build.rawUnion members
  | .intersection members => Build.rawIntersection members
  | .param name constraint default isConst => Build.param ⟨name, constraint, default, isConst⟩
  | .conditional check pattern infer whenTrue whenFalse distributive =>
      Build.conditional ⟨check, pattern, infer, whenTrue, whenFalse, distributive⟩
  | .mapped keyParam source keyFilter body nameType optional readonly =>
      Build.mapped ⟨keyParam, source, keyFilter, body, nameType, optional, readonly⟩
  | .function params result => Build.function params result
  | .array element => Build.array element
  | .reference name args => Build.reference name args
  | .indexAccess owner key => Build.indexAccess owner key
  | .template pieces => Build.template (pieces.map Piece.span)
  | .stringMap kind arg => Build.stringMap kind arg

namespace Node

def shape : Node → Shape TypeId
  | .error => .error
  | .intrinsic kind => .intrinsic kind
  | .literal value => .literal value
  | .object o => .object (o.fields.map Field.entry) o.stringIndex
  | .union members => .union members
  | .intersection members => .intersection members
  | .param info => .param info.name info.constraint info.default info.isConst
  | .conditional c =>
      .conditional c.check c.pattern c.infer c.whenTrue c.whenFalse c.distributive
  | .mapped m =>
      .mapped m.keyParam m.source m.keyFilter m.template m.nameType m.optional m.readonly
  | .function f => .function f.params f.result
  | .array element => .array element
  | .reference name args => .reference name args
  | .indexAccess owner key => .indexAccess owner key
  | .template spans => .template (spans.map Span.piece)
  | .stringMap kind arg => .stringMap kind arg

theorem parts_shape (n : Node) : n.shape.parts = n.components := by
  cases n with
  | object o =>
      simp only [shape, Shape.parts, components, List.map_map]
      rfl
  | template spans =>
      simp only [shape, Shape.parts, components, List.filterMap_map]
      refine List.filterMap_congr fun x _ => ?_
      cases x <;> rfl
  | _ => rfl

/-- A node as the constructors leave it. -/
def Proper (numbers : Numbering) : Node → Prop
  | .union members | .intersection members =>
      1 < members.length ∧ members.Pairwise (TypeId.Before numbers)
  | .literal (.number x) => x.canonical = x
  | .template spans =>
      Build.joinSpans spans = spans ∧ spans ≠ [] ∧ ∀ a, spans ≠ [.text a]
  | _ => True

end Node

namespace Build

theorem consSpan_empty (spans : List Span) : consSpan (.text "") spans = spans := by
  unfold consSpan
  split <;> simp_all

theorem consSpan_text (a b : String) (spans : List Span) :
    consSpan (.text a) (consSpan (.text b) spans) = consSpan (.text (a ++ b)) spans := by
  by_cases hb : b = ""
  · rw [hb, consSpan_empty, String.append_empty]
  have hab : a ++ b ≠ "" := by simp [hb]
  match spans with
  | .text c :: rest => simp [consSpan, String.append_assoc]
  | [] => simp [consSpan, hb]
  | .hole t :: rest => simp [consSpan, hb]

theorem joinSpans_consSpan (x : Span) (spans : List Span) :
    joinSpans (consSpan x spans) = consSpan x (joinSpans spans) := by
  match x, spans with
  | .hole t, spans => rfl
  | .text a, .text b :: rest => exact (consSpan_text a b (joinSpans rest)).symm
  | .text a, [] =>
      by_cases ha : a = ""
      · rw [ha, consSpan_empty, consSpan_empty]
      · simp [consSpan, joinSpans, ha]
  | .text a, .hole t :: rest =>
      by_cases ha : a = ""
      · rw [ha, consSpan_empty, consSpan_empty]
      · simp [consSpan, joinSpans, ha]

theorem joinSpans_joinSpans (spans : List Span) : joinSpans (joinSpans spans) = joinSpans spans := by
  induction spans with
  | nil => rfl
  | cons x rest ih =>
      calc joinSpans (joinSpans (x :: rest)) = consSpan x (joinSpans (joinSpans rest)) :=
            joinSpans_consSpan x (joinSpans rest)
        _ = joinSpans (x :: rest) := by rw [ih]; rfl

theorem joinSpans_append (before after : List Span) :
    joinSpans (before ++ after) = before.foldr consSpan (joinSpans after) :=
  List.foldr_append

end Build

namespace Shape

variable {s s' : Store} {t : TypeId} {shape : Shape TypeId}

theorem members_cases {none : TypeId} (node : List TypeId → Node) (hnone : none.isFixed)
    {numbers : Numbering} (hproper : ∀ l, 1 < l.length → l.Pairwise (TypeId.Before numbers) →
      (node l).Proper numbers) (hcomponents : ∀ l, (node l).components = l) (members : List TypeId) :
    let make : Build TypeId := do Build.ofMembers none node (← Build.inOrder members)
    (∃ t, (∀ s : Store, s.numbers = numbers → make s = (t, s)) ∧ (t.isFixed ∨ t ∈ members)) ∨
      ∃ n, (∀ s : Store, s.numbers = numbers → make s = s.intern n) ∧ n.Proper numbers ∧
        ∀ c ∈ n.components, c ∈ members := by
  intro make
  have hmake : ∀ s : Store, s.numbers = numbers →
      make s = Build.ofMembers none node (TypeId.sortUnique numbers members) s := by
    rintro s rfl
    rfl
  have hsorted : (TypeId.sortUnique numbers members).Pairwise (TypeId.Before numbers) :=
    TypeId.sorted_sortUnique members
  have hmem : ∀ c ∈ TypeId.sortUnique numbers members, c ∈ members := fun c => TypeId.mem_sortUnique.mp
  generalize TypeId.sortUnique numbers members = us at hmake hsorted hmem
  obtain _ | ⟨t, _ | ⟨u, rest⟩⟩ := us
  · exact .inl ⟨none, hmake, .inl hnone⟩
  · exact .inl ⟨t, hmake, .inr (hmem t (by simp))⟩
  · exact .inr ⟨_, hmake, hproper _ (by simp) hsorted, by rwa [hcomponents]⟩

/-- A constructor gives a type that is there already, or it interns one node. -/
theorem make_cases (shape : Shape TypeId) (numbers : Numbering) :
    (∃ t, (∀ s : Store, s.numbers = numbers → shape.make s = (t, s)) ∧
      (t.isFixed ∨ t ∈ shape.parts)) ∨
      ∃ n, (∀ s : Store, s.numbers = numbers → shape.make s = s.intern n) ∧ n.Proper numbers ∧
        ∀ c ∈ n.components, c ∈ shape.parts := by
  cases shape with
  | error => exact .inl ⟨.error, fun _ _ => rfl, .inl rfl⟩
  | intrinsic kind => exact .inl ⟨kind.typeId, fun _ _ => rfl, .inl (by cases kind <;> rfl)⟩
  | literal value =>
      cases value with
      | string a => exact .inr ⟨_, fun _ _ => rfl, trivial, by simp [Node.components]⟩
      | number x => exact .inr ⟨_, fun _ _ => rfl, x.canonical_canonical, by simp [Node.components]⟩
      | boolean b => exact .inl ⟨.ofBool b, fun _ _ => rfl, .inl (by cases b <;> rfl)⟩
  | object fields index =>
      refine .inr ⟨_, fun _ _ => rfl, trivial, fun c hc => ?_⟩
      simpa [Node.components, parts, Entry.field] using hc
  | union members =>
      exact members_cases .union rfl (fun _ h h' => ⟨h, h'⟩) (fun _ => rfl) members
  | intersection members =>
      exact members_cases .intersection rfl (fun _ h h' => ⟨h, h'⟩) (fun _ => rfl) members
  | template pieces =>
      have hjoined := Build.joinSpans_joinSpans (pieces.map Piece.span)
      have hparts : ∀ c ∈ (Node.template (Build.joinSpans (pieces.map Piece.span))).components,
          c ∈ pieces.filterMap Piece.part? := by
        intro c hc
        obtain ⟨x, hx, hc⟩ := List.mem_filterMap.mp hc
        cases x with
        | text _ => cases hc
        | hole t =>
            cases hc
            obtain ⟨p, hp, hpc⟩ := List.mem_map.mp (Build.hole_mem_of_mem_joinSpans hx)
            refine List.mem_filterMap.mpr ⟨p, hp, ?_⟩
            cases p <;> cases hpc
            rfl
      simp only [make, Build.template, parts]
      generalize Build.joinSpans (pieces.map Piece.span) = spans at hjoined hparts
      obtain _ | ⟨_ | _, _ | ⟨_, _⟩⟩ := spans
      case nil | cons.text.nil =>
        exact .inr ⟨_, fun _ _ => rfl, trivial, by simp [Node.components]⟩
      all_goals exact .inr ⟨.template _, fun _ _ => rfl, ⟨hjoined, by simp, by simp⟩, hparts⟩
  | _ => exact .inr ⟨_, fun _ _ => rfl, trivial, fun _ hc => hc⟩

theorem ids_of_intern {n : Node} (h : s.intern n = (t, s)) : s.ids[n.identity]? = some t := by
  have hids : (s.intern n).2.ids[n.identity]? = some (s.intern n).1 := ids_intern
  rw [h] at hids
  exact hids

/-- What is there stays there. -/
theorem make_mono (hs : s.Extends s') (h : shape.make s = (t, s)) : shape.make s' = (t, s') := by
  rcases make_cases shape s.numbers with ⟨u, hu, -⟩ | ⟨n, hn, -, -⟩
  · rw [hu s rfl] at h
    rw [hu s' hs.numbers_eq]
    cases h
    rfl
  · rw [hn s rfl] at h
    rw [hn s' hs.numbers_eq]
    exact intern_of_ids (hs.ids_eq _ _ (ids_of_intern h))

theorem make_grows (hs : s.Formed) (hparts : ∀ c ∈ shape.parts, c.index < s.size) :
    s.Extends (shape.make s).2 ∧ (shape.make s).2.Formed ∧
      shape.make (shape.make s).2 = shape.make s := by
  rcases make_cases shape s.numbers with ⟨u, hu, -⟩ | ⟨n, hn, -, hcomponents⟩
  · rw [hu s rfl]
    exact ⟨.refl s, hs, hu s rfl⟩
  · rw [hn s rfl]
    refine ⟨extends_intern, hs.intern fun c hc => hparts c (hcomponents c hc), ?_⟩
    rw [hn _ numbers_intern]
    exact intern_again (.refl _)

/-- The type that a constructor gives: a fixed one, a part, or one with a proper node. -/
theorem made_cases (hs : s.Formed) (h : shape.make s = (t, s)) :
    (t.isFixed ∨ t ∈ shape.parts) ∨ (t.index < s.size ∧ (s.node t).Proper s.numbers ∧
      ∀ c ∈ (s.node t).components, c ∈ shape.parts) := by
  rcases make_cases shape s.numbers with ⟨u, hu, hcases⟩ | ⟨n, hn, hproper, hcomponents⟩
  · rw [hu s rfl] at h
    cases h
    exact .inl hcases
  · rw [hn s rfl] at h
    obtain ⟨hlt, hid⟩ := hs.sound _ _ (ids_of_intern h)
    refine .inr ⟨hlt, ?_, fun c hc => hcomponents c ((Node.mem_components_of_identity_eq hid c).mp hc)⟩
    rcases Node.eq_or_objects_of_identity_eq hid with heq | ⟨o, _, ho, -, -⟩
    · rw [heq]
      exact hproper
    · rw [ho]
      trivial

end Shape

/-- The type `t` of the store is the one that `d` describes. -/
inductive Represents (s : Store) : TypeId → Description → Prop
  | of {shape : Shape Description} {t : TypeId} (ids : Description → TypeId)
      (parts : ∀ c ∈ shape.parts, Represents s (ids c) c) (made : (shape.map ids).make s = (t, s)) :
      Represents s t (.of shape)

/-- A type of the store whose node, and the nodes of its components, are as constructors leave them. -/
inductive Store.Proper (s : Store) : TypeId → Prop
  | intro {t : TypeId} : t.index < s.size → (s.node t).Proper s.numbers →
      (∀ c ∈ (s.node t).components, Proper s c) → Proper s t

namespace Store.Proper

variable {s s' : Store} {t : TypeId}

theorem known (h : s.Proper t) : t.index < s.size := by
  cases h
  assumption

theorem node (h : s.Proper t) : (s.node t).Proper s.numbers := by
  cases h
  assumption

theorem component {c : TypeId} (h : s.Proper t) (hc : c ∈ (s.node t).components) : s.Proper c := by
  cases h with
  | intro _ _ hparts => exact hparts c hc

theorem mono (h : s.Proper t) (hs : s.Extends s') : s'.Proper t := by
  induction h with
  | intro hlt hnode _ ih =>
      refine .intro (Nat.lt_of_lt_of_le hlt hs.size_le) ?_ ?_
      · rw [hs.node_eq _ hlt, hs.numbers_eq]
        exact hnode
      · rw [hs.node_eq _ hlt]
        exact ih

theorem of_fixed (hs : s.Formed) (ht : t.isFixed) : s.Proper t := by
  have hfixed : ∀ n ∈ Node.fixed, n.components = [] := by decide
  have hproper : ∀ n ∈ Node.fixed, n.Proper s.numbers := by
    intro n hn
    fin_cases hn <;> trivial
  obtain ⟨i⟩ := t
  have hi : i < TypeId.fixedCount := by simpa [TypeId.isFixed] using ht
  obtain ⟨n, hn⟩ : ∃ n, Node.fixed[i]? = some n := ⟨_, List.getElem?_eq_getElem hi⟩
  have hnode : s.node ⟨i⟩ = n := by rw [hs.node_fixed hi, hn]; rfl
  refine .intro (hs.known_of_isFixed ht) ?_ ?_
  · rw [hnode]
    exact hproper n (List.mem_of_getElem? hn)
  · rw [hnode, hfixed n (List.mem_of_getElem? hn)]
    simp

end Store.Proper

namespace Represents

variable {s s' : Store} {t u : TypeId} {d e : Description}

theorem unique (ht : Represents s t d) (hu : Represents s u d) : t = u := by
  induction ht generalizing u with
  | of ids _ made ih =>
      cases hu with
      | of ids' parts' made' =>
          rw [Shape.map_congr fun c hc => ih c hc (parts' c hc)] at made
          exact congrArg Prod.fst (made.symm.trans made')

theorem mono (h : Represents s t d) (hs : s.Extends s') : Represents s' t d := by
  induction h with
  | of ids _ made ih => exact .of ids ih (Shape.make_mono hs made)

theorem proper (hs : s.Formed) (h : Represents s t d) : s.Proper t := by
  induction h with
  | @of shape t ids _ made ih =>
      have hparts : ∀ c ∈ (shape.map ids).parts, s.Proper c := by
        intro c hc
        rw [Shape.parts_map] at hc
        obtain ⟨e, he, rfl⟩ := List.mem_map.mp hc
        exact ih e he
      rcases Shape.made_cases hs made with (ht | ht) | ⟨hlt, hnode, hcomponents⟩
      · exact .of_fixed hs ht
      · exact hparts t ht
      · exact .intro hlt hnode fun c hc => hparts c (hcomponents c hc)

theorem known (hs : s.Formed) (h : Represents s t d) : t.index < s.size := (h.proper hs).known

theorem error : Represents s .error (.of .error) := .of (fun _ => .error) (fun _ hc => by cases hc) rfl

/-- Parts may be numbered in any way. -/
theorem of_map {ι : Type} {shape : Shape ι} (ids : ι → TypeId) {described : ι → Description}
    (hparts : ∀ i ∈ shape.parts, Represents s (ids i) (described i))
    (hmade : (shape.map ids).make s = (t, s)) : Represents s t (.of (shape.map described)) := by
  classical
  let chosen := fun d => if h : ∃ u, Represents s u d then h.choose else .error
  have hchosen : ∀ i ∈ shape.parts, chosen (described i) = ids i := by
    intro i hi
    have h : ∃ u, Represents s u (described i) := ⟨_, hparts i hi⟩
    simp only [chosen, dif_pos h]
    exact h.choose_spec.unique (hparts i hi)
  refine .of chosen (fun c hc => ?_) ?_
  · rw [Shape.parts_map] at hc
    obtain ⟨i, hi, rfl⟩ := List.mem_map.mp hc
    rw [hchosen i hi]
    exact hparts i hi
  · rw [Shape.map_map, Shape.map_congr (f := chosen ∘ described) (g := ids) hchosen]
    exact hmade

/-- Every description is of a type of some later store. -/
theorem exists_later (d : Description) (hs : s.Formed) :
    ∃ s' t, s.Extends s' ∧ s'.Formed ∧ Represents s' t d := by
  induction d using Description.of_parts generalizing s with
  | h shape ih =>
      have hlist : ∀ l : List Description, (∀ c ∈ l, c ∈ shape.parts) →
          ∃ s₁, s.Extends s₁ ∧ s₁.Formed ∧ ∀ c ∈ l, ∃ t, Represents s₁ t c := by
        intro l
        induction l with
        | nil => exact fun _ => ⟨s, .refl s, hs, by simp⟩
        | cons c rest ihrest =>
            intro hl
            obtain ⟨s₁, h₁, hs₁, hrest⟩ := ihrest fun e he => hl e (by simp [he])
            obtain ⟨s₂, t, h₂, hs₂, ht⟩ := ih c (hl c (by simp)) hs₁
            refine ⟨s₂, h₁.trans h₂, hs₂, List.forall_mem_cons.mpr ⟨⟨t, ht⟩, fun e he => ?_⟩⟩
            obtain ⟨u, hu⟩ := hrest e he
            exact ⟨u, hu.mono h₂⟩
      obtain ⟨s₁, h₁, hs₁, hparts⟩ := hlist shape.parts fun _ => id
      choose! ids hids using hparts
      have hknown : ∀ c ∈ (shape.map ids).parts, c.index < s₁.size := by
        intro c hc
        rw [Shape.parts_map] at hc
        obtain ⟨e, he, rfl⟩ := List.mem_map.mp hc
        exact (hids e he).known hs₁
      obtain ⟨h₂, hs₂, hagain⟩ := Shape.make_grows hs₁ hknown
      exact ⟨_, _, h₁.trans h₂, hs₂, .of ids (fun c hc => (hids c hc).mono h₂) hagain⟩

end Represents

section sound

variable {s : Store} {t u : TypeId} {d e : Description}

theorem Represents.eq_of_make {shape shape' : Shape Description} (ht : Represents s t (.of shape))
    (hu : Represents s u (.of shape')) (hparts : ∀ c ∈ shape'.parts, c ∈ shape.parts)
    (h : ∀ ids : Description → TypeId, (shape.map ids).make s = (t, s) →
      (shape'.map ids).make s = (t, s)) : t = u := by
  cases ht with
  | of ids parts made =>
      cases hu with
      | of ids' parts' made' =>
          have hids : ∀ c ∈ shape'.parts, ids c = ids' c := fun c hc =>
            (parts c (hparts c hc)).unique (parts' c hc)
          have hmade := h ids made
          rw [Shape.map_congr hids, made'] at hmade
          exact congrArg Prod.fst hmade.symm

theorem canonical_eq_of_isZero {x y : Number} (hx : x.isZero) (hy : y.isZero) :
    x.canonical = y.canonical := by
  simp [Number.canonical, hx, hy]

theorem not_isZero_of_isNaN {x : Number} (h : x.isNaN) : x.isZero = false := by
  have hexponent : x.exponentField = 2047 := by
    simp only [Number.isNaN, Bool.and_eq_true, decide_eq_true_eq] at h
    exact h.1
  simp only [Number.isZero, decide_eq_false_iff_not]
  intro hzero
  simp [Number.exponentField, hzero] at hexponent

theorem canonical_eq_of_isNaN {x y : Number} (hx : x.isNaN) (hy : y.isNaN) :
    x.canonical = y.canonical := by
  simp [Number.canonical, hx, hy, not_isZero_of_isNaN]

theorem rawUnion_congr {ts us : List TypeId} (h : ∀ t, t ∈ ts ↔ t ∈ us) :
    Build.rawUnion ts = Build.rawUnion us := by
  funext s
  change Build.ofMembers _ _ (TypeId.sortUnique s.numbers ts) s = _
  rw [TypeId.sortUnique_congr h]
  rfl

theorem rawIntersection_congr {ts us : List TypeId} (h : ∀ t, t ∈ ts ↔ t ∈ us) :
    Build.rawIntersection ts = Build.rawIntersection us := by
  funext s
  change Build.ofMembers _ _ (TypeId.sortUnique s.numbers ts) s = _
  rw [TypeId.sortUnique_congr h]
  rfl

theorem mem_map_congr {ids : Description → TypeId} {ms ns : List Description}
    (h : ∀ m, m ∈ ms ↔ m ∈ ns) (t : TypeId) : t ∈ ms.map ids ↔ t ∈ ns.map ids := by
  simp only [List.mem_map, h]

theorem template_congr {spans spans' : List Span} (h : Build.joinSpans spans = Build.joinSpans spans') :
    Build.template spans = Build.template spans' := by
  unfold Build.template
  rw [h]

theorem template_text (a : String) : Build.template [.text a] = Build.stringLiteral a := by
  by_cases ha : a = ""
  · subst ha
    rfl
  · simp [Build.template, Build.joinSpans, Build.consSpan, ha]

/-- Equivalent descriptions are of one type. -/
theorem Represents.eq_of_equiv (h : d.Equiv e) (hs : s.Formed) (ht : Represents s t d)
    (hu : Represents s u e) : t = u := by
  induction h generalizing s t u with
  | refl d => exact ht.unique hu
  | symm _ ih => exact (ih hs hu ht).symm
  | @trans d m e _ _ ih₁ ih₂ =>
      -- the description in the middle need not be of a type of this store
      obtain ⟨s', v, h', hs', hv⟩ := exists_later m hs
      exact (ih₁ hs' (ht.mono h') hv).trans (ih₂ hs' hv (hu.mono h'))
  | parts f _ ih =>
      cases ht with
      | of ids parts made =>
          cases hu with
          | of ids' parts' made' =>
              have hids : ∀ c ∈ _, ids c = (ids' ∘ f) c := fun c hc =>
                ih c hc hs (parts c hc) (parts' (f c) (by
                  rw [Shape.parts_map]
                  exact List.mem_map_of_mem hc))
              rw [Shape.map_map, ← Shape.map_congr hids, made] at made'
              exact congrArg Prod.fst made'
  | @swap before after a b index hab =>
      refine ht.eq_of_make hu (fun c hc => ?_) fun ids made => ?_
      · simp only [Shape.parts, List.map_append, List.map_cons, List.mem_append, List.mem_cons] at hc ⊢
        tauto
      · have hids := Shape.ids_of_intern made
        refine intern_of_ids (Eq.trans ?_ hids)
        refine congrArg (fun n => s.ids[n]?) (congrArg Node.object ?_)
        refine sorted_eq_iff.mpr ⟨rfl, fun n => ?_⟩
        simp only [List.map_append, List.map_cons, List.filter_append, List.filter_cons, Entry.field,
          Entry.map]
        grind
  | union hmem =>
      refine ht.eq_of_make hu (fun c hc => (hmem c).mpr hc) fun ids made => ?_
      exact (congrFun (rawUnion_congr (mem_map_congr hmem)) s).symm.trans made
  | union_nil => exact ht.eq_of_make hu (fun c hc => by cases hc) fun ids made => made
  | union_single d =>
      cases ht with
      | of ids parts made =>
          have hd := parts d (by simp [Shape.parts])
          cases made
          exact hd.unique hu
  | intersection hmem =>
      refine ht.eq_of_make hu (fun c hc => (hmem c).mpr hc) fun ids made => ?_
      exact (congrFun (rawIntersection_congr (mem_map_congr hmem)) s).symm.trans made
  | intersection_nil => exact ht.eq_of_make hu (fun c hc => by cases hc) fun ids made => made
  | intersection_single d =>
      cases ht with
      | of ids parts made =>
          have hd := parts d (by simp [Shape.parts])
          cases made
          exact hd.unique hu
  | zero hx hy =>
      refine ht.eq_of_make hu (fun c hc => by cases hc) fun ids made => ?_
      simpa only [Shape.map, Shape.make, Build.literal, Build.numberLiteral,
        canonical_eq_of_isZero hx hy] using made
  | nan hx hy =>
      refine ht.eq_of_make hu (fun c hc => by cases hc) fun ids made => ?_
      simpa only [Shape.map, Shape.make, Build.literal, Build.numberLiteral,
        canonical_eq_of_isNaN hx hy] using made
  | @drop before after =>
      refine ht.eq_of_make hu (fun c hc => ?_) fun ids made => ?_
      · simpa [Shape.parts, Piece.part?] using hc
      · refine (congrFun (template_congr ?_) s).trans made
        simp only [List.map_append, List.map_cons, Build.joinSpans_append]
        exact congrArg (List.foldr Build.consSpan · _) (Build.consSpan_empty _).symm
  | @join before after a b =>
      refine ht.eq_of_make hu (fun c hc => ?_) fun ids made => ?_
      · simpa [Shape.parts, Piece.part?] using hc
      · refine (congrFun (template_congr ?_) s).trans made
        simp only [List.map_append, List.map_cons, Build.joinSpans_append]
        exact congrArg (List.foldr Build.consSpan · _) (Build.consSpan_text a b _).symm
  | text a =>
      refine ht.eq_of_make hu (fun c hc => by cases hc) fun ids made => ?_
      exact (congrFun (template_text a) s).symm.trans made

end sound

namespace Store

def describeAt (s : Store) : Nat → TypeId → Description
  | 0, _ => .of .error
  | fuel + 1, t => .of ((s.node t).shape.map (s.describeAt fuel))

/-- What can be read off the store about a type. Components have smaller ids, so the id bounds the
nesting. -/
def describe (s : Store) (t : TypeId) : Description := s.describeAt (t.index + 1) t

variable {s s' : Store} {t : TypeId}

theorem describeAt_eq (hs : s.Formed) (ht : t.index < s.size) {m n : Nat} (hm : t.index < m)
    (hn : t.index < n) : s.describeAt m t = s.describeAt n t := by
  induction m generalizing t n with
  | zero => omega
  | succ m ih =>
      obtain ⟨n, rfl⟩ : ∃ k, n = k + 1 := ⟨n - 1, by omega⟩
      refine congrArg Description.of (Shape.map_congr fun c hc => ?_)
      rw [Node.parts_shape] at hc
      have hlt := hs.descends t ht c hc
      exact ih (by omega) (by omega) (by omega)

theorem describe_eq (hs : s.Formed) (ht : t.index < s.size) :
    s.describe t = .of ((s.node t).shape.map s.describe) := by
  refine congrArg Description.of (Shape.map_congr fun c hc => ?_)
  rw [Node.parts_shape] at hc
  have hlt := hs.descends t ht c hc
  exact describeAt_eq hs (by omega) (by omega) (by omega)

theorem Extends.describe_eq (h : s.Extends s') (hs : s.Formed) (hs' : s'.Formed)
    (ht : t.index < s.size) : s'.describe t = s.describe t := by
  induction hi : t.index using Nat.strong_induction_on generalizing t with
  | _ i ih =>
      subst hi
      rw [Store.describe_eq hs ht, Store.describe_eq hs' (Nat.lt_of_lt_of_le ht h.size_le),
        h.node_eq t ht]
      refine congrArg Description.of (Shape.map_congr fun c hc => ?_)
      rw [Node.parts_shape] at hc
      have hlt := hs.descends t ht c hc
      exact ih c.index hlt (by omega) rfl

end Store

section complete

variable {s : Store} {t : TypeId} {d e : Description} (hs : s.Formed)

include hs

theorem describe_intern {n : Node} (h : s.intern n = (t, s)) (hobject : ∀ o, n ≠ .object o) :
    s.describe t = .of (n.shape.map s.describe) := by
  obtain ⟨hlt, hid⟩ := hs.sound _ _ (Shape.ids_of_intern h)
  rw [describe_eq hs hlt, Node.eq_of_identity_eq hid hobject]

theorem describe_intrinsic (k : Intrinsic) : s.describe k.typeId = .of (.intrinsic k) := by
  rw [describe_eq hs (hs.known_of_isFixed (by cases k <;> rfl)), hs.node_intrinsic k]
  rfl

theorem describe_error : s.describe .error = .of .error := by
  have hn : s.node .error = .error := hs.node_fixed (i := 0) (by decide)
  rw [describe_eq hs (hs.known_of_isFixed rfl), hn]
  rfl

theorem describe_ofBool (b : Bool) : s.describe (.ofBool b) = .of (.literal (.boolean b)) := by
  rw [describe_eq hs (hs.known_of_isFixed (by cases b <;> rfl)), hs.node_ofBool]
  rfl

theorem equiv_rawUnion {members : List TypeId} (h : Build.rawUnion members s = (t, s)) :
    (Description.of (.union (members.map s.describe))).Equiv (s.describe t) := by
  have hsame : (Description.of (.union (members.map s.describe))).Equiv
      (.of (.union ((TypeId.sortUnique s.numbers members).map s.describe))) :=
    .union fun m => by simp only [List.mem_map, TypeId.mem_sortUnique]
  refine hsame.trans ?_
  change Build.ofMembers _ _ (TypeId.sortUnique s.numbers members) s = _ at h
  generalize TypeId.sortUnique s.numbers members = us at h
  match us with
  | [] =>
      cases h
      rw [show TypeId.never = Intrinsic.never.typeId from rfl, describe_intrinsic hs]
      exact .union_nil
  | [u] =>
      cases h
      exact .union_single _
  | u :: v :: rest =>
      rw [describe_intern hs h (by simp)]
      exact .refl _

theorem equiv_rawIntersection {members : List TypeId}
    (h : Build.rawIntersection members s = (t, s)) :
    (Description.of (.intersection (members.map s.describe))).Equiv (s.describe t) := by
  have hsame : (Description.of (.intersection (members.map s.describe))).Equiv
      (.of (.intersection ((TypeId.sortUnique s.numbers members).map s.describe))) :=
    .intersection fun m => by simp only [List.mem_map, TypeId.mem_sortUnique]
  refine hsame.trans ?_
  change Build.ofMembers _ _ (TypeId.sortUnique s.numbers members) s = _ at h
  generalize TypeId.sortUnique s.numbers members = us at h
  match us with
  | [] =>
      cases h
      rw [show TypeId.unknown = Intrinsic.unknown.typeId from rfl, describe_intrinsic hs]
      exact .intersection_nil
  | [u] =>
      cases h
      exact .intersection_single _
  | u :: v :: rest =>
      rw [describe_intern hs h (by simp)]
      exact .refl _

theorem equiv_object {o : ObjectShape} (h : Build.object o s = (t, s)) :
    (Description.of ((Node.object o).shape.map s.describe)).Equiv (s.describe t) := by
  obtain ⟨hlt, hid⟩ := hs.sound _ _ (Shape.ids_of_intern h)
  obtain ⟨p, hn, hp⟩ := Node.exists_object_of_identity_eq hid
  rw [describe_eq hs hlt, hn]
  obtain ⟨hindex, hfields⟩ := sorted_eq_iff.mp hp
  simp only [Node.shape, Shape.map, List.map_map, hindex]
  refine .fields [] _ _ fun n => ?_
  have hfilter (fs : List Field) :
      (fs.map (Entry.map s.describe ∘ Field.entry)).filter (·.name = n) =
        (fs.filter (·.name = n)).map (Entry.map s.describe ∘ Field.entry) := by
    rw [List.filter_map]
    rfl
  rw [hfilter, hfilter, hfields]

omit hs in
theorem equiv_joinSpans (f : TypeId → Description) (before : List (Piece Description))
    (spans : List Span) :
    (Description.of (.template (before ++ spans.map fun x => x.piece.map f))).Equiv
      (.of (.template (before ++ (Build.joinSpans spans).map fun x => x.piece.map f))) := by
  induction spans generalizing before with
  | nil => exact .refl _
  | cons x rest ih =>
      have hrest := ih (before ++ [x.piece.map f])
      simp only [List.append_assoc, List.singleton_append] at hrest
      refine hrest.trans ?_
      rw [show Build.joinSpans (x :: rest) = Build.consSpan x (Build.joinSpans rest) from rfl]
      generalize Build.joinSpans rest = spans
      unfold Build.consSpan
      split
      · exact .join
      · split
        · rename_i hempty
          rw [String.isEmpty_iff.mp hempty]
          exact .drop
        · exact .refl _
      · exact .refl _

theorem equiv_template {spans : List Span} (h : Build.template spans s = (t, s)) :
    (Description.of ((Node.template spans).shape.map s.describe)).Equiv (s.describe t) := by
  have hjoin := equiv_joinSpans s.describe [] spans
  simp only [Node.shape, Shape.map, List.map_map]
  refine Description.Equiv.trans hjoin ?_
  unfold Build.template at h
  generalize Build.joinSpans spans = joined at h
  obtain _ | ⟨_ | _, _ | ⟨_, _⟩⟩ := joined
  case nil =>
    rw [describe_intern hs h (by simp)]
    exact Description.Equiv.trans (.symm (@Description.Equiv.drop [] [])) (.text "")
  case cons.text.nil a =>
    rw [describe_intern hs h (by simp)]
    exact .text a
  all_goals
    rw [describe_intern hs h (by simp)]
    simp only [Node.shape, Shape.map, List.map_map]
    exact .refl _

/-- What was given to a constructor is what can be read off the result. -/
theorem equiv_describe_made {shape : Shape TypeId} (h : shape.make s = (t, s)) :
    (Description.of (shape.map s.describe)).Equiv (s.describe t) := by
  cases shape with
  | error =>
      cases h
      rw [describe_error hs]
      exact .refl _
  | intrinsic kind =>
      cases h
      rw [describe_intrinsic hs]
      exact .refl _
  | literal value =>
      cases value with
      | string a =>
          rw [describe_intern hs h (by simp)]
          exact .refl _
      | number x =>
          rw [describe_intern hs h (by simp)]
          exact .number x
      | boolean b =>
          cases h
          rw [describe_ofBool hs]
          exact .refl _
  | object fields index =>
      have hfields : (fields.map Entry.field).map Field.entry = fields := by
        rw [List.map_map]
        exact List.map_id fields
      have hobject := equiv_object hs h
      rw [Node.shape, hfields] at hobject
      exact hobject
  | union members => exact equiv_rawUnion hs h
  | intersection members => exact equiv_rawIntersection hs h
  | template pieces =>
      have hpieces : (pieces.map Piece.span).map Span.piece = pieces := by
        rw [List.map_map]
        exact (List.map_congr_left fun p _ => by cases p <;> rfl).trans (List.map_id pieces)
      have htemplate := equiv_template hs h
      rw [Node.shape, hpieces] at htemplate
      exact htemplate
  | _ =>
      rw [describe_intern hs h (by simp)]
      exact .refl _

theorem Represents.equiv_describe (h : Represents s t d) : d.Equiv (s.describe t) := by
  induction h with
  | of ids _ made ih =>
      have hparts := Description.Equiv.parts (fun c => s.describe (ids c)) ih
      rw [show (fun c => s.describe (ids c)) = s.describe ∘ ids from rfl, ← Shape.map_map] at hparts
      exact hparts.trans (equiv_describe_made hs made)

/-- Two descriptions are of one type exactly when they are equivalent. -/
theorem Represents.eq_iff_equiv {u : TypeId} (ht : Represents s t d) (hu : Represents s u e) :
    t = u ↔ d.Equiv e := by
  constructor
  · rintro rfl
    exact (ht.equiv_describe hs).trans (hu.equiv_describe hs).symm
  · exact fun h => Represents.eq_of_equiv h hs ht hu

theorem make_shape (ht : t.index < s.size) (hproper : (s.node t).Proper s.numbers) :
    (s.node t).shape.make s = (t, s) := by
  have hintern : ∀ n, s.node t = n → Build.intern n s = (t, s) := fun n hn => hs.intern_node ht hn
  have hfixed : ∀ u : TypeId, u.isFixed → s.node t = s.node u → t = u := fun u hu hn =>
    hs.eq_of_node_eq ht (hs.known_of_isFixed hu) hn
  cases hn : s.node t with
  | error =>
      rw [hfixed .error rfl (hn.trans (hs.node_fixed (i := 0) (by decide)).symm)]
      rfl
  | intrinsic kind =>
      rw [hs.eq_of_intrinsic ht hn]
      rfl
  | literal value =>
      cases value with
      | string a => exact hintern _ hn
      | number x =>
          rw [hn] at hproper
          have hx : x.canonical = x := hproper
          rw [← hx] at hn
          exact hintern _ hn
      | boolean b =>
          rw [hfixed (.ofBool b) (by cases b <;> rfl) (hn.trans (hs.node_ofBool b).symm)]
          rfl
  | object o =>
      have hfields : (o.fields.map Field.entry).map Entry.field = o.fields := by
        rw [List.map_map]
        exact List.map_id o.fields
      simp only [Node.shape, Shape.make, hfields]
      exact hintern _ hn
  | union members =>
      rw [hn] at hproper
      obtain ⟨hmany, hsorted⟩ := hproper
      change Build.ofMembers _ _ (TypeId.sortUnique s.numbers members) s = _
      rw [TypeId.sortUnique_of_sorted hsorted]
      match members with
      | _ :: _ :: _ => exact hintern _ hn
  | intersection members =>
      rw [hn] at hproper
      obtain ⟨hmany, hsorted⟩ := hproper
      change Build.ofMembers _ _ (TypeId.sortUnique s.numbers members) s = _
      rw [TypeId.sortUnique_of_sorted hsorted]
      match members with
      | _ :: _ :: _ => exact hintern _ hn
  | template spans =>
      rw [hn] at hproper
      obtain ⟨hjoined, hnil, htext⟩ := hproper
      have hspans : (spans.map Span.piece).map Piece.span = spans := by
        rw [List.map_map]
        exact (List.map_congr_left fun x _ => by cases x <;> rfl).trans (List.map_id spans)
      simp only [Node.shape, Shape.make, Build.template, hspans, hjoined]
      match spans with
      | [] => exact absurd rfl hnil
      | [.text a] => exact absurd rfl (htext a)
      | .hole _ :: _ | .text _ :: _ :: _ => exact hintern _ hn
  | _ => exact hintern _ hn

/-- What can be read off the store about a proper type is of that type. -/
theorem represents_describe (h : s.Proper t) : Represents s t (s.describe t) := by
  induction h with
  | intro ht hproper _ ih =>
      rw [describe_eq hs ht]
      refine .of_map id (fun c hc => ih c (Node.parts_shape _ ▸ hc)) ?_
      rw [Shape.map_id]
      exact make_shape hs ht hproper

end complete

end TypeResolution
