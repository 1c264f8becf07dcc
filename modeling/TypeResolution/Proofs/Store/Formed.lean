import Mathlib.Data.List.Perm.Basic
import Mathlib.Tactic.IntervalCases
import TypeResolution.Type.Store

/-!
Stores only grow. A store is well formed when the fixed types have their fixed ids, components have
smaller ids than the types they belong to, and nodes and ids determine each other. Interning keeps a
store well formed, keeps all that is known, and answers again what it has answered before.
-/

namespace TypeResolution

namespace ObjectShape

theorem sorted_perm (o : ObjectShape) : o.sorted.fields.Perm o.fields :=
  List.mergeSort_perm _ _

theorem perm_of_sorted_eq {a b : ObjectShape} (h : a.sorted = b.sorted) :
    a.fields.Perm b.fields := by
  have hf : a.sorted.fields = b.sorted.fields := by rw [h]
  exact (sorted_perm a).symm.trans (hf ▸ sorted_perm b)

theorem stringIndex_of_sorted_eq {a b : ObjectShape} (h : a.sorted = b.sorted) :
    a.stringIndex = b.stringIndex := by
  have hi : a.sorted.stringIndex = b.sorted.stringIndex := by rw [h]
  exact hi

end ObjectShape

namespace Node

theorem eq_or_objects_of_identity_eq {m n : Node} (h : m.identity = n.identity) :
    m = n ∨ ∃ a b, m = .object a ∧ n = .object b ∧ a.sorted = b.sorted := by
  cases m with
  | object a =>
      cases n with
      | object b => exact .inr ⟨a, b, rfl, rfl, Node.object.inj h⟩
      | _ => cases h
  | _ =>
      cases n with
      | object b => cases h
      | _ => exact .inl h

theorem eq_of_identity_eq {m n : Node} (h : m.identity = n.identity) (hn : ∀ o, n ≠ .object o) :
    m = n := by
  rcases eq_or_objects_of_identity_eq h with h | ⟨_, b, _, hb, _⟩
  · exact h
  · exact absurd hb (hn b)

theorem exists_object_of_identity_eq {n : Node} {o : ObjectShape}
    (h : n.identity = (Node.object o).identity) : ∃ p, n = .object p ∧ p.sorted = o.sorted := by
  rcases eq_or_objects_of_identity_eq h with rfl | ⟨p, _, rfl, ⟨⟩, h⟩
  · exact ⟨o, rfl, rfl⟩
  · exact ⟨p, rfl, h⟩

theorem mem_components_of_identity_eq {m n : Node} (h : m.identity = n.identity) (c : TypeId) :
    c ∈ m.components ↔ c ∈ n.components := by
  rcases eq_or_objects_of_identity_eq h with rfl | ⟨a, b, rfl, rfl, hab⟩
  · exact Iff.rfl
  · have hp := (ObjectShape.perm_of_sorted_eq hab).map Field.type
    simp only [components, ObjectShape.stringIndex_of_sorted_eq hab, List.mem_append,
      hp.mem_iff]

end Node

namespace Build

theorem hole_mem_of_mem_consSpan {t : TypeId} {span : Span} {spans : List Span}
    (h : Span.hole t ∈ consSpan span spans) : Span.hole t = span ∨ Span.hole t ∈ spans := by
  unfold consSpan at h
  split at h
  · simpa using h
  · split at h
    · exact .inr h
    · simpa using h
  · simpa using h

theorem hole_mem_of_mem_joinSpans {t : TypeId} {spans : List Span} (h : Span.hole t ∈ joinSpans spans) :
    Span.hole t ∈ spans := by
  induction spans with
  | nil => cases h
  | cons span rest ih =>
      rcases hole_mem_of_mem_consSpan h with h | h
      · simp [h]
      · exact List.mem_cons_of_mem _ (ih h)

end Build

namespace Store

/-- Components have smaller ids, and a node and its id determine each other. -/
structure Linked (s : Store) : Prop where
  descends : ∀ t : TypeId, t.index < s.size → ∀ c ∈ (s.node t).components, c.index < t.index
  sound : ∀ (n : Node) (t : TypeId), s.ids[n]? = some t → t.index < s.size ∧ (s.node t).identity = n
  complete : ∀ t : TypeId, t.index < s.size → s.ids[(s.node t).identity]? = some t

structure Formed (s : Store) : Prop extends Linked s where
  fixed : ∀ i, i < TypeId.fixedCount → s.nodes[i]? = Node.fixed[i]?

/-- All that is known in `s` is known in `s'`. -/
structure Extends (s s' : Store) : Prop where
  numbers_eq : s'.numbers = s.numbers
  size_le : s.size ≤ s'.size
  node_eq : ∀ t : TypeId, t.index < s.size → s'.node t = s.node t
  ids_eq : ∀ (n : Node) (t : TypeId), s.ids[n]? = some t → s'.ids[n]? = some t

/-- The same types; the source tags may differ. -/
structure Alike (s s' : Store) : Prop where
  numbers_eq : s'.numbers = s.numbers
  nodes_eq : s.nodes = s'.nodes
  ids_eq : s.ids = s'.ids

namespace Extends

theorem refl (s : Store) : s.Extends s := ⟨rfl, Nat.le_refl _, fun _ _ => rfl, fun _ _ h => h⟩

theorem trans {a b c : Store} (hab : a.Extends b) (hbc : b.Extends c) : a.Extends c where
  numbers_eq := hbc.numbers_eq.trans hab.numbers_eq
  size_le := Nat.le_trans hab.size_le hbc.size_le
  node_eq t ht := (hbc.node_eq t (Nat.lt_of_lt_of_le ht hab.size_le)).trans (hab.node_eq t ht)
  ids_eq n t h := hbc.ids_eq n t (hab.ids_eq n t h)

end Extends

namespace Alike

theorem refl (s : Store) : s.Alike s := ⟨rfl, rfl, rfl⟩

theorem symm {s s' : Store} (h : s.Alike s') : s'.Alike s :=
  ⟨h.numbers_eq.symm, h.nodes_eq.symm, h.ids_eq.symm⟩

theorem trans {a b c : Store} (hab : a.Alike b) (hbc : b.Alike c) : a.Alike c :=
  ⟨hbc.numbers_eq.trans hab.numbers_eq, hab.nodes_eq.trans hbc.nodes_eq, hab.ids_eq.trans hbc.ids_eq⟩

theorem node {s s' : Store} (h : s.Alike s') (t : TypeId) : s'.node t = s.node t := by
  simp only [Store.node, h.nodes_eq]

theorem size {s s' : Store} (h : s.Alike s') : s'.size = s.size := by
  simp only [Store.size, h.nodes_eq]

theorem toExtends {s s' : Store} (h : s.Alike s') : s.Extends s' where
  numbers_eq := h.numbers_eq
  size_le := Nat.le_of_eq h.size.symm
  node_eq t _ := h.node t
  ids_eq _ _ hn := h.ids_eq ▸ hn

theorem formed {s s' : Store} (h : s.Alike s') (hs : s.Formed) : s'.Formed where
  fixed i hi := h.nodes_eq ▸ hs.fixed i hi
  descends t ht := by
    rw [h.node]
    exact hs.descends t (h.size ▸ ht)
  sound n t hn := by
    rw [h.node, h.size]
    exact hs.sound n t (h.ids_eq ▸ hn)
  complete t ht := by
    rw [h.node, ← h.ids_eq]
    exact hs.complete t (h.size ▸ ht)

end Alike

theorem node_eq_error_of_size_le {s : Store} {t : TypeId} (h : s.size ≤ t.index) :
    s.node t = .error := by
  simp [node, Array.getD_eq_getD_getElem?, Array.getElem?_eq_none h]

theorem known_of_node {s : Store} {t : TypeId} {n : Node} (hn : s.node t = n) (hne : n ≠ .error) :
    t.index < s.size := by
  by_contra hlt
  exact hne (hn.symm.trans (node_eq_error_of_size_le (Nat.le_of_not_lt hlt)))

theorem alike_recordOrigin (s : Store) (p : Place) (tag : SourceTag) :
    s.Alike (s.recordOrigin p tag) := ⟨rfl, rfl, rfl⟩

theorem alike_copyFieldOrigins (s : Store) (source target : TypeId) (names : List String) :
    s.Alike (s.copyFieldOrigins source target names) := by
  unfold copyFieldOrigins
  split
  · exact .refl s
  · induction names generalizing s with
    | nil => exact .refl s
    | cons name rest ih =>
        simp only [List.foldl_cons]
        split
        · exact (alike_recordOrigin s _ _).trans (ih _)
        · exact ih s

section push

variable {s : Store} {n : Node}

@[simp] theorem numbers_push : (s.push n).numbers = s.numbers := rfl

@[simp] theorem size_push : (s.push n).size = s.size + 1 := by
  simp [size, push]

theorem node_push_of_lt {t : TypeId} (h : t.index < s.size) : (s.push n).node t = s.node t := by
  have hlt : t.index < s.nodes.size := h
  simp [node, push, Array.getD_eq_getD_getElem?, Array.getElem?_push_lt hlt,
    Array.getElem?_eq_getElem hlt]

theorem node_push_new : (s.push n).node ⟨s.size⟩ = n := by
  simp [node, push, size, Array.getD_eq_getD_getElem?]

theorem lt_or_eq_of_lt_push {t : TypeId} (h : t.index < (s.push n).size) :
    t.index < s.size ∨ t = ⟨s.size⟩ := by
  rw [size_push] at h
  rcases Nat.lt_or_eq_of_le (Nat.le_of_lt_succ h) with hlt | heq
  · exact .inl hlt
  · exact .inr (by rw [← heq])

theorem ids_push (m : Node) :
    (s.push n).ids[m]? = if n.identity = m then some ⟨s.size⟩ else s.ids[m]? := by
  simp [push, size, Std.HashMap.getElem?_insert]

theorem extends_push (h : s.ids[n.identity]? = none) : s.Extends (s.push n) where
  numbers_eq := numbers_push
  size_le := by simp
  node_eq t ht := node_push_of_lt ht
  ids_eq m t hm := by
    rw [ids_push, if_neg]
    · exact hm
    · rintro rfl
      simp [h] at hm

theorem Linked.push (hs : s.Linked) (hc : ∀ c ∈ n.components, c.index < s.size)
    (h : s.ids[n.identity]? = none) : (s.push n).Linked where
  descends t ht := by
    rcases lt_or_eq_of_lt_push ht with hlt | rfl
    · rw [node_push_of_lt hlt]
      exact hs.descends t hlt
    · rw [node_push_new]
      exact hc
  sound m t hm := by
    rw [ids_push] at hm
    split at hm
    · cases hm
      simp only [size_push, Nat.lt_succ_self, node_push_new, true_and]
      assumption
    · obtain ⟨hlt, hid⟩ := hs.sound m t hm
      exact ⟨by simp only [size_push]; omega, by rw [node_push_of_lt hlt, hid]⟩
  complete t ht := by
    rcases lt_or_eq_of_lt_push ht with hlt | rfl
    · rw [node_push_of_lt hlt, ids_push, if_neg]
      · exact hs.complete t hlt
      · intro heq
        have hknown := hs.complete t hlt
        rw [← heq, h] at hknown
        cases hknown
    · rw [node_push_new, ids_push, if_pos rfl]

theorem Formed.fixedCount_le (hs : s.Formed) : TypeId.fixedCount ≤ s.size := by
  have h := hs.fixed 11 (by decide)
  exact (Array.getElem?_eq_some_iff.mp h).1

theorem Formed.push (hs : s.Formed) (hc : ∀ c ∈ n.components, c.index < s.size)
    (h : s.ids[n.identity]? = none) : (s.push n).Formed where
  toLinked := hs.toLinked.push hc h
  fixed i hi := by
    have hlt : i < s.nodes.size := Nat.lt_of_lt_of_le hi hs.fixedCount_le
    simp only [Store.push, Array.getElem?_push_lt hlt]
    rw [← hs.fixed i hi, Array.getElem?_eq_getElem hlt]

end push

section intern

variable {s s' : Store} {n : Node}

theorem extends_intern : s.Extends (s.intern n).2 := by
  unfold intern
  split
  · exact .refl s
  · exact extends_push ‹_›

@[simp] theorem numbers_intern : (s.intern n).2.numbers = s.numbers := extends_intern.numbers_eq

theorem Formed.intern (hs : s.Formed) (hc : ∀ c ∈ n.components, c.index < s.size) :
    (s.intern n).2.Formed := by
  unfold Store.intern
  split
  · exact hs
  · exact hs.push hc ‹_›

theorem Formed.node_intern (hs : s.Formed) :
    (s.intern n).1.index < (s.intern n).2.size ∧
      ((s.intern n).2.node (s.intern n).1).identity = n.identity := by
  unfold Store.intern
  split
  · exact hs.sound _ _ ‹_›
  · exact ⟨by simp [size, Store.push], congrArg Node.identity node_push_new⟩

theorem ids_intern : (s.intern n).2.ids[n.identity]? = some (s.intern n).1 := by
  unfold intern
  split
  · assumption
  · exact (ids_push _).trans (if_pos rfl)

theorem intern_of_ids {t : TypeId} (h : s.ids[n.identity]? = some t) : s.intern n = (t, s) := by
  unfold intern
  split
  · simp_all
  · simp_all

/-- What was interned once is found again. -/
theorem intern_again (h : (s.intern n).2.Extends s') : s'.intern n = ((s.intern n).1, s') :=
  intern_of_ids (h.ids_eq _ _ ids_intern)

theorem Alike.intern (h : s.Alike s') :
    (s'.intern n).1 = (s.intern n).1 ∧ (s.intern n).2.Alike (s'.intern n).2 := by
  unfold Store.intern
  rw [← h.ids_eq]
  split
  · exact ⟨rfl, h⟩
  · refine ⟨by rw [h.nodes_eq], h.numbers_eq, ?_, ?_⟩
    · simp [push, h.nodes_eq]
    · simp [push, h.ids_eq, h.nodes_eq]

end intern

theorem linked_foldl_push {s : Store} (hs : s.Linked) (ns : List Node)
    (hleaf : ∀ n ∈ ns, n.components = []) (hnew : ∀ n ∈ ns, s.ids[n.identity]? = none)
    (hapart : ns.Pairwise fun m n => m.identity ≠ n.identity) : (ns.foldl push s).Linked := by
  induction ns generalizing s with
  | nil => exact hs
  | cons n rest ih =>
      obtain ⟨hn, hrest⟩ := List.pairwise_cons.mp hapart
      refine ih (hs.push ?_ (hnew n (by simp))) (fun m hm => hleaf m (by simp [hm])) ?_ hrest
      · simp [hleaf n (by simp)]
      · intro m hm
        rw [ids_push, if_neg (hn m hm)]
        exact hnew m (by simp [hm])

theorem formed_fresh {numbers : Numbering} : (fresh numbers).Formed where
  toLinked := by
    refine linked_foldl_push ⟨?_, ?_, ?_⟩ Node.fixed (by decide) (by simp) (by decide)
    · intro t ht
      exact absurd ht (Nat.not_lt_zero _)
    · intro n t hn
      simp at hn
    · intro t ht
      exact absurd ht (Nat.not_lt_zero _)
  fixed i hi := by
    simp [fresh, Node.fixed, push]

theorem formed_empty : empty.Formed := formed_fresh

/-- Every alias may be named. -/
abbrev AnyName (_ : String) : Prop := True

/-- A type of the store that names only aliases in `P`, itself and through its components. -/
inductive Closed (P : String → Prop) (s : Store) : TypeId → Prop
  | intro {t : TypeId} (known : t.index < s.size)
      (names : ∀ name args, s.node t = .reference name args → P name)
      (components : ∀ c ∈ (s.node t).components, Closed P s c) : Closed P s t

end Store

/-- A node that may be interned: its components are types of the store. -/
structure Node.Closed (P : String → Prop) (s : Store) (n : Node) : Prop where
  names : ∀ name args, n = .reference name args → P name
  components : ∀ c ∈ n.components, s.Closed P c

namespace Store

section Closed

variable {P : String → Prop} {s s' : Store} {t : TypeId} {n : Node}

theorem Closed.known (h : s.Closed P t) : t.index < s.size := by
  cases h
  assumption

theorem Closed.node (h : s.Closed P t) : (s.node t).Closed P s := by
  cases h with
  | intro _ names components => exact ⟨names, components⟩

theorem Extends.closed (h : s.Extends s') (ht : s.Closed P t) : s'.Closed P t := by
  induction ht with
  | intro known names _ ih =>
      refine .intro (Nat.lt_of_lt_of_le known h.size_le) ?_ ?_
      · rw [h.node_eq _ known]
        exact names
      · rw [h.node_eq _ known]
        exact ih

theorem Extends.closedNode (h : s.Extends s') (hn : n.Closed P s) : n.Closed P s' :=
  ⟨hn.names, fun c hc => h.closed (hn.components c hc)⟩

theorem Closed.mono {Q : String → Prop} (hPQ : ∀ name, P name → Q name) (h : s.Closed P t) :
    s.Closed Q t := by
  induction h with
  | intro known names _ ih => exact .intro known (fun n a e => hPQ n (names n a e)) ih

theorem Formed.closed_of_known (hs : s.Formed) (ht : t.index < s.size) :
    s.Closed AnyName t := by
  induction h : t.index using Nat.strong_induction_on generalizing t with
  | _ i ih =>
      subst h
      refine .intro ht (fun _ _ _ => trivial) fun c hc => ?_
      have hlt := hs.descends t ht c hc
      exact ih c.index hlt (Nat.lt_trans hlt ht) rfl

theorem Formed.formed_intern (hs : s.Formed) (hn : n.Closed P s) : (s.intern n).2.Formed :=
  hs.intern fun c hc => (hn.components c hc).known

theorem Formed.closed_intern (hs : s.Formed) (hn : n.Closed P s) :
    (s.intern n).2.Closed P (s.intern n).1 := by
  obtain ⟨hlt, hid⟩ := hs.node_intern (n := n)
  refine .intro hlt (fun name args h => ?_) fun c hc => ?_
  · rcases Node.eq_or_objects_of_identity_eq hid with heq | ⟨a, b, ha, _, _⟩
    · exact hn.names name args (heq.symm.trans h)
    · rw [h] at ha
      cases ha
  · exact extends_intern.closed
      (hn.components c ((Node.mem_components_of_identity_eq hid c).mp hc))

theorem Formed.node_fixed (hs : s.Formed) {i : Nat} (hi : i < TypeId.fixedCount) :
    s.node ⟨i⟩ = Node.fixed[i]?.getD .error := by
  rw [← hs.fixed i hi, Store.node, Array.getD_eq_getD_getElem?]

theorem Formed.node_intrinsic (hs : s.Formed) (k : Intrinsic) :
    s.node k.typeId = .intrinsic k := by
  have hk : k.typeId.index < TypeId.fixedCount := by cases k <;> decide
  rw [show k.typeId = ⟨k.typeId.index⟩ from rfl, hs.node_fixed hk]
  cases k <;> rfl

theorem Formed.node_ofBool (hs : s.Formed) (b : Bool) :
    s.node (.ofBool b) = .literal (.boolean b) := by
  cases b with
  | true => exact hs.node_fixed (i := 10) (by decide)
  | false => exact hs.node_fixed (i := 11) (by decide)

theorem Formed.node_primitive (hs : s.Formed) (v : Literal) :
    ∃ k, k ≠ .undefined ∧ s.node v.primitive = .intrinsic k := by
  cases v with
  | string _ => exact ⟨.string, by decide, hs.node_intrinsic .string⟩
  | number _ => exact ⟨.number, by decide, hs.node_intrinsic .number⟩
  | boolean _ => exact ⟨.boolean, by decide, hs.node_intrinsic .boolean⟩

theorem Formed.known_of_isFixed (hs : s.Formed) (ht : t.isFixed) : t.index < s.size :=
  Nat.lt_of_lt_of_le (by simpa [TypeId.isFixed] using ht) hs.fixedCount_le

theorem Formed.eq_of_node_eq (hs : s.Formed) {u : TypeId} (ht : t.index < s.size)
    (hu : u.index < s.size) (h : s.node t = s.node u) : t = u := by
  have hids := hs.complete t ht
  rw [h, hs.complete u hu] at hids
  exact (Option.some.inj hids).symm

theorem Formed.intern_node (hs : s.Formed) (ht : t.index < s.size) (hn : s.node t = n) :
    s.intern n = (t, s) :=
  intern_of_ids (hn ▸ hs.complete t ht)

theorem Formed.eq_of_intrinsic (hs : s.Formed) {k : Intrinsic} (ht : t.index < s.size)
    (h : s.node t = .intrinsic k) : t = k.typeId :=
  hs.eq_of_node_eq ht (hs.known_of_isFixed (by cases k <;> rfl)) (h.trans (hs.node_intrinsic k).symm)

theorem Formed.closed_fixed (hs : s.Formed) (ht : t.isFixed) : s.Closed P t := by
  obtain ⟨i⟩ := t
  have hi : i < TypeId.fixedCount := by simpa [TypeId.isFixed] using ht
  refine .intro (Nat.lt_of_lt_of_le hi hs.fixedCount_le) ?_ ?_
  · intro name args h
    rw [hs.node_fixed hi] at h
    have hi : i < 12 := hi
    interval_cases i <;> cases h
  · rw [hs.node_fixed hi]
    have hi : i < 12 := hi
    interval_cases i <;> simp [Node.fixed, Node.components]

/-- Fixed types have no parts. -/
theorem Formed.node_of_isFixed (hs : s.Formed) (ht : t.isFixed) :
    s.node t = .error ∨ (∃ k, s.node t = .intrinsic k) ∨ ∃ b, s.node t = .literal (.boolean b) := by
  obtain ⟨i⟩ := t
  have hi : i < TypeId.fixedCount := by simpa [TypeId.isFixed] using ht
  rw [hs.node_fixed hi]
  have hi : i < 12 := hi
  interval_cases i <;> simp [Node.fixed]

theorem Formed.not_isFixed (hs : s.Formed) (hn : s.node t = n) (herror : n ≠ .error)
    (hintrinsic : ∀ k, n ≠ .intrinsic k) (hliteral : ∀ b, n ≠ .literal (.boolean b)) :
    t.isFixed = false := by
  by_contra hfixed
  rcases hs.node_of_isFixed (by simpa using hfixed) with hn' | ⟨k, hn'⟩ | ⟨b, hn'⟩
  · exact herror (hn.symm.trans hn')
  · exact hintrinsic k (hn.symm.trans hn')
  · exact hliteral b (hn.symm.trans hn')

theorem Formed.node_of_intern (h : (s.intern n).2.Formed) (hn : ∀ o, n ≠ .object o) :
    (s.intern n).2.node (s.intern n).1 = n :=
  Node.eq_of_identity_eq (h.sound _ _ ids_intern).2 hn

theorem Formed.not_isFixed_of_reference (hs : s.Formed) {name : String} {args : List TypeId}
    (h : s.node t = .reference name args) : t.isFixed = false := by
  by_contra hfixed
  have ht : s.Closed (fun _ => False) t := hs.closed_fixed (by simpa using hfixed)
  exact ht.node.names name args h

end Closed

end Store

end TypeResolution
