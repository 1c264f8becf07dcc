import TypeResolution.Proofs.Normal.Values
import TypeResolution.Proofs.Replay.Types

/-!
The values of a type, as a condition in a program sees them. An object type with a field or an index
signature has records only, so that a text is no value of an object type whose fields are all
optional; the empty object type has all values but `undefined` and `null`. The error type stands for
any type. A union has all values of its members.
-/

namespace TypeResolution

open Store

namespace Datum

def isRecord : Datum → Bool
  | .record _ => true
  | _ => false

/-- What reading a field gives. -/
def read (x : Datum) (name : String) : Datum := (x.get name).getD .undefined

/-- The values of a node whose components have the values `set`. -/
def valuesOfNode (set : TypeId → Set Datum) : Node → Set Datum
  | .error => Set.univ
  | .object o => {x | x ∈ ofNode set (.object o) ∧ (o.isEmpty ∨ x.isRecord)}
  | n => ofNode set n

theorem valuesOfNode_congr {set set' : TypeId → Set Datum} {n : Node}
    (h : ∀ c ∈ n.components, set c = set' c) : valuesOfNode set n = valuesOfNode set' n := by
  have hnode := ofNode_congr h
  cases n with
  | error => rfl
  | object o => simp only [valuesOfNode, hnode]
  | _ => exact hnode

end Datum

namespace Store

def valuesAt (s : Store) : Nat → TypeId → Set Datum
  | 0, _ => ∅
  | fuel + 1, t => Datum.valuesOfNode (valuesAt s fuel) (s.node t)

/-- The values of a type. Components have smaller ids, so the id bounds the nesting. -/
def values (s : Store) (t : TypeId) : Set Datum := s.valuesAt (t.index + 1) t

variable {s s' : Store} {t c : TypeId} {x : Datum}

theorem valuesAt_eq (hs : s.Formed) (h : s.Extends s') {fuel fuel' : Nat}
    (ht : t.index < s.size) (hfuel : t.index < fuel) (hfuel' : t.index < fuel') :
    s'.valuesAt fuel' t = s.valuesAt fuel t := by
  induction fuel generalizing fuel' t with
  | zero => omega
  | succ fuel ih =>
      obtain ⟨k, rfl⟩ : ∃ k, fuel' = k + 1 := ⟨fuel' - 1, by omega⟩
      simp only [valuesAt, h.node_eq t ht]
      refine Datum.valuesOfNode_congr fun c hc => ?_
      have hlt := hs.descends t ht c hc
      exact ih (by omega) (by omega) (by omega)

/-- What is known keeps its values. -/
theorem Extends.values_eq (h : s.Extends s') (hs : s.Formed) (ht : t.index < s.size) :
    s'.values t = s.values t :=
  valuesAt_eq hs h ht (Nat.lt_succ_self _) (Nat.lt_succ_self _)

theorem Formed.values_eq (hs : s.Formed) (t : TypeId) :
    s.values t = Datum.valuesOfNode s.values (s.node t) := by
  refine Datum.valuesOfNode_congr fun c hc => ?_
  by_cases ht : t.index < s.size
  · have hlt := hs.descends t ht c hc
    exact valuesAt_eq hs (.refl s) (by omega) (Nat.lt_succ_self _) hlt
  · rw [node_eq_error_of_size_le (Nat.le_of_not_lt ht)] at hc
    cases hc

section nodes

variable (hs : s.Formed)

include hs

theorem mem_values_intrinsic (k : Intrinsic) : x ∈ s.values k.typeId ↔ x ∈ Datum.intrinsic k := by
  rw [hs.values_eq, hs.node_intrinsic]
  rfl

theorem mem_values_error : x ∈ s.values .error := by
  have hnode : s.node .error = .error := hs.node_fixed (i := 0) (by decide)
  rw [hs.values_eq, hnode]
  trivial

theorem mem_values_literal {v : Literal} (hn : s.node t = .literal v) :
    x ∈ s.values t ↔ x = .literal v := by
  rw [hs.values_eq, hn]
  rfl

theorem mem_values_union {members : List TypeId} (hn : s.node t = .union members) :
    x ∈ s.values t ↔ ∃ m ∈ members, x ∈ s.values m := by
  rw [hs.values_eq, hn]
  rfl

theorem mem_values_object {o : ObjectShape} (hn : s.node t = .object o) :
    x ∈ s.values t ↔ (x ∈ Datum.present ∧ HasShape s.values Datum.get x o) ∧
      (o.isEmpty ∨ x.isRecord) := by
  rw [hs.values_eq, hn]
  rfl

theorem mem_values_array (hn : s.node t = .array c) :
    x ∈ s.values t ↔ x ∈ Datum.lists (s.values c) := by
  rw [hs.values_eq, hn]
  rfl

theorem mem_values_function {f : FunctionShape} (hn : s.node t = .function f) :
    x ∈ s.values t ↔ x = .closure := by
  rw [hs.values_eq, hn]
  rfl

/-- A literal's value belongs to its primitive. -/
theorem mem_values_primitive {v : Literal} (hn : s.node t = .literal v) (hx : x ∈ s.values t) :
    x ∈ s.values v.primitive := by
  rw [mem_values_literal hs hn] at hx
  subst hx
  cases v with
  | string text => exact (mem_values_intrinsic hs .string).mpr ⟨text, rfl⟩
  | number n => exact (mem_values_intrinsic hs .number).mpr ⟨n, rfl⟩
  | boolean b => exact (mem_values_intrinsic hs .boolean).mpr ⟨b, rfl⟩

theorem exists_mem_unionLeaves_values (ht : t.index < s.size) :
    (∃ l ∈ s.unionLeaves t, x ∈ s.values l) ↔ x ∈ s.values t :=
  exists_mem_leavesAt hs Node.unionMembers?_subset
    (fun _ _ _ hn => (mem_values_union hs (Node.eq_union_of_members hn)).symm) ht
    (Nat.lt_succ_self _)

end nodes

end Store

end TypeResolution
