import TypeResolution.Proofs.Normal.Interpretation

/-!
A universe of values and the interpretation of the types of any well-formed store in it. Parameters
and types that only evaluation resolves have no values here.
-/

namespace TypeResolution

inductive Datum where
  | undefined
  | null
  | literal (value : Literal)
  | list (values : List Datum)
  | closure
  | record (fields : String → Option Datum)

namespace Datum

def get : Datum → String → Option Datum
  | .record fields, name => fields name
  | _, _ => none

/-- All but `undefined` and `null`. -/
def present : Set Datum := {.undefined, .null}ᶜ

def lists (c : Set Datum) : Set Datum := {x | ∃ values, x = .list values ∧ ∀ v ∈ values, v ∈ c}

def intrinsic : Intrinsic → Set Datum
  | .never => ∅
  | .unknown | .any => Set.univ
  | .void | .undefined => {.undefined}
  | .null => {.null}
  | .boolean => {x | ∃ b, x = .literal (.boolean b)}
  | .number => {x | ∃ n, x = .literal (.number n)}
  | .string => {x | ∃ text, x = .literal (.string text)}

/-- The values of a node whose components have the values `set`. -/
def ofNode (set : TypeId → Set Datum) : Node → Set Datum
  | .intrinsic k => intrinsic k
  | .literal v => {.literal v}
  | .union members => {x | ∃ m ∈ members, x ∈ set m}
  | .intersection members => {x | ∀ m ∈ members, x ∈ set m}
  | .object o => {x | x ∈ present ∧ HasShape set get x o}
  | .array c => lists (set c)
  | .function _ => {.closure}
  | _ => ∅

def ofTypeAt (F : Store) : Nat → TypeId → Set Datum
  | 0, _ => ∅
  | fuel + 1, t => ofNode (ofTypeAt F fuel) (F.node t)

/-- The values of a type. Components have smaller ids, so the id bounds the nesting. -/
def ofType (F : Store) (t : TypeId) : Set Datum := ofTypeAt F (t.index + 1) t

theorem ofNode_congr {set set' : TypeId → Set Datum} {n : Node}
    (h : ∀ c ∈ n.components, set c = set' c) : ofNode set n = ofNode set' n := by
  cases n with
  | union members =>
      refine Set.ext fun x => exists_congr fun m => and_congr_right fun hm => ?_
      rw [h m hm]
  | intersection members =>
      refine Set.ext fun x => forall_congr' fun m => forall_congr' fun hm => ?_
      rw [h m hm]
  | object o =>
      have hfield : ∀ x, ∀ f ∈ o.fields, (HasField set get x f ↔ HasField set' get x f) := by
        intro x f hf
        have hf := h f.type (by
          simp only [Node.components, List.mem_append, List.mem_map]
          exact .inl ⟨f, hf, rfl⟩)
        simp only [HasField, hf]
      have hindex : ∀ x, (HasIndex set get x o.stringIndex ↔ HasIndex set' get x o.stringIndex) := by
        intro x
        refine forall_congr' fun t => forall_congr' fun ht => ?_
        rw [h t (by simp [Node.components, ht])]
      refine Set.ext fun x => and_congr_right fun _ => ⟨fun hx => ?_, fun hx => ?_⟩
      · exact ⟨fun f hf => (hfield x f hf).mp (hx.fields f hf), (hindex x).mp hx.index⟩
      · exact ⟨fun f hf => (hfield x f hf).mpr (hx.fields f hf), (hindex x).mpr hx.index⟩
  | array c => simp only [ofNode, h c (List.mem_singleton_self c)]
  | _ => rfl

theorem ofTypeAt_eq {F : Store} (hF : F.Formed) {fuel fuel' : Nat} {t : TypeId}
    (ht : t.index < F.size) (h : t.index < fuel) (h' : t.index < fuel') :
    ofTypeAt F fuel t = ofTypeAt F fuel' t := by
  induction fuel generalizing fuel' t with
  | zero => omega
  | succ fuel ih =>
      obtain ⟨k, rfl⟩ : ∃ k, fuel' = k + 1 := ⟨fuel' - 1, by omega⟩
      refine ofNode_congr fun c hc => ?_
      have hlt := hF.descends t ht c hc
      exact ih (by omega) (by omega) (by omega)

theorem ofType_eq {F : Store} (hF : F.Formed) {t : TypeId} (ht : t.index < F.size) :
    ofType F t = ofNode (ofType F) (F.node t) := by
  refine ofNode_congr fun c hc => ?_
  have hlt := hF.descends t ht c hc
  exact ofTypeAt_eq hF (by omega) hlt (Nat.lt_succ_self _)

section laws

variable {F : Store} (hF : F.Formed) {t : TypeId}

include hF

theorem ofType_intrinsic (k : Intrinsic) : ofType F k.typeId = intrinsic k := by
  rw [ofType_eq hF (hF.known_of_isFixed (by cases k <;> rfl)), hF.node_intrinsic k]
  rfl

theorem ofType_node {n : Node} (hn : F.node t = n) (hne : n ≠ .error) :
    ofType F t = ofNode (ofType F) n := by
  rw [ofType_eq hF (Store.known_of_node hn hne), hn]

theorem disjoint_primitives : [TypeId.string, .number, .boolean, .null, .undefined].Pairwise
    fun a b => Disjoint (ofType F a) (ofType F b) := by
  have hstring : ofType F .string = _ := ofType_intrinsic hF .string
  have hnumber : ofType F .number = _ := ofType_intrinsic hF .number
  have hboolean : ofType F .boolean = _ := ofType_intrinsic hF .boolean
  have hnull : ofType F .null = _ := ofType_intrinsic hF .null
  have hundefined : ofType F .undefined = _ := ofType_intrinsic hF .undefined
  simp only [List.pairwise_cons, List.mem_cons, List.not_mem_nil, or_false, forall_eq_or_imp,
    forall_eq, hstring, hnumber, hboolean, hnull, hundefined, Set.disjoint_left, intrinsic]
  simp

theorem present_eq : present = (ofType F .null)ᶜ ∩ (ofType F .undefined)ᶜ := by
  have hnull : ofType F .null = _ := ofType_intrinsic hF .null
  have hundefined : ofType F .undefined = _ := ofType_intrinsic hF .undefined
  ext x
  simp [present, hnull, hundefined, intrinsic, and_comm]

theorem ofType_boolean : ofType F .boolean = ofType F .trueLiteral ∪ ofType F .falseLiteral := by
  have hboolean : ofType F .boolean = _ := ofType_intrinsic hF .boolean
  have htrue : ofType F .trueLiteral = {.literal (.boolean true)} :=
    ofType_node hF (hF.node_fixed (i := 10) (by decide)) nofun
  have hfalse : ofType F .falseLiteral = {.literal (.boolean false)} :=
    ofType_node hF (hF.node_fixed (i := 11) (by decide)) nofun
  rw [hboolean, htrue, hfalse]
  ext x
  simp [intrinsic]

theorem eq_of_ofType_literal {u : TypeId} {v w : Literal} (ht : F.node t = .literal v)
    (hu : F.node u = .literal w) (h : ofType F t = ofType F u) : t = u := by
  have hknown : ∀ {t v}, F.node t = .literal v → t.index < F.size := fun hn =>
    Store.known_of_node hn (by simp)
  rw [ofType_node hF ht nofun, ofType_node hF hu nofun] at h
  have hvw : Datum.literal v = .literal w := Set.singleton_injective h
  cases hvw
  exact hF.eq_of_node_eq (hknown ht) (hknown hu) (ht.trans hu.symm)

end laws

end Datum

/-- The types of a well-formed store, as sets of values. -/
def Interpretation.standard {F : Store} (hF : F.Formed) : Interpretation F Datum where
  set := Datum.ofType F
  get := Datum.get
  array := Datum.lists
  function _ _ := {.closure}
  set_never := Datum.ofType_intrinsic hF .never
  set_unknown := Datum.ofType_intrinsic hF .unknown
  set_void := (Datum.ofType_intrinsic hF .void).trans (Datum.ofType_intrinsic hF .undefined).symm
  set_undefined := ⟨_, Datum.ofType_intrinsic hF .undefined⟩
  set_boolean := Datum.ofType_boolean hF
  disjoint := Datum.disjoint_primitives hF
  set_literal t v hn := by
    refine ⟨.literal v, ?_, Datum.ofType_node hF hn nofun⟩
    cases v with
    | string text => exact (Datum.ofType_intrinsic hF .string).symm ▸ ⟨text, rfl⟩
    | number n => exact (Datum.ofType_intrinsic hF .number).symm ▸ ⟨n, rfl⟩
    | boolean b => exact (Datum.ofType_intrinsic hF .boolean).symm ▸ ⟨b, rfl⟩
  literal_injective t u v w ht hu h := Datum.eq_of_ofType_literal hF ht hu h
  set_union t members hn := Datum.ofType_node hF hn nofun
  set_intersection t members hn := Datum.ofType_node hF hn nofun
  set_object t o hn := by
    rw [Datum.ofType_node hF hn nofun]
    simp only [Datum.ofNode, Datum.present_eq hF, ← and_assoc]
    rfl
  set_array t c hn := Datum.ofType_node hF hn nofun
  array_subset c := by
    rw [← Datum.present_eq hF]
    rintro _ ⟨values, rfl, _⟩
    simp [Datum.present]
  set_function t f hn := Datum.ofType_node hF hn nofun
  function_subset params result := by
    rw [← Datum.present_eq hF]
    rintro _ rfl
    simp [Datum.present]

end TypeResolution
