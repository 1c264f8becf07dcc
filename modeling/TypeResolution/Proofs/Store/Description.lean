import TypeResolution.Proofs.Store.Formed

/-!
Types as trees. A description says what a type is made of without naming it: where a node has ids it
has descriptions. Two descriptions are of one type when they are equal up to what a type leaves out:
the order of fields, the order and repetition of members, the sign of zero and the payload of NaN,
and the way in which the text of a template is cut.
-/

namespace TypeResolution

structure Entry (α : Type) where
  name : String
  type : α
  optional : Bool
  readonly : Bool

inductive Piece (α : Type) where
  | text (text : String)
  | hole (type : α)

/-- What a type is made of, with `α` in the place of its components. -/
inductive Shape (α : Type) where
  | error
  | intrinsic (kind : Intrinsic)
  | literal (value : Literal)
  | object (fields : List (Entry α)) (index : Option α)
  | union (members : List α)
  | intersection (members : List α)
  | param (name : String) (constraint default : Option α) (isConst : Bool)
  | conditional (check pattern : α) (infer : List String) (whenTrue whenFalse : α)
      (distributive : Bool)
  | mapped (keyParam : String) (source : α) (keyFilter : Option α) (template : α)
      (nameType : Option α) (optional readonly : Option Modifier)
  | function (params : List α) (result : α)
  | array (element : α)
  | reference (name : String) (args : List α)
  | indexAccess (object key : α)
  | template (pieces : List (Piece α))
  | stringMap (kind : StringMap) (arg : α)

inductive Description where
  | of (shape : Shape Description)

variable {α β γ : Type}

def Entry.map (f : α → β) (e : Entry α) : Entry β := ⟨e.name, f e.type, e.optional, e.readonly⟩

namespace Piece

def map (f : α → β) : Piece α → Piece β
  | .text a => .text a
  | .hole t => .hole (f t)

def part? : Piece α → Option α
  | .text _ => none
  | .hole t => some t

end Piece

namespace Shape

def map (f : α → β) : Shape α → Shape β
  | .error => .error
  | .intrinsic kind => .intrinsic kind
  | .literal value => .literal value
  | .object fields index => .object (fields.map (Entry.map f)) (index.map f)
  | .union members => .union (members.map f)
  | .intersection members => .intersection (members.map f)
  | .param name constraint default isConst =>
      .param name (constraint.map f) (default.map f) isConst
  | .conditional check pattern infer whenTrue whenFalse distributive =>
      .conditional (f check) (f pattern) infer (f whenTrue) (f whenFalse) distributive
  | .mapped keyParam source keyFilter body nameType optional readonly =>
      .mapped keyParam (f source) (keyFilter.map f) (f body) (nameType.map f) optional readonly
  | .function params result => .function (params.map f) (f result)
  | .array element => .array (f element)
  | .reference name args => .reference name (args.map f)
  | .indexAccess owner key => .indexAccess (f owner) (f key)
  | .template pieces => .template (pieces.map (Piece.map f))
  | .stringMap kind arg => .stringMap kind (f arg)

def parts : Shape α → List α
  | .error | .intrinsic _ | .literal _ => []
  | .object fields index => fields.map (·.type) ++ index.toList
  | .union members | .intersection members => members
  | .param _ constraint default _ => constraint.toList ++ default.toList
  | .conditional check pattern _ whenTrue whenFalse _ => [check, pattern, whenTrue, whenFalse]
  | .mapped _ source keyFilter body nameType _ _ =>
      source :: keyFilter.toList ++ body :: nameType.toList
  | .function params result => params ++ [result]
  | .array element => [element]
  | .reference _ args => args
  | .indexAccess owner key => [owner, key]
  | .template pieces => pieces.filterMap Piece.part?
  | .stringMap _ arg => [arg]

theorem map_congr {f g : α → β} {shape : Shape α} (h : ∀ a ∈ shape.parts, f a = g a) :
    shape.map f = shape.map g := by
  have hlist {l : List α} (h : ∀ a ∈ l, f a = g a) : l.map f = l.map g := List.map_congr_left h
  have hoption {o : Option α} (h : ∀ a ∈ o.toList, f a = g a) : o.map f = o.map g := by
    cases o with
    | none => rfl
    | some a => exact congrArg some (h a (by simp))
  cases shape with
  | error | intrinsic _ | literal _ => rfl
  | object fields index =>
      have hfields : fields.map (Entry.map f) = fields.map (Entry.map g) := by
        refine List.map_congr_left fun e he => ?_
        rw [Entry.map, h e.type (List.mem_append_left _ (List.mem_map_of_mem he))]
        rfl
      rw [map, map, hfields, hoption fun a ha => h a (List.mem_append_right _ ha)]
  | union members | intersection members => simp only [map, hlist (l := members) h]
  | param name constraint default isConst =>
      simp only [map, hoption (o := constraint) fun a ha => h a (List.mem_append_left _ ha),
        hoption (o := default) fun a ha => h a (List.mem_append_right _ ha)]
  | conditional check pattern infer whenTrue whenFalse distributive =>
      simp only [parts, List.forall_mem_cons] at h
      simp only [map, h]
  | mapped keyParam source keyFilter body nameType optional readonly =>
      simp only [parts, List.cons_append, List.mem_cons, List.mem_append, or_imp, forall_and,
        forall_eq] at h
      obtain ⟨hsource, hfilter, hbody, hname⟩ := h
      simp only [map, hsource, hoption hfilter, hbody, hoption hname]
  | function params result =>
      simp only [map, hlist (l := params) fun a ha => h a (List.mem_append_left _ ha),
        h result (by simp [parts])]
  | array element => simp only [map, h element (by simp [parts])]
  | reference name args => simp only [map, hlist (l := args) h]
  | indexAccess owner key =>
      simp only [parts, List.forall_mem_cons] at h
      simp only [map, h]
  | template pieces =>
      refine congrArg template (List.map_congr_left fun p hp => ?_)
      cases p with
      | text _ => rfl
      | hole a => exact congrArg Piece.hole (h a (List.mem_filterMap.mpr ⟨_, hp, rfl⟩))
  | stringMap kind arg => simp only [map, h arg (by simp [parts])]

theorem map_map {f : α → β} {g : β → γ} {shape : Shape α} :
    (shape.map f).map g = shape.map (g ∘ f) := by
  have hpiece : Piece.map g ∘ Piece.map f = Piece.map (g ∘ f) := by
    funext p
    cases p <;> rfl
  cases shape with
  | object fields index => simp only [map, List.map_map, Option.map_map]; rfl
  | template pieces => simp only [map, List.map_map, hpiece]
  | _ => simp only [map, List.map_map, Option.map_map, Function.comp_apply]

theorem map_id (shape : Shape α) : shape.map id = shape := by
  have hentry : (Entry.map id : Entry α → Entry α) = id := rfl
  have hpiece : (Piece.map id : Piece α → Piece α) = id := by
    funext p
    cases p <;> rfl
  cases shape <;> simp [map, hentry, hpiece]

theorem parts_map {f : α → β} {shape : Shape α} : (shape.map f).parts = shape.parts.map f := by
  have hoption (o : Option α) : (o.map f).toList = o.toList.map f := by cases o <;> rfl
  cases shape with
  | object fields index =>
      simp only [map, parts, List.map_map, List.map_append, hoption]
      rfl
  | template pieces =>
      simp only [map, parts, List.filterMap_map, List.map_filterMap]
      refine List.filterMap_congr fun p _ => ?_
      cases p <;> rfl
  | _ => simp [map, parts, hoption]

end Shape

namespace Description

theorem sizeOf_lt {shape : Shape Description} {c : Description} (h : c ∈ shape.parts) :
    sizeOf c < sizeOf (of shape) := by
  have hlist {l : List Description} (h : c ∈ l) : sizeOf c < sizeOf l := List.sizeOf_lt_of_mem h
  have hoption {o : Option Description} (h : c ∈ o.toList) : sizeOf c < sizeOf o := by
    cases o with
    | none => simp at h
    | some d => simp_all
  have hfields {l : List (Entry Description)} (h : c ∈ l.map (·.type)) : sizeOf c < sizeOf l := by
    obtain ⟨e, he, rfl⟩ := List.mem_map.mp h
    have hlt := List.sizeOf_lt_of_mem he
    cases e
    simp only [Entry.mk.sizeOf_spec] at hlt ⊢
    omega
  have hpieces {l : List (Piece Description)} (h : c ∈ l.filterMap Piece.part?) :
      sizeOf c < sizeOf l := by
    obtain ⟨p, hp, h⟩ := List.mem_filterMap.mp h
    have hlt := List.sizeOf_lt_of_mem hp
    cases p <;> cases h
    simp only [Piece.hole.sizeOf_spec] at hlt
    omega
  cases shape <;> simp [Shape.parts] at h ⊢ <;> grind

/-- A description has what all descriptions have whose parts have it. -/
theorem of_parts {P : Description → Prop}
    (h : ∀ shape : Shape Description, (∀ c ∈ shape.parts, P c) → P (of shape)) (d : Description) :
    P d := by
  induction hn : sizeOf d using Nat.strong_induction_on generalizing d with
  | _ n ih =>
      subst hn
      cases d with
      | of shape => exact h shape fun c hc => ih (sizeOf c) (sizeOf_lt hc) c rfl

/-- Descriptions of one type. -/
inductive Equiv : Description → Description → Prop
  | refl (d : Description) : Equiv d d
  | symm {d e : Description} : Equiv d e → Equiv e d
  | trans {d e f : Description} : Equiv d e → Equiv e f → Equiv d f
  | parts {shape : Shape Description} (f : Description → Description) :
      (∀ c ∈ shape.parts, Equiv c (f c)) → Equiv (of shape) (of (shape.map f))
  | swap {before after : List (Entry Description)} {a b : Entry Description}
      {index : Option Description} : a.name ≠ b.name →
      Equiv (of (.object (before ++ a :: b :: after) index))
        (of (.object (before ++ b :: a :: after) index))
  | union {ms ns : List Description} : (∀ m, m ∈ ms ↔ m ∈ ns) →
      Equiv (of (.union ms)) (of (.union ns))
  | union_nil : Equiv (of (.union [])) (of (.intrinsic .never))
  | union_single (d : Description) : Equiv (of (.union [d])) d
  | intersection {ms ns : List Description} : (∀ m, m ∈ ms ↔ m ∈ ns) →
      Equiv (of (.intersection ms)) (of (.intersection ns))
  | intersection_nil : Equiv (of (.intersection [])) (of (.intrinsic .unknown))
  | intersection_single (d : Description) : Equiv (of (.intersection [d])) d
  | zero {x y : Number} : x.isZero → y.isZero →
      Equiv (of (.literal (.number x))) (of (.literal (.number y)))
  | nan {x y : Number} : x.isNaN → y.isNaN →
      Equiv (of (.literal (.number x))) (of (.literal (.number y)))
  | drop {before after : List (Piece Description)} :
      Equiv (of (.template (before ++ .text "" :: after))) (of (.template (before ++ after)))
  | join {before after : List (Piece Description)} {a b : String} :
      Equiv (of (.template (before ++ .text a :: .text b :: after)))
        (of (.template (before ++ .text (a ++ b) :: after)))
  | text (a : String) : Equiv (of (.template [.text a])) (of (.literal (.string a)))

end Description

section fields

variable {name : α → String} {l l' : List α}

/-- Lists that are sorted by name are equal if their members of each name are. -/
theorem eq_of_sorted_names (hl : l.Pairwise fun a b => name a ≤ name b)
    (hl' : l'.Pairwise fun a b => name a ≤ name b)
    (h : ∀ n, l.filter (name · = n) = l'.filter (name · = n)) : l = l' := by
  have hmem : ∀ a, a ∈ l ↔ a ∈ l' := by
    intro a
    have ha : a ∈ l.filter (name · = name a) ↔ a ∈ l'.filter (name · = name a) := by rw [h]
    simpa using ha
  induction l generalizing l' with
  | nil =>
      cases l' with
      | nil => rfl
      | cons b _ => exact absurd ((hmem b).mpr (by simp)) (by simp)
  | cons a rest ih =>
      cases l' with
      | nil => exact absurd ((hmem a).mp (by simp)) (by simp)
      | cons b rest' =>
          obtain ⟨ha, hrest⟩ := List.pairwise_cons.mp hl
          obtain ⟨hb, hrest'⟩ := List.pairwise_cons.mp hl'
          have hab : name a ≤ name b := by
            rcases List.mem_cons.mp ((hmem b).mpr (by simp)) with rfl | hmem
            · exact String.le_refl _
            · exact ha b hmem
          have hba : name b ≤ name a := by
            rcases List.mem_cons.mp ((hmem a).mp (by simp)) with rfl | hmem
            · exact String.le_refl _
            · exact hb a hmem
          have hname := String.le_antisymm hab hba
          have heq : a = b := by
            have hfirst := h (name a)
            simp only [List.filter_cons, hname, decide_true, if_true, List.cons.injEq] at hfirst
            exact hfirst.1
          subst heq
          have hfilter : ∀ n, rest.filter (name · = n) = rest'.filter (name · = n) := by
            intro n
            have hn := h n
            simp only [List.filter_cons] at hn
            split at hn
            · exact (List.cons.inj hn).2
            · exact hn
          refine congrArg (a :: ·) (ih hrest hrest' hfilter fun c => ?_)
          have hc : c ∈ rest.filter (name · = name c) ↔ c ∈ rest'.filter (name · = name c) := by
            rw [hfilter]
          simpa using hc

theorem names_total (a b : Field) : (decide (a.name ≤ b.name) || decide (b.name ≤ a.name)) = true := by
  simpa using String.le_total a.name b.name

theorem names_trans (a b c : Field) : decide (a.name ≤ b.name) = true →
    decide (b.name ≤ c.name) = true → decide (a.name ≤ c.name) = true := by
  simpa using String.le_trans

/-- Sorting is stable. -/
theorem filter_sorted (o : ObjectShape) (n : String) :
    o.sorted.fields.filter (·.name = n) = o.fields.filter (·.name = n) := by
  have hsub : (o.fields.filter (·.name = n)).Sublist o.sorted.fields := by
    refine List.sublist_mergeSort names_trans names_total ?_ List.filter_sublist
    refine List.pairwise_of_forall_mem_list fun a ha b hb => ?_
    have ha : a.name = n := by simpa using (List.mem_filter.mp ha).2
    have hb : b.name = n := by simpa using (List.mem_filter.mp hb).2
    simp [ha, hb]
  have hfilter := hsub.filter (·.name = n)
  rw [List.filter_filter] at hfilter
  simp only [Bool.and_self] at hfilter
  exact (hfilter.eq_of_length ((o.sorted_perm.filter _).length_eq.symm)).symm

theorem sorted_eq_iff {o p : ObjectShape} : o.sorted = p.sorted ↔ o.stringIndex = p.stringIndex ∧
    ∀ n, o.fields.filter (·.name = n) = p.fields.filter (·.name = n) := by
  constructor
  · intro h
    refine ⟨ObjectShape.stringIndex_of_sorted_eq h, fun n => ?_⟩
    rw [← filter_sorted o, ← filter_sorted p, h]
  · rintro ⟨hindex, hfields⟩
    have hsorted (o : ObjectShape) : o.sorted.fields.Pairwise fun a b => a.name ≤ b.name := by
      have h := List.pairwise_mergeSort names_trans names_total o.fields
      exact h.imp fun h => by simpa using h
    have hfields : o.sorted.fields = p.sorted.fields := by
      refine eq_of_sorted_names (hsorted o) (hsorted p) fun n => ?_
      rw [filter_sorted, filter_sorted, hfields n]
    calc o.sorted = ⟨o.sorted.fields, o.stringIndex⟩ := rfl
      _ = ⟨p.sorted.fields, p.stringIndex⟩ := by rw [hfields, hindex]
      _ = p.sorted := rfl

end fields

namespace Description.Equiv

theorem move_front (before : List (Entry Description)) {passed after : List (Entry Description)}
    {a : Entry Description} {index : Option Description} (h : ∀ b ∈ passed, b.name ≠ a.name) :
    Equiv (of (.object (before ++ (passed ++ a :: after)) index))
      (of (.object (before ++ a :: (passed ++ after)) index)) := by
  induction passed generalizing before with
  | nil => exact .refl _
  | cons b rest ih =>
      have hrest := ih (before ++ [b]) fun c hc => h c (by simp [hc])
      simp only [List.append_assoc, List.singleton_append] at hrest
      exact hrest.trans (swap (h b (by simp)))

theorem fields (before fs gs : List (Entry Description)) {index : Option Description}
    (h : ∀ n, fs.filter (·.name = n) = gs.filter (·.name = n)) :
    Equiv (of (.object (before ++ fs) index)) (of (.object (before ++ gs) index)) := by
  induction fs generalizing before gs with
  | nil =>
      cases gs with
      | nil => exact .refl _
      | cons b _ =>
          have hb := h b.name
          simp at hb
  | cons a rest ih =>
      have ha := h a.name
      simp only [List.filter_cons, decide_true, if_true] at ha
      obtain ⟨passed, after, rfl, hpassed, -, hafter⟩ := List.filter_eq_cons_iff.mp ha.symm
      have hpassed : ∀ b ∈ passed, b.name ≠ a.name := by simpa using hpassed
      refine trans ?_ (move_front before hpassed).symm
      have hrest := ih (before ++ [a]) (passed ++ after) fun n => ?_
      · simpa using hrest
      have hn := h n
      simp only [List.filter_cons, List.filter_append] at hn ⊢
      by_cases han : a.name = n
      · subst han
        have hnone : passed.filter (·.name = a.name) = [] := by simpa using hpassed
        rw [hnone, List.nil_append]
        exact hafter.symm
      · simpa [han] using hn

/-- The fields of an object may stand in any order if their names are distinct. -/
theorem of_perm {fs gs : List (Entry Description)} {index : Option Description}
    (hdistinct : (fs.map (·.name)).Nodup) (h : fs.Perm gs) :
    Equiv (of (.object fs index)) (of (.object gs index)) := by
  refine fields [] fs gs fun n => ?_
  have hperm := h.filter (·.name = n)
  have hlength : (fs.filter (·.name = n)).length ≤ 1 := by
    have hnodup : ((fs.filter (·.name = n)).map (·.name)).Nodup :=
      hdistinct.sublist (List.filter_sublist.map _)
    have hnames : (fs.filter (·.name = n)).map (·.name) =
        List.replicate (fs.filter (·.name = n)).length n := by
      refine List.eq_replicate_iff.mpr ⟨by simp, fun m hm => ?_⟩
      obtain ⟨a, ha, rfl⟩ := List.mem_map.mp hm
      simpa using (List.mem_filter.mp ha).2
    rw [hnames, List.nodup_replicate] at hnodup
    exact hnodup
  generalize fs.filter (·.name = n) = l at hperm hlength
  match l with
  | [] => exact (List.nil_perm.mp hperm).symm
  | [a] => exact List.singleton_perm.mp hperm
  | _ :: _ :: _ => simp at hlength

theorem number (x : Number) :
    Equiv (of (.literal (.number x))) (of (.literal (.number x.canonical))) := by
  unfold Number.canonical
  split
  · exact zero ‹_› rfl
  · split
    · exact nan ‹_› (by decide)
    · exact .refl _

end Description.Equiv

end TypeResolution
