import Mathlib.Data.List.Forall2
import TypeResolution.Json.Decode
import TypeResolution.Proofs.Json.Reading

/-!
What the parts of a written value decode to: lists, records with known keys, choices, and variants
that are taken in whole. Nesting counts against the budget, one for every array and object.
-/

namespace TypeResolution

namespace Json

mutual

/-- How deep arrays and objects nest. -/
def nesting : Json → Nat
  | .null => 0
  | .bool _ => 0
  | .number _ => 0
  | .string _ => 0
  | .array items => itemNesting items + 1
  | .object entries => entryNesting entries + 1

def itemNesting : List Json → Nat
  | [] => 0
  | v :: rest => max (nesting v) (itemNesting rest)

def entryNesting : List (JsonText × Json) → Nat
  | [] => 0
  | (_, v) :: rest => max (nesting v) (entryNesting rest)

end

theorem nesting_le_itemNesting {items : List Json} {v : Json} (h : v ∈ items) :
    v.nesting ≤ itemNesting items := by
  induction items with
  | nil => cases h
  | cons w rest ih =>
      rw [itemNesting]
      cases h with
      | head => exact Nat.le_max_left _ _
      | tail _ h => exact Nat.le_trans (ih h) (Nat.le_max_right _ _)

theorem nesting_le_entryNesting {es : List (JsonText × Json)} {e : JsonText × Json} (h : e ∈ es) :
    e.2.nesting ≤ entryNesting es := by
  induction es with
  | nil => cases h
  | cons d rest ih =>
      rw [entryNesting]
      cases h with
      | head => exact Nat.le_max_left _ _
      | tail _ h => exact Nat.le_trans (ih h) (Nat.le_max_right _ _)

theorem enter?_of_lt {b : Budget} {n : Nat} (h : n < b.depth) :
    ∃ inner, b.enter? = some inner ∧ inner.depth + 1 = b.depth ∧ inner.whole = b.whole := by
  obtain ⟨depth, whole⟩ := b
  cases depth with
  | zero => simp at h
  | succ d => exact ⟨⟨d, whole⟩, rfl, rfl, rfl⟩

theorem filter_record {es : List (String × Json)} (h : (es.map Prod.fst).Nodup) (name : String) :
    (es.map fun (k, v) => (some k, v)).filter (·.1 = some name) =
      (es.lookup name).toList.map fun v => (some name, v) := by
  induction es with
  | nil => rfl
  | cons e es ih =>
      obtain ⟨key, v⟩ := e
      obtain ⟨hkey, hes⟩ := List.nodup_cons.mp h
      have hrest := ih hes
      by_cases hname : key = name
      · subst hname
        have hnone : es.lookup key = none := by
          simp only [List.lookup_eq_none_iff, bne_iff_ne]
          exact fun e he heq => hkey (List.mem_map.mpr ⟨e, he, heq.symm⟩)
        simp [hrest, hnone]
      · simp [hname, hrest, List.lookup_cons, beq_eq_false_iff_ne.mpr (Ne.symm hname)]

/-- A field of a record with known keys. -/
theorem field?_record {es : List (String × Json)} (h : (es.map Prod.fst).Nodup) (name : String) :
    field? name (es.map fun (k, v) => (some k, v)) = some (es.lookup name) := by
  rw [field?, filter_record h]
  cases es.lookup name <;> rfl

theorem fields?_record {es : List (String × Json)} (h : (es.map Prod.fst).Nodup)
    (names : List String) : fields? names (record es) = some (names.map fun n => es.lookup n) := by
  have hkeys : (es.map fun (k, v) => (some k, v)).any (·.1.isNone) = false := by simp
  rw [record, fields?, if_neg (by simp [hkeys])]
  simp only [field?_record h]
  induction names with
  | nil => rfl
  | cons n names ih => simp [List.mapM_cons, ih]

theorem nesting_le_of_record {es : List (String × Json)} {e : String × Json} {n : Nat}
    (h : (record es).nesting ≤ n + 1) (he : e ∈ es) : e.2.nesting ≤ n := by
  have hle := nesting_le_entryNesting (List.mem_map_of_mem (f := fun (k, v) => (some k, v)) he)
  simp only [record, nesting] at h
  dsimp only at hle
  omega

/-- The fields of a record with known keys. -/
theorem record?_record {es : List (String × Json)} {b : Budget}
    (hkeys : (es.map Prod.fst).Nodup) (h : (record es).nesting ≤ b.depth) (names : List String) :
    ∃ inner, inner.depth < b.depth ∧ (∀ e ∈ es, e.2.nesting ≤ inner.depth) ∧
      record? names b (record es) = some (inner, names.map fun n => es.lookup n) := by
  have hpos : 0 < b.depth := by
    simp only [record, nesting] at h
    omega
  obtain ⟨inner, henter, hdepth, hwhole⟩ := enter?_of_lt hpos
  have hle : ∀ e ∈ es, e.2.nesting ≤ inner.depth :=
    fun e he => nesting_le_of_record (hdepth ▸ h) he
  exact ⟨inner, by omega, hle, by simp [record?, fields?_record hkeys, henter]⟩

theorem choice?_record {key : String} {v : Json} {b : Budget}
    (h : (record [(key, v)]).nesting ≤ b.depth) :
    ∃ inner, inner.depth < b.depth ∧ v.nesting ≤ inner.depth ∧
      choice? b (record [(key, v)]) = some (key, some (inner, v)) := by
  have hpos : 0 < b.depth := by
    simp only [record, nesting, List.map_cons] at h
    omega
  obtain ⟨inner, henter, hdepth, hwhole⟩ := enter?_of_lt hpos
  have hle : v.nesting ≤ inner.depth := nesting_le_of_record (hdepth ▸ h) (List.mem_singleton_self _)
  exact ⟨inner, by omega, hle, by simp [record, choice?, henter]⟩

/-- A value decodes up to a nesting. -/
def Decodes {α : Type} (level : Nat) (decode : Decoder α) (j : Json) (v : α) : Prop :=
  ∀ b, j.nesting ≤ b.depth → b.depth < level → decode b j = some v

variable {α : Type} {level : Nat} {item : Decoder α}

theorem decodes_list {js : List Json} {vs : List α} (h : List.Forall₂ (Decodes level item) js vs) :
    Decodes level (decodeList item) (.array js) vs := by
  intro b hle hlt
  simp only [nesting] at hle
  obtain ⟨inner, henter, hdepth, -⟩ := enter?_of_lt hle
  have hitems : itemNesting js ≤ inner.depth := by omega
  have hmap : js.mapM (item inner) = some vs := by
    clear hle
    induction h with
    | nil => rfl
    | cons hv _ ih =>
        simp only [itemNesting] at hitems
        simp [List.mapM_cons, hv inner (by omega) (by omega), ih (by omega)]
  simp [decodeList, henter, hmap]

theorem decodes_map {encode : α → Json} (vs : List α)
    (h : ∀ v ∈ vs, Decodes level item (encode v) v) :
    Decodes level (decodeList item) (.array (vs.map encode)) vs := by
  refine decodes_list ?_
  induction vs with
  | nil => exact .nil
  | cons v vs ih =>
      exact .cons (h v (by simp)) (ih fun w hw => h w (List.mem_cons_of_mem v hw))

theorem Decodes.map {β : Type} {j : Json} {v : α} (h : Decodes level item j v) (f : α → β) :
    Decodes level (fun b j => do return f (← item b j)) j (f v) := by
  intro b hle hlt
  dsimp only
  rw [h b hle hlt]
  rfl

/-- A variant decodes if what it holds does. -/
theorem Decodes.variant {decode : Decoder α} {name : String} {content : Json} {v : α}
    (h : Decodes level item content v)
    (hchoice : ∀ b inner, choice? b (record [(name, content)]) = some (name, some (inner, content)) →
      decode b (record [(name, content)]) = item inner content) :
    Decodes level decode (record [(name, content)]) v := by
  intro b hle hlt
  obtain ⟨inner, hinner, hcontent, heq⟩ := choice?_record hle
  rw [hchoice b inner heq]
  exact h inner hcontent (Nat.lt_trans hinner hlt)

theorem decodes_none : Decodes level (decodeOption item) .null none :=
  fun _ _ _ => rfl

theorem decodes_some {es : List (String × Json)} {v : α} (h : Decodes level item (record es) v) :
    Decodes level (decodeOption item) (record es) (some v) := by
  intro b hle hlt
  simp only [decodeOption, record] at h hle ⊢
  rw [h b hle hlt]
  rfl

@[simp]
theorem decodeString_text (b : Budget) (t : String) : decodeString b (.text t) = some t :=
  rfl

@[simp]
theorem decodeBool_bool (b : Budget) (x : Bool) : decodeBool b (.bool x) = some x :=
  rfl

@[simp]
theorem decodeWord_nat (b : Budget) (w : UInt32) : decodeWord b (.nat w.toNat) = some w := by
  have hlt : w.toNat < UInt32.size := w.toNat_lt_size
  simp [decodeWord, Json.word?, nat, JsonNumber.word?, hlt]

/-- A plain name. -/
theorem decodeName_text {ofName : String → Option α} {name : String} {v : α}
    (h : ofName name = some v) (b : Budget) : decodeName ofName b (.text name) = some v := by
  simp [decodeName, choice?, Json.text, h]

/-- A text, an integer that fits a word, or a number. -/
def WholeLeaf : Json → Prop
  | .null => True
  | .bool _ => True
  | .number (.integer negative n) => negative = false ∧ n < 2 ^ 32
  | .number (.real x) => x.isSome
  | .string t => t.isSome
  | .array _ => False
  | .object _ => False

/-- A value as it is written for a term: nothing in it stands for no value. -/
def Whole (j : Json) : Prop := ∀ a ∈ j.leaves, a.WholeLeaf

theorem whole_text (t : String) : Whole (.text t) := by
  simp [Whole, Json.text, leaves, WholeLeaf]

theorem whole_bool (b : Bool) : Whole (.bool b) := by
  simp [Whole, leaves, WholeLeaf]

theorem whole_null : Whole .null := by
  simp [Whole, leaves, WholeLeaf]

theorem whole_word (w : UInt32) : Whole (.nat w.toNat) := by
  have hlt := w.toNat_lt
  simpa [Whole, Json.nat, leaves, WholeLeaf] using hlt

theorem whole_number (x : Number) : Whole (.number (.real (some x))) := by
  simp [Whole, leaves, WholeLeaf]

theorem whole_array {items : List Json} (h : ∀ v ∈ items, Whole v) : Whole (.array items) := by
  intro a ha
  rw [leaves, itemLeaves_eq] at ha
  obtain ⟨v, hv, ha⟩ := List.mem_flatMap.mp ha
  exact h v hv a ha

theorem whole_map {α : Type} {encode : α → Json} {vs : List α} (h : ∀ v ∈ vs, Whole (encode v)) :
    Whole (.array (vs.map encode)) := by
  refine whole_array fun j hj => ?_
  obtain ⟨v, hv, rfl⟩ := List.mem_map.mp hj
  exact h v hv

theorem whole_record {es : List (String × Json)} : Whole (record es) ↔ ∀ e ∈ es, Whole e.2 := by
  constructor
  · intro h e he a ha
    refine h a ?_
    rw [record, leaves, entryLeaves_eq]
    exact List.mem_flatMap.mpr
      ⟨(some e.1, e.2), List.mem_map_of_mem he, List.mem_cons_of_mem _ ha⟩
  · intro h a ha
    rw [record, leaves, entryLeaves_eq] at ha
    obtain ⟨e, he, ha⟩ := List.mem_flatMap.mp ha
    obtain ⟨d, hd, rfl⟩ := List.mem_map.mp he
    cases ha with
    | head => rfl
    | tail _ ha => exact h d hd a ha

/-- What is whole and not nested too deep can be taken in at once. -/
theorem Whole.isWholeAt {j : Json} {d : Nat} (h : Whole j) (hd : j.nesting ≤ d) :
    isWholeAt d j := by
  induction j using induct generalizing d with
  | null => simp [Json.isWholeAt]
  | bool b => simp [Json.isWholeAt]
  | number n =>
      rw [Json.isWholeAt]
      cases n with
      | integer negative n =>
          obtain ⟨rfl, hn⟩ := h (.number (.integer negative n)) (by simp [leaves])
          exact JsonNumber.number?_integer (Nat.lt_trans hn (by decide))
      | real x => exact h (.number (.real x)) (by simp [leaves])
  | string t =>
      rw [Json.isWholeAt]
      exact h (.string t) (by simp [leaves])
  | array items ih =>
      cases d with
      | zero => simp [nesting] at hd
      | succ d =>
          simp only [nesting] at hd
          simp only [Json.isWholeAt, List.all_eq_true]
          intro v hv
          refine ih v hv (fun a ha => h a ?_) ?_
          · rw [leaves, itemLeaves_eq]
            exact List.mem_flatMap.mpr ⟨v, hv, ha⟩
          · have hle := nesting_le_itemNesting hv
            omega
  | object es ih =>
      cases d with
      | zero => simp [nesting] at hd
      | succ d =>
          simp only [nesting] at hd
          simp only [Json.isWholeAt, List.all_eq_true, Bool.and_eq_true]
          intro e he
          have hleaves : ∀ a ∈ .string e.1 :: e.2.leaves, a.WholeLeaf := by
            intro a ha
            refine h a ?_
            rw [leaves, entryLeaves_eq]
            exact List.mem_flatMap.mpr ⟨e, he, ha⟩
          have hle := nesting_le_entryNesting he
          exact ⟨hleaves _ (List.mem_cons_self ..),
            ih e he (fun a ha => hleaves a (List.mem_cons_of_mem _ ha)) (by omega)⟩

theorem filter_ne_record {es : List (String × Json)} {name : String}
    (h : name ∉ es.map Prod.fst) :
    (es.map fun (k, v) => (some k, v)).filter (·.1 ≠ some name) =
      es.map fun (k, v) => (some k, v) := by
  rw [List.filter_eq_self]
  intro e he
  obtain ⟨⟨key, v⟩, hmem, rfl⟩ := List.mem_map.mp he
  have hne : key ≠ name := fun heq => h (heq ▸ List.mem_map_of_mem hmem)
  simpa using hne

/-- A variant with its other fields: it is taken in whole, and the tag is taken off. -/
theorem tagged?_record (tags : List String) {tag : String} {es : List (String × Json)} {b : Budget}
    (hwhole : Whole (record (("kind", .text tag) :: es))) (hkeys : ("kind" :: es.map Prod.fst).Nodup)
    (h : (record (("kind", .text tag) :: es)).nesting ≤ b.depth) :
    ∃ inner, inner.depth < b.depth ∧ (∀ e ∈ es, e.2.nesting ≤ inner.depth) ∧
      tagged? tags b (record (("kind", .text tag) :: es)) = some (tag, inner, record es) := by
  have hpos : 0 < b.depth := by
    simp only [record, nesting] at h
    omega
  obtain ⟨inner, henter, hdepth, -⟩ := enter?_of_lt hpos
  have hle : ∀ e ∈ es, e.2.nesting ≤ inner.depth := fun e he =>
    nesting_le_of_record (hdepth ▸ h) (List.mem_cons_of_mem _ he)
  have htaken : Json.isWholeAt b.depth (record (("kind", .text tag) :: es)) := hwhole.isWholeAt h
  have hfield : field? "kind" ((some "kind", .text tag) :: es.map fun (k, v) => (some k, v)) =
      some (some (.text tag)) := by
    have hlookup := @field?_record (("kind", .text tag) :: es) hkeys "kind"
    rwa [List.lookup_cons, beq_self_eq_true] at hlookup
  have hrest := filter_ne_record (List.nodup_cons.mp hkeys).1
  refine ⟨{ inner with whole := true }, by dsimp only; omega, hle, ?_⟩
  rw [tagged?, htaken, record, record, List.map_cons]
  generalize (es.map fun (k, v) => (some k, v)) = entries at hfield hrest ⊢
  simp only [ne_eq, decide_not] at hrest
  have htag : tag? tags b (.text tag) = some tag := rfl
  simp [henter, hfield, hrest, htag]

end Json

end TypeResolution
