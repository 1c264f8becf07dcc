import TypeResolution.Proofs.Normal.Kept
import TypeResolution.Proofs.Store.Represents
import TypeResolution.Text.Names

/-!
Type ids are canonical. A run of constructor calls starts from the fixed types and from the familiar
names. Whatever the calls are, each type that a run has given out represents what was described, so
two ids are equal exactly when the descriptions are equivalent, and no call changes what an id or
the number of a name stands for.
-/

namespace TypeResolution

open Store

namespace NameTable

variable {t : NameTable} {text : String} {i j : Nat}

def insertAll (t : NameTable) (texts : List String) : NameTable :=
  texts.foldl (fun t text => (t.insert text).2) t

/-- Texts keep their numbers. -/
def Extends (t t' : NameTable) : Prop := ∀ i text, t.get? i = some text → t'.get? i = some text

theorem extends_insert (t : NameTable) (text : String) : t.Extends (t.insert text).2 := by
  intro i a hi
  unfold insert
  split
  · exact hi
  · exact (List.getElem?_append_left (List.getElem?_eq_some_iff.mp hi).1).trans hi

theorem nodup_insert (h : t.texts.Nodup) (text : String) : (t.insert text).2.texts.Nodup := by
  unfold insert
  split
  · exact h
  · rename_i hnone
    have hnew : text ∉ t.texts := List.idxOf?_eq_none_iff.mp hnone
    exact List.nodup_append.mpr ⟨h, by simp, fun a ha b hb => by
      rw [List.mem_singleton.mp hb]
      exact fun hab => hnew (hab ▸ ha)⟩

theorem insertAll_spec (h : t.texts.Nodup) (texts : List String) :
    t.Extends (t.insertAll texts) ∧ (t.insertAll texts).texts.Nodup := by
  induction texts generalizing t with
  | nil => exact ⟨fun _ _ hi => hi, h⟩
  | cons text rest ih =>
      obtain ⟨hgrows, hnodup⟩ := ih (nodup_insert h text)
      exact ⟨fun i a hi => hgrows i a (extends_insert t text i a hi), hnodup⟩

theorem eq_of_get? (h : t.texts.Nodup) (hi : t.get? i = some text) (hj : t.get? j = some text) :
    i = j := by
  obtain ⟨hi, hi'⟩ := List.getElem?_eq_some_iff.mp hi
  obtain ⟨hj, hj'⟩ := List.getElem?_eq_some_iff.mp hj
  exact (h.getElem_inj_iff).mp (hi'.trans hj'.symm)

end NameTable

theorem kept_proper : Normal.Kept Store.Proper where
  mono h ht := ht.mono h
  known ht := ht.known
  fixed hs ht := .of_fixed hs ht
  component ht _ hc := ht.component hc
  made {s t} ht hn hform hparts := by
    refine .intro ht ?_ hparts
    cases hnode : s.node t with
    | union ms | intersection ms =>
        rw [hnode] at hform
        exact ⟨hform.1, hform.2.1⟩
    | object _ | function _ | array _ => trivial
    | _ => simp [hnode, Node.isStructural] at hn

/-- The texts that a shape holds itself. -/
def Shape.texts {α : Type} : Shape α → List String
  | .literal (.string a) => [a]
  | .object fields _ => fields.map (·.name)
  | .param name _ _ _ => [name]
  | .conditional _ _ infer _ _ _ => infer
  | .mapped keyParam _ _ _ _ _ _ => [keyParam]
  | .reference name _ => [name]
  | .template pieces => pieces.filterMap fun
      | .text a => some a
      | .hole _ => none
  | _ => []

/-- A call. Types are named by the positions of the calls that gave them. -/
inductive Call where
  | name (text : String)
  | make (shape : Shape Nat)
  | union (members : List Nat)
  | intersection (members : List Nat)

structure Run where
  names : NameTable
  types : Store
  /-- The numbers that were given out for names, with their texts. -/
  atoms : List (Nat × String)
  /-- The types that were given out, with what they were described as. -/
  made : List (TypeId × Description)

namespace Run

def fresh (numbers : Numbering) : Run :=
  ⟨NameTable.empty.withFamiliar, Store.fresh numbers, [], []⟩

/-- The type given out at a position; a position that is not there stands for the error type. -/
def id (r : Run) (i : Nat) : TypeId := (r.made.getD i (.error, .of .error)).1

def described (r : Run) (i : Nat) : Description := (r.made.getD i (.error, .of .error)).2

/-- A call that normalizes describes its result, which is read off the store. -/
def step (r : Run) : Call → Run
  | .name text =>
      let (atom, names) := r.names.insert text
      { r with names, atoms := r.atoms ++ [(atom, text)] }
  | .make shape =>
      let (t, types) := (shape.map r.id).make r.types
      -- the texts of a template may have been joined
      { r with
        names := r.names.insertAll (shape.texts ++ (types.node t).shape.texts)
        types
        made := r.made ++ [(t, .of (shape.map r.described))] }
  | .union members =>
      let (t, types) := Build.union (members.map r.id) r.types
      { r with types, made := r.made ++ [(t, types.describe t)] }
  | .intersection members =>
      let (t, types) := Build.intersection (members.map r.id) r.types
      { r with types, made := r.made ++ [(t, types.describe t)] }

def of (numbers : Numbering) (calls : List Call) : Run := calls.foldl step (fresh numbers)

/-- What every run keeps to. -/
structure Sound (r : Run) : Prop where
  formed : r.types.Formed
  represents : ∀ m ∈ r.made, Represents r.types m.1 m.2
  nodup : r.names.texts.Nodup
  resolves : ∀ a ∈ r.atoms, r.names.get? a.1 = some a.2

/-- What later calls leave alone. -/
structure Continues (r r' : Run) : Prop where
  types : r.types.Extends r'.types
  made : ∃ more, r'.made = r.made ++ more
  names : r.names.Extends r'.names

theorem Continues.trans {r₁ r₂ r₃ : Run} (h : r₁.Continues r₂) (h' : r₂.Continues r₃) :
    r₁.Continues r₃ where
  types := h.types.trans h'.types
  made := by
    obtain ⟨more, hmore⟩ := h.made
    obtain ⟨rest, hrest⟩ := h'.made
    exact ⟨more ++ rest, by rw [hrest, hmore, List.append_assoc]⟩
  names i a hi := h'.names i a (h.names i a hi)

variable {r : Run}

theorem sound_fresh (numbers : Numbering) : (fresh numbers).Sound where
  formed := formed_fresh
  represents := by simp [fresh]
  nodup := by
    change NameTable.empty.withFamiliar.texts.Nodup
    decide
  resolves := by simp [fresh]

namespace Sound

theorem represents_id (h : r.Sound) (i : Nat) : Represents r.types (r.id i) (r.described i) := by
  unfold id described
  rw [List.getD_eq_getElem?_getD]
  cases hi : r.made[i]? with
  | none => exact .error
  | some m => exact h.represents m (List.mem_of_getElem? hi)

theorem proper_id (h : r.Sound) {members : List Nat} : ∀ t ∈ members.map r.id, r.types.Proper t := by
  intro t ht
  obtain ⟨i, -, rfl⟩ := List.mem_map.mp ht
  exact (h.represents_id i).proper h.formed

/-- What a call has to show that gives out a type. -/
theorem give (h : r.Sound) {types : Store} {t : TypeId} {d : Description} (texts : List String)
    (htypes : r.types.Extends types) (hformed : types.Formed) (ht : Represents types t d) :
    let r' := { r with names := r.names.insertAll texts, types, made := r.made ++ [(t, d)] }
    r'.Sound ∧ r.Continues r' := by
  obtain ⟨hnames, hnodup⟩ := NameTable.insertAll_spec h.nodup texts
  refine ⟨⟨hformed, fun m hm => ?_, hnodup, fun a ha => hnames _ _ (h.resolves a ha)⟩,
    htypes, ⟨_, rfl⟩, hnames⟩
  rcases List.mem_append.mp hm with hm | hm
  · exact (h.represents m hm).mono htypes
  · rw [List.mem_singleton.mp hm]
    exact ht

/-- One call keeps to the invariant and leaves alone what was given out. -/
theorem step (h : r.Sound) (call : Call) : (r.step call).Sound ∧ r.Continues (r.step call) := by
  cases call with
  | name text =>
      have hgrows := NameTable.extends_insert r.names text
      refine ⟨⟨h.formed, h.represents, NameTable.nodup_insert h.nodup text, fun a ha => ?_⟩,
        .refl _, ⟨[], by simp [Run.step]⟩, hgrows⟩
      rcases List.mem_append.mp ha with ha | ha
      · exact hgrows _ _ (h.resolves a ha)
      · rw [List.mem_singleton.mp ha]
        exact r.names.get?_insert text
  | make shape =>
      have hparts : ∀ c ∈ (shape.map r.id).parts, c.index < r.types.size := by
        intro c hc
        rw [Shape.parts_map] at hc
        exact (h.proper_id c hc).known
      obtain ⟨hgrows, hformed, hagain⟩ := Shape.make_grows h.formed hparts
      refine h.give _ hgrows hformed (.of_map r.id (fun i _ => ?_) hagain)
      exact (h.represents_id i).mono hgrows
  | union members =>
      obtain ⟨hgrows, hformed, hproper⟩ := kept_proper.union h.proper_id h.formed
      exact h.give [] hgrows hformed (represents_describe hformed hproper)
  | intersection members =>
      have hmeet : building.Holds r.types (Build.intersection (members.map r.id)) Store.Proper :=
        building.bind (kept_proper.intersection h.proper_id #[]) fun _ _ _ _ ht => building.pure ht
      obtain ⟨hgrows, hformed, hproper⟩ := hmeet h.formed
      exact h.give [] hgrows hformed (represents_describe hformed hproper)

theorem run (h : r.Sound) (calls : List Call) :
    (calls.foldl Run.step r).Sound ∧ r.Continues (calls.foldl Run.step r) := by
  induction calls generalizing r with
  | nil => exact ⟨h, .refl _, ⟨[], by simp⟩, fun _ _ hi => hi⟩
  | cons call rest ih =>
      obtain ⟨hsound, hfirst⟩ := h.step call
      obtain ⟨hrest, hcontinues⟩ := ih hsound
      exact ⟨hrest, hfirst.trans hcontinues⟩

end Sound

/-- In every run, two types are one exactly when they were described alike, and two names have one
number exactly when their texts are equal. What was described can be read off the store. Later calls
change neither what was given out, nor the node of a type that is there, nor the text of a number. -/
theorem ids_canonical (numbers : Numbering) (calls later : List Call) :
    (∀ i j, (of numbers calls).id i = (of numbers calls).id j ↔
      ((of numbers calls).described i).Equiv ((of numbers calls).described j)) ∧
    (∀ a ∈ (of numbers calls).atoms, ∀ b ∈ (of numbers calls).atoms, a.1 = b.1 ↔ a.2 = b.2) ∧
    (∀ i < (of numbers calls).made.length, (of numbers (calls ++ later)).id i = (of numbers calls).id i ∧
      (of numbers (calls ++ later)).described i = (of numbers calls).described i) ∧
    (∀ i, ((of numbers calls).id i).index < (of numbers calls).types.size ∧
      ((of numbers calls).described i).Equiv ((of numbers calls).types.describe ((of numbers calls).id i))) ∧
    (∀ t : TypeId, t.index < (of numbers calls).types.size →
      (of numbers (calls ++ later)).types.node t = (of numbers calls).types.node t) ∧
    ∀ atom text, (of numbers calls).names.get? atom = some text →
      (of numbers (calls ++ later)).names.get? atom = some text := by
  have hsound : (of numbers calls).Sound := ((sound_fresh numbers).run calls).1
  have hlater : (of numbers calls).Continues (of numbers (calls ++ later)) := by
    have hrun := (hsound.run later).2
    rw [of, ← List.foldl_append] at hrun
    exact hrun
  refine ⟨fun i j => ?_, fun a ha b hb => ?_, fun i hi => ?_, fun i => ?_, fun t ht => ?_, ?_⟩
  · exact (hsound.represents_id i).eq_iff_equiv hsound.formed (hsound.represents_id j)
  · have hb := hsound.resolves b hb
    have ha := hsound.resolves a ha
    constructor
    · intro hab
      rw [hab, hb] at ha
      exact (Option.some.inj ha).symm
    · intro hab
      rw [hab] at ha
      exact NameTable.eq_of_get? hsound.nodup ha hb
  · obtain ⟨more, hmore⟩ := hlater.made
    simp only [id, described, List.getD_eq_getElem?_getD, hmore, List.getElem?_append_left hi,
      and_self]
  · have hi := hsound.represents_id i
    exact ⟨hi.known hsound.formed, hi.equiv_describe hsound.formed⟩
  · exact hlater.types.node_eq t ht
  · exact hlater.names

end Run

end TypeResolution
