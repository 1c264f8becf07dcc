import TypeResolution.Proofs.Module.Imports

/-!
The order in which modules are entered. The search for cycles enters the modules in the order of the
walk, so this is the order of the members of a cycle. Modules that nothing outside of them imports
are entered in the order in which they would be if there were no others.
-/

namespace TypeResolution.ModuleGraph

variable {g : ModuleGraph} {a b id depth : Nat}

theorem visit_of_mem {w : Walk} (h : id ∈ w.entered) : g.visit depth w id = w := by
  cases depth with
  | zero => rfl
  | succ depth => exact if_pos (by simpa using h)

namespace Search

variable {s s' : Search} {w w' : Walk}

/-- The search has entered what the walk has, in the same order. -/
structure InStep (s : Search) (w : Walk) : Prop where
  seen_iff : ∀ a, s.seen a ↔ a ∈ w.entered
  sorted : w.entered.Pairwise fun a b => s.number b < s.number a
  numbered : ∀ a ∈ w.entered, s.number a < s.next

theorem InStep.congr (h : s.InStep w) (hindex : s'.index = s.index) (hnext : s'.next = s.next)
    (hentered : w'.entered = w.entered) : s'.InStep w' := by
  have hseen : s'.seen = s.seen := by
    funext a
    simp only [seen, hindex]
  have hnumber : s'.number = s.number := by
    funext a
    simp only [number, hindex]
  constructor
  · rw [hseen, hentered]
    exact h.seen_iff
  · rw [hnumber, hentered]
    exact h.sorted
  · rw [hnumber, hnext, hentered]
    exact h.numbered

theorem InStep.enter (h : s.InStep w) (hnew : ¬s.seen id) :
    (s.enter id).InStep { w with entered := id :: w.entered } := by
  have hnumber : ∀ a ∈ w.entered, (s.enter id).number a = s.number a := fun a ha =>
    number_enter hnew ((h.seen_iff a).mpr ha)
  constructor
  · intro a
    rw [seen_enter, List.mem_cons, h.seen_iff]
  · refine List.pairwise_cons.mpr ⟨fun a ha => ?_, h.sorted.imp_of_mem fun ha hb hlt => ?_⟩
    · rw [number_enter_self, hnumber a ha]
      exact h.numbered a ha
    · rw [hnumber _ ha, hnumber _ hb]
      exact hlt
  · intro a ha
    change _ < s.next + 1
    rcases List.mem_cons.mp ha with rfl | ha
    · rw [number_enter_self]
      exact Nat.lt_succ_self _
    · rw [hnumber a ha]
      exact Nat.lt_succ_of_lt (h.numbered a ha)

theorem lower_index (s : Search) (id : Nat) (bound : Option Nat) :
    (s.lower id bound).index = s.index ∧ (s.lower id bound).next = s.next := by
  cases bound <;> exact ⟨rfl, rfl⟩

theorem InStep.follow {inner : Search → Nat → Search} {target : Nat} (h : s.InStep w)
    (hinner : ¬s.seen target → (inner s target).InStep (g.visit depth w target)) :
    (follow inner id s target).InStep (g.visit depth w target) := by
  unfold Search.follow
  split
  · rename_i hnew
    have hlower := lower_index (inner s target) id ((inner s target).low target)
    exact (hinner (by simpa using hnew)).congr hlower.1 hlower.2 rfl
  · rename_i hseen
    rw [visit_of_mem ((h.seen_iff target).mp (by simpa using hseen))]
    split
    · have hlower := lower_index s id (s.index target)
      exact h.congr hlower.1 hlower.2 rfl
    · exact h

end Search

section names

/-- The names of modules. -/
def namesOf (g : ModuleGraph) (ids : List Nat) : List String := ids.filterMap (g.names[·]?)

/-- The names of what a module imports. -/
def requires (g : ModuleGraph) (name : String) : List String :=
  g.namesOf ((g.id? name).toList.flatMap g.dependencies)

variable {x y : String} (hg : g.names.Nodup) (hresolved : g.Resolved)

theorem namesOf_cons (hid : g.names[id]? = some x) (ids : List Nat) :
    g.namesOf (id :: ids) = x :: g.namesOf ids :=
  List.filterMap_cons_some hid

theorem Resolved.exists_name (h : g.Resolved) (himport : g.Imports a b) :
    ∃ y, g.names[b]? = some y :=
  ⟨_, List.getElem?_eq_getElem (size_eq g ▸ h.lt_size himport)⟩

include hg

theorem eq_of_names (ha : g.names[a]? = some x) (hb : g.names[b]? = some x) : a = b := by
  obtain ⟨hlt, hx⟩ := List.getElem?_eq_some_iff.mp ha
  obtain ⟨hlt', hx'⟩ := List.getElem?_eq_some_iff.mp hb
  exact (List.Nodup.getElem_inj_iff hg).mp (hx.trans hx'.symm)

theorem mem_namesOf (hid : g.names[id]? = some x) {ids : List Nat} :
    x ∈ g.namesOf ids ↔ id ∈ ids := by
  rw [namesOf, List.mem_filterMap]
  constructor
  · rintro ⟨a, ha, hax⟩
    rwa [← eq_of_names hg hax hid]
  · exact fun h => ⟨id, h, hid⟩

theorem requires_eq (ha : g.names[a]? = some x) : g.requires x = g.namesOf (g.dependencies a) := by
  rw [requires, (id?_eq_some_iff hg).mpr ha, Option.toList_some, List.flatMap_singleton]

theorem imports_iff (ha : g.names[a]? = some x) (hb : g.names[b]? = some y) :
    g.Imports a b ↔ y ∈ g.requires x := by
  rw [requires_eq hg ha, mem_namesOf hg hb]
  rfl

include hresolved

/-- Modules reach each other by name. -/
theorem reaches_iff (ha : g.names[a]? = some x) (hb : g.names[b]? = some y) :
    g.Reaches a b ↔ Relation.TransGen (fun x y => y ∈ g.requires x) x y := by
  constructor
  · intro h
    induction h generalizing y with
    | single himport => exact .single ((imports_iff hg ha hb).mp himport)
    | tail _ himport ih =>
        rename_i b c hreach
        obtain ⟨z, hz⟩ : ∃ z, g.names[b]? = some z := by
          rcases Relation.TransGen.tail'_iff.mp hreach with ⟨d, _, hd⟩
          exact hresolved.exists_name hd
        exact (ih hz).tail ((imports_iff hg hz hb).mp himport)
  · intro h
    induction h generalizing b with
    | single hy => exact .single ((imports_iff hg ha hb).mpr hy)
    | tail hreach hy ih =>
        rename_i z y
        obtain ⟨c, hc⟩ : ∃ c, g.names[c]? = some z := by
          rcases Relation.TransGen.tail'_iff.mp hreach with ⟨d, _, hd⟩
          obtain ⟨c, _, hc⟩ := List.mem_filterMap.mp hd
          exact ⟨c, hc⟩
        exact (ih hc).tail ((imports_iff hg hc hb).mpr hy)

end names

section upward

variable {x y : String} {U : String → Prop} [DecidablePred U]

/-- Whatever imports one of the modules in `U` is one of them. -/
def Upward (g : ModuleGraph) (U : String → Prop) : Prop := ∀ x y, y ∈ g.requires x → U y → U x

variable (hg : g.names.Nodup) (hresolved : g.Resolved) (hU : g.Upward U)

include hg hresolved hU

end upward

section circles

/-- Two names that reach each other, given what each one leads to. -/
def Circle (next : String → List String) (x y : String) : Prop :=
  Relation.TransGen (fun x y => y ∈ next x) x y ∧ Relation.TransGen (fun x y => y ∈ next x) y x

open Classical in
/-- The names that reach the given one and are reached by it, in the order of the list. -/
noncomputable def circle (next : String → List String) (x : String) (l : List String) :
    List String :=
  l.filter (Circle next x ·)

variable {x y : String} {U : String → Prop} [DecidablePred U]

/-- Modules that lead to one of `U` are in `U`, and lead there by such modules. -/
theorem Upward.leads (hU : g.Upward U) (hy : U y)
    (h : Relation.TransGen (fun x y => y ∈ g.requires x) x y) :
    U x ∧ Relation.TransGen (fun x y => y ∈ (g.requires x).filter U) x y := by
  induction h with
  | single himport => exact ⟨hU _ _ himport hy, .single (List.mem_filter.mpr ⟨himport, by simpa⟩)⟩
  | tail _ himport ih =>
      obtain ⟨hx, hreach⟩ := ih (hU _ _ himport hy)
      exact ⟨hx, hreach.tail (List.mem_filter.mpr ⟨himport, by simpa⟩)⟩

theorem namesOf_filter {p : Nat → Prop} {q : String → Prop} [DecidablePred p] [DecidablePred q]
    (hpq : ∀ id x, g.names[id]? = some x → (p id ↔ q x)) {ids : List Nat}
    (hids : ∀ id ∈ ids, ∃ x, g.names[id]? = some x) :
    g.namesOf (ids.filter p) = (g.namesOf ids).filter q := by
  induction ids with
  | nil => rfl
  | cons id rest ih =>
      obtain ⟨x, hx⟩ := hids id List.mem_cons_self
      have hrest := ih fun c hc => hids c (List.mem_cons_of_mem _ hc)
      rw [namesOf_cons hx, List.filter_cons, List.filter_cons, ← hrest]
      by_cases h : p id
      · rw [if_pos (by simpa using h), if_pos (by simpa using (hpq id x hx).mp h), namesOf_cons hx]
      · rw [if_neg (by simpa using h), if_neg (by simpa using mt (hpq id x hx).mpr h)]

end circles

end TypeResolution.ModuleGraph
