import Mathlib.Data.List.Chain
import TypeResolution.Proofs.Module.Cycles

/-!
The order in which a cycle is written. Its members stand as the search entered them, so each of
them but the first is imported by one that is written before it, though not by the last one before
it: a member with several imports in the cycle has several members that follow from it. Where no
member has two imports in the cycle, the text is a path of imports that ends where it starts.
-/

namespace TypeResolution.ModuleGraph

/-- Modules in the order in which a walk from `root` enters them, the latest first: each is
imported by one that has been entered. -/
inductive Entered (g : ModuleGraph) (root : Nat) : List Nat → Prop
  | root : Entered g root [root]
  | next {entered : List Nat} {a b : Nat} : Entered g root entered → a ∈ entered →
      g.Imports a b → Entered g root (b :: entered)

variable {g : ModuleGraph} {a b id root : Nat}

namespace Entered

variable {entered later : List Nat}

theorem root_mem (h : Entered g root entered) : root ∈ entered := by
  induction h with
  | root => exact List.mem_singleton_self root
  | next _ _ _ ih => exact List.mem_cons_of_mem _ ih

/-- A walk that starts from an import of a module that has been entered. -/
theorem append (h : Entered g root entered) (ha : a ∈ entered) (himport : g.Imports a b)
    (hlater : Entered g b later) : Entered g root (later ++ entered) := by
  induction hlater with
  | root => exact h.next ha himport
  | next _ hb himport ih => exact ih.next (List.mem_append_left _ hb) himport

theorem imported (h : Entered g root entered) {i : Nat} (hi : i + 1 < entered.length) :
    ∃ j, ∃ hj : j < entered.length, i < j ∧ g.Imports entered[j] entered[i] := by
  induction h generalizing i with
  | root => simp at hi
  | @next entered a b _ ha himport ih =>
      cases i with
      | zero =>
          obtain ⟨j, hj, rfl⟩ := List.mem_iff_getElem.mp ha
          exact ⟨j + 1, Nat.succ_lt_succ hj, Nat.succ_pos j, himport⟩
      | succ i =>
          obtain ⟨j, hj, hlt, hji⟩ := ih (Nat.lt_of_succ_lt_succ hi)
          exact ⟨j + 1, Nat.succ_lt_succ hj, Nat.succ_lt_succ hlt, hji⟩

end Entered

namespace Search

variable {s s' s₁ : Search} {added : List Nat}

/-- Every cycle that has been found since `s` was entered from one of its members on. -/
structure Extends (g : ModuleGraph) (s s' : Search) (added : List Nat) : Prop
    extends Pushes s s' added where
  found : ∀ c ∈ s'.found, c ∈ s.found ∨ ∃ root, Entered g root c.reverse

theorem Extends.refl : Extends g s s [] where
  toPushes := .refl s
  found _ hc := .inl hc

theorem extends_enter (hnew : ¬s.seen id) : Extends g s (s.enter id) [id] where
  toPushes := pushes_enter hnew
  found _ hc := .inl hc

theorem Extends.trans {later : List Nat} (h : Extends g s s₁ added)
    (h' : Extends g s₁ s' later) : Extends g s s' (later ++ added) where
  toPushes := h.toPushes.trans h'.toPushes
  found c hc := (h'.found c hc).elim (h.found c) .inr

theorem Extends.lower (h : Extends g s s' added) (id : Nat) (bound : Option Nat) :
    Extends g s (s'.lower id bound) added := by
  cases bound with
  | none => exact h
  | some n => exact { h with }

/-- What a search from a module that is new leaves on the stack. -/
def Explores (g : ModuleGraph) (s : Search) (id : Nat) (s' : Search) : Prop :=
  ∃ added, Extends g s s' added ∧ (added = [] ∨ Entered g id added)

/-- The search is at the module `id` and has entered what is above it on the stack from there. -/
def Below (g : ModuleGraph) (s : Search) (id : Nat) (s' : Search) : Prop :=
  ∃ above, Extends g s s' above ∧ Entered g id (above ++ [id])

section below

variable {inner : Search → Nat → Search}

theorem Below.follow (h : Below g s id s')
    (hinner : ∀ s a, ¬s.seen a → Explores g s a (inner s a)) (himport : g.Imports id a) :
    Below g s id (follow inner id s' a) := by
  obtain ⟨above, hextends, hentered⟩ := h
  unfold Search.follow
  split
  · rename_i hnew
    obtain ⟨later, hlater, hwalk⟩ := hinner s' a (by simpa using hnew)
    refine ⟨later ++ above, (hextends.trans hlater).lower id _, ?_⟩
    rcases hwalk with rfl | hwalk
    · exact hentered
    · rw [List.append_assoc]
      exact hentered.append hentered.root_mem himport hwalk
  · split
    · exact ⟨above, hextends.lower id _, hentered⟩
    · exact ⟨above, hextends, hentered⟩

theorem Below.foldl (h : Below g s id s') (hinner : ∀ s a, ¬s.seen a → Explores g s a (inner s a))
    (rest : List Nat) (hrest : ∀ a ∈ rest, g.Imports id a) :
    Below g s id (rest.foldl (Search.follow inner id) s') := by
  induction rest generalizing s' with
  | nil => exact h
  | cons a rest ih =>
      have hstep := h.follow hinner (hrest a List.mem_cons_self)
      exact ih hstep fun b hb => hrest b (List.mem_cons_of_mem _ hb)

end below

/-- A module is left with all that was entered from it, as a cycle or on the stack. -/
theorem Below.leave (h : Below g (s.enter id) id s') (hnew : ¬s.seen id) (importsItself : Bool) :
    Explores g s id (s'.leave id importsItself) := by
  obtain ⟨above, habove, hentered⟩ := h
  have hextends : Extends g s s' (above ++ [id]) := (extends_enter hnew).trans habove
  have hid : id ∉ above := fun hmem => habove.fresh id hmem (seen_enter.mpr (.inl rfl))
  have hpop : popTo id s'.stack = (above ++ [id], s.stack) := by
    rw [hextends.stack, List.append_assoc]
    exact popTo_append hid
  have hleft : ∀ found, (∀ c ∈ found, c ∈ s.found ∨ ∃ root, Entered g root c.reverse) →
      Explores g s id { s' with stack := s.stack, found := found } := by
    refine fun found hfound => ⟨[], ?_, .inl rfl⟩
    exact ⟨⟨rfl, fun a ha => absurd ha List.not_mem_nil, hextends.index⟩, hfound⟩
  unfold Search.leave
  split
  · exact ⟨_, hextends, .inr hentered⟩
  · simp only [hpop]
    split
    · refine hleft _ fun c hc => ?_
      rcases List.mem_cons.mp hc with rfl | hc
      · exact .inr ⟨id, by rwa [List.reverse_reverse]⟩
      · exact hextends.found c hc
    · exact hleft _ hextends.found

end Search

open Search

theorem connect_explores {depth : Nat} {s : Search} (hnew : ¬s.seen id) :
    Explores g s id (g.connect depth s id) := by
  induction depth generalizing s id with
  | zero => exact ⟨[], .refl, .inl rfl⟩
  | succ depth ih =>
      have henter : Below g (s.enter id) id (s.enter id) := ⟨[], .refl, .root⟩
      have hscan := henter.foldl (fun _ _ => ih) (g.dependencies id) fun _ ha => ha
      exact hscan.leave hnew _

/-- Every cycle stands in the order in which its members were entered. -/
theorem entered_of_mem_found (g : ModuleGraph) {c : List Nat} (hc : c ∈ g.search.found) :
    ∃ root, Entered g root c.reverse := by
  have hall : ∀ (l : List Nat) (s : Search), (∀ c ∈ s.found, ∃ root, Entered g root c.reverse) →
      ∀ c ∈ (l.foldl (fun s id =>
        if s.seen id then s else g.connect (g.size + g.edgeCount + 1) s id) s).found,
      ∃ root, Entered g root c.reverse := by
    intro l
    induction l with
    | nil => exact fun s hs => hs
    | cons a rest ih =>
        refine fun s hs => ih _ fun c hc => ?_
        dsimp only at hc
        split at hc
        · exact hs c hc
        · rename_i hnew
          obtain ⟨_, hextends, -⟩ := connect_explores hnew
          exact (hextends.found c hc).elim (hs c) fun hentered => hentered
  exact hall _ _ (fun c hc => absurd hc List.not_mem_nil) c hc

section cycle

variable {c : ImportCycle}

/-- Each member but the first is imported by one that stands before it. -/
theorem imported_before (hc : c ∈ g.detectCycles.cycles) {i : Nat} (hi : i + 1 < c.members.length) :
    ∃ j, ∃ _ : j ≤ i, g.Imports c.members[j] c.members[i + 1] := by
  obtain ⟨root, hentered⟩ := entered_of_mem_found g (mem_cycles_iff.mp hc).1
  have hlength := c.members.length_reverse
  -- the position of the member from the end
  have hend : c.members.length - 1 - (i + 1) + 1 < c.members.reverse.length := by omega
  obtain ⟨j, hj, hlt, himport⟩ := hentered.imported hend
  have hfrom : c.members.length - 1 - j ≤ i := by omega
  refine ⟨c.members.length - 1 - j, hfrom, ?_⟩
  rw [List.getElem_reverse, List.getElem_reverse] at himport
  have hto : c.members.length - 1 - (c.members.length - 1 - (i + 1)) = i + 1 := by omega
  simpa only [hto] using himport

/-- Some member imports a given one. -/
theorem exists_importer (hc : c ∈ g.detectCycles.cycles) (ha : a ∈ c.members) :
    ∃ b ∈ c.members, g.Imports b a := by
  have hself : g.Reaches a a := ((mem_members_iff hc ha).mp ha).1
  obtain ⟨b, hab, hba⟩ := Relation.TransGen.tail'_iff.mp hself
  exact ⟨b, (mem_members_iff hc ha).mpr ⟨hself.trans_left hab, .single hba⟩, hba⟩

/-- No member of the cycle imports two members. -/
def IsRing (g : ModuleGraph) (c : ImportCycle) : Prop :=
  ∀ a ∈ c.members, ∀ b ∈ c.members, ∀ b' ∈ c.members, g.Imports a b → g.Imports a b' → b = b'

theorem IsRing.eq_of_imports (h : g.IsRing c) (hc : c ∈ g.detectCycles.cycles) {i j k : Nat}
    (hi : i < c.members.length) (hj : j < c.members.length) (hk : k < c.members.length)
    (hij : g.Imports c.members[i] c.members[j]) (hik : g.Imports c.members[i] c.members[k]) :
    j = k := by
  have heq := h _ (List.getElem_mem hi) _ (List.getElem_mem hj) _ (List.getElem_mem hk) hij hik
  exact (List.Nodup.getElem_inj_iff (nodup_members hc)).mp heq

theorem IsRing.imports_next (h : g.IsRing c) (hc : c ∈ g.detectCycles.cycles) (i : Nat)
    (hi : i + 1 < c.members.length) : g.Imports c.members[i] c.members[i + 1] := by
  induction i using Nat.strongRecOn with
  | ind i ih =>
      obtain ⟨j, hj, himport⟩ := imported_before hc hi
      rcases Nat.eq_or_lt_of_le hj with rfl | hlt
      · exact himport
      · -- an earlier member imports the one after it already
        have hnext := ih j hlt (by omega)
        have := h.eq_of_imports hc (by omega) (by omega) hi hnext himport
        omega

theorem IsRing.imports_first (h : g.IsRing c) (hc : c ∈ g.detectCycles.cycles)
    (hne : 0 < c.members.length) :
    g.Imports (c.members[c.members.length - 1]) c.members[0] := by
  obtain ⟨b, hb, himport⟩ := exists_importer hc (List.getElem_mem hne)
  obtain ⟨k, hk, rfl⟩ := List.mem_iff_getElem.mp hb
  rcases Nat.eq_or_lt_of_le (Nat.le_sub_one_of_lt hk) with rfl | hlt
  · exact himport
  · have := h.eq_of_imports hc hk (by omega) hne (h.imports_next hc k (by omega)) himport
    omega

/-- Each member of a ring imports the one that is written after it, and the last one imports the
first one. -/
theorem IsRing.isChain (h : g.IsRing c) (hc : c ∈ g.detectCycles.cycles) :
    (c.members ++ c.members.head?.toList).IsChain g.Imports := by
  have hne := List.length_pos_of_ne_nil (members_ne_nil hc)
  refine List.isChain_append.mpr ⟨List.isChain_iff_getElem.mpr (h.imports_next hc), ?_, ?_⟩
  · cases c.members.head? <;> simp
  · intro a ha b hb
    have hlast : c.members[c.members.length - 1] = a := by
      rw [List.getLast?_eq_getElem?, List.getElem?_eq_getElem (by omega)] at ha
      exact Option.some.inj ha
    have hfirst : c.members[0] = b := by
      have hhead : c.members.head? = some c.members[0] := by
        rw [List.head?_eq_getElem?, List.getElem?_eq_getElem hne]
      rw [hhead] at hb
      exact Option.some.inj hb
    exact hlast ▸ hfirst ▸ h.imports_first hc hne

end cycle

/-- What the text of a cycle says of imports. It is written from the names of the members, in their
order, and of the first one again. Each member but the first is imported by one that is written
before it; and if no member imports two members, then each imports the one that is written after
it. -/
theorem describe_imports (g : ModuleGraph) : ∀ c ∈ g.detectCycles.cycles,
    (∃ names, c.describe = " -> ".intercalate names ∧ names.map some =
      (c.members ++ c.members.head?.toList).map fun id => (g.module? id).map (·.name)) ∧
    (∀ i, ∀ hi : i + 1 < c.members.length,
      ∃ j, ∃ _ : j ≤ i, g.Imports c.members[j] c.members[i + 1]) ∧
    (g.IsRing c → (c.members ++ c.members.head?.toList).IsChain g.Imports) := by
  intro c hc
  refine ⟨⟨_, rfl, ?_⟩, fun i hi => imported_before hc hi, fun h => h.isChain hc⟩
  have hhead := congrArg List.head? (names_eq hc)
  rw [List.head?_map, List.head?_map] at hhead
  rw [List.map_append, List.map_append, names_eq hc, ← Option.toList_map, ← Option.toList_map,
    hhead]

-- without a ring the arrows need not be imports: `b` imports `a` alone
example : (ofImports [("a", ["b", "c"]), ("b", ["a"]), ("c", ["b"])]).detectCycles.cycles.map
    ImportCycle.describe = ["a -> b -> c -> a"] := by decide +kernel

end TypeResolution.ModuleGraph
