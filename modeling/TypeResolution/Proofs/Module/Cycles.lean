import TypeResolution.Proofs.Module.Search

/-!
Import cycles. The cycles that are found are the sets of modules that reach each other, each of them
once.
-/

namespace TypeResolution.ModuleGraph

variable {g : ModuleGraph} {a b : Nat}

theorem mem_cycles_iff {c : ImportCycle} : c ∈ g.detectCycles.cycles ↔
    c.members ∈ g.search.found ∧
      c.names = c.members.filterMap fun id => (g.module? id).map (·.name) := by
  simp only [detectCycles, List.mem_map, List.mem_reverse]
  constructor
  · rintro ⟨members, hmembers, rfl⟩
    exact ⟨hmembers, rfl⟩
  · rintro ⟨hmembers, hnames⟩
    exact ⟨c.members, hmembers, by rw [← hnames]⟩

theorem mem_members_iff {c : ImportCycle} (hc : c ∈ g.detectCycles.cycles) (ha : a ∈ c.members) :
    b ∈ c.members ↔ g.Mutual a b :=
  (search_sound g).1.found_iff _ (mem_cycles_iff.mp hc).1 a ha b

theorem members_ne_nil {c : ImportCycle} (hc : c ∈ g.detectCycles.cycles) : c.members ≠ [] :=
  (search_sound g).1.found_ne _ (mem_cycles_iff.mp hc).1

theorem nodup_members {c : ImportCycle} (hc : c ∈ g.detectCycles.cycles) : c.members.Nodup :=
  (search_sound g).1.found_nodup _ (mem_cycles_iff.mp hc).1

/-- Every module that reaches itself is in a cycle. -/
theorem exists_cycle (h : g.Reaches a a) : ∃ c ∈ g.detectCycles.cycles, a ∈ c.members := by
  obtain ⟨hsound, hall⟩ := search_sound g
  have hstack : a ∉ g.search.stack := by simp [stack_search]
  obtain ⟨members, hmembers, ha⟩ := hsound.found_all a (hall a h.lt_size) hstack ⟨h, h⟩
  have hc : ImportCycle.mk members (members.filterMap fun id => (g.module? id).map (·.name)) ∈
      g.detectCycles.cycles := mem_cycles_iff.mpr ⟨hmembers, rfl⟩
  exact ⟨_, hc, ha⟩

theorem cycles_apart (g : ModuleGraph) :
    g.detectCycles.cycles.Pairwise fun c d => c.members.Disjoint d.members := by
  simp only [detectCycles, List.pairwise_map, List.pairwise_reverse]
  refine (search_sound g).1.found_apart.imp fun h => ?_
  intro a hc hd
  exact h hd hc

/-- A module is a member of one cycle at most. -/
theorem eq_of_mem_members {i j : Nat} {c d : ImportCycle}
    (hi : g.detectCycles.cycles[i]? = some c) (hj : g.detectCycles.cycles[j]? = some d)
    (hc : a ∈ c.members) (hd : a ∈ d.members) : i = j := by
  obtain ⟨hlti, rfl⟩ := List.getElem?_eq_some_iff.mp hi
  obtain ⟨hltj, rfl⟩ := List.getElem?_eq_some_iff.mp hj
  have hapart := List.pairwise_iff_getElem.mp (cycles_apart g)
  rcases Nat.lt_trichotomy i j with hlt | heq | hlt
  · exact absurd hd (hapart i j hlti hltj hlt hc)
  · exact heq
  · exact absurd hc (hapart j i hltj hlti hlt hd)

theorem cycleIndex?_eq_some_iff {i : Nat} : g.detectCycles.cycleIndex? a = some i ↔
    ∃ c, g.detectCycles.cycles[i]? = some c ∧ a ∈ c.members := by
  unfold cycleIndex?
  constructor
  · intro h
    obtain ⟨hlt, ha, -⟩ := List.findIdx?_eq_some_iff_getElem.mp h
    exact ⟨_, List.getElem?_eq_getElem hlt, by simpa using ha⟩
  · rintro ⟨c, hi, ha⟩
    obtain ⟨hlt, rfl⟩ := List.getElem?_eq_some_iff.mp hi
    refine List.findIdx?_eq_some_iff_getElem.mpr ⟨hlt, by simpa using ha, fun j hj hja => ?_⟩
    have hja : a ∈ (g.detectCycles.cycles[j]).members := by simpa using hja
    have heq : j = i := eq_of_mem_members (List.getElem?_eq_getElem (Nat.lt_trans hj hlt)) hi hja ha
    exact Nat.ne_of_lt hj heq

theorem cycleOf?_eq_some_iff {c : ImportCycle} : g.detectCycles.cycleOf? a = some c ↔
    c ∈ g.detectCycles.cycles ∧ a ∈ c.members := by
  unfold cycleOf?
  rw [Option.bind_eq_some_iff]
  constructor
  · rintro ⟨i, hi, hc⟩
    obtain ⟨d, hd, ha⟩ := cycleIndex?_eq_some_iff.mp hi
    rw [hd] at hc
    obtain rfl := Option.some.inj hc
    exact ⟨List.mem_of_getElem? hd, ha⟩
  · rintro ⟨hc, ha⟩
    obtain ⟨i, hi⟩ := List.getElem?_of_mem hc
    exact ⟨i, cycleIndex?_eq_some_iff.mpr ⟨c, hi, ha⟩, hi⟩

/-- Two modules are in one cycle exactly when they reach each other. -/
theorem inSameCycle_iff : g.detectCycles.inSameCycle a b = true ↔ g.Mutual a b := by
  have hsame : g.detectCycles.inSameCycle a b = true ↔ ∃ i,
      g.detectCycles.cycleIndex? a = some i ∧ g.detectCycles.cycleIndex? b = some i := by
    unfold inSameCycle
    cases g.detectCycles.cycleIndex? a with
    | none => simp
    | some i =>
        cases g.detectCycles.cycleIndex? b with
        | none => simp
        | some j => simp [eq_comm]
  rw [hsame]
  constructor
  · rintro ⟨i, ha, hb⟩
    obtain ⟨c, hi, ha⟩ := cycleIndex?_eq_some_iff.mp ha
    obtain ⟨d, hj, hb⟩ := cycleIndex?_eq_some_iff.mp hb
    rw [hi] at hj
    obtain rfl := Option.some.inj hj
    exact (mem_members_iff (List.mem_of_getElem? hi) ha).mp hb
  · intro h
    obtain ⟨c, hc, ha⟩ := exists_cycle (h.1.trans h.2)
    obtain ⟨i, hi⟩ := List.getElem?_of_mem hc
    exact ⟨i, cycleIndex?_eq_some_iff.mpr ⟨c, hi, ha⟩,
      cycleIndex?_eq_some_iff.mpr ⟨c, hi, (mem_members_iff hc ha).mpr h⟩⟩

theorem names_eq {c : ImportCycle} (hc : c ∈ g.detectCycles.cycles) :
    c.names.map some = c.members.map fun id => (g.module? id).map (·.name) := by
  have hknown : ∀ id ∈ c.members, ((g.module? id).map (·.name)).isSome := by
    intro id hid
    have hlt : id < g.size := ((mem_members_iff hc hid).mp hid).1.lt_size
    simpa [module?, size] using hlt
  rw [(mem_cycles_iff.mp hc).2, List.map_filterMap_some_eq_filter_map_isSome, List.filter_eq_self]
  intro name hname
  obtain ⟨id, hid, rfl⟩ := List.mem_map.mp hname
  exact hknown id hid

theorem connect_congr {g' : ModuleGraph} (h : g'.modules = g.modules) (depth : Nat) :
    g'.connect depth = g.connect depth := by
  have hdeps : g'.dependencies = g.dependencies := by
    funext id
    rw [dependencies, dependencies, module?, module?, h]
  induction depth with
  | zero => rfl
  | succ depth ih =>
      funext s id
      simp only [connect, hdeps, ih]

theorem search_congr {g' : ModuleGraph} (h : g'.modules = g.modules) : g'.search = g.search := by
  have hbound : g'.size + g'.edgeCount + 1 = g.size + g.edgeCount + 1 := by
    rw [size, edgeCount, size, edgeCount, h]
  have hsize : g'.size = g.size := by rw [size, size, h]
  unfold search
  rw [hbound, hsize, connect_congr h]

theorem detectCycles_detectCycles (g : ModuleGraph) :
    g.detectCycles.detectCycles = g.detectCycles := by
  have hsearch : g.detectCycles.search = g.search := search_congr rfl
  unfold detectCycles at hsearch ⊢
  rw [hsearch]
  rfl

/-- Cycle detection is exact: two modules are in one cycle exactly when each reaches the other by
one or more imports, every such set of modules is listed at one place, without repetition and with
the name of each member, and a second detection finds the same. -/
theorem detectCycles_exact (g : ModuleGraph) :
    (∀ a b, g.detectCycles.inSameCycle a b = true ↔ g.Reaches a b ∧ g.Reaches b a) ∧
    (∀ c ∈ g.detectCycles.cycles,
      c.members ≠ [] ∧ c.members.Nodup ∧
      (∀ a ∈ c.members, ∀ b, b ∈ c.members ↔ g.Reaches a b ∧ g.Reaches b a) ∧
      c.names.map some = c.members.map fun id => (g.module? id).map (·.name)) ∧
    (∀ a, g.Reaches a a → ∃! i : Nat, ∃ c : ImportCycle,
      g.detectCycles.cycles[i]? = some c ∧ a ∈ c.members) ∧
    (∀ a c, g.detectCycles.cycleOf? a = some c ↔ c ∈ g.detectCycles.cycles ∧ a ∈ c.members) ∧
    g.detectCycles.detectCycles = g.detectCycles := by
  refine ⟨fun a b => inSameCycle_iff, fun c hc => ?_, fun a ha => ?_, fun a c => ?_, ?_⟩
  · exact ⟨members_ne_nil hc, nodup_members hc, fun a ha b => mem_members_iff hc ha, names_eq hc⟩
  · obtain ⟨c, hc, hac⟩ := exists_cycle ha
    obtain ⟨i, hi⟩ := List.getElem?_of_mem hc
    refine ⟨i, ⟨c, hi, hac⟩, ?_⟩
    rintro j ⟨d, hj, had⟩
    exact eq_of_mem_members hj hi had hac
  · exact cycleOf?_eq_some_iff
  · exact detectCycles_detectCycles g

end TypeResolution.ModuleGraph
