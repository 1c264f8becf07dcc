import TypeResolution.Proofs.Module.Imports

/-!
What a graph records of the modules that it is built from. Names are numbered by their first
occurrence. An import that names a module adds an edge unless it is there, at both of its ends; any
other import is listed as unresolved. So the graph holds exactly the import relation, from each
side, whatever is repeated in the list and in whatever order it comes.
-/

namespace TypeResolution.ModuleGraph

variable {α : Type} {g g' : ModuleGraph} {a b id source target : Nat} {name : String}

/-- What a field of a module holds, if there is such a module. -/
def part (field : ModuleInfo → List α) (g : ModuleGraph) (id : Nat) : List α :=
  ((g.module? id).map field).getD []

/-- The modules that import a module. -/
def dependents : ModuleGraph → Nat → List Nat := part (·.dependents)

/-- The imports of a module that name no module. -/
def unresolved : ModuleGraph → Nat → List String := part (·.unresolved)

section parts

variable {p : ModuleInfo → List α} {u : ModuleInfo → ModuleInfo}

theorem part_addModule (hp : ∀ name, p ⟨name, [], [], []⟩ = []) :
    part p (g.addModule name).2 id = part p g id := by
  unfold addModule
  cases g.id? name with
  | some known => rfl
  | none =>
      rcases Nat.lt_trichotomy id g.size with hlt | rfl | hgt
      · simp [part, module?, List.getElem?_append_left hlt]
      · simp [part, module?, size, hp]
      · have hnone : (g.modules ++ [(⟨name, [], [], []⟩ : ModuleInfo)])[id]? = none :=
          List.getElem?_eq_none (by simpa [size] using Nat.succ_le_of_lt hgt)
        simp [part, module?, hnone, List.getElem?_eq_none (Nat.le_of_lt hgt)]

theorem part_modify_of_eq (hp : ∀ m, p (u m) = p m) :
    part p { g with modules := g.modules.modify a u } id = part p g id := by
  simp only [part, module?, List.getElem?_modify]
  cases g.modules[id]? with
  | none => rfl
  | some m =>
      by_cases h : a = id
      · simp [h, hp]
      · simp [h]

theorem part_modify {x : α} (ha : a < g.size) (hp : ∀ m, p (u m) = p m ++ [x]) :
    part p { g with modules := g.modules.modify a u } id =
      if id = a then part p g a ++ [x] else part p g id := by
  have hsome : g.modules[a]? = some g.modules[a] := List.getElem?_eq_getElem ha
  by_cases h : id = a
  · subst h
    simp [part, module?, hsome, hp]
  · simp [part, module?, h, Ne.symm h]

end parts

section edges

theorem id?_congr (h : g'.names = g.names) : g'.id? = g.id? := by
  funext name
  rw [id?_eq, id?_eq, h]

theorem size_modify {u : ModuleInfo → ModuleInfo} :
    size { g with modules := g.modules.modify a u } = g.size := by
  simp [size]

/-- An edge that is there is not added again. -/
theorem addDependency_of_mem (h : target ∈ g.dependencies source) :
    g.addDependency source target = g := by
  unfold addDependency
  split
  · rfl
  · rename_i m hm
    have hmem : target ∈ m.dependencies := by simpa [dependencies, hm] using h
    rw [if_pos (by simpa using hmem)]

/-- An edge that is new is added at both of its ends. -/
theorem addDependency_of_not_mem (hs : source < g.size) (ht : target < g.size)
    (h : target ∉ g.dependencies source) :
    (∀ a, (g.addDependency source target).dependencies a =
      if a = source then g.dependencies source ++ [target] else g.dependencies a) ∧
    (∀ b, (g.addDependency source target).dependents b =
      if b = target then g.dependents target ++ [source] else g.dependents b) ∧
    ∀ a, (g.addDependency source target).unresolved a = g.unresolved a := by
  have hm : g.module? source = some g.modules[source] := List.getElem?_eq_getElem hs
  have hnew : target ∉ g.modules[source].dependencies := by simpa [dependencies, hm] using h
  -- the first end is changed, then the second one
  let half : ModuleGraph := { g with modules := g.modules.modify source fun m =>
    { m with dependencies := m.dependencies ++ [target] } }
  have hadd : g.addDependency source target =
      { half with modules := half.modules.modify target fun m =>
        { m with dependents := m.dependents ++ [source] } } := by
    unfold addDependency
    rw [hm]
    exact if_neg (by simpa using hnew)
  have hdependencies : ∀ a, half.dependencies a =
      if a = source then g.dependencies source ++ [target] else g.dependencies a := fun a =>
    part_modify (p := (·.dependencies)) hs fun _ => rfl
  have hdependents : ∀ b, half.dependents b = g.dependents b := fun b => part_modify_of_eq fun _ => rfl
  have hunresolved : ∀ a, half.unresolved a = g.unresolved a := fun a =>
    part_modify_of_eq fun _ => rfl
  have hlt : target < half.size := size_modify (g := g) ▸ ht
  rw [hadd]
  refine ⟨fun a => ?_, fun b => ?_, fun a => ?_⟩
  · rw [← hdependencies a]
    exact part_modify_of_eq (p := (·.dependencies)) fun _ => rfl
  · rw [← hdependents b, ← hdependents target]
    exact part_modify hlt fun _ => rfl
  · rw [← hunresolved a]
    exact part_modify_of_eq fun _ => rfl

end edges

/-- The graph records for the modules of each name the imports in `imports`, in their order: edges
of those that name a module, each of them once and at both of its ends, and the names of the
others. -/
structure Records (g : ModuleGraph) (imports : String → List String) : Prop where
  nodup : g.names.Nodup
  dependencies : ∀ id name, g.names[id]? = some name →
    g.dependencies id = ((imports name).filterMap g.id?).eraseDups
  unresolved : ∀ id name, g.names[id]? = some name →
    g.unresolved id = (imports name).filter fun i => (g.id? i).isNone
  dependents : ∀ a b, a ∈ g.dependents b ↔ b ∈ g.dependencies a
  once : ∀ b, (g.dependents b).Nodup

/-- The imports and `i` as the last one under `name`. -/
def extended (imports : String → List String) (name i : String) (other : String) : List String :=
  imports other ++ if other = name then [i] else []

namespace Records

variable {imports imports' : String → List String} {i : String}

theorem congr (h : Records g imports) (heq : ∀ name, imports' name = imports name) :
    Records g imports' :=
  funext heq ▸ h

theorem id?_eq_some_iff (h : Records g imports) : g.id? name = some id ↔ g.names[id]? = some name :=
  ModuleGraph.id?_eq_some_iff h.nodup

/-- A module with the name of another one is that module. -/
theorem name_iff (h : Records g imports) (hid : g.id? name = some source) {other : String}
    (hother : g.names[id]? = some other) : other = name ↔ id = source := by
  have hsource : g.names[source]? = some name := h.id?_eq_some_iff.mp hid
  constructor
  · rintro rfl
    exact Option.some.inj ((h.id?_eq_some_iff.mpr hother).symm.trans hid)
  · rintro rfl
    exact Option.some.inj (hother.symm.trans hsource)

/-- One more import that names no module. -/
theorem addUnresolved (h : Records g imports) (hid : g.id? name = some source)
    (hi : g.id? i = none) : Records (g.addUnresolved source i) (extended imports name i) := by
  have hsource := lt_size_of_id? hid
  have hnames : (g.addUnresolved source i).names = g.names := names_modify _ source fun _ => rfl
  have hdependencies : (g.addUnresolved source i).dependencies = g.dependencies :=
    funext fun _ => part_modify_of_eq (p := (·.dependencies)) fun _ => rfl
  have hdependents : (g.addUnresolved source i).dependents = g.dependents :=
    funext fun _ => part_modify_of_eq (p := (·.dependents)) fun _ => rfl
  constructor
  · exact hnames ▸ h.nodup
  · intro id other hother
    rw [hnames] at hother
    rw [hdependencies, id?_congr hnames, h.dependencies id other hother, extended,
      List.filterMap_append]
    split <;> simp [hi]
  · intro id other hother
    rw [hnames] at hother
    refine (part_modify (p := (·.unresolved)) hsource fun _ => rfl).trans ?_
    rw [id?_congr hnames, extended, List.filter_append, ← h.unresolved id other hother]
    by_cases heq : id = source
    · subst heq
      rw [if_pos rfl, if_pos ((h.name_iff hid hother).mpr rfl)]
      simp [hi, ModuleGraph.unresolved]
    · rw [if_neg heq, if_neg (mt (h.name_iff hid hother).mp heq), List.filter_nil, List.append_nil]
      rfl
  · rw [hdependencies, hdependents]
    exact h.dependents
  · rw [hdependents]
    exact h.once

/-- One more import that names a module. -/
theorem addDependency (h : Records g imports) (hid : g.id? name = some source)
    (hi : g.id? i = some target) :
    Records (g.addDependency source target) (extended imports name i) := by
  have hsource := lt_size_of_id? hid
  have hname : g.names[source]? = some name := h.id?_eq_some_iff.mp hid
  have hnames := names_addDependency g source target
  have hmem : target ∈ (imports name).filterMap g.id? ↔ target ∈ g.dependencies source := by
    rw [h.dependencies source name hname, List.mem_eraseDups]
  have hedges : ∀ id other, g.names[id]? = some other →
      ((extended imports name i other).filterMap g.id?).eraseDups =
        if id = source ∧ target ∉ g.dependencies source then g.dependencies source ++ [target]
        else g.dependencies id := by
    intro id other hother
    rw [extended, List.filterMap_append]
    by_cases heq : id = source
    · subst heq
      obtain rfl := (h.name_iff hid hother).mpr rfl
      rw [if_pos rfl, List.filterMap_cons_some hi, List.filterMap_nil, eraseDups_concat,
        ← h.dependencies id other hother]
      by_cases hold : target ∈ g.dependencies id <;> simp [hmem, hold]
    · rw [if_neg (mt (h.name_iff hid hother).mp heq), if_neg (by simp [heq]),
        h.dependencies id other hother]
      simp
  have hunresolved : ∀ id other, g.names[id]? = some other →
      (extended imports name i other).filter (fun i => (g.id? i).isNone) = g.unresolved id := by
    intro id other hother
    rw [extended, List.filter_append, h.unresolved id other hother]
    split <;> simp [hi]
  by_cases hold : target ∈ g.dependencies source
  · rw [addDependency_of_mem hold]
    simp only [hold, not_true, and_false, if_false] at hedges
    exact ⟨h.nodup, fun id other ho => (hedges id other ho).symm,
      fun id other ho => (hunresolved id other ho).symm, h.dependents, h.once⟩
  · obtain ⟨hd, hr, hu⟩ := addDependency_of_not_mem hsource (lt_size_of_id? hi) hold
    simp only [hold, not_false_eq_true, and_true] at hedges
    constructor
    · exact hnames ▸ h.nodup
    · intro id other hother
      rw [hnames] at hother
      rw [id?_congr hnames, hd, hedges id other hother]
    · intro id other hother
      rw [hnames] at hother
      rw [id?_congr hnames, hu, hunresolved id other hother]
    · intro a b
      rw [hd, hr]
      have := h.dependents a b
      by_cases ha : a = source <;> by_cases hb : b = target <;> simp_all
    · intro b
      rw [hr]
      split
      · -- `source` is new among the dependents, as `target` is among the dependencies
        have hnew : source ∉ g.dependents target := mt (h.dependents source target).mp hold
        exact List.concat_eq_append ▸ (h.once target).concat hnew
      · exact h.once b

theorem addImport (h : Records g imports) (hid : g.id? name = some source) (i : String) :
    Records (g.addImport source i) (extended imports name i) := by
  unfold ModuleGraph.addImport
  cases hi : g.id? i with
  | some target => exact h.addDependency hid hi
  | none => exact h.addUnresolved hid hi

/-- The imports of one module of the list. -/
theorem addImports (h : Records g imports) (hid : g.id? name = some source) (more : List String) :
    Records (g.addImports name more) fun other =>
      imports other ++ if other = name then more else [] := by
  unfold ModuleGraph.addImports
  rw [hid]
  change Records (more.foldl (fun g i => g.addImport source i) g) _
  induction more generalizing g imports with
  | nil => exact h.congr fun other => by simp
  | cons i rest ih =>
      have hid' : (g.addImport source i).id? name = some source := by
        rw [id?_congr (names_addImport g source i), hid]
      refine (ih (h.addImport hid i) hid').congr fun other => ?_
      by_cases heq : other = name <;> simp [extended, heq]

end Records

/-- All imports that a list of modules gives under a name, in their order. -/
def importsOf (modules : List (String × List String)) (name : String) : List String :=
  (modules.filter (·.1 = name)).flatMap (·.2)

theorem Records.foldl {imports : String → List String} (h : Records g imports)
    (modules : List (String × List String)) (hknown : ∀ m ∈ modules, m.1 ∈ g.names) :
    Records (modules.foldl (fun g m => g.addImports m.1 m.2) g) fun name =>
      imports name ++ importsOf modules name := by
  induction modules generalizing g imports with
  | nil => exact h.congr fun name => by simp [importsOf]
  | cons m rest ih =>
      obtain ⟨source, hid⟩ := exists_id (hknown m List.mem_cons_self)
      have hrest : ∀ r ∈ rest, r.1 ∈ (g.addImports m.1 m.2).names := fun r hr => by
        rw [names_addImports]
        exact hknown r (List.mem_cons_of_mem _ hr)
      refine (ih (h.addImports hid m.2) hrest).congr fun name => ?_
      by_cases heq : m.1 = name
      · simp [importsOf, heq]
      · simp [importsOf, heq, Ne.symm heq]

/-- Modules are added before their imports. -/
theorem records_foldl_addModule (modules : List (String × List String)) :
    Records (modules.foldl (fun g m => (g.addModule m.1).2) empty) fun _ => [] := by
  have hbare : ∀ g : ModuleGraph, g.names.Nodup →
      (∀ id, g.dependencies id = [] ∧ g.dependents id = [] ∧ g.unresolved id = []) →
      let g' := modules.foldl (fun g m => (g.addModule m.1).2) g
      g'.names.Nodup ∧
        ∀ id, g'.dependencies id = [] ∧ g'.dependents id = [] ∧ g'.unresolved id = [] := by
    induction modules with
    | nil => exact fun g hnodup hparts => ⟨hnodup, hparts⟩
    | cons m rest ih =>
        refine fun g hnodup hparts => ih _ (nodup_addModule hnodup m.1) fun id => ?_
        have hpart : ∀ {β : Type} {p : ModuleInfo → List β}, (∀ name, p ⟨name, [], [], []⟩ = []) →
            part p (g.addModule m.1).2 id = part p g id := part_addModule
        obtain ⟨hdependencies, hdependents, hunresolved⟩ := hparts id
        exact ⟨(hpart fun _ => rfl).trans hdependencies, (hpart fun _ => rfl).trans hdependents,
          (hpart fun _ => rfl).trans hunresolved⟩
  obtain ⟨hnodup, hparts⟩ := hbare empty .nil fun id => ⟨rfl, rfl, rfl⟩
  constructor
  · exact hnodup
  · exact fun id _ _ => (hparts id).1
  · exact fun id _ _ => (hparts id).2.2
  · exact fun a b => by rw [(hparts b).2.1, (hparts a).1]; simp
  · exact fun b => (hparts b).2.1 ▸ .nil

theorem records_ofImports (modules : List (String × List String)) :
    Records (ofImports modules) (importsOf modules) := by
  have hknown : ∀ m ∈ modules,
      m.1 ∈ (modules.foldl (fun g m => (g.addModule m.1).2) empty).names := by
    intro m hm
    rw [names_foldl_addModule, List.mem_eraseDups]
    exact List.mem_map_of_mem hm
  exact ((records_foldl_addModule modules).foldl modules hknown).congr fun name => by simp

/-- A graph built from a list of modules with their imports holds exactly the import relation. The
modules are the names by first occurrence, and a name leads to the number that it has; the
dependencies of a module are the known ones among all imports listed under its name, by first
occurrence, and its unresolved imports are the others; and a module is among the dependents of
another one, then once, exactly when that is among its dependencies. -/
theorem ofImports_exact (modules : List (String × List String)) :
    (ofImports modules).names = (modules.map (·.1)).eraseDups ∧
    (∀ name id, (ofImports modules).id? name = some id ↔
      (ofImports modules).names[id]? = some name) ∧
    (∀ id name, (ofImports modules).names[id]? = some name →
      (ofImports modules).dependencies id =
        ((importsOf modules name).filterMap (ofImports modules).id?).eraseDups ∧
      (ofImports modules).unresolved id =
        (importsOf modules name).filter (· ∉ (ofImports modules).names)) ∧
    (∀ a b, b ∈ (ofImports modules).dependencies a ↔ a ∈ (ofImports modules).dependents b) ∧
    ∀ b, ((ofImports modules).dependents b).Nodup := by
  have hg := records_ofImports modules
  refine ⟨names_ofImports modules, fun name id => hg.id?_eq_some_iff, fun id name hname => ?_,
    fun a b => (hg.dependents a b).symm, hg.once⟩
  refine ⟨hg.dependencies id name hname, (hg.unresolved id name hname).trans ?_⟩
  refine List.filter_congr fun i _ => ?_
  rw [Bool.eq_iff_iff, Option.isNone_iff_eq_none, id?_eq_none_iff, decide_eq_true_iff]

end TypeResolution.ModuleGraph
