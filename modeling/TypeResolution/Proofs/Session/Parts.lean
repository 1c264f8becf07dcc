import TypeResolution.Proofs.Module.Entered
import TypeResolution.Proofs.Module.Recorded
import TypeResolution.Proofs.Session.Sequence

/-!
What modules reach through imports, by name. Two sessions that differ in modules of one name agree
on what is reached without that name: the imports and cycles of a module that does not reach the
name are the same, and so is the order in which a cycle is listed.
-/

namespace TypeResolution

namespace ModuleGraph

variable {g : ModuleGraph} {a : Nat} {x : String}

theorem filter_eraseDups {α : Type} [DecidableEq α] (p : α → Bool) (l : List α) :
    l.eraseDups.filter p = (l.filter p).eraseDups := by
  induction h : l.length using Nat.strong_induction_on generalizing l with
  | _ n ih =>
      subst h
      cases l with
      | nil => rfl
      | cons a rest =>
          have hlt : (rest.filter fun b => !b == a).length < (a :: rest).length :=
            Nat.lt_succ_of_le (List.length_filter_le _ _)
          rw [List.eraseDups_cons, List.filter_cons, List.filter_cons, ih _ hlt _ rfl,
            List.filter_filter]
          split
          · rw [List.eraseDups_cons, List.filter_filter]
            simp only [Bool.and_comm]
          · rename_i ha
            -- what is equal to `a` is dropped with it
            refine congrArg List.eraseDups (List.filter_congr fun b _ => ?_)
            by_cases hb : b = a
            · simp [hb, ha]
            · simp [hb]

theorem namesOf_eraseDups (hg : g.names.Nodup) {ids : List Nat}
    (hids : ∀ id ∈ ids, ∃ x, g.names[id]? = some x) :
    g.namesOf ids.eraseDups = (g.namesOf ids).eraseDups := by
  induction h : ids.length using Nat.strong_induction_on generalizing ids with
  | _ n ih =>
      subst h
      cases ids with
      | nil => rfl
      | cons a rest =>
          obtain ⟨x, hx⟩ := hids a List.mem_cons_self
          have hrest : ∀ id ∈ rest, ∃ x, g.names[id]? = some x := fun id hid =>
            hids id (List.mem_cons_of_mem _ hid)
          have hlt : (rest.filter (· ≠ a)).length < (a :: rest).length :=
            Nat.lt_succ_of_le (List.length_filter_le _ _)
          have hapart : g.namesOf (rest.filter (· ≠ a)) = (g.namesOf rest).filter (· ≠ x) := by
            refine namesOf_filter (fun id y hy => not_congr ?_) hrest
            exact ⟨fun h => Option.some.inj (hy.symm.trans (h ▸ hx)),
              fun h => eq_of_names hg hy (h ▸ hx)⟩
          have hne {α : Type} [DecidableEq α] (a : α) (l : List α) :
              (l.filter fun b => !b == a) = l.filter (· ≠ a) :=
            List.filter_congr fun b _ => by simp [beq_eq_decide]
          rw [List.eraseDups_cons, hne, namesOf_cons hx, namesOf_cons hx, List.eraseDups_cons, hne,
            ih _ hlt (fun id hid => hrest id (List.mem_of_mem_filter hid)) rfl, hapart]

theorem namesOf_filterMap_id? (l : List String) :
    g.namesOf (l.filterMap g.id?) = l.filter (· ∈ g.names) := by
  rw [namesOf, List.filterMap_filterMap]
  induction l with
  | nil => rfl
  | cons x rest ih =>
      by_cases hx : x ∈ g.names
      · obtain ⟨id, hid⟩ := exists_id hx
        rw [List.filterMap_cons_some (b := x) (by rw [hid]; exact getElem?_names_of_id? hid), ih,
          List.filter_cons_of_pos (by simpa using hx)]
      · rw [List.filterMap_cons_none (by rw [id?_eq_none_iff.mpr hx]; rfl), ih,
          List.filter_cons_of_neg (by simpa using hx)]

/-- The numbers of modules can be read off their names. -/
theorem map_namesOf (hg : g.names.Nodup) {ids : List Nat}
    (hids : ∀ id ∈ ids, ∃ x, g.names[id]? = some x) :
    (g.namesOf ids).map (fun x => g.number x) = ids := by
  induction ids with
  | nil => rfl
  | cons id rest ih =>
      obtain ⟨x, hx⟩ := hids id List.mem_cons_self
      rw [namesOf_cons hx, List.map_cons, number, (id?_eq_some_iff hg).mpr hx,
        ih fun c hc => hids c (List.mem_cons_of_mem _ hc), Option.getD_some]

end ModuleGraph

namespace Session

open ModuleGraph

variable {modules modules' : List ModuleSource} {x y z : String} {i : Nat}

/-- What the modules with the name import of the session, each once. -/
def importsOf (modules : List ModuleSource) (name : String) : List String :=
  (((modules.filter (·.name = name)).flatMap (·.imports)).filter
    (· ∈ modules.map (·.name))).eraseDups

/-- A module reaches another one through imports or is it. -/
def Leads (modules : List ModuleSource) : String → String → Prop :=
  Relation.ReflTransGen fun x y => y ∈ importsOf modules x

theorem names_graph_eq (modules : List ModuleSource) :
    (graph modules).names = (modules.map (·.name)).eraseDups := by
  change (ModuleGraph.ofImports _).names = _
  rw [names_ofImports, List.map_map]
  rfl

theorem nodup_names_graph (modules : List ModuleSource) : (graph modules).names.Nodup := by
  change (ModuleGraph.ofImports _).names.Nodup
  exact (records_ofImports _).nodup

theorem detectCycles_graph (modules : List ModuleSource) :
    (graph modules).detectCycles = graph modules :=
  detectCycles_detectCycles _

theorem mem_names_graph : x ∈ (graph modules).names ↔ x ∈ modules.map (·.name) := by
  rw [names_graph_eq, List.mem_eraseDups]

theorem mem_importsOf : y ∈ importsOf modules x ↔
    (∃ m ∈ modules, m.name = x ∧ y ∈ m.imports) ∧ y ∈ modules.map (·.name) := by
  simp only [importsOf, List.mem_eraseDups, List.mem_filter, List.mem_flatMap, decide_eq_true_eq,
    and_assoc]

/-- The graph of a session has the imports of its modules. -/
theorem requires_graph (modules : List ModuleSource) :
    (graph modules).requires = importsOf modules := by
  funext x
  have hrecords := records_ofImports (modules.map fun m => (m.name, m.imports))
  have hnodup := nodup_names_graph modules
  by_cases hx : x ∈ (graph modules).names
  · obtain ⟨id, hid⟩ := exists_id hx
    have hname := getElem?_names_of_id? hid
    have hnamed : ∀ d ∈ (ModuleGraph.importsOf (modules.map fun m => (m.name, m.imports)) x).filterMap
        (graph modules).id?, ∃ y, (graph modules).names[d]? = some y := by
      intro d hd
      obtain ⟨y, _, hy⟩ := List.mem_filterMap.mp hd
      exact ⟨y, getElem?_names_of_id? hy⟩
    have himports : ModuleGraph.importsOf (modules.map fun m => (m.name, m.imports)) x =
        (modules.filter (·.name = x)).flatMap (·.imports) := by
      rw [ModuleGraph.importsOf, List.filter_map, List.flatMap_map]
      rfl
    have hdependencies := hrecords.dependencies id x hname
    rw [requires_eq hnodup hname]
    change (graph modules).dependencies id = (List.filterMap (graph modules).id? _).eraseDups
      at hdependencies
    rw [hdependencies]
    rw [namesOf_eraseDups hnodup hnamed, namesOf_filterMap_id?, himports, importsOf]
    simp only [mem_names_graph]
  · have hnone : modules.filter (·.name = x) = [] := by
      refine List.filter_eq_nil_iff.mpr fun m hm => ?_
      rw [mem_names_graph] at hx
      simpa using fun h : m.name = x => hx (h ▸ List.mem_map_of_mem hm)
    rw [requires, id?_eq_none_iff.mpr hx, importsOf, hnone]
    rfl

/-- A module sees what it imports from outside its cycle. -/
noncomputable def outside (modules : List ModuleSource) (name : String) : List String :=
  open Classical in (importsOf modules name).filter (¬Circle (importsOf modules) name ·)

theorem imports_graph (hi : (graph modules).names[i]? = some x) :
    imports (graph modules) i =
      (outside modules x).map fun y => (graph modules).number y := by
  classical
  have hnodup := nodup_names_graph modules
  have hresolved := resolved_graph modules
  have hnamed : ∀ d ∈ (graph modules).dependencies i, ∃ y, (graph modules).names[d]? = some y :=
    fun d hd => hresolved.exists_name hd
  have hcycle : ∀ d y, (graph modules).names[d]? = some y →
      ((!(graph modules).inSameCycle i d) = true ↔ ¬Circle (importsOf modules) x y) := by
    intro d y hy
    have hmutual : (graph modules).inSameCycle i d = true ↔ (graph modules).Mutual i d := by
      have h := inSameCycle_iff (g := graph modules) (a := i) (b := d)
      rwa [detectCycles_graph] at h
    rw [Bool.not_eq_true', ← Bool.not_eq_true, hmutual, ModuleGraph.Mutual,
      reaches_iff hnodup hresolved hi hy, reaches_iff hnodup hresolved hy hi, requires_graph]
    rfl
  have hnames : (graph modules).namesOf (imports (graph modules) i) = outside modules x := by
    rw [outside, ← requires_graph, requires_eq hnodup hi, requires_graph,
      ← namesOf_filter hcycle hnamed, imports]
    simp
  rw [← hnames]
  exact (map_namesOf hnodup fun d hd => hnamed d (List.mem_of_mem_filter hd)).symm

section apart

variable (hsame : modules.filter (·.name ≠ z) = modules'.filter (·.name ≠ z))
  {U : String → Prop} [DecidablePred U]

include hsame

theorem filter_name_of_ne (hx : x ≠ z) :
    modules.filter (·.name = x) = modules'.filter (·.name = x) := by
  have hfilter (l : List ModuleSource) :
      l.filter (·.name = x) = (l.filter (·.name ≠ z)).filter (·.name = x) := by
    rw [List.filter_filter]
    refine List.filter_congr fun m _ => ?_
    by_cases hm : m.name = x
    · simp [hm, hx]
    · simp [hm]
  rw [hfilter modules, hsame, ← hfilter]

theorem mem_names_of_ne (hx : x ≠ z) : x ∈ modules.map (·.name) ↔ x ∈ modules'.map (·.name) := by
  have hmem (l : List ModuleSource) : x ∈ l.map (·.name) ↔ ∃ m, m ∈ l.filter (·.name = x) := by
    simp only [List.mem_map, List.mem_filter, decide_eq_true_eq]
  rw [hmem, hmem, filter_name_of_ne hsame hx]

theorem filter_importsOf (hx : x ≠ z) (hz : ¬U z) :
    (importsOf modules x).filter U = (importsOf modules' x).filter U := by
  rw [importsOf, importsOf, filter_eraseDups, filter_eraseDups, List.filter_filter,
    List.filter_filter, filter_name_of_ne hsame hx]
  refine congrArg List.eraseDups (List.filter_congr fun y _ => ?_)
  by_cases hy : U y
  · have hne : y ≠ z := fun h => hz (h ▸ hy)
    simp only [hy, mem_names_of_ne hsame hne]
  · simp [hy]

theorem mem_importsOf_of_ne (hx : x ≠ z) (hy : y ≠ z) :
    y ∈ importsOf modules x ↔ y ∈ importsOf modules' x := by
  have hfilter := filter_importsOf hsame hx (U := (· ≠ z)) (by simp)
  have hmem (l : List String) : y ∈ l ↔ y ∈ l.filter (· ≠ z) := by simp [hy]
  rw [hmem, hfilter, ← hmem]

omit hsame in
theorem ne_of_leads (hz : ¬Leads modules x z) (h : Leads modules x y) : y ≠ z := by
  rintro rfl
  exact hz h

/-- What a module leads to without the name imports the same in both sessions. -/
theorem importsOf_eq_of_leads {a : String} (hz : ¬Leads modules x z) (hz' : ¬Leads modules' x z)
    (h : Leads modules x a) (h' : Leads modules' x a) :
    importsOf modules a = importsOf modules' a := by
  have hall {l : List ModuleSource} (hz : ¬Leads l x z) (h : Leads l x a) :
      (importsOf l a).filter (· ≠ z) = importsOf l a :=
    List.filter_eq_self.mpr fun b hb => by simpa using ne_of_leads hz (h.tail hb)
  rw [← hall hz h, filter_importsOf hsame (ne_of_leads hz h) (by simp), hall hz' h']

theorem Leads.of_same (hz : ¬Leads modules x z) (h : Leads modules x y) : Leads modules' x y := by
  induction h with
  | refl => exact .refl
  | tail hxy hmem ih =>
      have hne := ne_of_leads hz hxy
      have hne' := ne_of_leads hz (hxy.tail hmem)
      exact ih.tail ((mem_importsOf_of_ne hsame hne hne').mp hmem)

theorem reach_of_same {a b : String} (hz : ¬Leads modules x z) (hxa : Leads modules x a)
    (h : Relation.TransGen (fun x y => y ∈ importsOf modules x) a b) :
    Relation.TransGen (fun x y => y ∈ importsOf modules' x) a b := by
  have hstep {c d : String} (hxc : Leads modules x c) (hd : d ∈ importsOf modules c) :
      d ∈ importsOf modules' c :=
    (mem_importsOf_of_ne hsame (ne_of_leads hz hxc) (ne_of_leads hz (hxc.tail hd))).mp hd
  induction h with
  | single hmem => exact .single (hstep hxa hmem)
  | tail hreach hmem ih =>
      exact ih.tail (hstep (hxa.trans (Relation.TransGen.to_reflTransGen hreach)) hmem)

theorem circle_of_same {a b : String} (hz : ¬Leads modules x z) (hxa : Leads modules x a)
    (h : Circle (importsOf modules) a b) : Circle (importsOf modules') a b := by
  have hxb : Leads modules x b := hxa.trans (Relation.TransGen.to_reflTransGen h.1)
  exact ⟨reach_of_same hsame hz hxa h.1, reach_of_same hsame hz hxb h.2⟩

/-- What a module leads to without the name sees the same imports in both sessions. -/
theorem outside_eq {a : String} (hz : ¬Leads modules x z) (hz' : ¬Leads modules' x z)
    (h : Leads modules x a) : outside modules a = outside modules' a := by
  classical
  have h' := h.of_same hsame hz
  rw [outside, outside, importsOf_eq_of_leads hsame hz hz' h h']
  refine List.filter_congr fun b _ => ?_
  have hcircle : Circle (importsOf modules) a b ↔ Circle (importsOf modules') a b :=
    ⟨circle_of_same hsame hz h, circle_of_same hsame.symm hz' h'⟩
  simp only [hcircle]

end apart

end Session

end TypeResolution
