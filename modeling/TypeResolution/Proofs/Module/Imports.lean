import Mathlib.Data.List.Induction
import Mathlib.Data.List.Nodup
import TypeResolution.Proofs.Module.Cycles

/-!
The graph that is built from a list of modules with their imports: which names get which numbers,
and where imports lead.
-/

namespace TypeResolution.ModuleGraph

/-- The names of the modules by their numbers. -/
def names (g : ModuleGraph) : List String := g.modules.map (·.name)

theorem id?_eq (g : ModuleGraph) (name : String) : g.id? name = g.names.findIdx? (· = name) := by
  simp [id?, names, List.findIdx?_map, Function.comp_def]

theorem exists_id {g : ModuleGraph} {name : String} (h : name ∈ g.names) :
    ∃ id, g.id? name = some id := by
  rw [id?_eq, ← Option.isSome_iff_exists, List.findIdx?_isSome, List.any_eq_true]
  exact ⟨name, h, by simp⟩

theorem getElem?_names_of_id? {g : ModuleGraph} {name : String} {id : Nat}
    (h : g.id? name = some id) : g.names[id]? = some name := by
  rw [id?_eq, List.findIdx?_eq_some_iff_getElem] at h
  obtain ⟨hlt, heq, -⟩ := h
  rw [List.getElem?_eq_getElem hlt, of_decide_eq_true heq]

theorem id?_eq_none_iff {g : ModuleGraph} {name : String} : g.id? name = none ↔ name ∉ g.names := by
  constructor
  · intro h hmem
    obtain ⟨id, hid⟩ := exists_id hmem
    rw [h] at hid
    cases hid
  · intro h
    refine Option.eq_none_iff_forall_ne_some.mpr fun id hid => h ?_
    exact List.mem_of_getElem? (getElem?_names_of_id? hid)

/-- Distinct names lead to the numbers that they have. -/
theorem id?_eq_some_iff {g : ModuleGraph} (hg : g.names.Nodup) {name : String} {id : Nat} :
    g.id? name = some id ↔ g.names[id]? = some name := by
  refine ⟨getElem?_names_of_id?, fun h => ?_⟩
  obtain ⟨other, hother⟩ := exists_id (List.mem_of_getElem? h)
  obtain ⟨hid, hname⟩ := List.getElem?_eq_some_iff.mp h
  obtain ⟨hlt, heq⟩ := List.getElem?_eq_some_iff.mp (getElem?_names_of_id? hother)
  have hsame : id = other := (List.Nodup.getElem_inj_iff hg).mp (hname.trans heq.symm)
  rw [hother, hsame]

theorem names_addModule (g : ModuleGraph) (name : String) :
    (g.addModule name).2.names = if name ∈ g.names then g.names else g.names ++ [name] := by
  unfold addModule
  cases h : g.id? name with
  | some id => rw [if_pos (List.mem_of_getElem? (getElem?_names_of_id? h))]
  | none =>
      rw [if_neg (id?_eq_none_iff.mp h)]
      simp [names]

theorem names_modify (modules : List ModuleInfo) (id : Nat) {f : ModuleInfo → ModuleInfo}
    (hf : ∀ m, (f m).name = m.name) :
    (modules.modify id f).map (·.name) = modules.map (·.name) := by
  refine List.ext_getElem? fun i => ?_
  simp only [List.getElem?_map, List.getElem?_modify]
  cases modules[i]? with
  | none => simp
  | some m =>
      split
      · exact congrArg some (hf m)
      · rfl

theorem names_addDependency (g : ModuleGraph) (source target : Nat) :
    (g.addDependency source target).names = g.names := by
  unfold addDependency
  split
  · rfl
  · split
    · rfl
    · refine (names_modify _ target ?_).trans (names_modify _ source ?_)
      · exact fun _ => rfl
      · exact fun _ => rfl

theorem names_addImport (g : ModuleGraph) (source : Nat) (name : String) :
    (g.addImport source name).names = g.names := by
  unfold addImport
  split
  · exact names_addDependency g source _
  · exact names_modify _ source fun _ => rfl

theorem names_addImports (g : ModuleGraph) (name : String) (imports : List String) :
    (g.addImports name imports).names = g.names := by
  unfold addImports
  split
  · rename_i source heq
    clear heq
    induction imports generalizing g with
    | nil => rfl
    | cons i rest ih => rw [List.foldl_cons, ih, names_addImport]
  · rfl

theorem names_foldl_addImports (l : List (String × List String)) (g : ModuleGraph) :
    (l.foldl (fun g m => g.addImports m.1 m.2) g).names = g.names := by
  induction l generalizing g with
  | nil => rfl
  | cons m rest ih => rw [List.foldl_cons, ih, names_addImports]

theorem eq_of_id?_eq {g : ModuleGraph} {a b : String} {id : Nat} (ha : g.id? a = some id)
    (hb : g.id? b = some id) : a = b :=
  Option.some.inj ((getElem?_names_of_id? ha).symm.trans (getElem?_names_of_id? hb))

theorem size_eq (g : ModuleGraph) : g.size = g.names.length := by
  simp [size, names]

theorem lt_size_of_id? {g : ModuleGraph} {name : String} {id : Nat} (h : g.id? name = some id) :
    id < g.size :=
  size_eq g ▸ (List.getElem?_eq_some_iff.mp (getElem?_names_of_id? h)).1

theorem nodup_addModule {g : ModuleGraph} (hg : g.names.Nodup) (name : String) :
    (g.addModule name).2.names.Nodup := by
  rw [names_addModule]
  split
  · exact hg
  · exact List.concat_eq_append ▸ hg.concat ‹_›

theorem eraseDups_concat {α : Type} [DecidableEq α] (l : List α) (a : α) :
    (l ++ [a]).eraseDups = if a ∈ l then l.eraseDups else l.eraseDups ++ [a] := by
  rw [List.eraseDups_append, List.cons_removeAll]
  by_cases h : a ∈ l <;> simp [h, List.eraseDups_cons]

/-- Names are numbered by their first occurrence. -/
theorem names_foldl_addModule (l : List (String × List String)) :
    (l.foldl (fun g m => (g.addModule m.1).2) empty).names = (l.map (·.1)).eraseDups := by
  induction l using List.reverseRecOn with
  | nil => rfl
  | append_singleton rest m ih =>
      rw [List.foldl_append, List.foldl_cons, List.foldl_nil, names_addModule, ih, List.map_append,
        List.map_singleton, eraseDups_concat]
      simp only [List.mem_eraseDups]

theorem names_ofImports (l : List (String × List String)) :
    (ofImports l).names = (l.map (·.1)).eraseDups := by
  unfold ofImports
  rw [names_foldl_addImports, names_foldl_addModule]

theorem mem_names_ofImports {modules : List (String × List String)} {m : String × List String}
    (hm : m ∈ modules) : m.1 ∈ (ofImports modules).names := by
  rw [names_ofImports, List.mem_eraseDups]
  exact List.mem_map_of_mem hm

theorem eraseDups_of_nodup {l : List String} (h : l.Nodup) : l.eraseDups = l := by
  induction l with
  | nil => rfl
  | cons a rest ih =>
      obtain ⟨ha, hrest⟩ := List.nodup_cons.mp h
      have hfilter : (rest.filter fun b => !b == a) = rest :=
        List.filter_eq_self.mpr fun b hb => by simpa using ne_of_mem_of_not_mem hb ha
      rw [List.eraseDups_cons, hfilter, ih hrest]

/-- Imports lead to modules of the graph. -/
def Resolved (g : ModuleGraph) : Prop := ∀ m ∈ g.modules, ∀ d ∈ m.dependencies, d < g.size

theorem Resolved.lt_size {g : ModuleGraph} (h : g.Resolved) {a b : Nat} (hab : g.Imports a b) :
    b < g.size := by
  unfold Imports dependencies module? at hab
  cases hm : g.modules[a]? with
  | none => simp [hm] at hab
  | some m =>
      rw [hm] at hab
      exact h m (List.mem_of_getElem? hm) b hab

theorem Resolved.addModule {g : ModuleGraph} (h : g.Resolved) (name : String) :
    (g.addModule name).2.Resolved := by
  unfold ModuleGraph.addModule
  split
  · exact h
  · intro m hm d hd
    have hsize : g.size ≤ (g.modules ++ [(⟨name, [], [], []⟩ : ModuleInfo)]).length := by
      simp [size]
    rcases List.mem_append.mp hm with hm | hm
    · exact Nat.lt_of_lt_of_le (h m hm d hd) hsize
    · obtain rfl := List.mem_singleton.mp hm
      exact absurd hd List.not_mem_nil

theorem Resolved.modify {g : ModuleGraph} (h : g.Resolved) (id : Nat) {f : ModuleInfo → ModuleInfo}
    (hf : ∀ m, ∀ d ∈ (f m).dependencies, d ∈ m.dependencies ∨ d < g.size) :
    Resolved { g with modules := g.modules.modify id f } := by
  intro m hm d hd
  obtain ⟨i, hi, rfl⟩ := List.mem_iff_getElem.mp hm
  have hsize : size { g with modules := g.modules.modify id f } = g.size := by simp [size]
  rw [hsize]
  rw [List.getElem_modify] at hd
  split at hd
  · rcases hf _ d hd with hd | hd
    · exact h _ (List.getElem_mem _) d hd
    · exact hd
  · exact h _ (List.getElem_mem _) d hd

theorem Resolved.addImport {g : ModuleGraph} (h : g.Resolved) (source : Nat) (name : String) :
    (g.addImport source name).Resolved := by
  unfold ModuleGraph.addImport
  split
  · rename_i target hid
    have htarget := lt_size_of_id? hid
    unfold addDependency
    split
    · exact h
    split
    · exact h
    · refine Resolved.modify (Resolved.modify h source fun m d hd => ?_) target fun m d hd => .inl hd
      rcases List.mem_append.mp hd with hd | hd
      · exact .inl hd
      · exact .inr (List.mem_singleton.mp hd ▸ htarget)
  · exact Resolved.modify h source fun m d hd => .inl hd

theorem Resolved.addImports {g : ModuleGraph} (h : g.Resolved) (name : String)
    (imports : List String) : (g.addImports name imports).Resolved := by
  unfold ModuleGraph.addImports
  split
  · rename_i source hid
    clear hid
    induction imports generalizing g with
    | nil => exact h
    | cons i rest ih => exact ih (h.addImport source i)
  · exact h

theorem resolved_ofImports (l : List (String × List String)) : (ofImports l).Resolved := by
  have hfold : ∀ {step : ModuleGraph → String × List String → ModuleGraph},
      (∀ g m, g.Resolved → (step g m).Resolved) → ∀ g, g.Resolved → (l.foldl step g).Resolved := by
    intro step hstep
    induction l with
    | nil => exact fun g hg => hg
    | cons m rest ih => exact fun g hg => ih _ (hstep g m hg)
  exact hfold (fun g m hg => hg.addImports m.1 m.2) _
    (hfold (fun g m hg => hg.addModule m.1) _ fun m hm => absurd hm List.not_mem_nil)

end TypeResolution.ModuleGraph
