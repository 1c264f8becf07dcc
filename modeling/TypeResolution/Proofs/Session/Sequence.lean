import TypeResolution.Proofs.Expr.Twin
import TypeResolution.Proofs.Outcomes
import TypeResolution.Proofs.Session.Report

/-!
Modules checked one after the other. When the names are distinct, the number of a module is its
place in the list. A module is checked after all that it imports outside its cycle, and what it
sees is the same, up to the ids of types, wherever its aliases and those of its imports were
lowered.
-/

namespace TypeResolution

open Store Replay

/-- The number of the module with the name, or the first number. -/
abbrev ModuleGraph.number (g : ModuleGraph) (name : String) : Nat := (g.id? name).getD 0

namespace Session

variable {modules : List ModuleSource} {g : ModuleGraph} {s s' : Store} {i d : Nat}
  {source : ModuleSource}

section numbers

theorem names_graph (hnames : (modules.map (·.name)).Nodup) :
    (graph modules).names = modules.map (·.name) := by
  have hfst : (modules.map fun m => (m.name, m.imports)).map (·.1) = modules.map (·.name) := by
    simp [Function.comp_def]
  change (ModuleGraph.ofImports _).names = _
  rw [ModuleGraph.names_ofImports, hfst, ModuleGraph.eraseDups_of_nodup hnames]

theorem size_graph (hnames : (modules.map (·.name)).Nodup) :
    (graph modules).size = modules.length := by
  rw [ModuleGraph.size_eq, names_graph hnames, List.length_map]

/-- The number of a module is its place in the list. -/
theorem id?_graph_iff (hnames : (modules.map (·.name)).Nodup) (h : modules[i]? = some source)
    {j : Nat} : (graph modules).id? source.name = some j ↔ j = i := by
  have hname : (modules.map (·.name))[i]? = some source.name := by simp [h]
  have hid : (graph modules).id? source.name = some i := by
    rw [ModuleGraph.id?_eq_some_iff (names_graph hnames ▸ hnames), names_graph hnames, hname]
  rw [hid, Option.some_inj, eq_comm]

/-- The imports that a module sees: those outside its cycle. -/
def imports (g : ModuleGraph) (id : Nat) : List Nat :=
  (g.dependencies id).filter (!g.inSameCycle id ·)

theorem resolved_graph (modules : List ModuleSource) : (graph modules).Resolved := by
  change (ModuleGraph.ofImports _).Resolved
  exact ModuleGraph.resolved_ofImports _

theorem lt_length_of_mem_imports (hnames : (modules.map (·.name)).Nodup)
    (hd : d ∈ imports (graph modules) i) : d < modules.length := by
  have himport : (graph modules).Imports i d := (List.mem_filter.mp hd).1
  exact size_graph hnames ▸ (resolved_graph modules).lt_size himport

/-- What a module imports from outside its cycle does not lead back to it. -/
theorem not_reaches_of_mem_imports (hd : d ∈ imports (graph modules) i) :
    ¬(graph modules).Reaches d i := by
  obtain ⟨himport, hapart⟩ := List.mem_filter.mp hd
  intro hback
  have hsame : (graph modules).inSameCycle i d = true :=
    ModuleGraph.inSameCycle_iff.mpr ⟨.single himport, hback⟩
  simp [hsame] at hapart

theorem filter_mapIdx {α : Type} {l : List α} {a : α} (h : l[i]? = some a) :
    (l.mapIdx fun j b => (j, b)).filter (·.1 = i) = [(i, a)] := by
  obtain ⟨hi, ha⟩ := List.getElem?_eq_some_iff.mp h
  have hsplit : l = l.take i ++ a :: l.drop (i + 1) := by
    rw [← ha, ← List.drop_eq_getElem_cons hi, List.take_append_drop]
  have hlength : (l.take i).length = i := by simp [Nat.le_of_lt hi]
  rw [hsplit, List.mapIdx_append, List.mapIdx_cons, hlength, List.filter_append, List.filter_cons]
  have hbefore : ((l.take i).mapIdx fun j b => (j, b)).filter (·.1 = i) = [] := by
    refine List.filter_eq_nil_iff.mpr fun x hx => ?_
    obtain ⟨j, hj, rfl⟩ := List.mem_mapIdx.mp hx
    simpa using fun he : j = i => absurd hj (by omega)
  have hafter : ((l.drop (i + 1)).mapIdx fun j b => (j + 1 + i, b)).filter (·.1 = i) = [] := by
    refine List.filter_eq_nil_iff.mpr fun x hx => ?_
    obtain ⟨j, hj, rfl⟩ := List.mem_mapIdx.mp hx
    simp
  simp [hbefore, hafter]

theorem mem_dependencyOrder {a : Nat × ModuleSource} :
    a ∈ dependencyOrder (graph modules) modules ↔ modules[a.1]? = some a.2 := by
  obtain ⟨j, source⟩ := a
  simp only [dependencyOrder, List.mem_flatMap, List.mem_filter, List.mem_mapIdx, decide_eq_true_eq]
  constructor
  · rintro ⟨id, _, ⟨j', hj, heq⟩, _⟩
    cases heq
    exact List.getElem?_eq_getElem hj
  · intro hsource
    obtain ⟨hj, rfl⟩ := List.getElem?_eq_some_iff.mp hsource
    obtain ⟨id, hid⟩ := ModuleGraph.exists_id (g := graph modules)
      (ModuleGraph.mem_names_ofImports (List.mem_map_of_mem (f := fun m : ModuleSource =>
        (m.name, m.imports)) (List.getElem_mem hj)))
    have hlt : id < (graph modules).size := by
      rw [ModuleGraph.size_eq]
      exact (List.getElem?_eq_some_iff.mp (ModuleGraph.getElem?_names_of_id? hid)).1
    exact ⟨id, ModuleGraph.mem_topologicalOrder hlt, ⟨j, hj, rfl⟩, hid⟩

/-- The modules in dependency order, each with its place. -/
theorem dependencyOrder_eq (hnames : (modules.map (·.name)).Nodup) :
    (dependencyOrder (graph modules) modules).map (·.1) = (graph modules).topologicalOrder ∧
      ∀ x ∈ dependencyOrder (graph modules) modules, modules[x.1]? = some x.2 := by
  have hfilter : ∀ id ∈ (graph modules).topologicalOrder, ∃ m,
      (modules.mapIdx fun i m => (i, m)).filter
        (fun x => (graph modules).id? x.2.name = some id) = [(id, m)] := by
    intro id hid
    have hlt : id < modules.length := by
      rw [← size_graph hnames]
      rcases List.mem_append.mp (ModuleGraph.mem_ids_of_mem_topologicalOrder hid) with h | h
      · exact List.mem_range.mp h
      · obtain ⟨m, hm, hdep⟩ := List.mem_flatMap.mp h
        exact resolved_graph modules m hm id hdep
    refine ⟨modules[id], ?_⟩
    rw [← filter_mapIdx (List.getElem?_eq_getElem hlt)]
    refine List.filter_congr fun x hx => ?_
    obtain ⟨j, hj, rfl⟩ := List.mem_mapIdx.mp hx
    have hiff := id?_graph_iff hnames (List.getElem?_eq_getElem hj) (j := id)
    simp only [decide_eq_decide, hiff]
    exact eq_comm
  refine ⟨?_, fun x hx => mem_dependencyOrder.mp hx⟩
  rw [dependencyOrder, List.map_flatMap]
  refine (List.flatMap_congr (g := fun id => [id]) fun id hid => ?_).trans (by simp)
  obtain ⟨m, heq⟩ := hfilter id hid
  rw [heq]
  rfl

end numbers

section aliases

variable {own own' : List Alias} {w : Stores}

/-- The aliases of a module, lowered before the store was as it is. -/
def Own (g : ModuleGraph) (source : ModuleSource) (s : Store) (own : List Alias) : Prop :=
  ∃ s₀ : Store, s₀.Formed ∧ (prepare g source s₀).1.own = own ∧ (prepare g source s₀).2.Extends s

theorem Own.mono (h : Own g source s own) (hs : s.Extends s') : Own g source s' own := by
  obtain ⟨s₀, hs₀, hown, hext⟩ := h
  exact ⟨s₀, hs₀, hown, hext.trans hs⟩

theorem prepare_grows (g : ModuleGraph) (source : ModuleSource) (hs : s.Formed) :
    s.Extends (prepare g source s).2 ∧ (prepare g source s).2.Formed ∧
      Ok AnyName (prepare g source s).2 (prepare g source s).1.own := by
  have h := follows_prepare (L := .free AnyName) (fun _ => trivial) g source hs
  exact ⟨h.grows, h.formed, (h.beside s (.refl s)).2.2⟩

theorem Own.ok (h : Own g source s own) : Ok AnyName s own := by
  obtain ⟨s₀, hs₀, rfl, hext⟩ := h
  exact Value.mono hext (prepare_grows g source hs₀).2.2

/-- Lowered twice, the aliases of a module are the same up to the ids of types. -/
theorem Own.same (h : Own g source w.first own) (h' : Own g source w.second own') :
    w.Same own own' := by
  obtain ⟨s₀, hs₀, rfl, hext⟩ := h
  obtain ⟨s₀', hs₀', rfl, hext'⟩ := h'
  let w₀ : Stores := ⟨s₀, s₀', hs₀, hs₀'⟩
  have hlowers : w₀.LowersTogether (source.aliases.mapM (·.lower [])) (source.aliases.mapM (·.lower [])) :=
    lowers_mapM fun a _ _ _ => lowers_alias a Stores.same_nil
  obtain ⟨w₁, _, hfirst, hsecond, hsame⟩ := hlowers 0
  have hgrows : w₁.Grows w := ⟨hfirst ▸ hext, hsecond ▸ hext'⟩
  exact hsame.fst.mono hgrows

end aliases

section environments

variable {w : Stores} {own own' : List Alias} {exports exports' : Exports}

theorem same_append {l l' k k' : List Alias} (hl : w.Same l l') (hk : w.Same k k') :
    w.Same (l ++ k) (l' ++ k') := by
  obtain rfl := hl.eq
  obtain rfl := hk.eq
  refine ⟨fun t ht => ?_, (List.map_append ..).symm⟩
  simp only [ids, List.flatMap_append, List.mem_append] at ht
  exact ht.elim (hl.twins t) (hk.twins t)

theorem same_flatMap {ds : List Nat} {f f' : Nat → List Alias} (h : ∀ d ∈ ds, w.Same (f d) (f' d)) :
    w.Same (ds.flatMap f) (ds.flatMap f') := by
  induction ds with
  | nil => exact Stores.same_nil
  | cons d rest ih =>
      simp only [List.flatMap_cons]
      exact same_append (h d (by simp)) (ih fun e he => h e (by simp [he]))

theorem same_insertInto {a a' : Alias} {l l' : List Alias} (ha : w.Same a a') (hl : w.Same l l') :
    w.Same (Environment.insertInto a l) (Environment.insertInto a' l') := by
  obtain rfl := ha.eq
  obtain rfl := hl.eq
  induction l with
  | nil => exact Stores.same_cons ha Stores.same_nil
  | cons b rest ih =>
      change w.Same (if a.name = b.name then a :: rest else b :: Environment.insertInto a rest)
        (if a.name = b.name then _ else _)
      split
      · exact Stores.same_cons ha (Stores.Same.tail hl)
      · exact Stores.same_cons (Stores.Same.head hl) (ih (Stores.Same.tail hl))

theorem same_foldl_insert {l l' : List Alias} (hl : w.Same l l') {e e' : Environment}
    (he : w.Same e e') : w.Same (l.foldl (·.insert ·) e) (l'.foldl (·.insert ·) e') := by
  obtain rfl := hl.eq
  induction l generalizing e e' with
  | nil => exact he
  | cons a rest ih =>
      have hinsert : w.Same (Environment.insertInto a e.aliases)
          (Environment.insertInto _ e'.aliases) :=
        same_insertInto (Stores.Same.head hl) ⟨he.twins, congrArg Environment.aliases he.eq⟩
      have hstep : w.Same (e.insert a) (e'.insert _) :=
        ⟨hinsert.twins, congrArg Environment.mk hinsert.eq⟩
      exact ih hstep (Stores.Same.tail hl)

theorem environment_eq (g : ModuleGraph) (i : Nat) (own : List Alias) (exports : Exports) :
    environment g i own exports =
      ((imports g i).flatMap (fun d => (exports.lookup d).getD []) ++ own).foldl (·.insert ·) .empty :=
  rfl

/-- Modules that see the same aliases up to ids have the same environment up to ids. -/
theorem same_environment (hown : w.Same own own')
    (himports : ∀ d ∈ imports g i, w.Same ((exports.lookup d).getD []) ((exports'.lookup d).getD [])) :
    w.Same (environment g i own exports) (environment g i own' exports') :=
  same_foldl_insert (same_append (same_flatMap himports) hown)
    ⟨fun _ h => absurd h List.not_mem_nil, rfl⟩

end environments

section turns

variable {config : SessionConfig} {exports : Exports}

/-- A module when its turn to be checked has come: what is published then, its own aliases
included, and the store that these are in. -/
structure Turn where
  position : Nat
  prepared : Prepared
  exports : Exports
  store : Store

namespace Turn

def environment (g : ModuleGraph) (t : Turn) : Environment :=
  Session.environment g t.prepared.id t.prepared.own t.exports

def check (config : SessionConfig) (cancelled : Bool) (g : ModuleGraph) (t : Turn) :
    Except Cancelled ModuleReport × Store :=
  report config cancelled g t.exports t.prepared t.store

end Turn

/-- The turns of modules that are checked in the given order. -/
def turns (config : SessionConfig) (cancelled : Bool) (g : ModuleGraph) :
    List (Nat × ModuleSource) → Exports → Store → List Turn
  | [], _, _ => []
  | (position, source) :: rest, exports, s =>
      let (m, s) := prepare g source s
      let turn : Turn := ⟨position, m, publish m.id m.own exports, s⟩
      turn :: turns config cancelled g rest turn.exports (turn.check config cancelled g).2

/-- What is published are the aliases of the modules under their numbers. -/
def Published (modules : List ModuleSource) (s : Store) (exports : Exports) : Prop :=
  ∀ i own, exports.lookup i = some own →
    ∃ source, modules[i]? = some source ∧ Own (graph modules) source s own

theorem Published.mono (h : Published modules s exports) (hs : s.Extends s') :
    Published modules s' exports := by
  intro i own hown
  obtain ⟨source, hsource, hown⟩ := h i own hown
  exact ⟨source, hsource, hown.mono hs⟩

theorem Published.ok (h : Published modules s exports) {own : List Alias} (hown : Ok AnyName s own)
    {name : String} {a : Alias} (ha : (environment g i own exports).get? name = some a) :
    Ok AnyName s a := by
  rw [get?_environment, Option.or_eq_some_iff] at ha
  rcases ha with ha | ⟨_, ha⟩
  · exact hown a (List.mem_reverse.mp (List.mem_of_find?_eq_some ha))
  · obtain ⟨d, _, ha⟩ := List.mem_flatMap.mp (List.mem_reverse.mp (List.mem_of_find?_eq_some ha))
    cases hlookup : exports.lookup d with
    | none => simp [hlookup] at ha
    | some own' =>
        obtain ⟨source, _, hown'⟩ := h d own' hlookup
        exact hown'.ok a (by simpa [hlookup] using ha)

/-- A module that sees aliases of the store is checked, unless that is cancelled. -/
theorem reportIn_ok (config : SessionConfig) (g : ModuleGraph) {env : Environment} (hs : s.Formed)
    (henv : ∀ name a, env.get? name = some a → Ok AnyName s a) (m : Prepared) :
    s.Extends (reportIn config false g env m s).2 ∧ (reportIn config false g env m s).2.Formed ∧
      ∃ r, (reportIn config false g env m s).1 = .ok r ∧ r.name = m.source.name := by
  have hagrees : env.Agrees AnyName s env :=
    ⟨fun _ _ => rfl, fun name a _ h => (henv name a h).1,
      fun name a _ h p hp t ht => ((henv name a h).2 p hp).2 t ht⟩
  have hcalm : True → false = false := fun _ => rfl
  have h := follows_sameReportIn config g (fun _ => trivial) hcalm hagrees m hs
  refine ⟨h.grows, h.formed, ?_⟩
  have hsame := (h.beside s (.refl s)).2
  cases hr : (reportIn config false g env m s).1 with
  | error e =>
      rw [hr] at hsame
      cases hsame with
      | error hcalm => exact absurd trivial hcalm
  | ok r =>
      refine ⟨r, rfl, ?_⟩
      obtain ⟨results, ds, hresults⟩ : ∃ (results : Except Cancelled (List QueryResult)) (ds : _),
          (reportIn config false g env m s).1 = results.map fun l => ⟨m.source.name, l, ds⟩ :=
        ⟨_, _, rfl⟩
      rw [hresults] at hr
      cases results with
      | error => cases hr
      | ok => cases hr; rfl

/-- What holds when the turn of a module has come. -/
structure Turn.Ready (modules : List ModuleSource) (source : ModuleSource) (t : Turn) : Prop where
  formed : t.store.Formed
  source_eq : t.prepared.source = source
  id : t.prepared.id = t.position
  own : Own (graph modules) source t.store t.prepared.own
  published : Published modules t.store t.exports

theorem Turn.Ready.check {t : Turn} (h : t.Ready modules source) (config : SessionConfig) :
    t.store.Extends (t.check config false (graph modules)).2 ∧
      (t.check config false (graph modules)).2.Formed ∧
        ∃ r, (t.check config false (graph modules)).1 = .ok r ∧ r.name = source.name := by
  rw [← h.source_eq]
  exact reportIn_ok config _ h.formed (fun _ _ ha => h.published.ok h.own.ok ha) t.prepared

theorem Published.publish (h : Published modules s exports) (hsource : modules[i]? = some source)
    {own : List Alias} (hown : Own (graph modules) source s own) :
    Published modules s (publish i own exports) := by
  intro j own' hlookup
  rw [lookup_publish, Option.or_eq_some_iff] at hlookup
  rcases hlookup with hlookup | ⟨_, hlookup⟩
  · exact h j own' hlookup
  · split at hlookup
    · rename_i hij
      cases hlookup
      exact ⟨source, hij ▸ hsource, hown⟩
    · cases hlookup

theorem ready_turn (hnames : (modules.map (·.name)).Nodup) (hs : s.Formed)
    (hsource : modules[i]? = some source) (hexports : Published modules s exports) :
    let m := prepare (graph modules) source s
    Turn.Ready modules source ⟨i, m.1, publish m.1.id m.1.own exports, m.2⟩ := by
  intro m
  obtain ⟨hgrows, hformed, _⟩ := prepare_grows (graph modules) source hs
  have hid : m.1.id = i := by
    change ((graph modules).id? source.name).getD 0 = i
    rw [(id?_graph_iff hnames hsource).mpr rfl]
    rfl
  have hown : Own (graph modules) source m.2 m.1.own := ⟨s, hs, rfl, .refl _⟩
  refine ⟨hformed, rfl, hid, hown, ?_⟩
  rw [hid]
  exact (hexports.mono hgrows).publish hsource hown

/-- Every module has its turn, after those before it in the order. -/
theorem turn_of_mem (hnames : (modules.map (·.name)).Nodup) {order : List (Nat × ModuleSource)}
    (horder : ∀ x ∈ order, modules[x.1]? = some x.2) (hs : s.Formed)
    (hexports : Published modules s exports) {t : Turn}
    (ht : t ∈ turns config false (graph modules) order exports s) :
    ∃ before after source, order = before ++ (t.position, source) :: after ∧ t.Ready modules source ∧
      ∀ d, (exports.lookup d).isSome ∨ d ∈ before.map (·.1) → (t.exports.lookup d).isSome := by
  induction order generalizing exports s with
  | nil => cases ht
  | cons x rest ih =>
      obtain ⟨position, source⟩ := x
      have hready := ready_turn hnames hs (horder (position, source) (by simp)) hexports
      rcases List.mem_cons.mp ht with rfl | ht
      · refine ⟨[], rest, source, rfl, hready, fun d hd => ?_⟩
        simp only [List.map_nil, List.not_mem_nil, or_false] at hd
        rw [lookup_publish, Option.isSome_or, hd]
        rfl
      · obtain ⟨hgrows, hformed, _⟩ := hready.check config
        obtain ⟨before, after, source', heq, hready', hpublished⟩ :=
          ih (fun y hy => horder y (by simp [hy])) hformed (hready.published.mono hgrows) ht
        refine ⟨(position, source) :: before, after, source', by rw [heq]; rfl, hready', fun d hd => ?_⟩
        refine hpublished d ?_
        rw [lookup_publish, Option.isSome_or, Bool.or_eq_true, hready.id]
        simp only [List.map_cons, List.mem_cons] at hd
        rcases hd with hd | rfl | hd
        · exact .inl (.inl hd)
        · exact .inl (.inr (by simp))
        · exact .inr hd

end turns

section reports

variable {config : SessionConfig}

/-- The turns of a session whose modules are checked one after the other. -/
def sequence (config : SessionConfig) (modules : List ModuleSource) (s : Store) : List Turn :=
  turns config false (graph modules) (dependencyOrder (graph modules) modules) [] s

theorem ready_of_mem_sequence (hnames : (modules.map (·.name)).Nodup) (hs : s.Formed) {t : Turn}
    (ht : t ∈ sequence config modules s) :
    ∃ source, modules[t.position]? = some source ∧ t.Ready modules source ∧
      ∀ d ∈ imports (graph modules) t.position, (t.exports.lookup d).isSome := by
  obtain ⟨hpositions, horder⟩ := dependencyOrder_eq hnames
  obtain ⟨before, after, source, heq, hready, hpublished⟩ :=
    turn_of_mem hnames horder hs (fun _ _ h => by cases h) ht
  refine ⟨source, horder (t.position, source) (by simp [heq]), hready, fun d hd => ?_⟩
  refine hpublished d (.inr ?_)
  have htopological : (graph modules).topologicalOrder =
      before.map (·.1) ++ t.position :: after.map (·.1) := by
    rw [← hpositions, heq, List.map_append, List.map_cons]
  exact ModuleGraph.mem_before_of_imports htopological (List.mem_filter.mp hd).1
    (not_reaches_of_mem_imports hd)

/-- A report on the module. -/
def Answers (source : ModuleSource) (r : Except Cancelled ModuleReport) : Prop :=
  ∃ report, r = .ok report ∧ report.name = source.name

end reports

end Session

end TypeResolution
