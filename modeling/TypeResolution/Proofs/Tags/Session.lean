import TypeResolution.Proofs.Session.Environment
import TypeResolution.Proofs.Tags.Queries

/-!
Sessions answer the same whatever the source tags are. Tags may be changed, added or erased on
expressions, fields and declarations: all types, texts, verdicts and inferred arguments stay the
same, and each module is told the same.
-/

namespace TypeResolution

open Diagnostic

/-- The answers about a module and all that is said about it, without the places. -/
def ModuleReport.untagged (r : ModuleReport) :
    String × List QueryResult × Set (DiagnosticKind × String) :=
  (r.name, r.results, told r.diagnostics)

def SessionReport.untagged (r : SessionReport) :
    List (String × List QueryResult × Set (DiagnosticKind × String)) :=
  r.modules.map (·.untagged)

namespace Tags

open Session

section environments

variable {own own' : List Alias} {exports exports' : Exports}

/-- Two lists of aliases that differ only in where these are declared. -/
abbrev SameAliases : List Alias → List Alias → Prop := List.Forall₂ SameAlias

theorem sameAliases_insertInto {a a' : Alias} (ha : SameAlias a a') {l l' : List Alias}
    (hl : SameAliases l l') :
    SameAliases (Environment.insertInto a l) (Environment.insertInto a' l') := by
  induction hl with
  | nil => exact .cons ha .nil
  | @cons b b' rest rest' hb hrest ih =>
      unfold Environment.insertInto
      rw [ha.name, hb.name]
      split
      · exact .cons ha hrest
      · exact .cons hb ih

/-- What is published under a number differs only in where it is declared. -/
def SameExports (exports exports' : Exports) : Prop :=
  ∀ id, Option.Rel SameAliases (exports.lookup id) (exports'.lookup id)

theorem SameExports.publish (h : SameExports exports exports') {id id' : Nat} (hid : id' = id)
    (hown : SameAliases own own') :
    SameExports (publish id own exports) (publish id' own' exports') := by
  intro dep
  rw [lookup_publish, lookup_publish, hid]
  have hnew : Option.Rel SameAliases (if id = dep then some own else none)
      (if id = dep then some own' else none) := by
    split
    · exact .some hown
    · exact .none
  generalize exports.lookup dep = found, exports'.lookup dep = found', h dep = hold
  cases hold with
  | some h => exact .some h
  | none => exact hnew

theorem sameEnvironment_environment (g : ModuleGraph) (id : Nat) (hown : SameAliases own own')
    (h : SameExports exports exports') :
    SameEnvironment (environment g id own exports) (environment g id own' exports') := by
  have himported : ∀ deps : List Nat,
      SameAliases (deps.flatMap fun dep => (exports.lookup dep).getD [])
        (deps.flatMap fun dep => (exports'.lookup dep).getD []) := by
    intro deps
    have hdeps : List.Forall₂ Eq deps deps := List.forall₂_refl deps
    refine List.rel_flatMap hdeps ?_
    rintro dep _ rfl
    change SameAliases ((exports.lookup dep).getD []) ((exports'.lookup dep).getD [])
    generalize exports.lookup dep = found, exports'.lookup dep = found', h dep = hfound
    cases hfound with
    | some h => exact h
    | none => exact .nil
  refine List.rel_foldl (P := SameEnvironment) ?_ .nil (List.rel_append (himported _) hown)
  exact fun env env' henv a a' ha => sameAliases_insertInto ha henv

end environments

section modules

variable {config : SessionConfig} {cancelled : Bool} {g : ModuleGraph}

theorem agree_runAll (cancelled : Bool) {setting setting' : Setting}
    (hset : SameSetting setting setting') (queries : List Query) :
    Agree (runAll setting cancelled queries)
      (runAll setting' cancelled (queries.map (·.untagged))) := by
  refine agree_mapM_map (fun q => ?_) queries
  exact beside_ite (agree_bind (agree_throw _) fun _ => agree_run hset q) (agree_run hset q)

theorem agree_surface (cancelled : Bool) {setting setting' : Setting}
    (hset : SameSetting setting setting') {own own' : List Alias} (hown : SameAliases own own') :
    Agree (surface setting cancelled own) (surface setting' cancelled own') := by
  have hplain : SameAliases (own.filter (·.params.isEmpty)) (own'.filter (·.params.isEmpty)) :=
    List.rel_filter (fun a a' ha => by simp [ha.params]) hown
  refine agree_forM_of_forall₂ hplain fun a a' ha => ?_
  rw [ha.name]
  refine agree_bind (agree_lift (agree_intern _)) fun t => ?_
  exact agree_bind (agree_sessionEvaluate hset t) fun _ => agree_pure _

theorem told_withoutRepeats (ds : List Diagnostic) : told (withoutRepeats ds) = told ds := by
  have hfold : ∀ done, told (ds.foldl (fun done d =>
      if done.contains d then done else done ++ [d]) done) = told done ∪ told ds := by
    induction ds with
    | nil => simp
    | cons d rest ih =>
        intro done
        have hstep : told (if done.contains d then done else done ++ [d]) =
            insert d.said (told done) := by
          split
          · rename_i h
            exact (Set.insert_eq_of_mem (said_mem_told (List.contains_iff_mem.mp h))).symm
          · simp
        rw [List.foldl_cons, ih, hstep, told_cons, Set.insert_union, Set.union_insert]
  rw [withoutRepeats, hfold, told_nil, Set.empty_union]

/-- Modules whose aliases are lowered with and without tags. -/
structure SamePrepared (m m' : Prepared) : Prop where
  id : m'.id = m.id
  source : m'.source = m.source.untagged
  own : SameAliases m.own m'.own
  operations : m'.operations = m.operations

theorem beside_prepare (m : ModuleSource) :
    Beside SamePrepared (prepare g m) (prepare g m.untagged) := by
  have hown : Beside SameAliases (m.aliases.mapM (·.lower []))
      ((m.aliases.map (·.untagged)).mapM (·.lower [])) :=
    beside_mapM_map (fun a => beside_lowerAlias a []) m.aliases
  refine Blind.bind (hown 0 0 rfl) fun x x' hx => ?_
  exact Blind.pure ⟨rfl, rfl, hx.1, hx.2.symm⟩

/-- Reports that tell the same. -/
abbrev SameReport (r r' : ModuleReport) : Prop := r.untagged = r'.untagged

theorem beside_report {exports exports' : Exports} (h : SameExports exports exports')
    {m m' : Prepared} (hm : SamePrepared m m') :
    Beside (Both SameReport) (report config cancelled g exports m)
      (report config cancelled g exports' m') := by
  obtain ⟨id', source', own', operations'⟩ := m'
  obtain rfl : id' = m.id := hm.id
  obtain rfl : source' = m.source.untagged := hm.source
  obtain rfl : operations' = m.operations := hm.operations
  have hset : SameSetting ⟨environment g m.id m.own exports, config.resolution⟩
      ⟨environment g m.id own' exports', config.resolution⟩ :=
    ⟨sameEnvironment_environment g m.id hm.own h, rfl⟩
  have hchecks := agree_bind (agree_surface cancelled hset hm.own) fun _ =>
    agree_runAll cancelled hset m.source.queries
  refine Blind.bind (hchecks #[] #[] rfl m.operations m.operations rfl) ?_
  rintro ⟨⟨results, ds⟩, n⟩ ⟨⟨results', ds'⟩, n'⟩ ⟨⟨hresults, hds⟩, -⟩
  replace hds : told ds.toList = told ds'.toList := hds
  cases hresults with
  | error => exact Blind.pure .error
  | ok hresults =>
      subst hresults
      refine Blind.pure (.ok ?_)
      simp only [SameReport, ModuleReport.untagged, ModuleSource.untagged, told_withoutRepeats,
        told_append, hds]

theorem sameExports_published {prepared prepared' : List Prepared}
    (h : List.Forall₂ SamePrepared prepared prepared') :
    SameExports (published prepared) (published prepared') := by
  refine List.rel_foldl (P := SameExports) ?_ (fun _ => .none) h
  exact fun exports exports' hexports m m' hm => hexports.publish hm.id hm.own

theorem beside_checkTogether (modules : List ModuleSource) :
    Beside (List.Forall₂ (Both SameReport)) (checkTogether config cancelled g modules)
      (checkTogether config cancelled g (modules.map (·.untagged))) := by
  refine Blind.bind (beside_mapM_map beside_prepare modules) fun prepared prepared' h => ?_
  exact beside_mapM h fun m m' hm => beside_report (sameExports_published h) hm

/-- Reports on modules in the same positions. -/
def SamePlaced (x x' : Nat × Except Cancelled ModuleReport) : Prop :=
  x'.1 = x.1 ∧ Both SameReport x.2 x'.2

theorem beside_checkEach (order : List (Nat × ModuleSource)) {exports exports' : Exports}
    (h : SameExports exports exports') :
    Beside (List.Forall₂ SamePlaced) (checkEach config cancelled g order exports)
      (checkEach config cancelled g (order.map fun x => (x.1, x.2.untagged)) exports') := by
  induction order generalizing exports exports' with
  | nil => exact Blind.pure .nil
  | cons x rest ih =>
      obtain ⟨position, source⟩ := x
      refine Blind.bind (beside_prepare source) fun m m' hm => ?_
      have hexports := h.publish hm.id hm.own
      refine Blind.bind (beside_report hexports hm) fun r r' hr => ?_
      exact Blind.bind (ih hexports) fun rs rs' hrs => Blind.pure (.cons ⟨rfl, hr⟩ hrs)

theorem dependencyOrder_untagged (modules : List ModuleSource) :
    dependencyOrder g (modules.map (·.untagged)) =
      (dependencyOrder g modules).map fun x => (x.1, x.2.untagged) := by
  have hplaced : (modules.map (·.untagged)).mapIdx (fun i m => (i, m)) =
      (modules.mapIdx fun i m => (i, m)).map fun x => (x.1, x.2.untagged) := by
    simp [List.mapIdx_eq_zipIdx_map, List.zipIdx_map]
  unfold dependencyOrder
  rw [hplaced, List.map_flatMap]
  refine List.flatMap_congr fun id _ => ?_
  rw [List.filter_map]
  rfl

theorem rel_lookup {rs rs' : List (Nat × Except Cancelled ModuleReport)}
    (h : List.Forall₂ SamePlaced rs rs') (i : Nat) :
    Option.Rel (Both SameReport) (rs.lookup i) (rs'.lookup i) := by
  induction h with
  | nil => exact .none
  | @cons x x' rest rest' hx _ ih =>
      rw [List.lookup_cons, List.lookup_cons, hx.1]
      cases i == x.1 with
      | true => exact .some hx.2
      | false => exact ih

theorem beside_checkInOrder (modules : List ModuleSource) :
    Beside (List.Forall₂ (Both SameReport)) (checkInOrder config cancelled g modules)
      (checkInOrder config cancelled g (modules.map (·.untagged))) := by
  unfold checkInOrder
  rw [dependencyOrder_untagged, List.length_map]
  refine Blind.bind (beside_checkEach _ fun _ => .none) fun rs rs' h => Blind.pure ?_
  have hrange : List.Forall₂ Eq (List.range modules.length) (List.range modules.length) :=
    List.forall₂_refl _
  refine List.rel_filterMap ?_ hrange
  rintro i _ rfl
  exact rel_lookup h i

end modules

section sessions

theorem graph_untagged (modules : List ModuleSource) :
    graph (modules.map (·.untagged)) = graph modules := by
  unfold graph
  rw [List.map_map]
  rfl

theorem both_reports {rs rs' : List (Except Cancelled ModuleReport)}
    (h : List.Forall₂ (Both SameReport) rs rs') :
    Both (List.Forall₂ SameReport) (rs.mapM id) (rs'.mapM id) := by
  induction h with
  | nil => exact .ok .nil
  | @cons r r' rest rest' hr _ ih =>
      rw [List.mapM_cons, List.mapM_cons]
      cases hr with
      | error => exact .error
      | ok hr =>
          generalize rest.mapM id = others, rest'.mapM id = others' at ih
          cases ih with
          | error => exact .error
          | ok hrest => exact .ok (.cons hr hrest)

theorem untagged_reports {rs rs' : List (Except Cancelled ModuleReport)}
    (h : List.Forall₂ (Both SameReport) rs rs') :
    ((rs.mapM id).map SessionReport.mk).map (·.untagged) =
      ((rs'.mapM id).map SessionReport.mk).map (·.untagged) := by
  have hboth := both_reports h
  generalize rs.mapM id = all, rs'.mapM id = all' at hboth
  cases hboth with
  | error => rfl
  | @ok reports reports' hreports =>
      have huntagged : List.Forall₂ Eq (reports.map (·.untagged)) (reports'.map (·.untagged)) :=
        List.forall₂_map_left_iff.mpr (List.forall₂_map_right_iff.mpr hreports)
      rw [List.forall₂_eq_eq_eq] at huntagged
      exact congrArg Except.ok huntagged

theorem beside_check (config : SessionConfig) (cancelled : Bool) (modules : List ModuleSource) :
    Beside (fun r r' => r.map (·.untagged) = r'.map (·.untagged)) (check config cancelled modules)
      (check config cancelled (modules.map (·.untagged))) := by
  unfold check
  rw [graph_untagged]
  refine beside_ite ?_ ?_
  · exact Blind.bind (beside_checkTogether modules) fun rs rs' h => Blind.pure (untagged_reports h)
  · exact Blind.bind (beside_checkInOrder modules) fun rs rs' h => Blind.pure (untagged_reports h)

end sessions

end Tags

namespace Session

/-- Modules that are the same but for their tags, checked on stores that are the same but for
theirs, have the same answers: types, texts, verdicts and type arguments. Each module is told the
same, and the same types are made on the way. -/
theorem check_unaffected_by_tags (config : SessionConfig) (cancelled : Bool)
    {modules modules' : List ModuleSource}
    (hmodules : modules.map (·.untagged) = modules'.map (·.untagged)) {s s' : Store}
    (hs : s.Alike s') :
    (check config cancelled modules s).1.map (·.untagged) =
        (check config cancelled modules' s').1.map (·.untagged) ∧
      (check config cancelled modules s).2.Alike (check config cancelled modules' s').2 := by
  -- both sessions are compared with the one without tags
  obtain ⟨hstore, hreport⟩ := Tags.beside_check config cancelled modules s s' hs
  obtain ⟨hstore', hreport'⟩ := Tags.beside_check config cancelled modules' s' s' (.refl s')
  rw [hmodules] at hstore hreport
  exact ⟨hreport.trans hreport'.symm, hstore.trans hstore'.symm⟩

/-- A module with one tag everywhere: on an alias, its object, the object's field and the missing
type of the field, and on a query. -/
def located (tag : Option SourceTag) : ModuleSource :=
  let field : FieldExpr := ⟨"x", ⟨.reference "B" [], tag⟩, false, false, tag⟩
  ⟨"m", [], [⟨"A", [], ⟨.object [field] none, tag⟩, tag⟩], [.evaluate ⟨.reference "A" [], tag⟩]⟩

/-- The module with tags and without, on stores of which one has a tag for a type. -/
theorem check_located_unaffected_by_tags :
    located (some ⟨1, 4, 2⟩) ≠ located none ∧
      (check {} false [located (some ⟨1, 4, 2⟩)] .empty).1.map (·.untagged) =
          (check {} false [located none]
            (Store.empty.recordOrigin (.type .string) ⟨7, 0, 6⟩)).1.map (·.untagged) ∧
        (check {} false [located (some ⟨1, 4, 2⟩)] .empty).2.Alike
          (check {} false [located none] (Store.empty.recordOrigin (.type .string) ⟨7, 0, 6⟩)).2 := by
  have hmodules : [located (some ⟨1, 4, 2⟩)].map (·.untagged) = [located none].map (·.untagged) :=
    rfl
  have hs := Store.alike_recordOrigin .empty (.type .string) ⟨7, 0, 6⟩
  exact ⟨by simp [located], check_unaffected_by_tags {} false hmodules hs⟩

end Session

end TypeResolution
