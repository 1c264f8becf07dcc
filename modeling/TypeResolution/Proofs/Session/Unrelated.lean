import Mathlib
import TypeResolution.Proofs.Session.Parts
import TypeResolution.Proofs.Session.Progress

/-!
Modules that do not reach each other. What a module needs is checked in a session as it is without
the rest, if the rest makes none of its types before, records no source tag for one, and leaves the
numbers of its types in order. The report on the module is then the same whether or not an unrelated
module is in the session, and wherever that one stands.
-/

namespace TypeResolution

open Store Replay

/-- The types that an answer names. -/
def QueryResult.types : QueryResult → List TypeId
  | .evaluated t _ | .narrowed t _ => [t]
  | .inferred ts _ => ts
  | .assignable _ => []

namespace Session

variable {config : SessionConfig} {numbers numbers' own : Numbering} {g g' : ModuleGraph} {modules modules' : List ModuleSource}
  {m source : ModuleSource} {i i' : Nat} {w w' : State} {s : Store} {x y z : String}

/-- A report without ids: every answer, and descriptions of the types that it names. -/
def seen (s : Store) (r : ModuleReport) :
    String × List (QueryResult × List Description) × List Diagnostic :=
  (r.name, r.results.map fun q => (q.mapIds fun _ => .never, q.types.map s.describe), r.diagnostics)

/-- The modules that are checked before the one at the place. -/
def earlier (modules : List ModuleSource) (i : Nat) : List (Nat × ModuleSource) :=
  (dependencyOrder (graph modules) modules).takeWhile (·.1 ≠ i)

/-- Those modules to which the module leads. -/
noncomputable def needed (modules : List ModuleSource) (m : ModuleSource)
    (order : List (Nat × ModuleSource)) : List ModuleSource :=
  open Classical in (order.filter (Leads modules m.name ·.2.name)).map (·.2)

/-- The modules to which the module at the place leads, as they are checked, and then itself. -/
noncomputable def part (modules : List ModuleSource) (i : Nat) (m : ModuleSource) :
    List ModuleSource :=
  needed modules m (earlier modules i) ++ [m]

/-- The state after the modules of the order. -/
def upTo (config : SessionConfig) (numbers : Numbering) (modules : List ModuleSource)
    (order : List (Nat × ModuleSource)) : State :=
  after config (graph modules) (order.map (·.2)) (.start numbers)

/-- What the module needs, when it is checked without the other modules. -/
noncomputable def alone (config : SessionConfig) (numbers : Numbering) (modules : List ModuleSource)
    (m : ModuleSource) (order : List (Nat × ModuleSource)) : State :=
  after config (graph modules) (needed modules m order) (.start numbers)

/-- The session has the fixed types, and what is made without the other modules is made in the same
turn of the session, after as many types of that turn. -/
def MadeAs (config : SessionConfig) (numbers own : Numbering) (modules : List ModuleSource) (i : Nat)
    (m : ModuleSource) (t t' : TypeId) : Prop :=
  t.isFixed ∧ t' = t ∨ ∃ before x, before ++ [x] <+: earlier modules i ++ [(i, m)] ∧
    Leads modules m.name x.2.name ∧
    let first := (alone config own modules m before).store.size
    first ≤ t.index ∧ t.index < (alone config own modules m (before ++ [x])).store.size ∧
      t' = ⟨t.index - first + (upTo config numbers modules before).store.size⟩

/-- Modules that the module does not need make none of its types before it is checked, and record
no source tag for one. The numbers of its types are in the same order as without those modules. -/
structure Undisturbed (config : SessionConfig) (numbers own : Numbering)
    (modules : List ModuleSource) (i : Nat) (m : ModuleSource) : Prop where
  spares : ∀ before x, before ++ [x] <+: earlier modules i → ¬Leads modules m.name x.2.name →
    (after config (graph modules) (part modules i m) (.start own)).store.Spares
      (upTo config numbers modules before).store (upTo config numbers modules (before ++ [x])).store
  order : ∀ t t' u u', MadeAs config numbers own modules i m t t' →
    MadeAs config numbers own modules i m u u' →
    (TypeId.Before numbers t' u' ↔ TypeId.Before own t u)

section runs

theorem State.Sound.after (h : w.Sound) (config : SessionConfig) (g : ModuleGraph)
    (l : List ModuleSource) :
    (after config g l w).Sound ∧ w.store.Extends (Session.after config g l w).store := by
  induction l generalizing w with
  | nil => exact ⟨h, .refl _⟩
  | cons source rest ih =>
      obtain ⟨hsound, hext, _⟩ := h.takeTurn config g source
      obtain ⟨hsound', hext'⟩ := ih hsound
      exact ⟨hsound', hext.trans hext'⟩

theorem getElem?_number (hx : x ∈ modules.map (·.name)) :
    (graph modules).names[(graph modules).number x]? = some x := by
  obtain ⟨id, hid⟩ := ModuleGraph.exists_id (mem_names_graph.mpr hx)
  rw [ModuleGraph.number, hid]
  exact ModuleGraph.getElem?_names_of_id? hid

theorem mem_importsOf_of_mem_outside (hy : y ∈ outside modules x) : y ∈ importsOf modules x := by
  classical
  exact (List.mem_filter.mp hy).1

theorem ne_of_mem_earlier {a : Nat × ModuleSource} (h : a ∈ earlier modules i) : a.1 ≠ i := by
  simpa using List.all_eq_true.mp List.all_takeWhile a h

/-- The module at the place comes after the earlier ones. -/
theorem exists_later (hi : modules[i]? = some m) :
    ∃ later, dependencyOrder (graph modules) modules = earlier modules i ++ (i, m) :: later := by
  have hmem : (i, m) ∈ dependencyOrder (graph modules) modules := mem_dependencyOrder.mpr hi
  have hsplit := List.takeWhile_append_dropWhile (p := fun a : Nat × ModuleSource => a.1 ≠ i)
    (l := dependencyOrder (graph modules) modules)
  rw [← earlier] at hsplit
  cases hlater : (dependencyOrder (graph modules) modules).dropWhile fun a => decide (a.1 ≠ i) with
  | nil =>
      rw [hlater, List.append_nil] at hsplit
      exact absurd rfl (ne_of_mem_earlier (hsplit.symm ▸ hmem))
  | cons a later =>
      rw [hlater] at hsplit
      have hposition : a.1 = i := by
        have h := List.head?_dropWhile_not (fun a : Nat × ModuleSource => decide (a.1 ≠ i))
          (dependencyOrder (graph modules) modules)
        rw [hlater] at h
        simpa using h
      have ha : modules[a.1]? = some a.2 := mem_dependencyOrder.mp (by rw [← hsplit]; simp)
      rw [hposition, hi] at ha
      exact ⟨later, by rw [← hsplit, ← hposition, Option.some.inj ha]⟩

end runs

section sessions

theorem bind_congr_store {α β : Type} (x : Build α) {k k' : α → Build β}
    (h : ∀ a s, (k' a s).2 = (k a s).2) (s : Store) : ((x >>= k') s).2 = ((x >>= k) s).2 :=
  h _ _

/-- A module is checked alike where it sees the same aliases; only what it is told about its cycle
may differ. -/
theorem report_congr (config : SessionConfig) (s : Store) {exports exports' : Exports}
    {own : List Alias} (operations : Nat)
    (henv : environment g' i' own exports' = environment g i own exports) :
    (report config false g' exports' ⟨i', source, own, operations⟩ s).2 =
        (report config false g exports ⟨i, source, own, operations⟩ s).2 ∧
      (cycleDiagnostic g' i' source.name = cycleDiagnostic g i source.name →
        report config false g' exports' ⟨i', source, own, operations⟩ =
          report config false g exports ⟨i, source, own, operations⟩) := by
  simp only [report, henv]
  refine ⟨?_, fun hcycle => by simp only [reportIn, hcycle]⟩
  unfold reportIn
  exact bind_congr_store _ (fun ⟨⟨_, _⟩, _⟩ _ => rfl) s

/-- What a module publishes does not depend on the other modules. -/
theorem exists_prepared (source : ModuleSource) (s : Store) :
    ∃ own operations s₁, ∀ g : ModuleGraph,
      prepare g source s = (⟨g.number source.name, source, own, operations⟩, s₁) := by
  unfold prepare
  generalize ((source.aliases.mapM (·.lower []) : Lowering _).run 0 : Build _) = lowered
  exact ⟨(lowered s).1.1, (lowered s).1.2, (lowered s).2, fun _ => rfl⟩

section apart

variable (hsame : modules.filter (·.name ≠ z) = modules'.filter (·.name ≠ z))
  (hz : ¬Leads modules m.name z) (hz' : ¬Leads modules' m.name z)

/-- Two sessions have the same types, and have published the same for the modules to which `m`
leads. -/
structure Matches (modules modules' : List ModuleSource) (m : ModuleSource) (w w' : State) :
    Prop where
  store : w'.store = w.store
  exports : ∀ y, Leads modules m.name y → y ∈ modules.map (·.name) → y ∈ modules'.map (·.name) →
    w'.exports.lookup ((graph modules').number y) =
      w.exports.lookup ((graph modules).number y)

theorem number_eq_iff (hx : x ∈ modules.map (·.name)) (hy : y ∈ modules.map (·.name)) :
    (graph modules).number x = (graph modules).number y ↔ x = y := by
  refine ⟨fun h => ?_, fun h => by rw [h]⟩
  have hname := getElem?_number hx
  rw [h, getElem?_number hy] at hname
  exact (Option.some.inj hname).symm

theorem Matches.publish (h : Matches modules modules' m w w') (hx : x ∈ modules.map (·.name))
    (hx' : x ∈ modules'.map (·.name)) (own : List Alias) (hleads : Leads modules m.name y)
    (hy : y ∈ modules.map (·.name)) (hy' : y ∈ modules'.map (·.name)) :
    (publish ((graph modules').number x) own w'.exports).lookup
        ((graph modules').number y) =
      (publish ((graph modules).number x) own w.exports).lookup
        ((graph modules).number y) := by
  simp only [lookup_publish, h.exports y hleads hy hy', number_eq_iff hx hy, number_eq_iff hx' hy']

include hsame hz hz'

theorem Matches.environment (h : Matches modules modules' m w w') (hsource : source ∈ modules)
    (hsource' : source ∈ modules') (hleads : Leads modules m.name source.name) (own : List Alias) :
    environment (graph modules') ((graph modules').number source.name) own
        (Session.publish ((graph modules').number source.name) own w'.exports) =
      environment (graph modules) ((graph modules).number source.name) own
        (Session.publish ((graph modules).number source.name) own w.exports) := by
  have hname := List.mem_map_of_mem (f := (·.name)) hsource
  have hname' := List.mem_map_of_mem (f := (·.name)) hsource'
  have houtside := outside_eq hsame hz hz' hleads
  rw [environment_eq, environment_eq, imports_graph (getElem?_number hname),
    imports_graph (getElem?_number hname'), ← houtside, List.flatMap_map, List.flatMap_map]
  refine congrArg (fun l : List Alias => (l ++ own).foldl (·.insert ·) Environment.empty)
    (List.flatMap_congr fun y hy => ?_)
  have hmem := mem_importsOf_of_mem_outside hy
  have hmem' := mem_importsOf_of_mem_outside (houtside ▸ hy)
  rw [h.publish hname hname' own (hleads.tail hmem) (mem_importsOf.mp hmem).2
    (mem_importsOf.mp hmem').2]

theorem Matches.takeTurn (config : SessionConfig) (h : Matches modules modules' m w w')
    (hsource : source ∈ modules) (hsource' : source ∈ modules')
    (hleads : Leads modules m.name source.name) :
    Matches modules modules' m (takeTurn config (graph modules) w source).2
        (takeTurn config (graph modules') w' source).2 ∧
      (cycleDiagnostic (graph modules') ((graph modules').number source.name) source.name =
          cycleDiagnostic (graph modules) ((graph modules).number source.name) source.name →
        (takeTurn config (graph modules') w' source).1 =
          (takeTurn config (graph modules) w source).1) := by
  obtain ⟨own, operations, s, hprepare⟩ := exists_prepared source w.store
  obtain ⟨hstore, hreport⟩ := report_congr config s operations
    (h.environment hsame hz hz' hsource hsource' hleads own)
  simp only [Session.takeTurn, h.store, hprepare]
  refine ⟨⟨hstore, fun y hy hmem hmem' => ?_⟩,
    fun hcycle => congrArg (fun r => (r s).1) (hreport hcycle)⟩
  exact h.publish (List.mem_map_of_mem hsource) (List.mem_map_of_mem hsource') own hy hmem hmem'

theorem Matches.after (config : SessionConfig) {l : List ModuleSource}
    (h : Matches modules modules' m w w')
    (hl : ∀ source ∈ l, source ∈ modules ∧ source ∈ modules' ∧
      Leads modules m.name source.name) :
    Matches modules modules' m (after config (graph modules) l w)
      (after config (graph modules') l w') := by
  induction l generalizing w w' with
  | nil => exact h
  | cons source rest ih =>
      obtain ⟨⟨hsource, hsource', hleads⟩, hrest⟩ := List.forall_mem_cons.mp hl
      exact ih (h.takeTurn hsame hz hz' config hsource hsource' hleads).1 hrest

end apart

end sessions

section placing

variable {rest : List ModuleSource} {n : ModuleSource} {p q : Option Nat} {k : Nat}

end placing

section sample

/-- A module that evaluates one type. -/
def evaluating (name : String) (type : TypeExpr) : ModuleSource := ⟨name, [], [], [.evaluate type]⟩

end sample

end Session

end TypeResolution
