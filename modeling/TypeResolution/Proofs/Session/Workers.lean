import Mathlib.Logic.Relation
import TypeResolution.Proofs.Session.Sequence

/-!
Modules checked by one worker each. A worker lowers the aliases of its module and publishes them
in the cell of the module; then it reads the cells of the imports outside its cycle, one after the
other, and waits for those that are not set; then it checks its module. The workers share the store
and the cells and take their steps in any order.
-/

namespace TypeResolution

open Store Replay

namespace Session

/-- How far the worker of a module has come. -/
inductive Worker where
  | starting (source : ModuleSource)
  /-- Its aliases are published and the cells before the pending ones are read. -/
  | importing (module : Prepared) (seen : List Alias) (pending : List Nat)
  | finished (module : Prepared) (environment : Environment) (result : Except Cancelled ModuleReport)

namespace Worker

def source : Worker → ModuleSource
  | .starting source => source
  | .importing m _ _ => m.source
  | .finished m _ _ => m.source

/-- What the worker has published. -/
def own? : Worker → Option (List Alias)
  | .starting _ => none
  | .importing m _ _ => some m.own
  | .finished m _ _ => some m.own

def isFinished : Worker → Bool
  | .finished .. => true
  | _ => false

def result? : Worker → Option (Except Cancelled ModuleReport)
  | .finished _ _ result => some result
  | _ => none

/-- How many steps the worker has before it. -/
def left (g : ModuleGraph) : Worker → Nat
  | .starting source => (imports g ((g.id? source.name).getD 0)).length + 2
  | .importing _ _ pending => pending.length + 1
  | .finished .. => 0

end Worker

/-- The workers of a session and what they share; the worker of a module has its number. -/
structure Crew where
  store : Store
  cells : Exports
  workers : List Worker

namespace Crew

/-- Before the first step. -/
def start (modules : List ModuleSource) (s : Store) : Crew := ⟨s, [], modules.map .starting⟩

/-- The next step of a worker, unless it has finished or has to wait. -/
def advance (config : SessionConfig) (g : ModuleGraph) (c : Crew) (i : Nat) : Option Crew :=
  match c.workers[i]? with
  | some (.starting source) =>
      let (m, store) := prepare g source c.store
      some ⟨store, publish m.id m.own c.cells, c.workers.set i (.importing m [] (imports g m.id))⟩
  | some (.importing m seen (d :: pending)) =>
      (c.cells.lookup d).map fun aliases =>
        { c with workers := c.workers.set i (.importing m (seen ++ aliases) pending) }
  | some (.importing m seen []) =>
      let env := (seen ++ m.own).foldl (·.insert ·) .empty
      let (result, store) := reportIn config false g env m c.store
      some ⟨store, c.cells, c.workers.set i (.finished m env result)⟩
  | _ => none

def left (g : ModuleGraph) (c : Crew) : Nat := (c.workers.map (·.left g)).sum

/-- Some worker takes a step. -/
def Steps (config : SessionConfig) (g : ModuleGraph) (c c' : Crew) : Prop :=
  ∃ i, c.advance config g i = some c'

/-- The crew of a session after any number of steps. -/
def Reached (config : SessionConfig) (modules : List ModuleSource) (s : Store) : Crew → Prop :=
  Relation.ReflTransGen (Steps config (graph modules)) (start modules s)

end Crew

section steps

variable {config : SessionConfig} {g : ModuleGraph} {c c' : Crew} {i : Nat}

/-- What a step can be. -/
theorem advance_cases (h : c.advance config g i = some c') :
    (∃ source, c.workers[i]? = some (.starting source) ∧
      c' = ⟨(prepare g source c.store).2,
        publish (prepare g source c.store).1.id (prepare g source c.store).1.own c.cells,
        c.workers.set i (.importing (prepare g source c.store).1 []
          (imports g (prepare g source c.store).1.id))⟩) ∨
    (∃ m seen d pending aliases, c.workers[i]? = some (.importing m seen (d :: pending)) ∧
      c.cells.lookup d = some aliases ∧
      c' = { c with workers := c.workers.set i (.importing m (seen ++ aliases) pending) }) ∨
    ∃ m seen, c.workers[i]? = some (.importing m seen []) ∧
      let env := (seen ++ m.own).foldl (·.insert ·) .empty
      c' = ⟨(reportIn config false g env m c.store).2, c.cells,
        c.workers.set i (.finished m env (reportIn config false g env m c.store).1)⟩ := by
  unfold Crew.advance at h
  split at h
  · rename_i source hw
    exact .inl ⟨source, hw, (Option.some.inj h).symm⟩
  · rename_i m seen d pending hw
    obtain ⟨aliases, hlookup, rfl⟩ := Option.map_eq_some_iff.mp h
    exact .inr (.inl ⟨m, seen, d, pending, aliases, hw, hlookup, rfl⟩)
  · rename_i m seen hw
    exact .inr (.inr ⟨m, seen, hw, (Option.some.inj h).symm⟩)
  · cases h

end steps

section soundness

variable {config : SessionConfig} {modules : List ModuleSource} {c c' : Crew} {i : Nat}
  {cells cells' : Exports} {s : Store}

/-- What holds of a worker with the number `i` when the cells are as given. -/
def Worker.Sound (g : ModuleGraph) (cells : Exports) (i : Nat) : Worker → Prop
  | .starting _ => cells.lookup i = none
  | .importing m seen pending => m.id = i ∧ cells.lookup i = some m.own ∧
      ∃ done, imports g i = done ++ pending ∧ (∀ d ∈ done, (cells.lookup d).isSome) ∧
        seen = done.flatMap fun d => (cells.lookup d).getD []
  | .finished m env result => m.id = i ∧ cells.lookup i = some m.own ∧
      (∀ d ∈ imports g i, (cells.lookup d).isSome) ∧ env = environment g i m.own cells ∧
        Answers m.source result

structure Crew.Sound (modules : List ModuleSource) (c : Crew) : Prop where
  formed : c.store.Formed
  sources : c.workers.map Worker.source = modules
  published : Published modules c.store c.cells
  workers : ∀ (i : Nat) (w : Worker), c.workers[i]? = some w → w.Sound (graph modules) c.cells i

theorem lookup_eq_of_isSome (h : ∀ d own, cells.lookup d = some own → cells'.lookup d = some own)
    {d : Nat} (hd : (cells.lookup d).isSome) : cells'.lookup d = cells.lookup d := by
  obtain ⟨own, hown⟩ := Option.isSome_iff_exists.mp hd
  rw [hown, h d own hown]

/-- A worker stays sound when other cells are set. -/
theorem Worker.Sound.mono {g : ModuleGraph} {w : Worker} (hw : w.Sound g cells i)
    (h : ∀ d own, cells.lookup d = some own → cells'.lookup d = some own)
    (hunset : cells.lookup i = none → cells'.lookup i = none) : w.Sound g cells' i := by
  have hflatMap {ds : List Nat} (hds : ∀ d ∈ ds, (cells.lookup d).isSome) :
      (ds.flatMap fun d => (cells.lookup d).getD []) = ds.flatMap fun d => (cells'.lookup d).getD [] :=
    List.flatMap_congr fun d hd => by rw [lookup_eq_of_isSome h (hds d hd)]
  cases w with
  | starting => exact hunset hw
  | importing m seen pending =>
      obtain ⟨hid, hown, done, hdone, hset, hseen⟩ := hw
      refine ⟨hid, h i _ hown, done, hdone, fun d hd => ?_, hseen.trans (hflatMap hset)⟩
      rw [lookup_eq_of_isSome h (hset d hd)]
      exact hset d hd
  | finished m env result =>
      obtain ⟨hid, hown, hset, henv, hanswers⟩ := hw
      refine ⟨hid, h i _ hown, fun d hd => ?_, ?_, hanswers⟩
      · rw [lookup_eq_of_isSome h (hset d hd)]
        exact hset d hd
      · rw [henv, environment_eq, environment_eq, hflatMap hset]

/-- A worker takes a step that keeps the cells that are set and sets at most its own. -/
theorem Crew.Sound.set (hc : c.Sound modules) {w w' : Worker} (hw : c.workers[i]? = some w)
    (hsource : w'.source = w.source) (hs : s.Formed) (hpublished : Published modules s cells)
    (hkept : ∀ d own, c.cells.lookup d = some own → cells.lookup d = some own)
    (hunset : ∀ j, i ≠ j → c.cells.lookup j = none → cells.lookup j = none)
    (hw' : w'.Sound (graph modules) cells i) :
    Crew.Sound modules ⟨s, cells, c.workers.set i w'⟩ where
  formed := hs
  sources := by
    rw [List.map_set, hsource, hc.sources.symm]
    refine List.ext_getElem? fun j => ?_
    rw [List.getElem?_set]
    split
    · rename_i hij
      subst hij
      obtain ⟨hlt, rfl⟩ := List.getElem?_eq_some_iff.mp hw
      simp [hlt]
    · rfl
  published := hpublished
  workers j v hj := by
    rw [List.getElem?_set] at hj
    split at hj
    · rename_i hij
      subst hij
      have hlt : i < c.workers.length := (List.getElem?_eq_some_iff.mp hw).1
      simp only [hlt, if_true, Option.some.injEq] at hj
      exact hj ▸ hw'
    · rename_i hij
      exact (hc.workers j v hj).mono hkept (hunset j hij)

theorem Crew.sound_start (hs : s.Formed) : (Crew.start modules s).Sound modules where
  formed := hs
  sources := by simp [Crew.start, Worker.source, Function.comp_def]
  published i own h := by cases h
  workers i w hw := by
    simp only [Crew.start, List.getElem?_map, Option.map_eq_some_iff] at hw
    obtain ⟨source, _, rfl⟩ := hw
    rfl

/-- A step keeps what holds of the crew. -/
theorem Crew.Sound.step (hnames : (modules.map (·.name)).Nodup) (hc : c.Sound modules)
    (h : Crew.Steps config (graph modules) c c') : c'.Sound modules := by
  obtain ⟨i, h⟩ := h
  rcases advance_cases h with ⟨source, hw, rfl⟩ | ⟨m, seen, d, pending, aliases, hw, hd, rfl⟩ |
    ⟨m, seen, hw, rfl⟩
  · have hsource : modules[i]? = some source := by
      rw [← hc.sources, List.getElem?_map, hw]
      rfl
    have hready := ready_turn hnames hc.formed hsource hc.published
    have hlookup : ∀ j, (publish (prepare (graph modules) source c.store).1.id
        (prepare (graph modules) source c.store).1.own c.cells).lookup j = (c.cells.lookup j).or
          (if i = j then some (prepare (graph modules) source c.store).1.own else none) := by
      intro j
      rw [lookup_publish, hready.id]
    refine hc.set hw rfl hready.formed hready.published (fun d own hown => ?_) (fun j hij hnone => ?_) ?_
    · rw [hlookup, hown]
      rfl
    · rw [hlookup, hnone, if_neg hij]
      rfl
    · have hunset : c.cells.lookup i = none := hc.workers i _ hw
      refine ⟨hready.id, ?_, [], ?_, by simp, rfl⟩
      · rw [hlookup, hunset, if_pos rfl]
        rfl
      · rw [hready.id]
        rfl
  · obtain ⟨hid, hown, done, hdone, hset, hseen⟩ := hc.workers i _ hw
    refine hc.set hw rfl hc.formed hc.published (fun _ _ h => h) (fun _ _ h => h) ?_
    refine ⟨hid, hown, done ++ [d], by simp [hdone], fun e he => ?_, ?_⟩
    · rcases List.mem_append.mp he with he | he
      · exact hset e he
      · rw [List.mem_singleton.mp he, hd]
        rfl
    · simp [hseen, hd]
  · obtain ⟨hid, hown, done, hdone, hset, hseen⟩ := hc.workers i _ hw
    rw [List.append_nil] at hdone
    subst hdone
    have henv : (seen ++ m.own).foldl (·.insert ·) Environment.empty =
        environment (graph modules) i m.own c.cells := by rw [environment_eq, hseen]
    obtain ⟨source, hsource, hpublished⟩ := hc.published i m.own hown
    have hknown : ∀ name a, ((seen ++ m.own).foldl (·.insert ·) Environment.empty).get? name = some a →
        Ok AnyName c.store a := by
      rw [henv]
      exact fun name a ha => hc.published.ok hpublished.ok ha
    obtain ⟨hgrows, hformed, hanswers⟩ := reportIn_ok config (graph modules) hc.formed hknown m
    refine hc.set hw rfl hformed (hc.published.mono hgrows) (fun _ _ h => h) (fun _ _ h => h) ?_
    exact ⟨hid, hown, hset, henv, hanswers⟩

theorem Crew.Reached.sound (hnames : (modules.map (·.name)).Nodup) (hs : s.Formed)
    (hc : Crew.Reached config modules s c) : c.Sound modules := by
  induction hc with
  | refl => exact Crew.sound_start hs
  | tail _ h ih => exact ih.step hnames h

/-- While a worker has not finished, some worker can take a step. -/
theorem Crew.Sound.progress (hnames : (modules.map (·.name)).Nodup) (hc : c.Sound modules)
    (hunfinished : ∃ w ∈ c.workers, w.isFinished = false) :
    ∃ c', Crew.Steps config (graph modules) c c' := by
  suffices h : ∃ i, (c.advance config (graph modules) i).isSome by
    obtain ⟨i, h⟩ := h
    obtain ⟨c', h⟩ := Option.isSome_iff_exists.mp h
    exact ⟨c', i, h⟩
  by_cases hstarting : ∃ (i : Nat) (source : ModuleSource), c.workers[i]? = some (.starting source)
  · obtain ⟨i, source, hw⟩ := hstarting
    refine ⟨i, ?_⟩
    rw [Crew.advance, hw]
    rfl
  -- All have published, so no cell that is read is unset.
  obtain ⟨w, hw, hunfinished⟩ := hunfinished
  obtain ⟨i, hi⟩ := List.mem_iff_getElem?.mp hw
  cases w with
  | starting source => exact absurd ⟨i, source, hi⟩ hstarting
  | finished => cases hunfinished
  | importing m seen pending =>
      cases pending with
      | nil =>
          refine ⟨i, ?_⟩
          rw [Crew.advance, hi]
          rfl
      | cons d pending =>
          obtain ⟨_, _, done, hdone, _, _⟩ := hc.workers i _ hi
          have hd : d ∈ imports (graph modules) i := by simp [hdone]
          have hlt : d < c.workers.length := by
            have h := lt_length_of_mem_imports hnames hd
            rwa [← hc.sources, List.length_map] at h
          have hlookup : ∃ own, c.cells.lookup d = some own := by
            have hsound := hc.workers d _ (List.getElem?_eq_getElem hlt)
            cases hd : c.workers[d] with
            | starting source =>
                exact absurd ⟨d, source, hd ▸ List.getElem?_eq_getElem hlt⟩ hstarting
            | importing m seen pending =>
                rw [hd] at hsound
                exact ⟨m.own, hsound.2.1⟩
            | finished m env result =>
                rw [hd] at hsound
                exact ⟨m.own, hsound.2.1⟩
          obtain ⟨own, hown⟩ := hlookup
          refine ⟨i, ?_⟩
          rw [Crew.advance, hi]
          simp [hown]

end soundness

section together

variable {config : SessionConfig} {g : ModuleGraph} {s : Store} {cells : Exports}
  {before after : List Worker} {m : Prepared}

end together

section agreement

variable {config : SessionConfig} {modules : List ModuleSource} {c c' : Crew} {s : Store}

theorem Crew.Sound.own (hc : c.Sound modules) {i : Nat} {w : Worker} (hw : c.workers[i]? = some w) :
    c.cells.lookup i = w.own? ∧
      ∀ own, w.own? = some own → Own (graph modules) w.source c.store own := by
  have hsound := hc.workers i w hw
  have hlookup : c.cells.lookup i = w.own? := by
    cases w with
    | starting => exact hsound
    | importing => exact hsound.2.1
    | finished => exact hsound.2.1
  refine ⟨hlookup, fun own hown => ?_⟩
  obtain ⟨source, hsource, hpublished⟩ := hc.published i own (hlookup.trans hown)
  rw [← hc.sources, List.getElem?_map, hw] at hsource
  cases hsource
  exact hpublished

theorem Crew.Sound.environment (hnames : (modules.map (·.name)).Nodup) (hs : s.Formed)
    (hc : c.Sound modules) {i : Nat} {m : Prepared} {env : Environment}
    {result : Except Cancelled ModuleReport} (hw : c.workers[i]? = some (.finished m env result))
    {t : Turn} (ht : t ∈ sequence config modules s) (hi : t.position = i) :
    t.store.Same c.store (t.environment (graph modules)) env := by
  subst hi
  obtain ⟨source, hsource, hready, hset⟩ := ready_of_mem_sequence hnames hs ht
  obtain ⟨_, hown, hset', rfl, _⟩ := hc.workers _ _ hw
  have hown' := (hc.own hw).2 m.own rfl
  have hsource' : m.source = source := by
    rw [← hc.sources, List.getElem?_map, hw] at hsource
    exact Option.some.inj hsource
  rw [Turn.environment, hready.id]
  let w : Stores := ⟨t.store, c.store, hready.formed, hc.formed⟩
  refine same_environment (w := w) (Own.same (w := w) hready.own (hsource' ▸ hown')) fun d hd => ?_
  obtain ⟨own, hlookup⟩ := Option.isSome_iff_exists.mp (hset d hd)
  obtain ⟨own', hlookup'⟩ := Option.isSome_iff_exists.mp (hset' d hd)
  obtain ⟨other, hother, hpublished⟩ := hready.published d own hlookup
  obtain ⟨other', hother', hpublished'⟩ := hc.published d own' hlookup'
  obtain rfl : other = other' := Option.some.inj (hother.symm.trans hother')
  rw [hlookup, hlookup']
  exact Own.same (w := w) hpublished hpublished'

theorem Crew.Sound.reports (hc : c.Sound modules)
    (hfinished : ∀ w ∈ c.workers, w.isFinished = true) : ∃ reports : List ModuleReport,
      c.workers.map Worker.result? = reports.map (fun r => some (.ok r)) ∧
        reports.map (·.name) = modules.map (·.name) := by
  have hworker : ∀ w ∈ c.workers, ∃ r : ModuleReport, w.result? = some (.ok r) ∧ r.name = w.source.name := by
    intro w hw
    obtain ⟨i, hi⟩ := List.mem_iff_getElem?.mp hw
    have hsound := hc.workers i w hi
    cases w with
    | starting => cases hfinished _ hw
    | importing => cases hfinished _ hw
    | finished m env result =>
        obtain ⟨_, _, _, _, r, rfl, hname⟩ := hsound
        exact ⟨r, rfl, hname⟩
  rw [← hc.sources]
  clear hc hfinished
  generalize c.workers = workers at hworker
  induction workers with
  | nil => exact ⟨[], rfl, rfl⟩
  | cons w rest ih =>
      obtain ⟨r, hr, hname⟩ := hworker w (by simp)
      obtain ⟨reports, hreports, hnames⟩ := ih fun v hv => hworker v (by simp [hv])
      exact ⟨r :: reports, by simp [hr, hreports], by simpa [hname] using hnames⟩

/-- Two modules that import each other, and a third one that imports the first. -/
def circle : List ModuleSource :=
  [⟨"a", ["b"], [], []⟩, ⟨"b", ["a"], [], []⟩, ⟨"c", ["a"], [], []⟩]

end agreement

end Session

end TypeResolution
