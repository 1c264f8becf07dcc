import Mathlib.Data.List.Nodup
import TypeResolution.Proofs.Module.Imports
import TypeResolution.Proofs.Replay.Lowering
import TypeResolution.Session.Check

/-!
What a module of a session sees. Modules with different names have different numbers, so each
module's publication is found under its number. A module sees the last alias of a name among those
of its imports, in import order, and its own.
-/

namespace TypeResolution

namespace Environment

/-- Of several aliases with one name the last one is in force. -/
theorem get?_foldl_insert (l : List Alias) (e : Environment) (name : String) :
    (l.foldl (·.insert ·) e).get? name = (l.reverse.find? (·.name = name)).or (e.get? name) := by
  induction l generalizing e with
  | nil => simp
  | cons a rest ih =>
      rw [List.foldl_cons, ih, get?_insert, List.reverse_cons, List.find?_append, Option.or_assoc]
      by_cases h : a.name = name <;> simp [h]

end Environment

namespace Session

open Replay Store

/-- The module with other ids for the types of its aliases. -/
def Prepared.mapIds (f : TypeId → TypeId) (m : Prepared) : Prepared :=
  { m with own := m.own.map (·.mapIds f) }

theorem Prepared.mapIds_same (m : Prepared) : m.mapIds (fun t => t) = m := by
  simp [mapIds, List.map_id'' Alias.mapIds_same]

instance {P : String → Prop} : Value P Prepared where
  image := Prepared.mapIds
  Ok s m := Ok P s m.own
  mono h hm := Value.mono (α := List Alias) h hm
  image_same := Prepared.mapIds_same

theorem follows_lowerAliases {L : Link} (hL : ∀ name, L.names name) {s : Store}
    (aliases : List AliasExpr) :
    Follows L s (aliases.mapM (·.lower []) : Lowering (List Alias)) (aliases.mapM (·.lower [])) :=
  follows_mapM fun a _ _ _ => follows_lowerAlias hL a ok_noScope

theorem follows_prepare {L : Link} (hL : ∀ name, L.names name) {s : Store} (g : ModuleGraph)
    (m : ModuleSource) : Follows L s (prepare g m) (prepare g m) := by
  have hstart : Same L s (0 : Nat) 0 := ⟨rfl, trivial⟩
  refine Runs.bind (follows_run (follows_lowerAliases hL m.aliases) hstart) fun s₁ _ _ x y hxy => ?_
  obtain ⟨own, n⟩ := x
  obtain ⟨own', n'⟩ := y
  obtain ⟨⟨hown', hown⟩, hn, _⟩ := hxy
  simp only at hown' hown hn
  subst hown' hn
  exact pure_value (a := (⟨(g.id? m.name).getD 0, m, own, n'⟩ : Prepared)) hown

/-- The modules of a session with their aliases lowered, and the store that holds these. -/
def prepared (modules : List ModuleSource) : Build (List Prepared) :=
  modules.mapM (prepare (graph modules))

theorem follows_prepared {L : Link} (hL : ∀ name, L.names name) {s : Store}
    (modules : List ModuleSource) : Follows L s (prepared modules) (prepared modules) :=
  follows_mapM fun m _ _ _ => follows_prepare hL (graph modules) m

theorem prepareAll_run (g : ModuleGraph) (modules : List ModuleSource) (s : Store) :
    ((modules.mapM (prepare g)) s).1.map (·.source) = modules ∧
      ∀ m ∈ ((modules.mapM (prepare g)) s).1, m.id = (g.id? m.source.name).getD 0 := by
  induction modules generalizing s with
  | nil => exact ⟨rfl, fun _ h => absurd h List.not_mem_nil⟩
  | cons m rest ih =>
      rw [List.mapM_cons]
      obtain ⟨hsource, hid⟩ := ih (prepare g m s).2
      refine ⟨congrArg (m :: ·) hsource, fun p hp => ?_⟩
      rcases List.mem_cons.mp hp with rfl | hp
      · rfl
      · exact hid p hp

theorem lookup_publish (id id' : Nat) (own : List Alias) (exports : Exports) :
    (publish id own exports).lookup id' =
      (exports.lookup id').or (if id = id' then some own else none) := by
  have happend : (exports ++ [(id, own)]).lookup id' =
      (exports.lookup id').or (if id = id' then some own else none) := by
    rw [List.lookup_append]
    by_cases h : id = id'
    · simp [h]
    · have h' : (id' == id) = false := by simpa using fun e => h e.symm
      simp [List.lookup_cons, h, h']
  unfold publish
  split
  · rename_i h
    by_cases hid : id = id'
    · subst hid
      rw [Option.or_of_isSome h]
    · simp [hid]
  · exact happend

theorem lookup_published (l : List Prepared) (id : Nat) :
    (published l).lookup id = (l.find? (·.id = id)).map (·.own) := by
  have hfold : ∀ exports : Exports,
      (l.foldl (fun exports m => publish m.id m.own exports) exports).lookup id =
        (exports.lookup id).or ((l.find? (·.id = id)).map (·.own)) := by
    induction l with
    | nil => simp
    | cons m rest ih =>
        intro exports
        rw [List.foldl_cons, ih, lookup_publish, Option.or_assoc]
        by_cases h : m.id = id <;> simp [h]
  exact hfold []

/-- Every module of a session is found under its number. -/
theorem lookup_published_of_mem {modules : List ModuleSource}
    (hnames : (modules.map (·.name)).Nodup) {s : Store} {m : Prepared}
    (hm : m ∈ (prepared modules s).1) :
    (published (prepared modules s).1).lookup m.id = some m.own := by
  obtain ⟨hsource, hid⟩ := prepareAll_run (graph modules) modules s
  have hid? : ∀ p ∈ (prepared modules s).1, (graph modules).id? p.source.name = some p.id := by
    intro p hp
    have hmem : p.source ∈ modules := hsource ▸ List.mem_map_of_mem hp
    obtain ⟨id, h⟩ := ModuleGraph.exists_id (g := graph modules)
      (ModuleGraph.mem_names_ofImports (List.mem_map_of_mem (f := fun m : ModuleSource =>
        (m.name, m.imports)) hmem))
    rw [hid p hp, h]
    rfl
  have hdistinct : ((prepared modules s).1.map (·.source.name)).Nodup := by
    have hmap : (prepared modules s).1.map (·.source.name) = modules.map (·.name) := by
      conv_rhs => rw [← hsource]
      rw [List.map_map]
      rfl
    rw [hmap]
    exact hnames
  rw [lookup_published]
  cases hfind : (prepared modules s).1.find? (·.id = m.id) with
  | none => simpa using List.find?_eq_none.mp hfind m hm
  | some p =>
      have hp := List.mem_of_find?_eq_some hfind
      have heq : p.id = m.id := by simpa using List.find?_some hfind
      have hname := ModuleGraph.eq_of_id?_eq (hid? p hp) (heq ▸ hid? m hm)
      rw [List.inj_on_of_nodup_map hdistinct hp hm hname]
      rfl

/-- What a module sees under a name: its own last alias, else that of the last import that has
published one. -/
theorem get?_environment (g : ModuleGraph) (id : Nat) (own : List Alias) (exports : Exports)
    (name : String) :
    (environment g id own exports).get? name =
      (own.reverse.find? (·.name = name)).or
        ((((g.dependencies id).filter (!g.inSameCycle id ·)).flatMap
          fun dep => (exports.lookup dep).getD []).reverse.find? (·.name = name)) := by
  unfold environment
  rw [Environment.get?_foldl_insert, List.reverse_append, List.find?_append]
  simp [Environment.get?, Environment.empty]

end Session

end TypeResolution
