import Mathlib.Logic.Relation
import TypeResolution.Proofs.Evaluation.Steps
import TypeResolution.Proofs.Replay.Requests
import TypeResolution.Proofs.Session.Environment

/-!
Imported aliases. The names in the body of an alias are looked up where the alias is used, so an
imported alias means what it means at home exactly when the importing module sees the aliases that
it leads to as its own module sees them.
-/

namespace TypeResolution

open Store

variable {P : String → Prop} {s : Store} {t : TypeId}

/-- A reference to the alias occurs in the type. -/
inductive Store.Mentions (s : Store) (name : String) : TypeId → Prop
  | here {t : TypeId} {args : List TypeId} : s.node t = .reference name args → Mentions s name t
  | inside {t c : TypeId} : c ∈ (s.node t).components → Mentions s name c → Mentions s name t

/-- The alias of the first name has the second one in its body or in a default. -/
def Environment.Leads (env : Environment) (s : Store) (name other : String) : Prop :=
  ∃ a, env.get? name = some a ∧
    (s.Mentions other a.body ∨ ∃ p ∈ a.params, ∃ t, p.default = some t ∧ s.Mentions other t)

theorem Store.Closed.of_mentions (ht : s.Closed AnyName t)
    (h : ∀ name, s.Mentions name t → P name) : s.Closed P t := by
  induction ht with
  | intro known _ _ ih =>
      refine .intro known (fun name args hn => h name (.here hn)) fun c hc => ?_
      exact ih c hc fun name hname => h name (.inside hc hname)

/-- The type that a reference to an alias evaluates to. -/
def Setting.aliasType (setting : Setting) (patience : Option Nat) (name : String) :
    Build (Except Cancelled TypeId) := do
  let t ← Build.reference name []
  let outcome ← setting.evaluate patience t
  return outcome.value

namespace Replay

theorem follows_aliasType {env env' : Environment} (options : Options) (patience : Option Nat)
    {name : String} (hname : P name) (henv : env.Agrees P s env') :
    Follows (.free P) s (Setting.aliasType ⟨env, options⟩ patience name)
      (Setting.aliasType ⟨env', options⟩ patience name) := by
  refine bind_value (follows_reference hname (by simp)) fun s₁ h₁ _ t ht => ?_
  exact Runs.bind (follows_evaluate False.elim (.of_agrees (henv.mono h₁)) ht) fun s₂ _ _ a b hab =>
    Runs.pure hab.1

end Replay

/-- Environments that agree on an alias and on all that it leads to give it the same type, at the
same time or later. -/
theorem aliasType_eq_of_agrees {env env' : Environment} (options : Options)
    (patience : Option Nat) {name : String} (hs : s.Formed) (hname : P name)
    (henv : env.Agrees P s env') :
    let home := Setting.aliasType ⟨env, options⟩ patience name
    let away := Setting.aliasType ⟨env', options⟩ patience name
    (away s).1 = (home s).1 ∧ ∀ s', (home s).2.Extends s' → (away s').1 = (home s).1 := by
  have h := Replay.follows_aliasType options patience hname henv hs
  have heq : ∀ {a b : Except Cancelled TypeId} {s : Store},
      Replay.Same (.free P) s a b → b = a := by
    intro a b s hab
    cases hab with
    | ok h => exact congrArg Except.ok h.1
    | error => rfl
  exact ⟨heq (h.beside s (.refl s)).2, fun s' hs' => heq (h.later s' hs').2⟩

/-- An alias that stands for another one, which stands for a fixed type. -/
theorem aliasType_of_chain {env : Environment} (name other : String) (a b : Alias) (hs : s.Formed)
    (hne : name ≠ other) (ha : env.get? name = some a) (hap : a.params = [])
    (hknown : a.body.index < s.size) (hbody : s.node a.body = .reference other [])
    (hb : env.get? other = some b) (hbp : b.params = []) (hfixed : b.body.isFixed) :
    (Setting.aliasType ⟨env, .standard⟩ none name s).1 = .ok b.body := by
  obtain ⟨hlt, hid⟩ := hs.node_intern (n := .reference name [])
  have hs₁ : (s.intern (.reference name [])).2.Formed := hs.intern (by simp [Node.components])
  have hbody₁ := (extends_intern (n := .reference name [])).node_eq _ hknown
  have hnode := Node.eq_of_identity_eq hid (by simp)
  change (Setting.evaluate ⟨env, .standard⟩ none (s.intern (.reference name [])).1
    (s.intern (.reference name [])).2).1.value = _
  generalize (s.intern (.reference name [])).1 = t at hnode
  generalize (s.intern (.reference name [])).2 = s₁ at hnode hs₁ hbody₁
  rw [hbody] at hbody₁
  have ht := hs₁.not_isFixed_of_reference hnode
  have hu := hs₁.not_isFixed_of_reference hbody₁
  have hapart : a.body ≠ t := by
    intro heq
    rw [heq, hnode] at hbody₁
    exact hne (Node.reference.inj hbody₁).1
  refine congrArg (·.1.value) (Setting.evaluate_of_fixed hfixed (Prod.ext (Prod.ext ?_ rfl) rfl))
  change ((Eval.evaluateAt ⟨env, .standard⟩ (48 + 1 + 1) t).run _ s₁).1.1 = _
  rw [Eval.evaluateAt_plain ht hnode rfl (by simp [Setting.evaluator, Evaluator.fresh]) rfl rfl ha
    hap rfl, Eval.finish_result, Eval.expanding_result]
  rw [Eval.evaluateAt_plain hu hbody₁ rfl (by simp [Setting.evaluator, Evaluator.fresh]) rfl ?_ hb
    hbp ?_, Eval.finish_result, Eval.expanding_result]
  · rw [Eval.evaluateAt_fixed hfixed]
  · change (if a.body ∈ [t] then _ else _ : Recursion.Answer × Recursion.Guard TypeId).1 = _
    rw [if_neg (by simpa using hapart)]
  · simp [Setting.evaluator, Evaluator.fresh, hne]

namespace Session

/-- What a module of a session sees once all modules have published. -/
def view (modules : List ModuleSource) (s : Store) (m : Prepared) : Environment :=
  environment (graph modules) m.id m.own (published (prepared modules s).1)

theorem mem_of_lookup_published {l : List Prepared} {id : Nat} {a : Alias}
    (ha : a ∈ ((published l).lookup id).getD []) : ∃ p ∈ l, p.id = id ∧ a ∈ p.own := by
  rw [lookup_published] at ha
  cases hfind : l.find? (·.id = id) with
  | none => simp [hfind] at ha
  | some p =>
      rw [hfind] at ha
      exact ⟨p, List.mem_of_find?_eq_some hfind, by simpa using List.find?_some hfind, ha⟩

section view

variable {modules : List ModuleSource} {m n : Prepared} {name : String}

/-- The aliases that a module sees are in the store, with their defaults. -/
theorem ok_of_get?_view (hs : s.Formed) (hm : m ∈ (prepared modules s).1) {a : Alias}
    (ha : (view modules s m).get? name = some a) : Replay.Ok AnyName (prepared modules s).2 a := by
  have hok := ((follows_prepared (L := .free AnyName) (fun _ => trivial) modules hs).beside s
    (.refl s)).2.2
  rw [view, get?_environment, Option.or_eq_some_iff] at ha
  rcases ha with ha | ⟨_, ha⟩
  · exact hok m hm a (List.mem_reverse.mp (List.mem_of_find?_eq_some ha))
  · have hmem := List.mem_reverse.mp (List.mem_of_find?_eq_some ha)
    obtain ⟨dep, _, hmem⟩ := List.mem_flatMap.mp hmem
    obtain ⟨p, hp, _, hmem⟩ := mem_of_lookup_published hmem
    exact hok p hp a hmem

theorem find?_reverse_eq_none {l : List Alias} (h : ∀ a ∈ l, a.name ≠ name) :
    l.reverse.find? (·.name = name) = none :=
  List.find?_eq_none.mpr fun a ha => by simpa using h a (List.mem_reverse.mp ha)

/-- A module sees an alias of an import unless it declares the name itself or a later import
publishes it. -/
theorem get?_view_of_import (hnames : (modules.map (·.name)).Nodup)
    (hn : n ∈ (prepared modules s).1) {before after : List Nat}
    (hdeps : (graph modules).dependencies m.id = before ++ n.id :: after)
    (hcycle : (graph modules).inSameCycle m.id n.id = false)
    (hdeclared : ∃ a ∈ n.own, a.name = name) (hown : ∀ a ∈ m.own, a.name ≠ name)
    (hlater : ∀ p ∈ (prepared modules s).1, p.id ∈ after →
      (graph modules).inSameCycle m.id p.id = false → ∀ a ∈ p.own, a.name ≠ name) :
    (view modules s m).get? name = (view modules s n).get? name := by
  have hsome : (n.own.reverse.find? (·.name = name)).isSome := by
    obtain ⟨a, ha, rfl⟩ := hdeclared
    simpa using ⟨a, ha, rfl⟩
  have hnone : ((after.filter (!(graph modules).inSameCycle m.id ·)).flatMap
      fun dep => ((published (prepared modules s).1).lookup dep).getD []).reverse.find?
        (·.name = name) = none := by
    refine find?_reverse_eq_none fun a ha => ?_
    obtain ⟨dep, hdep, ha⟩ := List.mem_flatMap.mp ha
    obtain ⟨hdep, hapart⟩ := List.mem_filter.mp hdep
    obtain ⟨p, hp, rfl, hmem⟩ := mem_of_lookup_published ha
    exact hlater p hp hdep (by simpa using hapart) a hmem
  rw [view, view, get?_environment, get?_environment, hdeps, find?_reverse_eq_none hown,
    Option.or_of_isSome hsome]
  simp only [List.filter_append, List.filter_cons, hcycle, List.flatMap_append]
  simp only [Bool.not_false, if_true, List.flatMap_cons, lookup_published_of_mem hnames hn,
    List.reverse_append, List.find?_append, hnone, Option.getD_some]
  simp only [Option.none_or, Option.or_of_isSome hsome]

/-- An imported alias keeps its meaning when the importing module sees the aliases that it leads
to as the module that declares it does, whatever else either of them sees. -/
theorem imported_alias_keeps_type (hnames : (modules.map (·.name)).Nodup) (hs : s.Formed)
    (hn : n ∈ (prepared modules s).1) {before after : List Nat}
    (hdeps : (graph modules).dependencies m.id = before ++ n.id :: after)
    (hcycle : (graph modules).inSameCycle m.id n.id = false)
    (hdeclared : ∃ a ∈ n.own, a.name = name) (hown : ∀ a ∈ m.own, a.name ≠ name)
    (hlater : ∀ p ∈ (prepared modules s).1, p.id ∈ after →
      (graph modules).inSameCycle m.id p.id = false → ∀ a ∈ p.own, a.name ≠ name)
    (hsees : ∀ other, Relation.TransGen ((view modules s n).Leads (prepared modules s).2) name other →
      (view modules s m).get? other = (view modules s n).get? other)
    (options : Options) (patience : Option Nat) {s' : Store} (hs' : s'.Formed)
    (hext : (prepared modules s).2.Extends s') :
    let home := Setting.aliasType ⟨view modules s n, options⟩ patience name
    let away := Setting.aliasType ⟨view modules s m, options⟩ patience name
    (away s').1 = (home s').1 ∧
      (∀ s'', (home s').2.Extends s'' → (away s'').1 = (home s').1) ∧
        ∀ s'', (away s').2.Extends s'' → (home s'').1 = (away s').1 := by
  -- The invariant of both evaluations: only aliases that the name leads to are ever named.
  let leads := Relation.ReflTransGen ((view modules s n).Leads (prepared modules s).2) name
  have hget : ∀ other, leads other →
      (view modules s m).get? other = (view modules s n).get? other := by
    intro other h
    rcases Relation.reflTransGen_iff_eq_or_transGen.mp h with rfl | h
    · exact get?_view_of_import hnames hn hdeps hcycle hdeclared hown hlater
    · exact hsees other h
  have hclosed : ∀ other a, leads other → (view modules s n).get? other = some a →
      s'.Closed leads a.body ∧ ∀ p ∈ a.params, ∀ t, p.default = some t → s'.Closed leads t := by
    intro other a h ha
    obtain ⟨hbody, hparams⟩ := ok_of_get?_view hs hn ha
    refine ⟨hext.closed (hbody.of_mentions fun next hnext => ?_), fun p hp t ht =>
      hext.closed (Store.Closed.of_mentions ((hparams p hp).2 t ht) fun next hnext => ?_)⟩
    · exact h.tail ⟨a, ha, .inl hnext⟩
    · exact h.tail ⟨a, ha, .inr ⟨p, hp, t, ht, hnext⟩⟩
  have hhome : (view modules s n).Agrees leads s' (view modules s m) :=
    ⟨hget, fun other a h ha => (hclosed other a h ha).1, fun other a h ha => (hclosed other a h ha).2⟩
  have haway : (view modules s m).Agrees leads s' (view modules s n) :=
    ⟨fun other h => (hget other h).symm,
      fun other a h ha => (hclosed other a h (hget other h ▸ ha)).1,
      fun other a h ha => (hclosed other a h (hget other h ▸ ha)).2⟩
  obtain ⟨hnow, hthen⟩ := aliasType_eq_of_agrees options patience hs'
    Relation.ReflTransGen.refl hhome
  obtain ⟨_, hthen'⟩ := aliasType_eq_of_agrees options patience hs'
    Relation.ReflTransGen.refl haway
  exact ⟨hnow, hthen, hthen'⟩

end view

section sample

/-- Declares `A` as `B` and `B` as `string`. -/
def declaring : ModuleSource :=
  ⟨"n", [], [⟨"B", [], .string, none⟩, ⟨"A", [], .named "B", none⟩], []⟩

/-- Imports the module above and declares one alias. -/
def importing (own : String) : ModuleSource := ⟨"m", ["n"], [⟨own, [], .number, none⟩], []⟩

/-- The reference to `B` and the store that it is the only type of. -/
def sample : TypeId × Store := Store.empty.intern (.reference "B" [])

def declared : Prepared :=
  ⟨0, declaring, [⟨"B", [], .string, none⟩, ⟨"A", [], sample.1, none⟩], 2⟩

def imported (own : String) : Prepared := ⟨1, importing own, [⟨own, [], .number, none⟩], 1⟩

theorem prepared_sample (own : String) :
    prepared [declaring, importing own] Store.empty = ([declared, imported own], sample.2) :=
  rfl

theorem graph_sample (own : String) : graph [declaring, importing own] =
    ⟨[⟨"n", [], [1], []⟩, ⟨"m", [0], [], []⟩], []⟩ := by
  have h : graph [declaring, importing own] = graph [declaring, importing ""] := rfl
  rw [h]
  decide +kernel

theorem formed_sample : sample.2.Formed :=
  formed_empty.intern (by simp [Node.components])

theorem node_sample : sample.1.index < sample.2.size ∧ sample.2.node sample.1 = .reference "B" [] := by
  obtain ⟨hlt, hid⟩ := formed_empty.node_intern (n := .reference "B" [])
  exact ⟨hlt, Node.eq_of_identity_eq hid (by simp)⟩

theorem view_declared (own : String) : view [declaring, importing own] Store.empty declared =
    ⟨[⟨"B", [], .string, none⟩, ⟨"A", [], sample.1, none⟩]⟩ := by
  rw [view, graph_sample, prepared_sample]
  rfl

theorem view_imported (own : String) : view [declaring, importing own] Store.empty (imported own) =
    Environment.insert ⟨[⟨"B", [], .string, none⟩, ⟨"A", [], sample.1, none⟩]⟩
      ⟨own, [], .number, none⟩ := by
  rw [view, graph_sample, prepared_sample]
  rfl

theorem leads_sample {other : String}
    (h : Relation.TransGen (Environment.Leads
      ⟨[⟨"B", [], .string, none⟩, ⟨"A", [], sample.1, none⟩]⟩ sample.2) "A" other) :
    other = "B" := by
  have hstring : sample.2.node .string = .intrinsic .string :=
    formed_sample.node_fixed (i := 9) (by decide)
  induction h with
  | single h =>
      obtain ⟨a, ha, h⟩ := h
      obtain rfl : a = ⟨"A", [], sample.1, none⟩ := by simpa [Environment.get?] using ha.symm
      rcases h with h | ⟨p, hp, _⟩
      · cases h with
        | here hn =>
            rw [node_sample.2] at hn
            exact (Node.reference.inj hn).1.symm
        | inside hc _ => simp [node_sample.2, Node.components] at hc
      · cases hp
  | tail _ h ih =>
      subst ih
      obtain ⟨a, ha, h⟩ := h
      obtain rfl : a = ⟨"B", [], .string, none⟩ := by simpa [Environment.get?] using ha.symm
      rcases h with h | ⟨p, hp, _⟩
      · cases h with
        | here hn => simp [hstring] at hn
        | inside hc _ => simp [hstring, Node.components] at hc
      · cases hp

theorem aliasType_declared (own : String) :
    (Setting.aliasType ⟨view [declaring, importing own] .empty declared, .standard⟩ none "A"
      sample.2).1 = .ok .string := by
  rw [view_declared]
  exact aliasType_of_chain "A" "B" ⟨"A", [], sample.1, none⟩ ⟨"B", [], .string, none⟩ formed_sample
    (by decide) rfl rfl node_sample.1 node_sample.2 rfl rfl rfl

/-- The alias `A` of the sample means the same to a module that declares `C`. -/
theorem imported_alias_keeps_type_beside_other :
    let home := Setting.aliasType ⟨view [declaring, importing "C"] .empty declared, .standard⟩ none "A"
    let away :=
      Setting.aliasType ⟨view [declaring, importing "C"] .empty (imported "C"), .standard⟩ none "A"
    (home sample.2).1 = .ok .string ∧ (away sample.2).1 = (home sample.2).1 ∧
      (∀ s', (home sample.2).2.Extends s' → (away s').1 = (home sample.2).1) ∧
        ∀ s', (away sample.2).2.Extends s' → (home s').1 = (away sample.2).1 := by
  refine ⟨aliasType_declared "C", ?_⟩
  have hdeps : (graph [declaring, importing "C"]).dependencies (imported "C").id =
      [] ++ declared.id :: [] := by
    rw [graph_sample]
    rfl
  refine imported_alias_keeps_type (by decide) formed_empty ?_ hdeps ?_ ?_ ?_ ?_ ?_ .standard none
    formed_sample ?_
  · simp [prepared_sample]
  · rw [graph_sample]
    rfl
  · exact ⟨_, List.mem_cons_of_mem _ (List.mem_singleton_self _), rfl⟩
  · decide
  · simp
  · intro other h
    rw [view_declared] at h ⊢
    rw [view_imported, leads_sample h]
    rfl
  · exact .refl _

/-- A module that declares `B` sees another type behind the alias `A` that it imports: `B` is
looked up where `A` is used. -/
theorem imported_alias_follows_importer :
    let modules := [declaring, importing "B"]
    (modules.map (·.name)).Nodup ∧
      (prepared modules .empty).1 = [declared, imported "B"] ∧
      (graph modules).dependencies (imported "B").id = [declared.id] ∧
      (graph modules).inSameCycle (imported "B").id declared.id = false ∧
      (∃ a ∈ declared.own, a.name = "A" ∧ a.params = []) ∧
      (∀ a ∈ (imported "B").own, a.name ≠ "A") ∧
      (Setting.aliasType ⟨view modules .empty declared, .standard⟩ none "A" sample.2).1 =
        .ok .string ∧
      (Setting.aliasType ⟨view modules .empty (imported "B"), .standard⟩ none "A" sample.2).1 =
        .ok .number := by
  refine ⟨by decide, rfl, ?_, ?_, ?_, by decide, aliasType_declared "B", ?_⟩
  · rw [graph_sample]
    rfl
  · rw [graph_sample]
    rfl
  · exact ⟨_, List.mem_cons_of_mem _ (List.mem_singleton_self _), rfl, rfl⟩
  · rw [view_imported]
    exact aliasType_of_chain "A" "B" ⟨"A", [], sample.1, none⟩ ⟨"B", [], .number, none⟩ formed_sample
      (by decide) rfl rfl node_sample.1 node_sample.2 rfl rfl rfl

end sample

end Session

end TypeResolution
