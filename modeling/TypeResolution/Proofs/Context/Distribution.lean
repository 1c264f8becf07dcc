import TypeResolution.Proofs.Evaluated.Runs
import TypeResolution.Proofs.Evaluation.Working
import TypeResolution.Proofs.Normal.Absorption
import TypeResolution.Proofs.Store.Instantiation
import TypeResolution.Resolution

/-!
A distributive conditional distributes: its result for a union is the union of its results for the
members, each from a request of its own. The conditional is split while it is instantiated, into the
very conditionals that the members' requests evaluate; these are then evaluated in one evaluator, with
what it remembers, at a nesting of one. Neither matters, as results do not depend on the history.
-/

namespace TypeResolution

open Store Replay

namespace Substitution

theorem insert_insert (σ : Substitution) (name : String) (t u : TypeId) :
    (σ.insert name t).insert name u = σ.insert name u := by
  refine congrArg Substitution.mk ?_
  change insertInto name u (insertInto name t σ.bindings) = insertInto name u σ.bindings
  induction σ.bindings with
  | nil => simp [insertInto]
  | cons b rest ih =>
      by_cases h : name = b.1
      · simp [insertInto, h]
      · simp [insertInto, h, ih]

end Substitution

theorem Build.rawUnion_node {s : Store} {ts : List TypeId} (h : (Build.rawUnion ts s).2.Formed)
    (hmany : 1 < (TypeId.sortUnique s.numbers ts).length) :
    (Build.rawUnion ts s).2.node (Build.rawUnion ts s).1 = .union (TypeId.sortUnique s.numbers ts) := by
  revert h
  change (Build.ofMembers .never .union (TypeId.sortUnique s.numbers ts) s).2.Formed →
    (Build.ofMembers .never .union (TypeId.sortUnique s.numbers ts) s).2.node
      (Build.ofMembers .never .union (TypeId.sortUnique s.numbers ts) s).1 = _
  generalize TypeId.sortUnique s.numbers ts = l at hmany
  obtain ⟨a, b, rest, rfl⟩ := exists_cons_cons hmany
  exact fun h => h.node_of_intern (by simp)

namespace Instantiation

variable {σ : Substitution} {s : Store} {c : Conditional} {info : TypeParam} {t u : TypeId}
  {members : List TypeId}

theorem lookup?_insert (σ : Substitution) (name : String) (t : TypeId) :
    lookup? (σ.insert name t) [] name = some t := by
  simp [lookup?, Substitution.get?_insert]

theorem replacement?_insert (hcheck : s.node c.check = .param info) (σ : Substitution) (t : TypeId) :
    replacement? s (σ.insert info.name t) [] c.check = some (info.name, t) := by
  simp [replacement?, hcheck, lookup?_insert]

theorem getStore_run (f : Store → Instantiating TypeId) (cache : Std.HashMap TypeId TypeId)
    (s : Store) : (getThe Store >>= f) cache s = f s cache s :=
  rfl

theorem instantiateAt_param (hs : s.Formed) (hn : s.node t = .param info) (depth : Nat)
    (σ : Substitution) (u : TypeId) :
    (instantiateAt (depth + 1) (σ.insert info.name u) [] t ∅ s).1.1 = u := by
  rw [instantiateAt_replaced hs hn (u := u) (by simp [Substitution.get?_insert]) (by simp)]

theorem conditionalParts_node {inner : Inner} (h : (conditionalParts inner σ [] c ∅ s).2.Formed) :
    ∃ d, (conditionalParts inner σ [] c ∅ s).2.node (conditionalParts inner σ [] c ∅ s).1.1 =
      .conditional d ∧ d.check = (inner σ [] c.check ∅ s).1.1 := by
  obtain ⟨d, s', hcheck, hid, hstore⟩ : ∃ (d : Conditional) (s' : Store),
      d.check = (inner σ [] c.check ∅ s).1.1 ∧
      (conditionalParts inner σ [] c ∅ s).1.1 = (s'.intern (.conditional d)).1 ∧
      (conditionalParts inner σ [] c ∅ s).2 = (s'.intern (.conditional d)).2 :=
    ⟨⟨_, _, _, _, _, _⟩, _, rfl, rfl, rfl⟩
  refine ⟨d, ?_, hcheck⟩
  rw [hstore] at h ⊢
  rw [hid]
  exact h.node_of_intern (by simp)

theorem mapM_apart_cons (f : TypeId → Instantiating TypeId) (m : TypeId)
    (cache : Std.HashMap TypeId TypeId) (s : Store) :
    let x := f m ∅ s
    let y := members.mapM (fun m => apart (f m)) cache x.2
    (m :: members).mapM (fun m => apart (f m)) cache s = ((x.1.1 :: y.1.1, y.1.2), y.2) := by
  intro x y
  rw [List.mapM_cons]
  rfl

theorem perMember_run (parts : Substitution → Instantiating TypeId) (name : String)
    (members : List TypeId) (σ : Substitution) (t : TypeId) (s : Store) :
    let x := members.mapM (fun m => apart (parts (σ.insert name m))) ∅ s
    let y := Build.rawUnion x.1.1 x.2
    perMember name members (σ.insert name t) parts ∅ s = ((y.1, x.1.2), y.2) := by
  unfold perMember
  simp only [Substitution.insert_insert]
  rfl

/-- A conditional whose check type is a parameter that is bound to a single type. -/
theorem conditional_run_single (inner : Inner) (hcheck : s.node c.check = .param info)
    (hnever : u ≠ .never) (hn : ∀ members, s.node u ≠ .union members) :
    conditional inner (σ.insert info.name u) [] c ∅ s =
      conditionalParts inner (σ.insert info.name u) [] c ∅ s := by
  unfold conditional
  rw [getStore_run, replacement?_insert hcheck]
  cases c.distributive with
  | false => rfl
  | true =>
      rw [if_pos rfl]
      dsimp only
      rw [if_neg hnever]
      cases hu : s.node u with
      | union members => exact absurd hu (hn members)
      | _ => rfl

/-- A distributive conditional whose check type is a parameter that is bound to a union. -/
theorem conditional_run_union (inner : Inner) (hdistributive : c.distributive = true)
    (hcheck : s.node c.check = .param info) (hnever : u ≠ .never)
    (hn : s.node u = .union members) :
    conditional inner (σ.insert info.name u) [] c ∅ s =
      perMember info.name members (σ.insert info.name u)
        (fun σ => conditionalParts inner σ [] c) ∅ s := by
  unfold conditional
  rw [getStore_run, replacement?_insert hcheck, if_pos hdistributive]
  dsimp only
  rw [if_neg hnever, hn]

end Instantiation

namespace Context

open Eval Limits Instantiation

/-- The type that a request for a conditional evaluates. -/
def bound (c : Conditional) (σ : Substitution) : Build TypeId := do
  let raw ← Build.conditional c
  Build.instantiate σ raw

/-- What instantiating a conditional does with its parts. -/
def parts (c : Conditional) (σ : Substitution) : Instantiating TypeId :=
  conditionalParts (instantiateAt (maxDepth - 1)) σ [] c

variable {o : Options} {s F : Store} {c : Conditional} {σ : Substitution} {info : TypeParam}
  {t u r w : TypeId} {members : List TypeId} {fuel : Nat}

theorem insert_isEmpty (σ : Substitution) (name : String) (t : TypeId) :
    (σ.insert name t).isEmpty = false := by
  obtain ⟨l⟩ := σ
  cases l with
  | nil => rfl
  | cons b rest =>
      simp only [Substitution.insert, Substitution.insertInto, Substitution.isEmpty]
      split <;> rfl

section runs

variable (hs : s.Formed) (hc : (Node.conditional c).Closed AnyName s)

include hs hc

theorem bound_run (hσ : σ.isEmpty = false) :
    let x := Instantiation.conditional (instantiateAt (maxDepth - 1)) σ [] c ∅
      (Build.conditional c s).2
    bound c σ s = (x.1.1, x.2) := by
  intro x
  have hs₁ : (Build.conditional c s).2.Formed := hs.formed_intern hc
  have hn : (Build.conditional c s).2.node (Build.conditional c s).1 = .conditional c :=
    hs₁.node_of_intern (by simp)
  have hfixed := hs₁.not_isFixed hn (by simp) (by simp) (by simp)
  have hrun : bound c σ s =
      Build.instantiate σ (Build.conditional c s).1 (Build.conditional c s).2 := rfl
  rw [hrun, instantiate_run hσ hfixed, hn]
  rfl

variable (hcheck : s.node c.check = .param info) (hu : s.Closed AnyName u) (hnever : u ≠ .never)

include hcheck hu hnever

theorem bound_single (hn : ∀ members, s.node u ≠ .union members) :
    let x := parts c (σ.insert info.name u) ∅ (Build.conditional c s).2
    bound c (σ.insert info.name u) s = (x.1.1, x.2) := by
  have hext : s.Extends (Build.conditional c s).2 := extends_intern
  have hknown := (hc.components c.check (by simp [Node.components])).known
  rw [bound_run hs hc (insert_isEmpty σ info.name u), conditional_run_single _
    ((hext.node_eq _ hknown).trans hcheck) hnever ((hext.node_eq _ hu.known).symm ▸ hn)]
  rfl

theorem bound_union (hdistributive : c.distributive = true) (hn : s.node u = .union members) :
    let x := perMember info.name members (σ.insert info.name u) (parts c) ∅
      (Build.conditional c s).2
    bound c (σ.insert info.name u) s = (x.1.1, x.2) := by
  have hext : s.Extends (Build.conditional c s).2 := extends_intern
  have hknown := (hc.components c.check (by simp [Node.components])).known
  rw [bound_run hs hc (insert_isEmpty σ info.name u), conditional_run_union _ hdistributive
    ((hext.node_eq _ hknown).trans hcheck) hnever ((hext.node_eq _ hu.known).trans hn)]
  rfl

end runs

theorem follows_bound (hc : (Node.conditional c).Closed AnyName s) (hσ : Ok AnyName s σ) :
    Follows anyLink s (bound c σ) (bound c σ) := by
  have hpart : ∀ u ∈ (Node.conditional c).components, s.Closed AnyName u := hc.components
  refine bind_value (follows_conditional (hpart _ ?_) (hpart _ ?_) (hpart _ ?_) (hpart _ ?_))
    fun s₁ h₁ _ raw hraw => ?_
  case refine_5 =>
    have hinstance := follows_instantiate (L := anyLink) (Value.mono h₁ hσ) hraw
    rwa [σ.mapIds_same] at hinstance
  all_goals simp [Node.components]

/-- What a request for the conditional `c` gives under `σ` that hits no limit; nor is the counter of
steps full, which takes as many types as there are numbers of 32 bits. It is made in a store that knows
what `s` knows and ends in one that knows no more than `F`. -/
def Gives (o : Options) (s F : Store) (c : Conditional) (σ : Substitution) (r : TypeId) : Prop :=
  ∃ patience s₀, s.Extends s₀ ∧ s₀.Formed ∧ s₀.Tidy ∧
    let x := evaluateConditional ⟨.empty, o⟩ c σ (Setting.evaluator ⟨.empty, o⟩ patience) s₀
    x.1.1 = .ok r ∧ x.1.2.WithinLimits x.2 ∧ x.1.2.guard.iterations < UInt32.size - 1 ∧
      x.2.Extends F

theorem settles_request (hs : s.Formed) (hc : (Node.conditional c).Closed AnyName s)
    (hσ : Ok AnyName s σ) (patience : Option Nat) :
    s.Extends (bound c σ s).2 ∧
      Settles o [] (bound c σ s).1 (.fresh o 0 patience) (bound c σ s).2
        (evaluateConditional ⟨.empty, o⟩ c σ (Setting.evaluator ⟨.empty, o⟩ patience) s) := by
  have hbound := follows_bound hc hσ hs
  exact ⟨hbound.grows,
    settles_evaluate hbound.formed (hbound.beside s (.refl s)).2.2 patience⟩

theorem keeps_bound (c : Conditional) (σ : Substitution) : Tidy.Keeps (bound c σ) :=
  Tidy.keeps_bind (Tidy.keeps_conditional c) fun _ => Tidy.keeps_instantiate σ _

/-- The request meets no type again that is under evaluation. -/
theorem finished_request {patience : Option Nat} (hs : s.Formed) (htidy : s.Tidy)
    (hc : (Node.conditional c).Closed AnyName s) (hσ : Ok AnyName s σ) :
    let x := evaluateConditional ⟨.empty, o⟩ c σ (Setting.evaluator ⟨.empty, o⟩ patience) s
    x.1.1 = .ok r → x.1.2.WithinLimits x.2 →
      x.1.2.guard.iterations ≤ x.1.2.cache.size + x.1.2.guard.active.length := by
  intro x hr hlimits
  have hbound := follows_bound hc hσ hs
  have hrun : evaluate ⟨.empty, o⟩ (bound c σ s).1 (.fresh o 0 patience) (bound c σ s).2 =
    ((.ok r, x.1.2), x.2) := Prod.ext (Prod.ext hr rfl) rfl
  obtain ⟨-, hfinished⟩ := evaluate_evaluated hbound.formed (hbound.beside s (.refl s)).2.2 hrun
    (keeps_bound c σ s htidy).1 hlimits
  exact Nat.le_add_right_of_le hfinished

theorem Gives.yields (h : Gives o s F c σ r) (hc : (Node.conditional c).Closed AnyName s)
    (hσ : Ok AnyName s σ) : ∃ s₀ fuel, s.Extends s₀ ∧ s₀.Formed ∧ (bound c σ s₀).2.Extends F ∧
      Yields ⟨.empty, o⟩ fuel F (bound c σ s₀).1 r := by
  obtain ⟨patience, s₀, hext, hs₀, htidy, hr, hlimits, hcounted, hF⟩ := h
  have hc₀ := hext.closedNode hc
  have hσ₀ : Ok AnyName s₀ σ := Value.mono hext hσ
  obtain ⟨_, hsettles⟩ := settles_request (o := o) hs₀ hc₀ hσ₀ patience
  have hfinished := finished_request hs₀ htidy hc₀ hσ₀ hr hlimits
  exact ⟨s₀, _, hext, hs₀, hsettles.grows.trans hF,
    (hsettles.yields ⟨hlimits.silent, hcounted, hfinished⟩ r hr).mono hF⟩

/-- The instance for one member, made anew in a later store. -/
structure Instance (F : Store) (c : Conditional) (σ : Substitution) (name : String)
    (m w : TypeId) : Prop where
  again : ∀ F', F.Alike F' → (parts c (σ.insert name m) ∅ F').1.1 = w ∧
    F.Alike (parts c (σ.insert name m) ∅ F').2
  node : ∃ d, F.node w = .conditional d ∧ d.check = m

theorem follows_parts (hc : (Node.conditional c).Closed AnyName s) (hσ : Ok AnyName s σ) :
    Follows anyLink s (parts c σ) (parts c (σ.mapIds anyLink)) :=
  follows_conditionalParts (instantiates_instantiateAt _) hσ hc

theorem Gives.single {m : TypeId} (h : Gives o s F c (σ.insert info.name m) r)
    (hc : (Node.conditional c).Closed AnyName s) (hσ : Ok AnyName s σ)
    (hm : s.Closed AnyName m) (hcheck : s.node c.check = .param info) (hnever : m ≠ .never)
    (hn : ∀ members, s.node m ≠ .union members) :
    ∃ w fuel, Yields ⟨.empty, o⟩ fuel F w r ∧ Instance F c σ info.name m w := by
  have hσ' : Ok AnyName s (σ.insert info.name m) := ok_insertBinding hσ hm _
  obtain ⟨s₀, fuel, hext, hs₀, hF, hyields⟩ := h.yields hc hσ'
  refine ⟨_, fuel, hyields, ?_⟩
  have hc₀ := hext.closedNode hc
  have hknown := (hc.components c.check (by simp [Node.components])).known
  have hcheck₀ := (hext.node_eq _ hknown).trans hcheck
  rw [bound_single hs₀ hc₀ hcheck₀ (hext.closed hm) hnever
    ((hext.node_eq _ hm.known).symm ▸ hn)] at hF ⊢
  have hs₁ : (Build.conditional c s₀).2.Formed := hs₀.formed_intern hc₀
  have hext₁ : s.Extends (Build.conditional c s₀).2 := hext.trans extends_intern
  have hparts := follows_run (follows_parts (hext₁.closedNode hc) (Value.mono hext₁ hσ'))
    .empty hs₁
  rw [(σ.insert info.name m).mapIds_same] at hparts
  refine ⟨fun F' halike => ?_, ?_⟩
  · obtain ⟨halike', ⟨hsame, _⟩, _⟩ := hparts.later F' (hF.trans halike.toExtends)
    exact ⟨hsame, halike.trans halike'⟩
  · obtain ⟨d, hnode, hd⟩ := conditionalParts_node hparts.formed
    have hcheck₁ := (hext₁.node_eq _ hknown).trans hcheck
    refine ⟨d, ?_, hd.trans (instantiateAt_param hs₁ hcheck₁ (maxDepth - 2) σ m)⟩
    have hw := (hparts.beside _ (.refl _)).2.1.2
    exact (hF.node_eq _ hw.known).trans hnode

theorem mapM_instances {name : String} {ws : List TypeId}
    (h : List.Forall₂ (Instance F c σ name) members ws) {F' : Store} (halike : F.Alike F')
    (cache : Std.HashMap TypeId TypeId) :
    let x := members.mapM (fun m => apart (parts c (σ.insert name m))) cache F'
    x.1.1 = ws ∧ F.Alike x.2 := by
  induction h generalizing F' with
  | nil => exact ⟨rfl, halike⟩
  | @cons m w members ws hm _ ih =>
      obtain ⟨hw, halike₁⟩ := hm.again F' halike
      obtain ⟨hws, halike₂⟩ := ih halike₁
      rw [mapM_apart_cons fun m => parts c (σ.insert name m)]
      exact ⟨by rw [hw, hws], halike₂⟩

/-- What the request for a union evaluates. -/
theorem Gives.split (h : Gives o s F c (σ.insert info.name u) r) (hF : F.Formed)
    (hc : (Node.conditional c).Closed AnyName s) (hσ : Ok AnyName s σ) (hu : s.Closed AnyName u)
    (hdistributive : c.distributive = true) (hcheck : s.node c.check = .param info)
    (hnever : u ≠ .never) (hn : s.node u = .union members) {ws : List TypeId}
    (hws : List.Forall₂ (Instance F c σ info.name) members ws)
    (hmany : 1 < (TypeId.sortUnique F.numbers ws).length) :
    ∃ w fuel, Yields ⟨.empty, o⟩ fuel F w r ∧ F.node w = .union (TypeId.sortUnique F.numbers ws) := by
  have hσ' : Ok AnyName s (σ.insert info.name u) := ok_insertBinding hσ hu _
  obtain ⟨s₀, fuel, hext, hs₀, hend, hyields⟩ := h.yields hc hσ'
  refine ⟨_, fuel, hyields, ?_⟩
  have hc₀ := hext.closedNode hc
  have hknown := (hc.components c.check (by simp [Node.components])).known
  rw [bound_union hs₀ hc₀ ((hext.node_eq _ hknown).trans hcheck) (hext.closed hu) hnever
    hdistributive ((hext.node_eq _ hu.known).trans hn)] at hend ⊢
  have hs₁ : (Build.conditional c s₀).2.Formed := hs₀.formed_intern hc₀
  have hext₁ : s.Extends (Build.conditional c s₀).2 := hext.trans extends_intern
  have hmembers : ∀ m ∈ members, (Build.conditional c s₀).2.Closed AnyName m := fun m hm =>
    hext₁.closed (hu.of_mem_components hn hm)
  have hmember : Follows anyLink (Build.conditional c s₀).2
      (perMember info.name members (σ.insert info.name u) (parts c))
      (perMember info.name (members.map anyLink) ((σ.insert info.name u).mapIds anyLink) (parts c)) :=
    follows_perMember (Value.mono hext₁ hσ') hmembers fun s₂ h₂ τ hτ =>
      follows_parts ((hext₁.trans h₂).closedNode hc) hτ
  rw [List.map_id' members, (σ.insert info.name u).mapIds_same] at hmember
  have hparts := follows_run hmember .empty hs₁
  obtain ⟨halike, ⟨hsame, _⟩, _⟩ := hparts.later F hend
  obtain ⟨hresults, halike'⟩ := mapM_instances hws (.refl F) ∅
  have hrun := perMember_run (parts c) info.name members σ u F
  rw [hrun] at hsame halike
  rw [← halike'.numbers_eq] at hmany ⊢
  have hnode := Build.rawUnion_node (halike.formed hF) (hresults.symm ▸ hmany)
  rw [halike.node, hresults] at hnode
  simp only [Link.image_plain] at hsame ⊢
  rw [← hsame, hresults]
  exact hnode

theorem mapM_yields {ws : List TypeId} {f : TypeId → TypeId} {F' : Store} {e : Evaluator}
    (hF : F.Formed) (hws : ∀ m ∈ ws, Yields ⟨.empty, o⟩ fuel F m (f m)) (he : e.Detached)
    (halike : F.Alike F') : ∃ e₁ F₁,
      ws.mapM (aloneAt ⟨.empty, o⟩ fuel) e F' = ((.ok (ws.map f), e₁), F₁) ∧ e₁.Detached ∧
        F.Alike F₁ := by
  induction ws generalizing e F' with
  | nil => exact ⟨e, F', rfl, he, halike⟩
  | cons m ws ih =>
      obtain ⟨e₁, F₁, hrun, he₁, halike₁⟩ :=
        (hws m (by simp)).runs e F' he (halike.formed hF) halike.toExtends
      obtain ⟨e₂, F₂, hrest, he₂, halike₂⟩ :=
        ih (fun m hm => hws m (by simp [hm])) he₁ (halike.trans halike₁)
      refine ⟨e₂, F₂, ?_, he₂, halike₂⟩
      rw [List.mapM_cons]
      exact (bind_run hrun).trans (bind_run hrest)

/-- A union is evaluated member by member. -/
theorem Yields.union {ws : List TypeId} {f : TypeId → TypeId} (hF : F.Formed)
    (hn : F.node w = .union ws) (h : Yields ⟨.empty, o⟩ fuel F w r)
    (hws : ∀ m ∈ ws, Yields ⟨.empty, o⟩ fuel F m (f m)) : (Build.union (ws.map f) F).1 = r := by
  obtain ⟨e, he⟩ := exists_detached
  have hfixed := hF.not_isFixed hn (by simp) (by simp) (by simp)
  obtain ⟨e₁, F₁, hrun, -⟩ := (h.of_le (Nat.le_succ fuel)).runs e F he hF (.refl F)
  -- the members give the same in the evaluator of the union, whatever it remembers of the others
  obtain ⟨e₂, F₂, hparts, -, halike⟩ := mapM_yields hF hws he (.refl F)
  rw [unlessNested_start hfixed _ he, hn] at hrun
  have hunion := (bind_run (f := fun rs => Eval.union rs) hparts).symm.trans hrun
  have hr : (Build.union (ws.map f) F₂).1 = r := Except.ok.inj (congrArg (·.1.1) hunion)
  have hclosed : ∀ t ∈ ws.map f, F.Closed AnyName t := by
    simp only [List.mem_map]
    rintro _ ⟨m, hm, rfl⟩
    exact (hws m hm).result
  have hfollows : Follows anyLink F (Build.union (ws.map f))
      (Build.union ((ws.map f).map anyLink)) := follows_union hclosed
  rw [List.map_id' (ws.map f)] at hfollows
  exact ((hfollows hF).beside F₂ halike).2.1.symm.trans hr

/-- A union is determined by its members, in whatever order and however often they occur. -/
theorem union_congr {ts us : List TypeId} (h : ∀ t, t ∈ ts ↔ t ∈ us) (s : Store) :
    Build.union ts s = Build.union us s := by
  have hflat : TypeId.sortUnique s.numbers (ts.flatMap s.unionLeaves) =
      TypeId.sortUnique s.numbers (us.flatMap s.unionLeaves) :=
    TypeId.sortUnique_congr fun t => by simp only [List.mem_flatMap, h]
  have hget : ∀ f : Store → Build TypeId, (get >>= f) s = f s s := fun _ => rfl
  unfold Build.union
  rw [hget, hget, hflat]

theorem Gives.instances {rs : List TypeId} (hc : (Node.conditional c).Closed AnyName s)
    (hσ : Ok AnyName s σ) (hcheck : s.node c.check = .param info)
    (hparts : ∀ m ∈ members, s.Closed AnyName m ∧ m ≠ .never ∧ s.unionMembers? m = none)
    (h : List.Forall₂ (fun m r => Gives o s F c (σ.insert info.name m) r) members rs) :
    ∃ ws, List.Forall₂ (Instance F c σ info.name) members ws ∧
      List.Forall₂ (fun w r => ∃ fuel, Yields ⟨.empty, o⟩ fuel F w r) ws rs := by
  induction h with
  | nil => exact ⟨[], .nil, .nil⟩
  | @cons m r members rs hm _ ih =>
      obtain ⟨hclosed, hnever, hunion⟩ := hparts m (by simp)
      obtain ⟨ws, hinstances, hyields⟩ := ih fun m hm => hparts m (by simp [hm])
      obtain ⟨w, fuel, hw, hinstance⟩ := hm.single hc hσ hclosed hcheck hnever
        (unionMembers?_eq_none_iff.mp hunion)
      exact ⟨w :: ws, .cons hinstance hinstances, .cons ⟨fuel, hw⟩ hyields⟩

/-- The results of finitely many types, without a history and with the same fuel. -/
theorem exists_results {ws rs : List TypeId} (hF : F.Formed)
    (h : List.Forall₂ (fun w r => ∃ fuel, Yields ⟨.empty, o⟩ fuel F w r) ws rs) :
    ∃ (f : TypeId → TypeId) (fuel : Nat), rs = ws.map f ∧
      ∀ w ∈ ws, Yields ⟨.empty, o⟩ fuel F w (f w) := by
  induction h with
  | nil => exact ⟨id, 0, rfl, by simp⟩
  | @cons w r ws rs hw _ ih =>
      obtain ⟨n, hw⟩ := hw
      obtain ⟨f, k, rfl, hws⟩ := ih
      have hf : ∀ v ∈ ws, (if v = w then r else f v) = f v := by
        intro v hv
        split
        · rename_i hvw
          subst hvw
          exact hw.unique (hws v hv) hF (.refl F) (.refl F)
        · rfl
      refine ⟨fun v => if v = w then r else f v, max n k, ?_, ?_⟩
      · rw [List.map_cons, if_pos rfl, List.map_congr_left hf]
      · intro v hv
        rcases List.mem_cons.mp hv with rfl | hv
        · dsimp only
          rw [if_pos rfl]
          exact hw.of_le (le_max_left n k)
        · dsimp only
          rw [hf v hv]
          exact (hws v hv).of_le (le_max_right n k)

/-- Different members have different instances. -/
theorem one_lt_length_instances {name : String} {ws : List TypeId} {numbers : Numbering}
    (hmany : 1 < members.length) (hnodup : members.Nodup)
    (h : List.Forall₂ (Instance F c σ name) members ws) :
    1 < (TypeId.sortUnique numbers ws).length := by
  obtain ⟨m, m', rest, rfl⟩ := exists_cons_cons hmany
  obtain ⟨w, _, hw, hrest, rfl⟩ := List.forall₂_cons_left_iff.mp h
  obtain ⟨w', _, hw', _, rfl⟩ := List.forall₂_cons_left_iff.mp hrest
  by_contra hle
  have hsame : w = w' := eq_of_length_le_one (Nat.le_of_not_lt hle)
    w (TypeId.mem_sortUnique.mpr (by simp)) w' (TypeId.mem_sortUnique.mpr (by simp))
  obtain ⟨d, hd, rfl⟩ := hw.node
  obtain ⟨d', hd', rfl⟩ := hw'.node
  rw [hsame, hd'] at hd
  cases hd
  simp at hnodup

/-- A distributive conditional distributes over a union. -/
theorem conditional_distributes {rs : List TypeId} (hs : s.Formed) (hF : F.Formed)
    (hc : (Node.conditional c).Closed AnyName s) (hσ : Ok AnyName s σ) (hu : u.index < s.size)
    (hdistributive : c.distributive = true) (hcheck : s.node c.check = .param info)
    {site : Option SourceTag} {ds : Array Diagnostic}
    (hnormal : (Reporting.normalize site u ds s).1.1 = u) (hn : s.node u = .union members)
    (hunion : Gives o s F c (σ.insert info.name u) r)
    (hmembers : List.Forall₂ (fun m r => Gives o s F c (σ.insert info.name m) r) members rs) :
    (Build.union rs F).1 = r := by
  obtain ⟨hmany, hsorted, hform⟩ := inUnionForm_of_normalize hs hu hnormal members hn
  have hclosed : s.Closed AnyName u := hs.closed_of_known hu
  have hnever : u ≠ .never := by
    rintro rfl
    have hnode : s.node .never = .intrinsic .never := hs.node_intrinsic .never
    rw [hnode] at hn
    cases hn
  obtain ⟨ws, hinstances, hyields⟩ := Gives.instances hc hσ hcheck (fun m hm =>
    ⟨hclosed.of_mem_components hn hm, (hform.plain m hm).2.2.2, hform.flat m hm⟩) hmembers
  obtain ⟨f, n, rfl, hresults⟩ := exists_results hF hyields
  -- the instance for the union is the union of the instances for the members, no two of which are the
  -- same, so that it is not one of them
  obtain ⟨w, k, hw, hnode⟩ := hunion.split hF hc hσ hclosed hdistributive hcheck hnever hn hinstances
    (one_lt_length_instances hmany (TypeId.nodup_of_sorted hsorted) hinstances)
  rw [← (hw.of_le (le_max_right n k)).union hF hnode fun v hv =>
    (hresults v (TypeId.mem_sortUnique.mp hv)).of_le (le_max_left n k)]
  exact congrArg Prod.fst (union_congr (fun t => by simp [TypeId.mem_sortUnique]) F)

theorem Gives.of_run {s₀ s₁ : Store} {e : Evaluator} (hext : s.Extends s₀) (hs₀ : s₀.Formed)
    (htidy : s₀.Tidy) (hc : (Node.conditional c).Closed AnyName s) (hσ : Ok AnyName s σ)
    (hrun : evaluate ⟨.empty, o⟩ (bound c σ s₀).1 (.fresh o 0 none) (bound c σ s₀).2 =
      ((.ok r, e), s₁)) (hsilent : e.diagnostics = #[]) (hcounted : e.guard.iterations < UInt32.size - 1)
    (hsize : s₁.size ≤ Scope.maxDepth) (hF : s₁.Extends F) : Gives o s F c σ r := by
  have hbound := follows_bound (hext.closedNode hc) (Value.mono hext hσ) hs₀
  have hlimits : e.WithinLimits s₁ := withinLimits_of_size hbound.formed
    (hbound.beside s₀ (.refl _)).2.2 hrun (by simp [hsilent]) hsize
  have hx : evaluateConditional ⟨.empty, o⟩ c σ (Setting.evaluator ⟨.empty, o⟩ none) s₀ =
      ((.ok r, e), s₁) := hrun
  refine ⟨none, s₀, hext, hs₀, htidy, ?_⟩
  rw [hx]
  exact ⟨rfl, hlimits, hcounted, hF⟩

section own

/-- `T extends T ? T : never`, which gives what `T` stands for. -/
def own : Conditional := ⟨⟨12⟩, ⟨12⟩, [], ⟨12⟩, .never, true⟩

/-- The parameter `T` and `number | string`. -/
def ownStore : Store :=
  [.param (.named "T"), .union [.number, .string]].foldl (fun s n => (s.intern n).2) Store.empty

def ownBound (t : TypeId) : Build TypeId := bound own (Substitution.empty.insert "T" t)

/-- The store after the requests for the union, for `number` and for `string`. -/
def ownUnion : Store := (ownBound ⟨13⟩ ownStore).2

def ownNumber : Store := (ownBound .number ownUnion).2

def ownString : Store := (ownBound .string ownNumber).2

theorem ownStore_eq : ownStore.size = 14 ∧ ownStore.node ⟨12⟩ = .param (.named "T") ∧
    ownStore.node ⟨13⟩ = .union [.number, .string] ∧
    (Reporting.normalize none ⟨13⟩ #[] ownStore).1.1 = ⟨13⟩ := by
  refine ⟨?_, ?_, ?_, ?_⟩ <;> cbv

theorem ownBound_eq : (ownBound ⟨13⟩ ownStore).1 = ⟨17⟩ ∧ (ownBound .number ownUnion).1 = ⟨15⟩ ∧
    (ownBound .string ownNumber).1 = ⟨16⟩ ∧ ownString.size = 18 := by
  refine ⟨?_, ?_, ?_, ?_⟩ <;> cbv

theorem ownUnion_nodes : ownUnion.node ⟨17⟩ = .union [⟨15⟩, ⟨16⟩] ∧
    ownUnion.node ⟨15⟩ = .conditional ⟨.number, .number, [], .number, .never, true⟩ ∧
    ownUnion.node ⟨16⟩ = .conditional ⟨.string, .string, [], .string, .never, true⟩ ∧
    (Reporting.normalize none ⟨13⟩ #[] ownUnion).1.1 = ⟨13⟩ ∧ ownUnion.size = 18 := by
  refine ⟨?_, ?_, ?_, ?_, ?_⟩ <;> cbv

theorem formed_and_tidy_ownStore : ownStore.Formed ∧ ownStore.Tidy := by
  have hT : (Store.empty.intern (.param (.named "T"))).2.Formed ∧
      (Store.empty.intern (.param (.named "T"))).2.Tidy :=
    ⟨formed_empty.intern nofun, tidy_empty.intern trivial⟩
  refine ⟨hT.1.intern ?_, hT.2.intern ⟨by decide, by decide⟩⟩
  simp only [Node.components, List.forall_mem_cons]
  exact ⟨hT.1.known_of_isFixed rfl, hT.1.known_of_isFixed rfl, by simp⟩

theorem own_member {steps depth : ℕ} {active : List TypeId} {cache : Std.HashMap TypeId TypeId}
    {setting : Setting} {m : TypeId} (hs : s.Formed) (hm : m = .number ∨ m = .string)
    (hn : s.node w = .conditional ⟨m, m, [], m, .never, true⟩) (hactive : w ∉ active)
    (hunknown : cache[w]? = none) (hroom : active.length < o.maxEvaluationDepth.toNat)
    (hsteps : steps < o.maxIterations.toNat) :
    evaluateAt setting (depth + 1) w (working o active steps 0 cache) s =
      ((.ok m, working o active (steps + 1) 0 (cache.insert w m)), s) := by
  have hfixed := hs.not_isFixed hn (by simp) (by simp) (by simp)
  have hfixed' : m.isFixed := by rcases hm with rfl | rfl <;> rfl
  have hnode : ∀ members, s.node m ≠ .union members := by
    rcases hm with rfl | rfl
    · have h : s.node .number = .intrinsic .number := hs.node_intrinsic .number
      simp [h]
    · have h : s.node .string = .intrinsic .string := hs.node_intrinsic .string
      simp [h]
  have hclosed : s.containsParams m = false ∧ s.containsParamsExcept [] m = false := by
    rcases hm with rfl | rfl <;> exact ⟨rfl, rfl⟩
  have hmember : ∀ e, evaluateAt setting depth m e s = ((.ok m, e), s) := fun e =>
    evaluateAt_fixed hfixed' depth e s
  refine evaluateAt_entered hfixed hactive hunknown hroom hsteps ?_
  rw [hn]
  exact conditional_self rfl (by rcases hm with rfl | rfl <;> decide)
    (fun _ => ⟨by rcases hm with rfl | rfl <;> decide, hnode⟩) (hmember _) (hmember _) hclosed.1
    hclosed.2 (hmember _)

theorem own_member_run {m : TypeId} (hs : s.Formed) (hm : m = .number ∨ m = .string)
    (hn : s.node w = .conditional ⟨m, m, [], m, .never, true⟩) :
    Eval.evaluate ⟨.empty, .standard⟩ w (.fresh .standard 0 none) s =
      ((.ok m, working .standard [] 1 0 ((∅ : Std.HashMap TypeId TypeId).insert w m)), s) := by
  have hdepth : Options.standard.maxEvaluationDepth.toNat = 49 + 1 := by decide
  rw [evaluate_start, hdepth]
  exact own_member hs hm hn (by simp) (by simp) (by decide) (by decide)

/-- What is remembered when both members have been evaluated. -/
def ownCache : Std.HashMap TypeId TypeId :=
  ((∅ : Std.HashMap TypeId TypeId).insert ⟨15⟩ .number).insert ⟨16⟩ .string

theorem own_members_run (hs : ownUnion.Formed) :
    [⟨15⟩, ⟨16⟩].mapM (evaluateAt ⟨.empty, .standard⟩ 49) (working .standard [⟨17⟩] 1 0 ∅) ownUnion =
      ((.ok [.number, .string], working .standard [⟨17⟩] 3 0 ownCache), ownUnion) := by
  obtain ⟨-, h15, h16, -, -⟩ := ownUnion_nodes
  have hnumber : evaluateAt ⟨.empty, .standard⟩ 49 ⟨15⟩ (working .standard [⟨17⟩] 1 0 ∅) ownUnion =
      ((.ok .number, working .standard [⟨17⟩] 2 0
        ((∅ : Std.HashMap TypeId TypeId).insert ⟨15⟩ .number)), ownUnion) :=
    own_member hs (.inl rfl) h15 (by decide) (by simp) (by decide) (by decide)
  have hstring : evaluateAt ⟨.empty, .standard⟩ 49 ⟨16⟩
      (working .standard [⟨17⟩] 2 0 ((∅ : Std.HashMap TypeId TypeId).insert ⟨15⟩ .number)) ownUnion =
        ((.ok .string, working .standard [⟨17⟩] 3 0 ownCache), ownUnion) :=
    own_member hs (.inr rfl) h16 (by decide) (by simp) (by decide) (by decide)
  have hrest : [⟨16⟩].mapM (evaluateAt ⟨.empty, .standard⟩ 49)
      (working .standard [⟨17⟩] 2 0 ((∅ : Std.HashMap TypeId TypeId).insert ⟨15⟩ .number)) ownUnion =
        ((.ok [.string], working .standard [⟨17⟩] 3 0 ownCache), ownUnion) := by
    rw [List.mapM_cons]
    exact bind_run hstring
  rw [List.mapM_cons]
  exact (bind_run hnumber).trans (bind_run hrest)

/-- The request for the union, whose members give the union again. -/
theorem own_union_run (hs : ownUnion.Formed) :
    Eval.evaluate ⟨.empty, .standard⟩ ⟨17⟩ (.fresh .standard 0 none) ownUnion =
      ((.ok ⟨13⟩, working .standard [] 3 0 (ownCache.insert ⟨17⟩ ⟨13⟩)), ownUnion) := by
  obtain ⟨h17, -, -, hnormal, hsize⟩ := ownUnion_nodes
  have hn : ownUnion.node ⟨13⟩ = .union [.number, .string] := by cbv
  obtain ⟨hmany, hsorted, hform⟩ := inUnionForm_of_normalize hs (by rw [hsize]; decide) hnormal _ hn
  have hunion := union_again hs (by rw [hsize]; decide) hn hmany hsorted hform
  have hnode : node (evaluateAt ⟨.empty, .standard⟩ 49) ⟨.empty, .standard⟩ ⟨17⟩
      (ownUnion.node ⟨17⟩) (working .standard [⟨17⟩] (0 + 1) 0 ∅) ownUnion =
        ((.ok ⟨13⟩, working .standard [⟨17⟩] 3 0 ownCache), ownUnion) := by
    rw [h17]
    refine (bind_run (own_members_run hs)).trans ?_
    change ((Except.ok (Build.union [.number, .string] ownUnion).1,
      working .standard [⟨17⟩] 3 0 ownCache), (Build.union [.number, .string] ownUnion).2) = _
    rw [hunion]
  have hdepth : Options.standard.maxEvaluationDepth.toNat = 49 + 1 := by decide
  rw [evaluate_start, hdepth]
  exact evaluateAt_entered rfl (by simp) (by simp) (by decide) (by decide) hnode

theorem own_closed {t : TypeId} (ht : t.index < 14) : ownStore.Closed AnyName t :=
  formed_and_tidy_ownStore.1.closed_of_known (ownStore_eq.1.symm ▸ ht)

theorem closedNode_own : (Node.conditional own).Closed AnyName ownStore := by
  refine ⟨fun _ _ _ => trivial, fun t ht => own_closed ?_⟩
  simp only [own, Node.components, List.mem_cons, List.not_mem_nil, or_false] at ht
  rcases ht with rfl | rfl | rfl | rfl <;> decide

theorem own_request {t : TypeId} (hext : ownStore.Extends s) (hs : s.Formed) (htidy : s.Tidy)
    (ht : t.index < 14) :
    s.Extends (ownBound t s).2 ∧ (ownBound t s).2.Formed ∧ (ownBound t s).2.Tidy := by
  have hbound := follows_bound (hext.closedNode closedNode_own) 
    (Value.mono hext (ok_insertBinding ok_emptySubstitution (own_closed ht) "T")) hs
  exact ⟨hbound.grows, hbound.formed, (keeps_bound own _ s htidy).1⟩

theorem own_requests : (ownStore.Extends ownUnion ∧ ownUnion.Formed ∧ ownUnion.Tidy) ∧
    (ownUnion.Extends ownNumber ∧ ownNumber.Formed ∧ ownNumber.Tidy) ∧
    ownNumber.Extends ownString ∧ ownString.Formed ∧ ownString.Tidy := by
  obtain ⟨hs, htidy⟩ := formed_and_tidy_ownStore
  have h₁ := own_request (.refl _) hs htidy (t := ⟨13⟩) (by decide)
  have h₂ := own_request h₁.1 h₁.2.1 h₁.2.2 (t := .number) (by decide)
  have h₃ := own_request (h₁.1.trans h₂.1) h₂.2.1 h₂.2.2 (t := .string) (by decide)
  exact ⟨h₁, h₂, h₃⟩

theorem own_gives {s₀ s₁ : Store} {e : Evaluator} (hext : ownStore.Extends s₀) (hs₀ : s₀.Formed)
    (htidy : s₀.Tidy) (ht : t.index < 14)
    (hrun : Eval.evaluate ⟨.empty, .standard⟩ (ownBound t s₀).1 (.fresh .standard 0 none)
      (ownBound t s₀).2 = ((.ok r, e), s₁)) (hsilent : e.diagnostics = #[])
    (hcounted : e.guard.iterations < UInt32.size - 1) (hlater : s₁.Extends ownString) :
    Gives .standard ownStore ownString own (Substitution.empty.insert "T" t) r := by
  have hsize : s₁.size ≤ Scope.maxDepth := by
    refine hlater.size_le.trans ?_
    rw [ownBound_eq.2.2.2]
    decide
  exact .of_run hext hs₀ htidy closedNode_own
    (ok_insertBinding ok_emptySubstitution (own_closed ht) "T") hrun hsilent hcounted hsize hlater

/-- The requests of `own` for `number | string` and for its members. -/
theorem conditional_distributes_own :
    Gives .standard ownStore ownString own (Substitution.empty.insert "T" ⟨13⟩) ⟨13⟩ ∧
    List.Forall₂ (fun m r =>
      Gives .standard ownStore ownString own (Substitution.empty.insert "T" m) r)
      [.number, .string] [.number, .string] ∧
    (Build.union [.number, .string] ownString).1 = ⟨13⟩ := by
  obtain ⟨hs, htidy⟩ := formed_and_tidy_ownStore
  obtain ⟨hsize, hcheck, hn, hnormal⟩ := ownStore_eq
  obtain ⟨hu, hnumber, hstring, -⟩ := ownBound_eq
  obtain ⟨-, h15, h16, -, hunion⟩ := ownUnion_nodes
  obtain ⟨⟨hext₁, hs₁, htidy₁⟩, ⟨hext₂, hs₂, htidy₂⟩, hext₃, hs₃, -⟩ := own_requests
  have hext := hext₂.trans hext₃
  have h15' := (hext₂.node_eq ⟨15⟩ (by rw [hunion]; decide)).trans h15
  have h16' := (hext.node_eq ⟨16⟩ (by rw [hunion]; decide)).trans h16
  have hwhole := own_gives (.refl _) hs htidy (by decide) (hu.symm ▸ own_union_run hs₁) rfl
    (by decide) hext
  have hfirst := own_gives hext₁ hs₁ htidy₁ (by decide)
    (hnumber.symm ▸ own_member_run hs₂ (.inl rfl) h15') rfl (by decide) hext₃
  have hsecond := own_gives (hext₁.trans hext₂) hs₂ htidy₂ (by decide)
    (hstring.symm ▸ own_member_run hs₃ (.inr rfl) h16') rfl (by decide) (.refl _)
  have hmembers : List.Forall₂ (fun m r =>
      Gives .standard ownStore ownString own (Substitution.empty.insert "T" m) r)
      [.number, .string] [.number, .string] := .cons hfirst (.cons hsecond .nil)
  exact ⟨hwhole, hmembers, conditional_distributes hs hs₃ closedNode_own ok_emptySubstitution
    (by rw [hsize]; decide) rfl hcheck hnormal hn hwhole hmembers⟩

end own

end Context

end TypeResolution
