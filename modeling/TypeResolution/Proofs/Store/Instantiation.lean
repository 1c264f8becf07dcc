import TypeResolution.Proofs.Evaluation.Templates
import TypeResolution.Proofs.Store.Free
import TypeResolution.Proofs.Store.Twin

/-!
Runs of a substitution. A substitution for names that are not free in a type leaves the type as it is and makes no other. The
walk takes every node apart and interns it again, so this needs a tidy store, in which the members of
unions are sorted and the spans of templates are joined.
-/

namespace TypeResolution

open Store

namespace Instantiation

/-- What is known of the results that a walk remembers: types in which nothing is to be replaced
became themselves, and may be added. -/
structure Memory (s : Store) (wanted : String → Prop) where
  holds : Std.HashMap TypeId TypeId → Prop
  same {cache : Std.HashMap TypeId TypeId} {t r : TypeId} : holds cache → cache[t]? = some r →
    ¬s.HasFree wanted [] t → r = t
  insert {cache : Std.HashMap TypeId TypeId} {t : TypeId} : holds cache → s.Closed AnyName t →
    ¬s.HasFree wanted [] t → holds (cache.insert t t)

/-- In the types that are remembered nothing was to be replaced. -/
def Memory.unchanged (s : Store) (wanted : String → Prop) : Memory s wanted where
  holds cache := ∀ t r : TypeId, cache[t]? = some r → r = t ∧ ¬s.HasFree wanted [] t
  same h hr _ := (h _ _ hr).1
  insert {cache t} h _ hfree u r hu := by
    rw [Std.HashMap.getElem?_insert] at hu
    split at hu
    · rename_i htu
      cases hu
      obtain rfl := eq_of_beq htu
      exact ⟨rfl, hfree⟩
    · exact h u r hu

variable {s : Store} {α β γ : Type} {σ : Substitution} {shadowed bound : List String}
  {wanted : String → Prop} {M : Memory s wanted} {t : TypeId}

/-- The walk gives `a`; it makes no type and changes none. -/
def Leaves (M : Memory s wanted) (walk : Instantiating α) (a : α) : Prop :=
  ∀ cache, M.holds cache → ∃ cache', walk cache s = ((a, cache'), s) ∧ M.holds cache'

section runs

variable {cache : Std.HashMap TypeId TypeId} {info : TypeParam}

/-- A type that is not remembered is looked into. -/
theorem instantiateAt_run (hfixed : t.isFixed = false) (hcache : cache[t]? = none) (depth : Nat)
    (σ : Substitution) (s : Store) :
    let r := node (instantiateAt depth) σ [] t (s.node t) cache s
    instantiateAt (depth + 1) σ [] t cache s = ((r.1.1, r.1.2.insert t r.1.1), r.2) := by
  intro r
  have hget : ∀ f : Std.HashMap TypeId TypeId → Instantiating TypeId,
      (get >>= f) cache = f cache cache := fun _ => rfl
  conv_lhs => unfold instantiateAt
  simp only [hfixed, Bool.false_eq_true, if_false, List.isEmpty_nil, if_true]
  rw [hget, hcache]
  rfl

theorem instantiate_run (hσ : σ.isEmpty = false) (hfixed : t.isFixed = false) (s : Store) :
    let r := node (instantiateAt (maxDepth - 1)) σ [] t (s.node t) ∅ s
    Build.instantiate σ t s = (r.1.1, r.2) := by
  intro r
  have hrun : Build.instantiate σ t s =
      ((instantiateAt maxDepth σ [] t ∅ s).1.1, (instantiateAt maxDepth σ [] t ∅ s).2) := by
    unfold Build.instantiate
    rw [if_neg (by simp [hσ, hfixed])]
    rfl
  have hwalk : instantiateAt maxDepth σ [] t ∅ s = ((r.1.1, r.1.2.insert t r.1.1), r.2) :=
    instantiateAt_run hfixed (by simp) (maxDepth - 1) σ s
  rw [hrun, hwalk]

/-- A parameter is replaced. -/
theorem instantiateAt_replaced (hs : s.Formed) (hn : s.node t = .param info) {u : TypeId}
    (hσ : σ.get? info.name = some u) (hcache : cache[t]? = none) (depth : Nat) :
    instantiateAt (depth + 1) σ [] t cache s = ((u, cache.insert t u), s) := by
  have hlookup : (lookup? σ [] info.name).getD t = u := by simp [lookup?, hσ]
  have hfixed := hs.not_isFixed hn (by simp) (by simp) (by simp)
  have hnode : node (instantiateAt depth) σ [] t (s.node t) cache s = ((u, cache), s) := by
    rw [hn, ← hlookup]
    rfl
  rw [instantiateAt_run hfixed hcache, hnode]

end runs

section walks

theorem leaves_pure (a : α) : Leaves M (pure a) a := fun cache h => ⟨cache, rfl, h⟩

theorem leaves_bind {walk : Instantiating α} {f : α → Instantiating β} {a : α} {b : β}
    (h : Leaves M walk a) (hf : Leaves M (f a) b) : Leaves M (walk >>= f) b := by
  intro cache hcache
  obtain ⟨cache₁, hrun, hcache₁⟩ := h cache hcache
  obtain ⟨cache₂, hrun₂, hcache₂⟩ := hf cache₁ hcache₁
  refine ⟨cache₂, ?_, hcache₂⟩
  change f (walk cache s).1.1 (walk cache s).1.2 (walk cache s).2 = _
  rw [hrun]
  exact hrun₂

theorem leaves_mapM {l : List γ} {f : γ → Instantiating γ} (h : ∀ a ∈ l, Leaves M (f a) a) :
    Leaves M (l.mapM f) l := by
  induction l with
  | nil => exact leaves_pure []
  | cons a rest ih =>
      rw [List.mapM_cons]
      refine leaves_bind (h a (by simp)) ?_
      exact leaves_bind (ih fun b hb => h b (by simp [hb])) (leaves_pure _)

theorem leaves_optionMapM {o : Option γ} {f : γ → Instantiating γ}
    (h : ∀ a, o = some a → Leaves M (f a) a) : Leaves M (o.mapM f) o := by
  cases o with
  | none => exact leaves_pure none
  | some a =>
      rw [Option.mapM_some, map_eq_pure_bind]
      exact leaves_bind (h a rfl) (leaves_pure _)

/-- A computation on the store. -/
theorem leaves_lift {m : Build α} {a : α} (h : m s = (a, s)) : Leaves M (liftM m) a := by
  intro cache hcache
  refine ⟨cache, ?_, hcache⟩
  change (((m s).1, cache), (m s).2) = _
  rw [h]

theorem leaves_store {f : Store → Instantiating α} {a : α} (h : Leaves M (f s) a) :
    Leaves M (getThe Store >>= f) a :=
  h

end walks

section nodes

variable (hs : s.Formed) (htidy : (s.node t).Tidy s.numbers) (ht : t.index < s.size)

include hs ht

theorem leaves_intern {n : Node} (hn : s.node t = n) : Leaves M (Build.intern n) t :=
  leaves_lift (hs.intern_node ht hn)

theorem leaves_members {none : TypeId} (node : List TypeId → Node) {members : List TypeId}
    (hn : s.node t = node members) (hmany : 2 ≤ members.length) (hsorted : s.InOrder members) :
    Leaves M (do Build.ofMembers none node (← Build.inOrder members)) t := by
  refine leaves_lift ?_
  change Build.ofMembers none node (TypeId.sortUnique s.numbers members) s = (t, s)
  rw [TypeId.sortUnique_of_sorted hsorted]
  match members with
  | _ :: _ :: _ => exact hs.intern_node ht hn

theorem leaves_rawUnion {members : List TypeId} (hn : s.node t = .union members)
    (hmembers : (s.node t).Tidy s.numbers) : Leaves M (Build.rawUnion members) t := by
  rw [hn] at hmembers
  exact leaves_members hs ht .union hn hmembers.1 hmembers.2

theorem leaves_rawIntersection {members : List TypeId} (hn : s.node t = .intersection members)
    (hmembers : (s.node t).Tidy s.numbers) : Leaves M (Build.rawIntersection members) t := by
  rw [hn] at hmembers
  exact leaves_members hs ht .intersection hn hmembers.1 hmembers.2

/-- How the components of a node are left as they are. -/
def LeavesScopes (M : Memory s wanted) (inner : Inner) (σ : Substitution) (shadowed : List String)
    (n : Node) : Prop :=
  ∀ names c, (names, c) ∈ n.scopes → Leaves M (inner σ (shadowed ++ names) c) c

variable {inner : Inner}

omit hs ht in
theorem LeavesScopes.component {n : Node} (h : LeavesScopes M inner σ shadowed n) {c : TypeId}
    (hc : ([], c) ∈ n.scopes) : Leaves M (inner σ shadowed c) c := by
  simpa using h [] c hc

theorem leaves_conditionalParts {c : Conditional} (hn : s.node t = .conditional c)
    (h : LeavesScopes M inner σ shadowed (.conditional c)) :
    Leaves M (conditionalParts inner σ shadowed c) t := by
  refine leaves_bind (h.component (by simp [Node.scopes])) ?_
  refine leaves_bind (h c.infer c.pattern (by simp [Node.scopes])) ?_
  refine leaves_bind (h c.infer c.whenTrue (by simp [Node.scopes])) ?_
  refine leaves_bind (h.component (by simp [Node.scopes])) ?_
  exact leaves_intern hs ht hn

theorem leaves_mappedParts {m : Mapped} (hn : s.node t = .mapped m)
    (h : LeavesScopes M inner σ shadowed (.mapped m)) :
    Leaves M (mappedParts inner σ shadowed m) t := by
  refine leaves_bind (h.component (by simp [Node.scopes])) ?_
  refine leaves_bind (leaves_optionMapM fun u hu => h _ u (by simp [Node.scopes, hu])) ?_
  refine leaves_bind (h _ m.template (by simp [Node.scopes])) ?_
  refine leaves_bind (leaves_optionMapM fun u hu => h _ u (by simp [Node.scopes, hu])) ?_
  exact leaves_intern hs ht hn

include htidy

/-- The walk leaves a node as it is when it leaves its components and no parameter that the node
depends on is replaced. -/
theorem leaves_node (h : LeavesScopes M inner σ shadowed (s.node t))
    (hparam : ∀ info, s.node t = .param info → lookup? σ shadowed info.name = none)
    (hsplit : ∀ c, ([], c) ∈ (s.node t).scopes → replacement? s σ shadowed c = none) :
    Leaves M (node inner σ shadowed t (s.node t)) t := by
  have hcomponent : ∀ c, ([], c) ∈ (s.node t).scopes → Leaves M (inner σ shadowed c) c :=
    fun c => h.component
  have hn := htidy
  cases hnode : s.node t with
  | error | intrinsic _ | literal _ => exact leaves_pure t
  | param info =>
      have hkeep : (lookup? σ shadowed info.name).getD t = t := by rw [hparam info hnode]; rfl
      change Leaves M (pure ((lookup? σ shadowed info.name).getD t)) t
      rw [hkeep]
      exact leaves_pure t
  | union members =>
      rw [hnode] at hcomponent
      refine leaves_bind (leaves_mapM fun c hc => hcomponent c ?_) (leaves_rawUnion hs ht hnode hn)
      exact List.mem_map_of_mem hc
  | intersection members =>
      rw [hnode] at hcomponent
      refine leaves_bind (leaves_mapM fun c hc => hcomponent c ?_)
        (leaves_rawIntersection hs ht hnode hn)
      exact List.mem_map_of_mem hc
  | object shape =>
      rw [hnode] at hcomponent
      have hfields : Leaves M
          (shape.fields.mapM fun f => return { f with type := ← inner σ shadowed f.type })
          shape.fields := by
        refine leaves_mapM fun f hf => leaves_bind (hcomponent f.type ?_) (leaves_pure _)
        exact List.mem_map_of_mem (List.mem_append_left _ (List.mem_map_of_mem hf))
      refine leaves_bind hfields (leaves_bind (leaves_optionMapM fun c hc => hcomponent c ?_) ?_)
      · exact List.mem_map_of_mem (List.mem_append_right _ (by simp [hc]))
      · refine leaves_bind (leaves_intern hs ht hnode) ?_
        have hcopy : Build.copyFieldOrigins t t (shape.fields.map (·.name)) s = ((), s) := by
          simp [Build.copyFieldOrigins, copyFieldOrigins]
        exact leaves_bind (leaves_lift hcopy) (leaves_pure t)
  | function shape =>
      rw [hnode] at hcomponent
      refine leaves_bind (leaves_mapM fun c hc => hcomponent c ?_) ?_
      · exact List.mem_map_of_mem (List.mem_append_left _ hc)
      · refine leaves_bind (hcomponent shape.result ?_) (leaves_intern hs ht hnode)
        exact List.mem_map_of_mem (List.mem_append_right _ (by simp))
  | array element =>
      rw [hnode] at hcomponent
      exact leaves_bind (hcomponent element (by simp [Node.scopes, Node.components]))
        (leaves_intern hs ht hnode)
  | reference name args =>
      rw [hnode] at hcomponent
      refine leaves_bind (leaves_mapM fun c hc => hcomponent c ?_) (leaves_intern hs ht hnode)
      exact List.mem_map_of_mem hc
  | indexAccess object key =>
      rw [hnode] at hcomponent
      refine leaves_bind (hcomponent object (by simp [Node.scopes, Node.components])) ?_
      exact leaves_bind (hcomponent key (by simp [Node.scopes, Node.components]))
        (leaves_intern hs ht hnode)
  | template spans =>
      rw [hnode] at hcomponent hn
      refine leaves_bind (leaves_mapM fun span hspan => ?_) ?_
      · cases span with
        | text text => exact leaves_pure _
        | hole u =>
            refine leaves_bind (hcomponent u ?_) (leaves_pure _)
            exact List.mem_map_of_mem (List.mem_filterMap.mpr ⟨_, hspan, rfl⟩)
      · rw [template_eq_intern hn]
        exact leaves_intern hs ht hnode
  | stringMap kind arg =>
      rw [hnode] at hcomponent
      exact leaves_bind (hcomponent arg (by simp [Node.scopes, Node.components]))
        (leaves_intern hs ht hnode)
  | conditional c =>
      rw [hnode] at h hsplit
      have hcheck := hsplit c.check (by simp [Node.scopes])
      change Leaves M (conditional inner σ shadowed c) t
      unfold conditional
      refine leaves_store ?_
      rw [hcheck, ite_self]
      exact leaves_conditionalParts hs ht hnode h
  | mapped m =>
      rw [hnode] at h hsplit
      have hsource := hsplit m.source (by simp [Node.scopes])
      change Leaves M (mapped inner σ shadowed m) t
      unfold mapped
      refine leaves_store ?_
      rw [hsource]
      exact leaves_mappedParts hs ht hnode h

end nodes

section walk

/-- What a walk remembers is asked first, and a fixed type stays as it is. -/
theorem leaves_remembered {step : Instantiating TypeId}
    (hfree : shadowed.isEmpty → ¬s.HasFree wanted [] t)
    (h : t.isFixed = false → Leaves M step t) :
    Leaves M (do
      if t.isFixed then
        return t
      if shadowed.isEmpty then
        if let some known := (← get)[t]? then
          return known
      step) t := by
  split
  · exact leaves_pure t
  rename_i hfixed
  have hstep := h (by simpa using hfixed)
  split
  · rename_i hshadowed
    intro cache hcache
    have hget : ∀ f : Std.HashMap TypeId TypeId → Instantiating TypeId,
        (get >>= f) cache s = f cache cache s := fun _ => rfl
    dsimp only
    rw [hget]
    cases hknown : cache[t]? with
    | none => exact hstep cache hcache
    | some known =>
        obtain rfl := M.same hcache hknown (hfree hshadowed)
        exact ⟨cache, rfl, hcache⟩
  · exact hstep

/-- A type that the walk leaves as it is may be remembered. -/
theorem leaves_remember {step : Instantiating TypeId} (ht : s.Closed AnyName t)
    (h : Leaves M step t) (hfree : shadowed.isEmpty → ¬s.HasFree wanted [] t) :
    Leaves M (do
      let result ← step
      if shadowed.isEmpty then
        modify (·.insert t result)
      return result) t := by
  refine leaves_bind h ?_
  split
  · rename_i hshadowed
    refine leaves_bind (a := PUnit.unit) (fun cache hcache => ⟨_, rfl, ?_⟩) (leaves_pure t)
    exact M.insert hcache ht (hfree hshadowed)
  · exact leaves_pure t

/-- Only types of small ids are walked, and only those need be tidy. -/
theorem leaves_instantiateAt {below : Nat} (hs : s.Formed)
    (htidy : ∀ u : TypeId, u.index < below → (s.node u).Tidy s.numbers)
    (hσ : ∀ name, σ.contains name → wanted name) (depth : Nat) (ht : s.Closed AnyName t)
    (hbelow : t.index < below) (hbound : bound ⊆ shadowed) (hfree : ¬s.HasFree wanted bound t) :
    Leaves M (instantiateAt depth σ shadowed t) t := by
  have hunbound : ∀ {bound shadowed : List String}, bound ⊆ shadowed → shadowed.isEmpty → bound = [] :=
    fun hbound hshadowed => List.subset_nil.mp (List.isEmpty_iff.mp hshadowed ▸ hbound)
  induction depth generalizing t shadowed bound with
  | zero =>
      unfold instantiateAt
      refine leaves_remembered (fun hshadowed => ?_) fun _ => leaves_pure t
      obtain rfl := hunbound hbound hshadowed
      exact hfree
  | succ depth ih =>
      have hparam : ∀ {u : TypeId} {info : TypeParam}, s.node u = .param info →
          ¬s.HasFree wanted bound u → lookup? σ shadowed info.name = none := by
        intro u info hn hfree
        unfold lookup?
        split
        · rfl
        · rename_i hmem
          by_contra hfound
          refine hfree (.here hn (fun hb => hmem (by simpa using hbound hb)) (hσ _ ?_))
          exact Option.isSome_iff_ne_none.mpr hfound
      have hunder : ∀ {names c}, (names, c) ∈ (s.node t).scopes → ¬s.HasFree wanted (names ++ bound) c :=
        fun hc h => hfree (.within hc h)
      have hinner : LeavesScopes M (instantiateAt depth) σ shadowed (s.node t) := by
        intro names c hc
        have hcomponent := Node.mem_components_of_mem_scopes hc
        refine ih (ht.node.components c hcomponent)
          (Nat.lt_trans (hs.descends t ht.known c hcomponent) hbelow) ?_ (hunder hc)
        exact List.append_subset.mpr ⟨List.subset_append_right _ _,
          List.Subset.trans hbound (List.subset_append_left _ _)⟩
      have hsplit : ∀ c, ([], c) ∈ (s.node t).scopes → replacement? s σ shadowed c = none := by
        intro c hc
        unfold replacement?
        split
        · rename_i info hn
          rw [hparam hn (hunder hc)]
          rfl
        · rfl
      have hfree' : shadowed.isEmpty → ¬s.HasFree wanted [] t := fun hshadowed => by
        obtain rfl := hunbound hbound hshadowed
        exact hfree
      unfold instantiateAt
      refine leaves_remembered hfree' fun _ => leaves_remember ht ?_ hfree'
      exact leaves_node hs (htidy t hbelow) ht.known hinner (fun info hn => hparam hn hfree) hsplit

end walk

end Instantiation

section instances

open Instantiation

variable {s : Store} {t source key : TypeId} {info : TypeParam}

/-- A substitution for names that are not free in a type leaves the type as it is. -/
theorem Build.instantiate_of_not_free {σ : Substitution} {wanted : String → Prop} (hs : s.Formed)
    (htidy : s.Tidy) (hσ : ∀ name, σ.contains name → wanted name) (ht : t.index < s.size)
    (hfree : ¬s.HasFree wanted [] t) : Build.instantiate σ t s = (t, s) := by
  unfold Build.instantiate
  split
  · rfl
  · obtain ⟨cache, hrun, -⟩ := leaves_instantiateAt (M := .unchanged s wanted) hs
      (fun u _ => htidy u) hσ maxDepth (hs.closed_of_known ht) ht (List.Subset.refl []) hfree ∅
      fun t r h => by simp at h
    change ((instantiateAt maxDepth σ [] t ∅ s).1.1, (instantiateAt maxDepth σ [] t ∅ s).2) = _
    rw [hrun]

/-- An access at a parameter that is not free in the object. -/
theorem Build.instantiate_access (hs : s.Formed) (htidy : s.Tidy)
    (hn : s.node t = .indexAccess source key) (hkey : s.node key = .param info)
    (hfree : ¬s.HasFree (· = info.name) [] source) (u : TypeId) :
    Build.instantiate (Substitution.empty.insert info.name u) t s =
      s.intern (.indexAccess source u) := by
  have hknown : t.index < s.size := known_of_node hn (by simp)
  have hsource : source.index < s.size :=
    Nat.lt_trans (hs.descends t hknown source (by rw [hn]; simp [Node.components])) hknown
  have hσ : ∀ name, (Substitution.empty.insert info.name u).contains name → name = info.name := by
    intro name h
    by_contra hne
    rw [Substitution.contains, Substitution.get?_insert, if_neg hne] at h
    cases h
  have hempty : (Substitution.empty.insert info.name u).isEmpty = false := rfl
  have hfixed := hs.not_isFixed hn (by simp) (by simp) (by simp)
  obtain ⟨cache, hrun, hcache⟩ := leaves_instantiateAt (M := .unchanged s _) hs (fun u _ => htidy u)
    hσ (maxDepth - 1) (hs.closed_of_known hsource) hsource (List.Subset.refl []) hfree ∅
    fun t r h => by simp at h
  have hnew : cache[key]? = none := by
    cases hr : cache[key]? with
    | none => rfl
    | some r => exact absurd (.here hkey (by simp) rfl) (hcache key r hr).2
  have hreplaced := instantiateAt_replaced hs hkey (σ := Substitution.empty.insert info.name u)
    (u := u) (by simp [Substitution.get?_insert]) hnew (maxDepth - 2)
  let walk := instantiateAt (maxDepth - 1) (Substitution.empty.insert info.name u) []
  have hwalk : walk source ∅ s = ((source, cache), s) := hrun
  have hwalk' : walk key cache s = ((u, cache.insert key u), s) := hreplaced
  rw [instantiate_run hempty hfixed, hn]
  change (let x := walk source ∅ s; let y := walk key x.1.2 x.2
    y.2.intern (.indexAccess x.1.1 y.1.1)) = _
  simp only [hwalk, hwalk']

end instances

end TypeResolution
