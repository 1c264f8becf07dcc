import TypeResolution.Inference.Basic
import TypeResolution.Proofs.Replay.Substitution

/-!
Inference follows, also in an environment that agrees on the aliases that can be reached.
-/

namespace TypeResolution

variable {P : String → Prop} {L : Replay.Link} {exact : Prop} {f : Renaming} {s s' : Store}
  {t : TypeId} {ts : List TypeId}

/-- Two environments that agree on the names in `P`, which name nothing else in turn. -/
structure Environment.Agrees (P : String → Prop) (s : Store) (env env' : Environment) : Prop where
  get_eq : ∀ name, P name → env'.get? name = env.get? name
  body : ∀ name a, P name → env.get? name = some a → s.Closed P a.body
  default : ∀ name a, P name → env.get? name = some a →
    ∀ p ∈ a.params, ∀ t, p.default = some t → s.Closed P t

theorem Environment.Agrees.mono {env env' : Environment} (h : env.Agrees P s env')
    (hs : s.Extends s') : env.Agrees P s' env' where
  get_eq := h.get_eq
  body name a hname ha := hs.closed (h.body name a hname ha)
  default name a hname ha p hp t ht := hs.closed (h.default name a hname ha p hp t ht)

namespace Inference

theorem Problem.find?_map (p p' : Problem) (hp : p'.params = p.params.map (·.mapIds f))
    (name : String) : p'.find? name = (p.find? name).map (·.mapIds f) := by
  rw [Problem.find?, hp, List.find?_map]
  rfl

theorem searched_mapIds (f : TypeId → TypeId) (n : Node) :
    searched (n.mapIds f) = (searched n).map f := by
  have hparts := n.components_mapIds f
  cases n with
  | mapped m => rfl
  | _ => exact hparts

theorem mentionsAt_mirror (h : s.Mirrors exact f s') {p p' : Problem}
    (hp : p'.params = p.params.map (·.mapIds f)) {depth : Nat} (ht : s.Closed P t) :
    mentionsAt p' s' depth (f t) = mentionsAt p s depth t := by
  induction depth generalizing t with
  | zero => rfl
  | succ depth ih =>
      have hparts : ∀ n : Node, n.Closed P s →
          (searched (n.mapIds f)).any (mentionsAt p' s' depth) =
            (searched n).any (mentionsAt p s depth) := by
        intro n hn
        rw [searched_mapIds]
        refine any_map_congr fun c hc => ih (hn.components c ?_)
        cases n with
        | mapped m =>
            simp only [searched, List.mem_cons, List.not_mem_nil, or_false] at hc
            rcases hc with rfl | rfl <;> simp [Node.components]
        | _ => exact hc
      unfold mentionsAt
      rw [h.node ht, f.isFixed]
      have hnode := ht.node
      cases hn : s.node t with
      | param info =>
          simp only [Node.mapIds, TypeParam.mapIds, Problem.find?_map p p' hp, Option.isSome_map]
      | _ =>
          rw [hn] at hnode
          have hparts := hparts _ hnode
          simp only [Node.mapIds] at hparts
          simp only [Node.mapIds, hparts]

theorem mentionsAt_eq (h : s.Extends s') (p p' : Problem) (hp : p.params = p'.params) {depth : Nat}
    (ht : s.Closed P t) : mentionsAt p' s' depth t = mentionsAt p s depth t :=
  mentionsAt_mirror (Store.Mirrors.of_extends h)
    (hp.symm.trans ((List.map_congr_left fun p _ => p.mapIds_same).trans (List.map_id _)).symm) ht

theorem distinct_map (f : TypeId → TypeId) (params : List TypeParam) :
    distinct (params.map (·.mapIds f)) = (distinct params).map (·.mapIds f) := by
  have hfold : ∀ l done : List TypeParam,
      (l.map (·.mapIds f)).foldl (fun done p =>
        if done.any (·.name = p.name) then done else done ++ [p]) (done.map (·.mapIds f)) =
      (l.foldl (fun done p =>
        if done.any (·.name = p.name) then done else done ++ [p]) done).map (·.mapIds f) := by
    intro l
    induction l with
    | nil => exact fun done => rfl
    | cons p rest ih =>
        intro done
        have hany : (done.map (·.mapIds f)).any (·.name = (p.mapIds f).name) =
            done.any (·.name = p.name) := any_map_congr fun _ _ => rfl
        simp only [List.map_cons, List.foldl_cons, hany]
        split
        · exact ih done
        · rw [← ih (done ++ [p]), List.map_append, List.map_singleton]
  exact hfold params []

theorem mem_addMissing {candidates : List TypeId} {u : TypeId}
    (h : u ∈ addMissing candidates t) : u ∈ candidates ∨ u = t := by
  unfold addMissing at h
  split at h
  · exact .inl h
  · simpa using h

theorem addMissing_map (f : Renaming) (candidates : List TypeId) (t : TypeId) :
    addMissing (candidates.map f) (f t) = (addMissing candidates t).map f := by
  rw [addMissing, TypeId.contains_map, addMissing]
  split
  · rfl
  · rw [List.map_append, List.map_singleton]

/-- The pool with other ids. -/
def Pool.mapIds (f : TypeId → TypeId) (p : Pool) : Pool :=
  { p with candidates := p.candidates.map f }

theorem Pool.mapIds_same (p : Pool) : p.mapIds (fun t => t) = p := by
  simp [Pool.mapIds]

theorem Pool.mapIds_injective {f : TypeId → TypeId} (hf : Function.Injective f) :
    Function.Injective (Pool.mapIds f) := by
  rintro ⟨names, candidates⟩ ⟨names', candidates'⟩ h
  obtain ⟨hnames, hcandidates⟩ := Pool.mk.inj h
  have hcandidates := List.map_injective_iff.mpr hf hcandidates
  congr

theorem addTo_map (f : Renaming) (name : String) (t : TypeId) (pools : List Pool) :
    addTo name (f t) (pools.map (·.mapIds f)) = (addTo name t pools).map (·.mapIds f) := by
  simp only [addTo, List.map_map]
  refine List.map_congr_left fun p _ => ?_
  simp only [Function.comp_apply, Pool.mapIds, addMissing_map]
  split <;> rfl

theorem find?_pools_map (f : TypeId → TypeId) (name : String) (pools : List Pool) :
    (pools.map (·.mapIds f)).find? (·.names.contains name) =
      (pools.find? (·.names.contains name)).map (·.mapIds f) := by
  rw [List.find?_map]
  rfl

theorem merge_map (f : Renaming) (first second : String) (pools : List Pool) :
    merge first second (pools.map (·.mapIds f)) =
      (merge first second pools).map (·.mapIds f) := by
  have hinj : ∀ p q : Pool, p.mapIds f = q.mapIds f ↔ p = q :=
    fun _ _ => (Pool.mapIds_injective f.injective).eq_iff
  have hfold : ∀ l done : List TypeId, (l.map f).foldl addMissing (done.map f) =
      (l.foldl addMissing done).map f := by
    intro l
    induction l with
    | nil => exact fun done => rfl
    | cons t rest ih =>
        intro done
        simp only [List.map_cons, List.foldl_cons, addMissing_map, ih]
  unfold merge
  simp only [find?_pools_map]
  cases pools.find? (·.names.contains first) with
  | none => rfl
  | some p =>
      cases pools.find? (·.names.contains second) with
      | none => rfl
      | some q =>
          simp only [Option.map_some, hinj]
          split
          · rfl
          · have hrest : (pools.map (·.mapIds f)).filter
                (fun r => r ≠ p.mapIds f && r ≠ q.mapIds f) =
                (pools.filter (fun r => r ≠ p && r ≠ q)).map (·.mapIds f) :=
              filter_map_congr fun r _ => by simp only [ne_eq, hinj]
            rw [hrest, List.map_cons]
            refine congrArg (· :: _) ?_
            simp only [Pool.mapIds, hfold]

theorem candidatesOf_map (f : TypeId → TypeId) (pools : List Pool) (name : String) :
    candidatesOf (pools.map (·.mapIds f)) name = (candidatesOf pools name).map f := by
  unfold candidatesOf
  rw [find?_pools_map]
  cases pools.find? (·.names.contains name) <;> rfl

theorem covers_mirror (h : s.Mirrors exact f s') {fixed : TypeId} (ht : s.Closed P t) :
    covers s' (f fixed) (f t) = covers s fixed t := by
  simp only [covers, h.node ht, f.eq_iff]
  cases s.node t with
  | literal value =>
      simp only [Node.mapIds, eq_comm (a := value.primitive), f.eq_primitive]
  | _ => rfl

theorem primitiveClasses?_mirror (h : s.Mirrors exact f s') (ht : s.Closed P t) :
    primitiveClasses? s' (f t) = primitiveClasses? s t := by
  rw [primitiveClasses?, h.unionMembers ht, List.mapM_map]
  exact mapM_congr_of_mem fun u hu =>
    Normal.primitiveClass?_mirror h (Store.closed_of_mem_unionMembers ht hu)

theorem exclusive_mirror (h : s.Mirrors exact f s') {u : TypeId} (ht : s.Closed P t)
    (hu : s.Closed P u) : exclusive s' (f t) (f u) = exclusive s t u := by
  simp only [exclusive, primitiveClasses?_mirror h ht, primitiveClasses?_mirror h hu]

section recorded

variable {C : Store → TypeId → Prop} {pools : List Pool}

/-- All candidates are as `C` says. -/
def Recorded (C : Store → TypeId → Prop) (s : Store) (pools : List Pool) : Prop :=
  ∀ pool ∈ pools, ∀ t ∈ pool.candidates, C s t

theorem Recorded.addTo (hpools : Recorded C s pools) (ht : C s t) (name : String) :
    Recorded C s (addTo name t pools) := by
  intro pool hpool
  obtain ⟨old, hold, rfl⟩ := List.mem_map.mp hpool
  split
  · intro u hu
    rcases mem_addMissing hu with hu | rfl
    · exact hpools old hold u hu
    · exact ht
  · exact hpools old hold

theorem Recorded.merge (hpools : Recorded C s pools) (first second : String) :
    Recorded C s (merge first second pools) := by
  unfold Inference.merge
  split
  · rename_i p q hfirst hsecond
    have hfold : ∀ (l done : List TypeId), (∀ u ∈ l, C s u) → (∀ u ∈ done, C s u) →
        ∀ u ∈ l.foldl addMissing done, C s u := by
      intro l
      induction l with
      | nil => exact fun done _ hdone => hdone
      | cons a rest ih =>
          intro done hl hdone
          refine ih _ (fun u hu => hl u (by simp [hu])) fun u hu => ?_
          rcases mem_addMissing hu with hu | rfl
          · exact hdone u hu
          · exact hl u (by simp)
    split
    · exact hpools
    · intro pool hpool
      rcases List.mem_cons.mp hpool with rfl | hpool
      · exact hfold _ _ (hpools q (List.mem_of_find?_eq_some hsecond))
          (hpools p (List.mem_of_find?_eq_some hfirst))
      · exact hpools pool (List.mem_of_mem_filter hpool)
  · exact hpools

theorem Recorded.of_mem_candidatesOf (hpools : Recorded C s pools) {name : String}
    (ht : t ∈ candidatesOf pools name) : C s t := by
  unfold candidatesOf at ht
  cases hfind : pools.find? (·.names.contains name) with
  | none =>
      rw [hfind] at ht
      simp at ht
  | some pool =>
      simp only [hfind, Option.map_some, Option.getD_some] at ht
      exact hpools pool (List.mem_of_find?_eq_some hfind) t ht

end recorded

end Inference

/-- The alias with other ids. -/
def Alias.mapIds (f : TypeId → TypeId) (a : Alias) : Alias :=
  { a with params := a.params.map (·.mapIds f), body := f a.body }

theorem Alias.mapIds_same (a : Alias) : a.mapIds (fun t => t) = a := by
  simp [Alias.mapIds, TypeParam.mapIds_same]

/-- The conflict with other ids. -/
def Inference.Conflict.mapIds (f : TypeId → TypeId) (c : Inference.Conflict) : Inference.Conflict :=
  { c with first := f c.first, second := f c.second }

namespace Replay

open Store Inference

instance : Value P TypeParam where
  image := TypeParam.mapIds
  Ok s p := Ok P s p.constraint ∧ Ok P s p.default
  mono h hp := ⟨Value.mono h hp.1, Value.mono h hp.2⟩
  image_same := TypeParam.mapIds_same

instance : Value P Alias where
  image := Alias.mapIds
  Ok s a := s.Closed P a.body ∧ Ok P s a.params
  mono h ha := ⟨h.closed ha.1, Value.mono h ha.2⟩
  image_same := Alias.mapIds_same

instance : Value P Pool where
  image := Pool.mapIds
  Ok s pool := ∀ t ∈ pool.candidates, s.Closed P t
  mono h hp t ht := h.closed (hp t ht)
  image_same := Pool.mapIds_same

instance : Value P Conflict where
  image := Conflict.mapIds
  Ok s c := s.Closed P c.first ∧ s.Closed P c.second
  mono h hc := ⟨h.closed hc.1, h.closed hc.2⟩
  image_same _ := rfl

/-- The environments of two runs. They agree on the aliases that may be named, which name nothing
else in turn. -/
structure Agree (L : Link) (s : Store) (env env' : Environment) : Prop where
  get_eq : ∀ name, L.names name → env'.get? name = (env.get? name).map (·.mapIds L)
  body : ∀ name a, L.names name → env.get? name = some a → s.Closed L.names a.body
  default : ∀ name a, L.names name → env.get? name = some a →
    ∀ p ∈ a.params, ∀ t, p.default = some t → s.Closed L.names t

theorem Agree.mono {env env' : Environment} (h : Agree L s env env') (hs : s.Extends s') :
    Agree L s' env env' where
  get_eq := h.get_eq
  body name a hname ha := hs.closed (h.body name a hname ha)
  default name a hname ha p hp t ht := hs.closed (h.default name a hname ha p hp t ht)

theorem Agree.of_agrees {env env' : Environment} {calm : Prop} (h : env.Agrees P s env') : Agree (.plain P calm) s env env' where
  get_eq name hname := by
    rw [h.get_eq name hname]
    cases env.get? name with
    | none => rfl
    | some a => exact congrArg some a.mapIds_same.symm
  body := h.body
  default := h.default

theorem ok_addTo {pools : List Pool} (hp : Ok P s pools) (ht : s.Closed P t) (name : String) :
    Ok P s (addTo name t pools) :=
  Recorded.addTo (C := fun s => s.Closed P) hp ht name

theorem ok_merge {pools : List Pool} (hp : Ok P s pools) (first second : String) :
    Ok P s (merge first second pools) :=
  Recorded.merge (C := fun s => s.Closed P) hp first second

theorem closed_of_mem_candidatesOf {pools : List Pool} (hp : Ok P s pools) {name : String}
    (ht : t ∈ candidatesOf pools name) : s.Closed P t :=
  Recorded.of_mem_candidatesOf (C := fun s => s.Closed P) hp ht

theorem follows_widenAt (fuel : Nat) (ht : s.Closed L.names t) :
    Follows L s (widenAt fuel t) (widenAt fuel (L t)) := by
  induction fuel generalizing s t with
  | zero => exact pure_value ht
  | succ fuel ih =>
      refine bind_value (follows_node ht) fun s₁ h₁ hs₁ n hn => ?_
      have hpart : ∀ s₂, s₁.Extends s₂ → ∀ u ∈ n.components,
          Follows L s₂ (widenAt fuel u) (widenAt fuel (L u)) :=
        fun s₂ h₂ u hu => ih (h₂.closed (hn.components u hu))
      cases n with
      | literal value => exact pure_fixed hs₁ (Renaming.isFixed_primitive value)
      | union members =>
          exact bind_value (follows_mapM_map fun m hm s₂ h₂ => hpart s₂ h₂ m hm)
            fun s₂ _ _ us hus => follows_union hus
      | object shape =>
          refine bind_value (follows_mapM_map fun f hf s₂ h₂ => ?_) fun s₂ h₂ _ fields hfields => ?_
          · have hc : f.type ∈ (Node.object shape).components :=
              List.mem_append_left _ (List.mem_map_of_mem hf)
            refine follows_ite (fun _ => pure_value (a := f) (h₂.closed (hn.components _ hc)))
              fun _ => ?_
            exact bind_value (hpart s₂ h₂ _ hc) fun s₃ _ _ u hu =>
              pure_value (a := { f with type := u }) hu
          · refine follows_object (o := { shape with fields := fields }) hfields
              fun u hu => h₂.closed (hn.components u ?_)
            exact List.mem_append_right _ (Option.mem_toList.mpr hu)
      | array element =>
          exact bind_value (hpart s₁ (.refl _) element (by simp [Node.components]))
            fun s₂ _ _ u hu => follows_array hu
      | function shape =>
          refine bind_value (hpart s₁ (.refl _) shape.result (by simp [Node.components]))
            fun s₂ h₂ _ u hu => follows_function (fun v hv => h₂.closed (hn.components v ?_)) hu
          exact List.mem_append_left _ hv
      | _ => exact pure_value (h₁.closed ht)

/-- The id of the second run bounds the walk of the first one as well. -/
theorem follows_widen (ht : s.Closed L.names t) :
    Follows L s (widen t) (widen (L t)) := fun hs =>
  (follows_widenAt ((L t).index + 1) ht hs).congr
    (hs.widenAt_eq_widen ht.known (Nat.lt_succ_of_le L.rename.index_le))

theorem follows_expandAt {env env' : Environment} (henv : Agree L s env env') {n : Nat}
    (ht : s.Closed L.names t) : Follows L s (expandAt env n t) (expandAt env' n (L t)) := by
  induction n generalizing s t with
  | zero => exact pure_value ht
  | succ n ih =>
      refine bind_value (follows_node ht) fun s₁ h₁ hs₁ node hnode => ?_
      have henv₁ := henv.mono h₁
      cases node with
      | reference name args =>
          have hname := hnode.names name args rfl
          simp only [image_node, Node.mapIds, henv.get_eq name hname]
          cases ha : env.get? name with
          | none => exact pure_value (h₁.closed ht)
          | some a =>
              have hσ := ok_ofArgs hs₁ (henv₁.default name a hname ha) hnode.components
              have hbody := follows_instantiate hσ (henv₁.body name a hname ha)
              rw [← Substitution.ofArgs_mapIds] at hbody
              exact bind_value hbody fun s₂ h₂ _ u hu => ih (henv₁.mono h₂) hu
      | _ => exact pure_value (h₁.closed ht)

section walk

variable {env env' : Environment} {params : List TypeParam} {literals strict : Bool}
  {inner inner' : Inference.Inner}

/-- The problem of the second run. -/
abbrev renamed (L : Link) (env' : Environment) (params : List TypeParam) (literals : Bool) :
    Problem :=
  ⟨env', params.map (·.mapIds L), literals⟩

theorem mentions_mirror (env env' : Environment) (params : List TypeParam) (literals : Bool)
    (hs : s.Mirrors L.exact L.rename s') (ht : s.Closed P t) :
    mentions (renamed L env' params literals) s' (L t) = mentions ⟨env, params, literals⟩ s t :=
  mentionsAt_mirror hs rfl ht

/-- Walking components follows from `s` on. -/
def Walks (L : Link) (s : Store) (inner inner' : Inference.Inner) : Prop :=
  ∀ s₁, s.Extends s₁ → ∀ strict target source, s₁.Closed L.names target → s₁.Closed L.names source →
    Follows L s₁ (inner strict target source) (inner' strict (L target) (L source))

theorem Walks.mono (h : Walks L s inner inner') (hs : s.Extends s') : Walks L s' inner inner' :=
  fun s₁ h₁ => h s₁ (hs.trans h₁)

theorem follows_addCandidate {info : TypeParam} (ht : s.Closed L.names t) :
    Follows L s (addCandidate ⟨env, params, literals⟩ strict info t)
      (addCandidate (renamed L env' params literals) strict (info.mapIds L) (L t)) := by
  have hadd : ∀ s₁ u, s₁.Closed L.names u → Follows L s₁
      (modify (addTo info.name u) : Inferring PUnit) (modify (addTo info.name (L u))) := by
    intro s₁ u hu
    refine follows_modify fun x y hxy => ?_
    obtain ⟨rfl, hx⟩ := hxy
    exact ⟨addTo_map L.rename _ _ _, ok_addTo hx hu _⟩
  unfold addCandidate
  refine follows_ite (fun _ => ?_) fun _ => ?_
  · exact bind_value (pure_value ht) fun s₁ _ _ u hu => hadd s₁ u hu
  · exact bind_value (Runs.lift (follows_widen ht)) fun s₁ _ _ u hu => hadd s₁ u hu

theorem follows_walkAll {pairs : List (TypeId × TypeId)} {walk walk' : TypeId → TypeId → Inferring Bool}
    (h : ∀ x ∈ pairs, ∀ s₁, s.Extends s₁ → Follows L s₁ (walk x.1 x.2) (walk' (L x.1) (L x.2))) :
    Follows L s (walkAll walk pairs) (walkAll walk' (pairs.map L.both)) := by
  induction pairs generalizing s with
  | nil => exact pure_value trivial
  | cons x rest ih =>
      refine bind_value (h x (by simp) s (.refl s)) fun s₁ h₁ _ here _ => ?_
      refine bind_value (ih fun y hy s₂ h₂ => h y (by simp [hy]) s₂ (h₁.trans h₂))
        fun s₂ _ _ others _ => pure_value (a := here && others) trivial

theorem follows_walkAny {pairs : List (TypeId × TypeId)} {walk walk' : TypeId → TypeId → Inferring Bool}
    (h : ∀ x ∈ pairs, ∀ s₁, s.Extends s₁ → Follows L s₁ (walk x.1 x.2) (walk' (L x.1) (L x.2))) :
    Follows L s (walkAny walk pairs) (walkAny walk' (pairs.map L.both)) := by
  induction pairs generalizing s with
  | nil => exact pure_value trivial
  | cons x rest ih =>
      refine bind_value (h x (by simp) s (.refl s)) fun s₁ h₁ _ here _ => ?_
      refine bind_value (ih fun y hy s₂ h₂ => h y (by simp [hy]) s₂ (h₁.trans h₂))
        fun s₂ _ _ others _ => pure_value (a := here || others) trivial

theorem follows_toUnion (hi : Walks L s inner inner') (hts : ∀ t ∈ ts, s.Closed L.names t)
    (ht : s.Closed L.names t) :
    Follows L s (toUnion ⟨env, params, literals⟩ inner strict ts t)
      (toUnion (renamed L env' params literals) inner' strict (ts.map L) (L t)) := by
  refine Runs.store fun s' hs' => ?_
  have hgeneric : (ts.map L).filter (mentions (renamed L env' params literals) s') =
      (ts.filter (mentions ⟨env, params, literals⟩ s)).map L :=
    filter_map_congr fun u hu => mentions_mirror _ _ _ _ hs' (hts u hu)
  have hfixed : (ts.map L).filter (!mentions (renamed L env' params literals) s' ·) =
      (ts.filter (!mentions ⟨env, params, literals⟩ s ·)).map L :=
    filter_map_congr fun u hu => congrArg (!·) (mentions_mirror _ _ _ _ hs' (hts u hu))
  have hleft : ∀ fixed : List TypeId,
      ((s'.unionMembers (L t)).filter fun m => !(fixed.map L).any (covers s' · m)) =
        ((s.unionMembers t).filter fun m => !fixed.any (covers s · m)).map L := by
    intro fixed
    rw [hs'.unionMembers ht]
    refine filter_map_congr fun m hm => ?_
    have hm := closed_of_mem_unionMembers ht hm
    exact congrArg (!·) (any_map_congr fun u _ => covers_mirror hs' hm)
  simp only [hgeneric, hfixed, hleft, List.isEmpty_map]
  have hleft : ∀ m ∈ (s.unionMembers t).filter fun m =>
      !(ts.filter (!mentions ⟨env, params, literals⟩ s ·)).any (covers s · m), s.Closed L.names m :=
    fun m hm => closed_of_mem_unionMembers ht (List.mem_of_mem_filter hm)
  have hgeneric : ∀ u ∈ ts.filter (mentions ⟨env, params, literals⟩ s), s.Closed L.names u :=
    fun u hu => hts u (List.mem_of_mem_filter hu)
  generalize (s.unionMembers t).filter _ = leftover at hleft
  generalize ts.filter (mentions ⟨env, params, literals⟩ s) = generic at hgeneric
  refine follows_ite (fun _ => pure_value (a := true) trivial) fun _ => ?_
  have hmany : Follows L s
      (do
        let found ← walkAny (inner true) (generic.flatMap fun t => leftover.map (t, ·))
        return found || !strict)
      (do
        let found ← walkAny (inner' true)
          ((generic.map L).flatMap fun t => (leftover.map L).map (t, ·))
        return found || !strict) := by
    have hpairs : (generic.map L).flatMap (fun t => (leftover.map L).map (t, ·)) =
        (generic.flatMap fun t => leftover.map (t, ·)).map L.both := by
      simp only [List.flatMap_map, List.map_flatMap, List.map_map]
      rfl
    rw [hpairs]
    refine bind_value (follows_walkAny fun x hx s₁ h₁ => ?_) fun s₁ _ _ found _ =>
      pure_value (a := found || !strict) trivial
    obtain ⟨u, hu, hx⟩ := List.mem_flatMap.mp hx
    obtain ⟨v, hv, rfl⟩ := List.mem_map.mp hx
    exact hi s₁ h₁ true u v (h₁.closed (hgeneric u hu)) (h₁.closed (hleft v hv))
  rcases generic with _ | ⟨single, _ | ⟨second, rest⟩⟩
  · exact hmany
  · refine bind_value (Runs.lift (follows_union hleft)) fun s₁ h₁ _ u hu => ?_
    exact hi s₁ h₁ strict single u (h₁.closed (hgeneric single (by simp))) hu
  · exact hmany

theorem follows_objects (hi : Walks L s inner inner') {target source : ObjectShape}
    (htarget : (Node.object target).Closed L.names s) (hsource : (Node.object source).Closed L.names s) :
    Follows L s (objects ⟨env, params, literals⟩ inner strict target source)
      (objects (renamed L env' params literals) inner' strict (target.mapIds L) (source.mapIds L)) := by
  have hfield : ∀ o : ObjectShape, (Node.object o).Closed L.names s → ∀ f ∈ o.fields, s.Closed L.names f.type :=
    fun o ho f hf => ho.components _ (List.mem_append_left _ (List.mem_map_of_mem hf))
  have hlast : ∀ s₁ (fields : List Bool) (b : Bool), Follows L s₁
      (pure (fields.all id && b) : Inferring Bool) (pure ((L.image fields).all id && L.image b)) := by
    intro s₁ fields b
    have hfields : L.image fields = fields := List.map_id _
    rw [hfields]
    exact pure_value (a := fields.all id && b) trivial
  refine bind_value (follows_mapM_map fun f hf s₁ h₁ => ?_) fun s₁ h₁ _ fields _ => ?_
  · have hf := h₁.closed (hfield target htarget f hf)
    have hfind : (source.mapIds L).find? (f.mapIds L).name =
        (source.find? f.name).map (·.mapIds L) := source.find?_mapIds L f.name
    rw [hfind]
    cases hfind : source.find? f.name with
    | some g =>
        have hg := h₁.closed (hfield source hsource g (List.mem_of_find?_eq_some hfind))
        exact hi s₁ h₁ strict _ _ hf hg
    | none =>
        refine Runs.store fun s' hs' => ?_
        have hmentions := mentions_mirror env env' params literals hs' hf
        simp only [Field.mapIds, hmentions]
        exact pure_value (a := f.optional || !mentions ⟨env, params, literals⟩ s₁ f.type || !strict)
          trivial
  · simp only [ObjectShape.mapIds]
    cases hindex : target.stringIndex with
    | none => exact bind_value (pure_value (a := true) trivial) fun s₂ _ _ b _ => hlast s₂ fields b
    | some u =>
        have hpairs : (((source.stringIndex.map L).toList ++
              (source.fields.map (·.mapIds L)).map (·.type)).map (L u, ·)) =
            ((source.stringIndex.toList ++ source.fields.map (·.type)).map (u, ·)).map L.both := by
          simp [Option.toList_map, Function.comp_def, Field.mapIds]
        simp only [Option.map_some, hpairs]
        refine bind_value (follows_walkAll fun x hx s₂ h₂ => ?_) fun s₂ _ _ b _ => hlast s₂ fields b
        obtain ⟨v, hv, rfl⟩ := List.mem_map.mp hx
        have hu : s.Closed L.names u :=
          htarget.components u (List.mem_append_right _ (Option.mem_toList.mpr hindex))
        have hv : s.Closed L.names v := hsource.components v (by
          simp only [Node.components, List.mem_append] at hv ⊢
          exact hv.symm)
        have h₁₂ := h₁.trans h₂
        exact hi s₂ h₁₂ strict u v (h₁₂.closed hu) (h₁₂.closed hv)

theorem follows_texts (hi : Walks L s inner inner') {spans : List Span}
    (hspans : ∀ t, Span.hole t ∈ spans → s.Closed L.names t) (text : String) :
    Follows L s (texts inner strict spans text)
      (texts inner' strict (spans.map (·.mapIds L)) text) := by
  unfold texts
  refine follows_ite (fun _ => pure_value (a := !strict) trivial) fun _ => ?_
  rw [Template.capture_map]
  cases hc : Template.capture spans text.toList with
  | none => exact pure_value (a := false) trivial
  | some captured =>
      refine bind_value (follows_mapM_map fun x hx s₁ h₁ => ?_) fun s₁ _ _ results _ => ?_
      · have hhole := hspans x.1 (Template.mem_spans_of_capture hc x hx)
        refine bind_value (Runs.lift (follows_stringLiteral x.2)) fun s₂ h₂ _ u hu => ?_
        exact hi s₂ (h₁.trans h₂) strict x.1 u ((h₁.trans h₂).closed hhole) hu
      · have hresults : L.image results = results := List.map_id _
        rw [hresults]
        exact pure_value (a := results.all id) trivial

theorem follows_walkNodes (hi : Walks L s inner inner') {target source : TypeId}
    (htarget : s.Closed L.names target) (hsource : s.Closed L.names source) :
    Follows L s (walkNodes ⟨env, params, literals⟩ inner strict target source)
      (walkNodes (renamed L env' params literals) inner' strict (L target) (L source)) := by
  refine bind_value (Runs.lift (follows_node htarget)) fun s₁ h₁ _ m hm => ?_
  refine bind_value (Runs.lift (follows_node (h₁.closed hsource))) fun s₂ h₂ _ n hn => ?_
  have hi₂ := hi.mono (h₁.trans h₂)
  have hm : m.Closed L.names s₂ := h₂.closedNode hm
  have htarget₂ := (h₁.trans h₂).closed htarget
  have hsource₂ := (h₁.trans h₂).closed hsource
  have hfail : Follows L s₂ (pure (!strict) : Inferring Bool) (pure (!strict)) :=
    pure_value (a := !strict) trivial
  have hpairs : ∀ pairs pairs' : List (TypeId × TypeId), pairs' = pairs.map L.both →
      (∀ x ∈ pairs, s₂.Closed L.names x.1 ∧ s₂.Closed L.names x.2) →
      Follows L s₂ (walkAll (inner strict) pairs) (walkAll (inner' strict) pairs') := by
    rintro pairs _ rfl hpairs
    refine follows_walkAll fun x hx s₃ h₃ => ?_
    exact hi₂ s₃ h₃ strict x.1 x.2 (h₃.closed (hpairs x hx).1) (h₃.closed (hpairs x hx).2)
  have hunion : ∀ members, n = .union members → Follows L s₂
      (walkAll (inner strict) (members.map (target, ·)))
      (walkAll (inner' strict) ((members.map L).map (L target, ·))) := by
    rintro members rfl
    refine hpairs _ _ (by simp [Function.comp_def]) fun x hx => ?_
    obtain ⟨u, hu, rfl⟩ := List.mem_map.mp hx
    exact ⟨htarget₂, hn.components u hu⟩
  have hzip : ∀ l r : List TypeId, (∀ u ∈ l, u ∈ m.components) → (∀ u ∈ r, u ∈ n.components) →
      ∀ x ∈ l.zip r, s₂.Closed L.names x.1 ∧ s₂.Closed L.names x.2 := by
    intro l r hl hr x hx
    obtain ⟨hxl, hxr⟩ := List.of_mem_zip hx
    exact ⟨hm.components _ (hl _ hxl), hn.components _ (hr _ hxr)⟩
  cases m with
  | union members => exact follows_toUnion hi₂ hm.components hsource₂
  | intersection members =>
      cases n with
      | union others => exact hunion others rfl
      | _ =>
          refine hpairs (members.map (·, source)) ((members.map L).map (·, L source))
            (by simp [Function.comp_def]) fun x hx => ?_
          obtain ⟨u, hu, rfl⟩ := List.mem_map.mp hx
          exact ⟨hm.components u hu, hsource₂⟩
  | object shape =>
      cases n with
      | union others => exact hunion others rfl
      | object other => exact follows_objects hi₂ hm hn
      | _ => exact hfail
  | function shape =>
      cases n with
      | union others => exact hunion others rfl
      | function other =>
          refine hpairs (shape.params.zip other.params ++ [(shape.result, other.result)])
            ((shape.params.map L).zip (other.params.map L) ++ [(L shape.result, L other.result)])
            (by simp [List.zip_map, Prod.map]) fun x hx => ?_
          rcases List.mem_append.mp hx with hx | hx
          · exact hzip _ _ (fun u hu => List.mem_append_left _ hu)
              (fun u hu => List.mem_append_left _ hu) x hx
          · rw [List.mem_singleton.mp hx]
            exact ⟨hm.components _ (List.mem_append_right _ (by simp)),
              hn.components _ (List.mem_append_right _ (by simp))⟩
      | _ => exact hfail
  | array element =>
      cases n with
      | union others => exact hunion others rfl
      | array other =>
          exact hi₂ s₂ (.refl _) strict _ _ (hm.components _ (by simp [Node.components]))
            (hn.components _ (by simp [Node.components]))
      | _ => exact hfail
  | reference name args =>
      cases n with
      | union others => exact hunion others rfl
      | reference other others =>
          refine follows_ite (fun _ => ?_) fun _ => hfail
          exact hpairs (args.zip others) ((args.map L).zip (others.map L))
            (by simp [List.zip_map, Prod.map]) (hzip _ _ (fun _ hu => hu) fun _ hu => hu)
      | _ => exact hfail
  | template spans =>
      cases n with
      | union others => exact hunion others rfl
      | literal value =>
          cases value with
          | string text =>
              refine follows_texts hi₂ (fun u hu => hm.components u ?_) text
              exact List.mem_filterMap.mpr ⟨_, hu, rfl⟩
          | _ => exact hfail
      | _ => exact hfail
  | _ =>
      cases n with
      | union others => exact hunion others rfl
      | _ => exact hfail

theorem follows_walkPair (henv : Agree L s env env') (hi : Walks L s inner inner')
    {target source : TypeId} (htarget : s.Closed L.names target) (hsource : s.Closed L.names source) :
    Follows L s (walkPair ⟨env, params, literals⟩ inner strict target source)
      (walkPair (renamed L env' params literals) inner' strict (L target) (L source)) := by
  refine bind_value (Runs.lift (follows_expandAt henv htarget)) fun s₁ h₁ _ t ht => ?_
  refine bind_value (Runs.lift (follows_expandAt (henv.mono h₁) (h₁.closed hsource)))
    fun s₂ h₂ _ u hu => ?_
  refine bind_value (Runs.lift (follows_node (h₂.closed ht))) fun s₃ h₃ _ m hm => ?_
  have hi₃ := hi.mono ((h₁.trans h₂).trans h₃)
  have ht₃ := (h₂.trans h₃).closed ht
  have hu₃ := h₃.closed hu
  have hfind := Problem.find?_map (f := L.rename) ⟨env, params, literals⟩
    (renamed L env' params literals) rfl
  cases m with
  | param info =>
      simp only [image_node, Node.mapIds, TypeParam.mapIds, hfind]
      cases hparam : (⟨env, params, literals⟩ : Problem).find? info.name with
      | none => exact follows_walkNodes hi₃ ht₃ hu₃
      | some info =>
          refine bind_value (Runs.lift (follows_node hu₃)) fun s₄ h₄ _ n hn => ?_
          have hadd : Follows L s₄
              (do addCandidate ⟨env, params, literals⟩ strict info u; return true)
              (do
                addCandidate (renamed L env' params literals) strict (info.mapIds L) (L u)
                return true) :=
            bind_value (follows_addCandidate (h₄.closed hu₃)) fun s₅ _ _ _ _ =>
              pure_value (a := true) trivial
          cases n with
          | param other =>
              simp only [image_node, Node.mapIds, TypeParam.mapIds]
              cases hparam : (⟨env, params, literals⟩ : Problem).find? other.name with
              | none => exact hadd
              | some other =>
                  refine bind_value (follows_modify fun x y hxy => ?_) fun s₅ _ _ _ _ =>
                    pure_value (a := true) trivial
                  obtain ⟨rfl, hx⟩ := hxy
                  exact ⟨merge_map L.rename _ _ _, ok_merge hx _ _⟩
          | _ => exact hadd
  | _ => exact follows_walkNodes hi₃ ht₃ hu₃

theorem walks_inferAt (henv : Agree L s env env') (depth : Nat) (active : List (TypeId × TypeId)) :
    Walks L s (inferAt ⟨env, params, literals⟩ depth active)
      (inferAt (renamed L env' params literals) depth (active.map L.both)) := by
  induction depth generalizing active with
  | zero => exact fun s₁ _ strict target source _ _ => pure_value (a := true) trivial
  | succ depth ih =>
      intro s₁ h₁ strict target source htarget hsource
      refine Runs.store fun s' hs' => ?_
      have hactive : (active.map L.both).contains (L target, L source) =
          active.contains (target, source) := by
        simp only [List.contains_eq_mem]
        exact decide_eq_decide.mpr (List.mem_map_of_injective L.both_injective (a := (target, source)))
      have hmentions := mentions_mirror env env' params literals hs' htarget
      simp only [hmentions, hactive, L.rename.eq_iff]
      refine follows_ite (fun _ => pure_value (a := true) trivial) fun _ => ?_
      refine follows_ite (fun _ => pure_value (a := true) trivial) fun _ => ?_
      exact follows_walkPair (henv.mono h₁) ((ih _).mono h₁) htarget hsource

theorem follows_inferFrom (params : List TypeParam) (literals strict : Bool)
    (henv : Agree L s env env') {target source : TypeId} (htarget : s.Closed L.names target) (hsource : s.Closed L.names source) :
    Follows L s (inferFrom ⟨env, params, literals⟩ strict target source)
      (inferFrom (renamed L env' params literals) strict (L target) (L source)) :=
  walks_inferAt henv Inference.maxDepth [] s (.refl s) strict target source htarget hsource

end walk

theorem follows_joinFrom {strict : Bool} {name : String} (ht : s.Closed L.names t)
    (hts : ∀ t ∈ ts, s.Closed L.names t) :
    Follows L s (joinFrom strict name t ts) (joinFrom strict name (L t) (ts.map L)) := by
  induction ts generalizing s t with
  | nil => exact pure_value ht
  | cons next rest ih =>
      have hnext := hts next (by simp)
      refine Runs.store fun s' hs' => ?_
      rw [exclusive_mirror hs' ht hnext]
      refine follows_ite (fun _ => ?_) fun _ => ?_
      · exact follows_throw (e := (⟨name, t, next⟩ : Conflict)) ⟨rfl, ht, hnext⟩
      · refine bind_value (Runs.lift (follows_union (closed_pair ht hnext))) fun s₁ h₁ _ u hu => ?_
        exact ih hu fun v hv => h₁.closed (hts v (by simp [hv]))

theorem follows_solve (strict : Bool) (name : String) {pools : List Pool} (hp : Ok L.names s pools) :
    Follows L s (solve strict name pools) (solve strict name (L.image pools)) := by
  have hmem : ∀ u ∈ candidatesOf pools name, s.Closed L.names u :=
    fun u hu => closed_of_mem_candidatesOf hp hu
  have hcandidates : candidatesOf (L.image pools) name = (candidatesOf pools name).map L :=
    candidatesOf_map L pools name
  unfold solve
  rw [hcandidates]
  generalize candidatesOf pools name = candidates at hmem
  cases candidates with
  | nil => exact pure_value (a := none) (by simp [Ok])
  | cons first rest =>
      refine bind_value (follows_joinFrom (hmem first (by simp)) fun u hu => hmem u (by simp [hu]))
        fun s₁ _ _ u hu => pure_value (a := some u) ?_
      rintro _ ⟨⟩
      exact hu

theorem ok_pools (p : Problem) : Ok P s p.pools := by
  intro pool hpool
  obtain ⟨info, _, rfl⟩ := List.mem_map.mp hpool
  exact fun u hu => absurd hu List.not_mem_nil

theorem pools_renamed (env env' : Environment) (params : List TypeParam) (literals : Bool) :
    (renamed L env' params literals).pools = L.image (⟨env, params, literals⟩ : Problem).pools := by
  change (params.map (·.mapIds L)).map _ = (params.map _).map (Pool.mapIds L)
  rw [List.map_map, List.map_map]
  rfl

theorem follows_matchPattern {env env' : Environment} {literals : Bool} {source pattern : TypeId}
    {names : List String} (henv : Agree L s env env') (hsource : s.Closed L.names source)
    (hpattern : s.Closed L.names pattern) :
    Follows L s (matchPattern env literals source pattern names)
      (matchPattern env' literals (L source) (L pattern) names) := by
  have hnames : (distinct (names.map .named)).map (·.mapIds L) = distinct (names.map .named) := by
    rw [← distinct_map, List.map_map]
    rfl
  have hwalk : Follows L s
      (inferFrom ⟨env, distinct (names.map .named), literals⟩ true pattern source)
      (inferFrom ⟨env', distinct (names.map .named), literals⟩ true (L pattern) (L source)) := by
    have hwalk := follows_inferFrom (distinct (names.map .named)) literals true henv hpattern hsource
    rwa [renamed, hnames] at hwalk
  have hpools := pools_renamed (L := L) env env' (distinct (names.map .named)) literals
  rw [renamed, hnames] at hpools
  refine Runs.bind (follows_run hwalk ⟨hpools, ok_pools _⟩) fun s₁ _ hs₁ a b hab => ?_
  obtain ⟨matched, pools⟩ := a
  obtain ⟨matched', pools'⟩ := b
  obtain ⟨⟨hmatched, _⟩, hpools, hpools₁⟩ := hab
  simp only at hmatched hpools hpools₁
  subst hmatched hpools
  refine follows_ite (fun _ => ?_) fun _ => pure_value (a := none) (by simp [Ok])
  refine bind_value (follows_foldlM (fun name _ s₂ h₂ σ σ' hσ => ?_) ⟨rfl, ok_emptySubstitution⟩)
    fun s₂ _ _ σ hσ => pure_value (a := some σ) ?_
  · obtain ⟨rfl, hσ⟩ := hσ
    refine Runs.ofFormed fun hs₂ => ?_
    refine Runs.bind (follows_solve true name (Value.mono h₂ hpools₁))
      fun s₃ h₃ hs₃ r r' hr => ?_
    have hbind : ∀ u, s₃.Closed L.names u → Follows L s₃ (pure (σ.insert name u) : Build Substitution)
        (pure ((σ.mapIds L).insert name (L u))) := by
      intro u hu
      rw [σ.insert_mapIds]
      exact pure_value (ok_insertBinding (Value.mono h₃ hσ) hu name)
    have hunknown := hbind .unknown (hs₃.closed_fixed rfl)
    rw [L.rename.fixed rfl] at hunknown
    cases hr with
    | error e => exact hunknown
    | ok h =>
        obtain ⟨rfl, hr⟩ := h
        rename_i o
        cases o with
        | none => exact hunknown
        | some u => exact hbind u (hr u rfl)
  · rintro _ ⟨⟩
    exact hσ

end Replay

end TypeResolution
