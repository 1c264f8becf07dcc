import TypeResolution.Proofs.Tags.Basic

/-!
Normal forms, substitution and inference give the same whatever the source tags are. A conflict in
an intersection is told alike, wherever it is reported.
-/

namespace TypeResolution.Tags

section normal

open TypeResolution.Normal

theorem agree_union (members : List TypeId) :
    Agree (Build.union members) (Build.union members) := by
  refine beside_store (M := Build) fun s s' hs => ?_
  rw [hs.unionLeaves, hs.absorbLiterals, hs.numbers_eq]
  refine beside_ite (agree_pure _) (beside_ite (agree_pure _) (beside_ite (agree_pure _) ?_))
  split
  · exact agree_pure _
  · exact agree_pure _
  · exact agree_intern _

theorem agree_text (t : TypeId) : Agree (Build.text t) (Build.text t) :=
  fun _ _ hs => ⟨hs, by rw [Build.text, Build.text, hs.text]⟩

variable {meet meet' : List TypeId → Reporting TypeId} {site site' : Option SourceTag}
  {ts : List TypeId}

theorem agree_reportConflict (name : String) (first second : Owned) :
    Agree (reportConflict site name first second) (reportConflict site' name first second) := by
  refine agree_bind (agree_lift (agree_text _)) fun firstText => ?_
  refine agree_bind (agree_lift (agree_text _)) fun secondText => ?_
  refine settle_bind (Blind.lift (settle_origin _)) fun firstTag firstTag' => ?_
  exact settle_bind (Blind.lift (settle_origin _)) fun secondTag secondTag' =>
    agree_report (by simp)

section

variable (hm : ∀ ts, Agree (meet ts) (meet' ts))

include hm

theorem agree_meetFields (old new : Owned) :
    Agree (meetFields meet site old new) (meetFields meet' site' old new) := by
  have hrest : ∀ t, Agree (do
      if t = .never && old.field.type ≠ .never && new.field.type ≠ .never then
        reportConflict site new.field.name old new
      return { old with
        field := { old.field with
          type := t
          optional := old.field.optional && new.field.optional
          readonly := old.field.readonly || new.field.readonly } } : Reporting Owned)
      (do
      if t = .never && old.field.type ≠ .never && new.field.type ≠ .never then
        reportConflict site' new.field.name old new
      return { old with
        field := { old.field with
          type := t
          optional := old.field.optional && new.field.optional
          readonly := old.field.readonly || new.field.readonly } }) := by
    intro t
    refine beside_ite ?_ (agree_pure _)
    exact agree_bind (agree_reportConflict _ _ _) fun _ => agree_pure _
  exact beside_ite (agree_bind (agree_pure _) hrest) (agree_bind (hm _) hrest)

theorem agree_mergeField (new : Owned) (fields : List Owned) :
    Agree (mergeField meet site new fields) (mergeField meet' site' new fields) := by
  induction fields with
  | nil => exact agree_pure _
  | cons old rest ih =>
      refine beside_ite ?_ (agree_bind ih fun _ => agree_pure _)
      exact agree_bind (agree_meetFields hm old new) fun _ => agree_pure _

theorem agree_mergeIndex (a b : Option TypeId) :
    Agree (mergeIndex meet a b) (mergeIndex meet' a b) := by
  cases a with
  | none => exact agree_pure _
  | some t =>
      cases b with
      | none => exact agree_pure _
      | some u => exact agree_bind (hm _) fun _ => agree_pure _

theorem agree_mergeObject (merged : List Owned × Option TypeId) (object : TypeId) :
    Agree (mergeObject meet site merged object) (mergeObject meet' site' merged object) := by
  refine beside_store fun s s' hs => ?_
  rw [hs.objectShape?]
  cases s.objectShape? object with
  | none => exact agree_pure _
  | some shape =>
      refine agree_bind (agree_foldlM (fun fields f => agree_mergeField hm _ fields) _) fun fields => ?_
      exact agree_bind (agree_mergeIndex hm _ _) fun _ => agree_pure _

theorem agree_mergeObjects :
    Agree (mergeObjects meet site ts) (mergeObjects meet' site' ts) := by
  refine agree_bind (agree_foldlM (agree_mergeObject hm) _) fun merged => ?_
  refine agree_bind (agree_lift (agree_intern _)) fun t => ?_
  refine agree_bind (agree_forM fun f => ?_) fun _ => agree_pure _
  exact agree_lift (agree_copyFieldOrigins _ _ _)

theorem agree_meetParts : Agree (meetParts meet site ts) (meetParts meet' site' ts) := by
  refine beside_store fun s s' hs => ?_
  rw [hs.reducePrimitives, hs.isObject]
  cases reducePrimitives s ts with
  | none => exact agree_pure _
  | some members =>
      have hrest : ∀ members : List TypeId, Agree (liftM (Build.rawIntersection members) :
          Reporting TypeId) (liftM (Build.rawIntersection members)) :=
        fun members => agree_lift (agree_rawIntersection members)
      refine beside_ite ?_ (agree_bind (agree_pure _) hrest)
      exact agree_bind (agree_mergeObjects hm) fun merged => agree_bind (agree_pure _) hrest

theorem agree_intersectionAt (nesting : Nat) (ts : List TypeId) :
    Agree (intersectionAt meet site nesting ts) (intersectionAt meet' site' nesting ts) := by
  induction nesting generalizing ts with
  | zero => exact agree_pure _
  | succ nesting ih =>
      refine beside_store fun s s' hs => ?_
      rw [hs.intersectionLeaves, hs.unionMembers?, hs.numbers_eq]
      cases absorbMeet (TypeId.sortUnique s.numbers (ts.flatMap s.intersectionLeaves)) with
      | inl t => exact agree_pure _
      | inr flat =>
          refine beside_ite (agree_meetParts hm) ?_
          exact agree_bind (agree_mapM ih) fun results => agree_lift (agree_union results)

end

theorem agree_intersectionIn (levels : Nat) (ts : List TypeId) :
    Agree (intersectionIn site levels ts) (intersectionIn site' levels ts) := by
  induction levels generalizing ts with
  | zero => exact agree_pure _
  | succ levels ih => exact agree_intersectionAt ih _ ts

theorem agree_intersection (ts : List TypeId) :
    Agree (Reporting.intersection site ts) (Reporting.intersection site' ts) :=
  agree_intersectionIn _ ts

theorem agree_buildIntersection (ts : List TypeId) :
    Agree (Build.intersection ts) (Build.intersection ts) := by
  have hmeet : Agree (Reporting.intersection none ts) (Reporting.intersection none ts) :=
    agree_intersection ts
  exact Blind.bind (hmeet #[] #[] rfl) fun x y hxy => Blind.pure hxy.1

theorem agree_rebuildObject (t : TypeId) (old new : ObjectShape) :
    Agree (rebuildObject t old new) (rebuildObject t old new) := by
  refine beside_ite (agree_pure _) ?_
  refine agree_bind (agree_intern _) fun rebuilt => ?_
  exact agree_bind (agree_copyFieldOrigins _ _ _) fun _ => agree_pure _

theorem agree_normalizeNode {inner : Option SourceTag → TypeId → Normalizing TypeId}
    (hi : ∀ site site' t, Agree (inner site t) (inner site' t)) (t : TypeId) (n : Node) :
    Agree (normalizeNode inner site t n) (normalizeNode inner site' t n) := by
  cases n with
  | union members =>
      exact agree_bind (agree_mapM (hi site site')) fun ts => agree_lift (agree_union ts)
  | intersection members =>
      refine settle_bind (Blind.lift (settle_origin _)) fun tag tag' => ?_
      refine agree_bind (agree_mapM (hi _ _)) fun ts => ?_
      exact beside_stateLift (agree_intersection ts)
  | object shape =>
      refine agree_bind (agree_mapM fun f => ?_) fun fields => ?_
      · exact agree_bind (hi _ _ _) fun _ => agree_pure _
      · refine agree_bind (agree_optionMapM (hi site site')) fun index => ?_
        exact agree_lift (agree_rebuildObject _ _ _)
  | function shape =>
      refine agree_bind (agree_mapM (hi site site')) fun params => ?_
      exact agree_bind (hi _ _ _) fun result => agree_lift (agree_intern _)
  | array element => exact agree_bind (hi _ _ _) fun t => agree_lift (agree_intern _)
  | _ => exact agree_pure _

theorem agree_normalizeAt (depth : Nat) (site site' : Option SourceTag) (t : TypeId) :
    Agree (normalizeAt depth site t) (normalizeAt depth site' t) := by
  induction depth generalizing site site' t with
  | zero =>
      unfold normalizeAt
      refine beside_ite (agree_pure _) (agree_bind beside_get fun cache => ?_)
      cases cache[t]? <;> exact agree_pure _
  | succ depth ih =>
      unfold normalizeAt
      refine beside_ite (agree_pure _) (agree_bind beside_get fun cache => ?_)
      cases cache[t]? with
      | some known => exact agree_pure _
      | none =>
          refine agree_bind (agree_lift (agree_node t)) fun n => ?_
          refine agree_bind (agree_normalizeNode ih t n) fun result => ?_
          refine agree_bind (agree_modify fun x y hxy => ?_) fun _ => agree_pure _
          obtain rfl : x = y := hxy
          rfl

theorem agree_normalize (site site' : Option SourceTag) (t : TypeId) :
    Agree (Reporting.normalize site t) (Reporting.normalize site' t) := by
  have hrun : Agree (normalizeAt maxDepth site t) (normalizeAt maxDepth site' t) :=
    agree_normalizeAt _ _ _ _
  exact Blind.bind (hrun {} {} rfl) fun x y hxy => Blind.pure hxy.1

end normal

section substitution

open Instantiation

variable {inner : Instantiation.Inner}
  (hi : ∀ σ shadowed t, Agree (inner σ shadowed t) (inner σ shadowed t)) {σ : Substitution}
  {shadowed : List String}

include hi

theorem agree_conditionalParts (c : Conditional) :
    Agree (conditionalParts inner σ shadowed c) (conditionalParts inner σ shadowed c) := by
  refine agree_bind (hi _ _ _) fun check => ?_
  refine agree_bind (hi _ _ _) fun pattern => ?_
  refine agree_bind (hi _ _ _) fun whenTrue => ?_
  exact agree_bind (hi _ _ _) fun whenFalse => agree_lift (agree_intern _)

theorem agree_mappedParts (m : Mapped) :
    Agree (mappedParts inner σ shadowed m) (mappedParts inner σ shadowed m) := by
  refine agree_bind (hi _ _ _) fun source => ?_
  refine agree_bind (agree_optionMapM (hi _ _)) fun keyFilter => ?_
  refine agree_bind (hi _ _ _) fun template => ?_
  exact agree_bind (agree_optionMapM (hi _ _)) fun nameType => agree_lift (agree_intern _)

omit hi in
theorem agree_instantiatePerMember {parts : Substitution → Instantiating TypeId}
    (h : ∀ σ, Agree (parts σ) (parts σ)) (name : String) (members : List TypeId) :
    Agree (perMember name members σ parts) (perMember name members σ parts) := by
  refine agree_bind (agree_mapM fun t => ?_) fun results => agree_lift (agree_rawUnion results)
  exact fun x y hxy => Blind.bind (h _ {} {} rfl) fun a b hab => Blind.pure ⟨hab.1, hxy⟩

theorem agree_instantiateConditional (c : Conditional) :
    Agree (Instantiation.conditional inner σ shadowed c)
      (Instantiation.conditional inner σ shadowed c) := by
  refine beside_store fun s s' hs => ?_
  rw [hs.replacement?]
  cases (if c.distributive then replacement? s σ shadowed c.check else none) with
  | none => exact agree_conditionalParts hi c
  | some x =>
      obtain ⟨name, t⟩ := x
      refine beside_ite (agree_pure _) ?_
      rw [hs.node]
      split
      · exact agree_instantiatePerMember (fun σ => agree_conditionalParts hi c) name _
      · exact agree_conditionalParts hi c

theorem agree_instantiateMapped (m : Mapped) :
    Agree (Instantiation.mapped inner σ shadowed m) (Instantiation.mapped inner σ shadowed m) := by
  refine beside_store fun s s' hs => ?_
  rw [hs.replacement?]
  cases replacement? s σ shadowed m.source with
  | none => exact agree_mappedParts hi m
  | some x =>
      obtain ⟨name, t⟩ := x
      dsimp only
      rw [hs.node]
      split
      · exact agree_instantiatePerMember (fun σ => agree_mappedParts hi m) name _
      · exact agree_mappedParts hi m

theorem agree_instantiateNode (t : TypeId) (n : Node) :
    Agree (Instantiation.node inner σ shadowed t n) (Instantiation.node inner σ shadowed t n) := by
  cases n with
  | error | intrinsic | literal | param => exact agree_pure _
  | union members =>
      exact agree_bind (agree_mapM (hi _ _)) fun ts => agree_lift (agree_rawUnion ts)
  | intersection members =>
      exact agree_bind (agree_mapM (hi _ _)) fun ts => agree_lift (agree_rawIntersection ts)
  | object shape =>
      refine agree_bind (agree_mapM fun f => ?_) fun fields => ?_
      · exact agree_bind (hi _ _ _) fun _ => agree_pure _
      · refine agree_bind (agree_optionMapM (hi _ _)) fun index => ?_
        refine agree_bind (agree_lift (agree_intern _)) fun rebuilt => ?_
        exact agree_bind (agree_lift (agree_copyFieldOrigins _ _ _)) fun _ => agree_pure _
  | function shape =>
      refine agree_bind (agree_mapM (hi _ _)) fun params => ?_
      exact agree_bind (hi _ _ _) fun result => agree_lift (agree_intern _)
  | array element => exact agree_bind (hi _ _ _) fun t => agree_lift (agree_intern _)
  | reference name args =>
      exact agree_bind (agree_mapM (hi _ _)) fun args => agree_lift (agree_intern _)
  | indexAccess object key =>
      refine agree_bind (hi _ _ _) fun object => ?_
      exact agree_bind (hi _ _ _) fun key => agree_lift (agree_intern _)
  | template spans =>
      refine agree_bind (agree_mapM fun span => ?_) fun spans => agree_lift (agree_template spans)
      cases span with
      | text a => exact agree_pure _
      | hole t => exact agree_bind (hi _ _ _) fun _ => agree_pure _
  | stringMap kind arg => exact agree_bind (hi _ _ _) fun t => agree_lift (agree_intern _)
  | conditional c => exact agree_instantiateConditional hi c
  | mapped m => exact agree_instantiateMapped hi m

omit hi

theorem agree_instantiateAt (depth : Nat) (σ : Substitution) (shadowed : List String) (t : TypeId) :
    Agree (instantiateAt depth σ shadowed t) (instantiateAt depth σ shadowed t) := by
  induction depth generalizing σ shadowed t with
  | zero =>
      unfold instantiateAt
      refine beside_ite (agree_pure _) (beside_ite ?_ (agree_pure _))
      refine agree_bind beside_get fun cache => ?_
      cases cache[t]? <;> exact agree_pure _
  | succ depth ih =>
      have hwork : Agree (do
          let n ← Build.node t
          let result ← node (instantiateAt depth) σ shadowed t n
          if shadowed.isEmpty then
            modify (·.insert t result)
          return result : Instantiating TypeId)
          (do
          let n ← Build.node t
          let result ← node (instantiateAt depth) σ shadowed t n
          if shadowed.isEmpty then
            modify (·.insert t result)
          return result) := by
        refine agree_bind (agree_lift (agree_node t)) fun n => ?_
        refine agree_bind (agree_instantiateNode ih t n) fun result => ?_
        refine beside_ite (agree_bind (agree_modify fun x y hxy => ?_) fun _ => agree_pure _)
          (agree_pure _)
        obtain rfl : x = y := hxy
        rfl
      unfold instantiateAt
      refine beside_ite (agree_pure _) (beside_ite ?_ hwork)
      refine agree_bind beside_get fun cache => ?_
      cases cache[t]? with
      | some known => exact agree_pure _
      | none => exact hwork

theorem agree_instantiate (σ : Substitution) (t : TypeId) :
    Agree (Build.instantiate σ t) (Build.instantiate σ t) := by
  refine beside_ite (agree_pure _) ?_
  have hrun : Agree (instantiateAt Instantiation.maxDepth σ [] t)
      (instantiateAt Instantiation.maxDepth σ [] t) := agree_instantiateAt _ _ _ _
  exact Blind.bind (hrun {} {} rfl) fun x y hxy => Blind.pure hxy.1

end substitution

section inference

open Inference

theorem agree_widenAt (fuel : Nat) (t : TypeId) : Agree (widenAt fuel t) (widenAt fuel t) := by
  induction fuel generalizing t with
  | zero => exact agree_pure _
  | succ fuel ih =>
      refine agree_bind (agree_node t) fun n => ?_
      cases n with
      | literal value => exact agree_pure _
      | union members => exact agree_bind (agree_mapM ih) fun ts => agree_union ts
      | object shape =>
          refine agree_bind (agree_mapM fun f => ?_) fun fields => agree_intern _
          exact beside_ite (agree_pure _) (agree_bind (ih _) fun _ => agree_pure _)
      | array element => exact agree_bind (ih _) fun t => agree_intern _
      | function shape => exact agree_bind (ih _) fun t => agree_intern _
      | _ => exact agree_pure _

/-- Two aliases that differ only in where they are declared. -/
structure SameAlias (a a' : Alias) : Prop where
  name : a'.name = a.name
  params : a'.params = a.params
  body : a'.body = a.body

/-- Two environments whose aliases differ only in where they are declared. -/
def SameEnvironment (env env' : Environment) : Prop :=
  List.Forall₂ SameAlias env.aliases env'.aliases

theorem SameEnvironment.get? {env env' : Environment} (h : SameEnvironment env env')
    (name : String) : Option.Rel SameAlias (env.get? name) (env'.get? name) := by
  obtain ⟨l⟩ := env
  obtain ⟨l'⟩ := env'
  change Option.Rel SameAlias (l.find? _) (l'.find? _)
  replace h : List.Forall₂ SameAlias l l' := h
  induction h with
  | nil => exact .none
  | @cons a a' rest rest' ha _ ih =>
      rw [List.find?_cons, List.find?_cons, ha.name]
      by_cases hname : a.name = name
      · simp only [hname, decide_true]
        exact .some ha
      · simp only [hname, decide_false]
        exact ih

variable {env env' : Environment}

theorem agree_expandAt (henv : SameEnvironment env env') (n : Nat) (t : TypeId) :
    Agree (expandAt env n t) (expandAt env' n t) := by
  induction n generalizing t with
  | zero => exact agree_pure _
  | succ n ih =>
      refine agree_bind (agree_node t) fun node => ?_
      cases node with
      | reference name args =>
          dsimp only
          have hget := henv.get? name
          generalize env.get? name = a, env'.get? name = a' at hget
          cases hget with
          | none => exact agree_pure _
          | some ha =>
              dsimp only
              rw [ha.params, ha.body]
              exact agree_bind (agree_instantiate _ _) fun t => ih t
      | _ => exact agree_pure _

/-- Two problems whose aliases differ only in where they are declared. -/
structure SameProblem (p p' : Problem) : Prop where
  environment : SameEnvironment p.environment p'.environment
  params : p'.params = p.params
  preserveLiterals : p'.preserveLiterals = p.preserveLiterals

variable {p p' : Problem} (hp : SameProblem p p') {inner inner' : Inference.Inner}
  (hi : ∀ strict t u, Agree (inner strict t u) (inner' strict t u))

theorem agree_walkAll {walk walk' : TypeId → TypeId → Inferring Bool}
    (h : ∀ t u, Agree (walk t u) (walk' t u)) (pairs : List (TypeId × TypeId)) :
    Agree (walkAll walk pairs) (walkAll walk' pairs) := by
  induction pairs with
  | nil => exact agree_pure _
  | cons x rest ih => exact agree_bind (h _ _) fun _ => agree_bind ih fun _ => agree_pure _

theorem agree_walkAny {walk walk' : TypeId → TypeId → Inferring Bool}
    (h : ∀ t u, Agree (walk t u) (walk' t u)) (pairs : List (TypeId × TypeId)) :
    Agree (walkAny walk pairs) (walkAny walk' pairs) := by
  induction pairs with
  | nil => exact agree_pure _
  | cons x rest ih => exact agree_bind (h _ _) fun _ => agree_bind ih fun _ => agree_pure _

/-- A change of the pools. -/
theorem agree_modifyPools (f : List Pool → List Pool) :
    Agree (modify f : Inferring PUnit) (modify f) := by
  refine agree_modify fun x y hxy => ?_
  obtain rfl : x = y := hxy
  rfl

section

include hi

theorem agree_texts (strict : Bool) (spans : List Span) (text : String) :
    Agree (texts inner strict spans text) (texts inner' strict spans text) := by
  refine beside_ite (agree_pure _) ?_
  cases Template.capture spans text.toList with
  | none => exact agree_pure _
  | some captured =>
      refine agree_bind (agree_mapM fun x => ?_) fun _ => agree_pure _
      exact agree_bind (agree_lift (agree_intern _)) fun _ => hi _ _ _

end

include hp

theorem SameProblem.find? (name : String) : p'.find? name = p.find? name := by
  rw [Problem.find?, Problem.find?, hp.params]

theorem SameProblem.mentions {s s' : Store} (hs : s.Alike s') :
    Inference.mentions p' s' = Inference.mentions p s := by
  have hat : ∀ depth, mentionsAt p' s depth = mentionsAt p s depth := by
    intro depth
    induction depth with
    | zero => rfl
    | succ depth ih =>
        funext t
        simp only [mentionsAt, hp.find?, ih]
  rw [hs.mentions]
  funext t
  exact congrFun (hat _) t

theorem agree_addCandidate (strict : Bool) (info : TypeParam) (t : TypeId) :
    Agree (addCandidate p strict info t) (addCandidate p' strict info t) := by
  unfold addCandidate
  rw [hp.preserveLiterals]
  refine beside_ite (agree_bind (agree_pure _) fun _ => agree_modifyPools _) ?_
  exact agree_bind (agree_lift (agree_widenAt _ _)) fun _ => agree_modifyPools _

include hi

theorem agree_toUnion (strict : Bool) (members : List TypeId) (source : TypeId) :
    Agree (toUnion p inner strict members source) (toUnion p' inner' strict members source) := by
  refine beside_store fun s s' hs => ?_
  rw [hp.mentions hs, hs.unionMembers, hs.covers]
  refine beside_ite (agree_pure _) ?_
  split
  · exact agree_bind (agree_lift (agree_union _)) fun rest => hi _ _ _
  · exact agree_bind (agree_walkAny (hi true) _) fun _ => agree_pure _

theorem agree_objects (strict : Bool) (target source : ObjectShape) :
    Agree (objects p inner strict target source) (objects p' inner' strict target source) := by
  refine agree_bind (agree_mapM fun f => ?_) fun fields => ?_
  · cases source.find? f.name with
    | some g => exact hi _ _ _
    | none =>
        refine beside_store fun s s' hs => ?_
        rw [hp.mentions hs]
        exact agree_pure _
  · cases target.stringIndex with
    | none => exact agree_bind (agree_pure _) fun _ => agree_pure _
    | some t => exact agree_bind (agree_walkAll (hi strict) _) fun _ => agree_pure _

theorem agree_walkNodes (strict : Bool) (target source : TypeId) :
    Agree (walkNodes p inner strict target source) (walkNodes p' inner' strict target source) := by
  refine agree_bind (agree_lift (agree_node target)) fun targetNode => ?_
  refine agree_bind (agree_lift (agree_node source)) fun sourceNode => ?_
  split
  · exact agree_toUnion hp hi _ _ _
  · exact agree_walkAll (hi strict) _
  · exact agree_walkAll (hi strict) _
  · exact agree_objects hp hi _ _ _
  · exact agree_walkAll (hi strict) _
  · exact hi _ _ _
  · exact beside_ite (agree_walkAll (hi strict) _) (agree_pure _)
  · exact agree_texts hi _ _ _
  · exact agree_pure _

theorem agree_walkPair (strict : Bool) (target source : TypeId) :
    Agree (walkPair p inner strict target source) (walkPair p' inner' strict target source) := by
  unfold walkPair
  simp only [hp.find?]
  refine agree_bind (agree_lift (agree_expandAt hp.environment _ _)) fun target => ?_
  refine agree_bind (agree_lift (agree_expandAt hp.environment _ _)) fun source => ?_
  refine agree_bind (agree_lift (agree_node target)) fun n => ?_
  split
  · exact agree_walkNodes hp hi _ _ _
  · refine agree_bind (agree_lift (agree_node source)) fun m => ?_
    split
    · exact agree_bind (agree_modifyPools _) fun _ => agree_pure _
    · exact agree_bind (agree_addCandidate hp _ _ _) fun _ => agree_pure _

omit hi

theorem agree_inferAt (depth : Nat) (active : List (TypeId × TypeId)) (strict : Bool)
    (target source : TypeId) :
    Agree (inferAt p depth active strict target source)
      (inferAt p' depth active strict target source) := by
  induction depth generalizing active strict target source with
  | zero => exact agree_pure _
  | succ depth ih =>
      refine beside_store fun s s' hs => ?_
      rw [hp.mentions hs]
      refine beside_ite (agree_pure _) (beside_ite (agree_pure _) ?_)
      exact agree_walkPair hp (ih _) _ _ _

theorem agree_collect (params args : List TypeId) :
    Agree (collect p params args) (collect p' params args) := by
  refine agree_forM fun x => ?_
  simp only [discard, Functor.discard, Functor.mapConst, Function.comp_apply]
  exact agree_bind (agree_inferAt hp _ _ _ _ _) fun _ => agree_pure _

omit hp

theorem agree_joinFrom (strict : Bool) (name : String) (current : TypeId) (ts : List TypeId) :
    Agree (joinFrom strict name current ts) (joinFrom strict name current ts) := by
  induction ts generalizing current with
  | nil => exact agree_pure _
  | cons next rest ih =>
      have hjoin : Agree (do
          let joined ← Build.union [current, next]
          joinFrom strict name joined rest : ExceptT Conflict Build TypeId)
          (do
          let joined ← Build.union [current, next]
          joinFrom strict name joined rest) :=
        agree_bind (agree_lift (agree_union _)) fun joined => ih joined
      refine beside_store fun s s' hs => ?_
      rw [hs.exclusive]
      exact beside_ite (agree_bind (agree_throw _) fun _ => hjoin) hjoin

theorem agree_solve (strict : Bool) (name : String) (pools : List Pool) :
    Agree (solve strict name pools) (solve strict name pools) := by
  unfold solve
  cases candidatesOf pools name with
  | nil => exact agree_pure _
  | cons first rest => exact agree_bind (agree_joinFrom _ _ _ _) fun _ => agree_pure _

theorem agree_argument (pools : List Pool) (info : TypeParam) :
    Agree (argument pools info) (argument pools info) := by
  have hsolve : Agree (solve false info.name pools) (solve false info.name pools) :=
    agree_solve _ _ _
  refine Blind.bind (Blind.lift hsolve) fun r r' hr => ?_
  cases hr with
  | error =>
      refine beside_store fun s s' hs => ?_
      refine agree_bind (agree_report ?_) fun _ => agree_pure _
      rw [Conflict.diagnostic, Conflict.diagnostic, hs.text]
  | ok h =>
      subst h
      rename_i o
      cases o <;> exact agree_pure _

theorem sameProblem_of (henv : SameEnvironment env env') (literals : Bool) (params : List TypeParam) :
    SameProblem (Problem.of env literals params) (Problem.of env' literals params) :=
  ⟨henv, rfl, rfl⟩

theorem agree_typeArguments (henv : SameEnvironment env env') (literals : Bool)
    (typeParams : List TypeParam) (params args : List TypeId) :
    Agree (typeArguments env literals typeParams params args)
      (typeArguments env' literals typeParams params args) := by
  have hcollect := agree_collect (sameProblem_of henv literals typeParams) params args
  refine Blind.bind (Blind.lift (hcollect _ _ rfl)) fun x y hxy => ?_
  obtain ⟨_, pools⟩ := x
  obtain ⟨_, pools'⟩ := y
  obtain rfl : pools = pools' := hxy.2
  exact agree_mapM fun info => agree_argument _ info

theorem agree_matchPattern (henv : SameEnvironment env env') (literals : Bool)
    (source pattern : TypeId) (names : List String) :
    Agree (matchPattern env literals source pattern names)
      (matchPattern env' literals source pattern names) := by
  have hp := sameProblem_of henv literals (names.map .named)
  have hwalk := agree_inferAt hp maxDepth [] true pattern source
  refine Blind.bind (hwalk _ _ rfl) fun x y hxy => ?_
  obtain ⟨matched, pools⟩ := x
  obtain ⟨matched', pools'⟩ := y
  obtain ⟨rfl, rfl⟩ := hxy
  refine beside_ite ?_ (agree_pure _)
  refine agree_bind (agree_foldlM (fun σ name => ?_) _) fun _ => agree_pure _
  have hsolve : Agree (solve true name pools) (solve true name pools) := agree_solve _ _ _
  refine Blind.bind hsolve fun r r' hr => ?_
  cases hr with
  | error => exact agree_pure _
  | ok h =>
      subst h
      rename_i o
      cases o <;> exact agree_pure _

end inference

end TypeResolution.Tags
