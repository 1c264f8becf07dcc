import TypeResolution.Expr.Lower
import TypeResolution.Inference.Basic
import TypeResolution.Proofs.Normal.Form
import TypeResolution.Proofs.Tidy.Basic

/-!
Normal forms, substitution, inference and lowering leave a tidy store tidy. Objects are rebuilt with
the names they had; merging, and lowering repeated fields, keep one field for each name.
-/

namespace TypeResolution.Tidy

open Store

theorem map_name_eq {f : Field → Field → Prop} {l l' : List Field} (h : List.Forall₂ f l l')
    (hf : ∀ a b, f a b → b.name = a.name) : l'.map (·.name) = l.map (·.name) :=
  map_eq_of_forall₂ h hf

section names

variable {α : Type} {key : α → String}

/-- The keys of a list in which an entry takes the place of the one with its key, or stands last. -/
structure Puts (key : α → String) (new : α) (l l' : List α) : Prop where
  known : key new ∈ l.map key → l'.map key = l.map key
  unknown : key new ∉ l.map key → l'.map key = l.map key ++ [key new]

theorem Puts.nodup {new : α} {l l' : List α} (h : Puts key new l l') (hl : (l.map key).Nodup) :
    (l'.map key).Nodup := by
  by_cases hnew : key new ∈ l.map key
  · rw [h.known hnew]
    exact hl
  · rw [h.unknown hnew]
    exact List.nodup_append.mpr ⟨hl, by simp, fun a ha b hb => by
      rw [List.mem_singleton.mp hb]
      exact fun hab => hnew (hab ▸ ha)⟩

theorem puts_nil (new : α) {new' : α} (h : key new' = key new) : Puts key new [] [new'] :=
  ⟨by simp, by simp [h]⟩

theorem puts_here {new new' old : α} {rest : List α} (h : key old = key new)
    (h' : key new' = key new) : Puts key new (old :: rest) (new' :: rest) :=
  ⟨fun _ => by simp [h, h'], fun hnew => absurd (by simp [h]) hnew⟩

theorem puts_later {new old : α} {rest rest' : List α} (h : key old ≠ key new)
    (hrest : Puts key new rest rest') : Puts key new (old :: rest) (old :: rest') where
  known hnew := by
    rw [List.map_cons, List.mem_cons] at hnew
    rw [List.map_cons, List.map_cons, hrest.known (hnew.resolve_left (Ne.symm h))]
  unknown hnew := by
    rw [List.map_cons, List.mem_cons, not_or] at hnew
    rw [List.map_cons, List.map_cons, hrest.unknown hnew.2, List.cons_append]

end names

section normal

open TypeResolution.Normal

variable {meet : List TypeId → Reporting TypeId} {site : Option SourceTag} {ts : List TypeId}

theorem keeps_union (members : List TypeId) : Keeps (Build.union members) := by
  refine gives_read fun s hs => ?_
  have hpure : ∀ t, ((pure t : Build TypeId) s).2.Tidy ∧ True := fun _ => ⟨hs, trivial⟩
  split
  · exact hpure _
  split
  · exact hpure _
  split
  · exact hpure _
  have hsorted := sorted_absorbLiterals (s := s)
    ((TypeId.sorted_sortUnique (members.flatMap s.unionLeaves)).filter (· ≠ .never))
  generalize s.absorbLiterals _ = l at hsorted
  rcases l with _ | ⟨a, _ | ⟨b, rest⟩⟩
  · exact hpure _
  · exact hpure _
  · exact ⟨hs.intern ⟨by simp, hsorted⟩, trivial⟩

theorem keeps_text (t : TypeId) : Keeps (Build.text t) := keeps_quiet fun s => .refl s

theorem keeps_report (d : Diagnostic) : Keeps (Reporting.report d) := keeps_modify

theorem keeps_reportConflict (name : String) (first second : Owned) :
    Keeps (reportConflict site name first second) := by
  refine keeps_bind (Tidying.lift (keeps_text _)) fun _ => ?_
  refine keeps_bind (Tidying.lift (keeps_text _)) fun _ => ?_
  refine keeps_bind (Tidying.lift (keeps_origin _)) fun _ => ?_
  exact keeps_bind (Tidying.lift (keeps_origin _)) fun _ => keeps_report _

theorem gives_meetFields (hm : ∀ ts, Keeps (meet ts)) (old new : Owned) :
    Gives (meetFields meet site old new) fun o => o.field.name = old.field.name := by
  have hrest : ∀ t, Gives (do
      if t = .never && old.field.type ≠ .never && new.field.type ≠ .never then
        reportConflict site new.field.name old new
      return { old with
        field := { old.field with
          type := t
          optional := old.field.optional && new.field.optional
          readonly := old.field.readonly || new.field.readonly } } : Reporting Owned)
      fun o => o.field.name = old.field.name := by
    intro t
    refine gives_ite (fun _ => ?_) fun _ => Tidying.pure rfl
    exact keeps_bind (keeps_reportConflict _ _ _) fun _ => Tidying.pure rfl
  refine gives_ite (fun _ => ?_) fun _ => ?_
  · exact keeps_bind keeps_pure hrest
  · exact keeps_bind (hm _) hrest

theorem gives_mergeField (hm : ∀ ts, Keeps (meet ts)) (new : Owned) (fields : List Owned) :
    Gives (mergeField meet site new fields) (Puts (·.field.name) new fields) := by
  induction fields with
  | nil => exact Tidying.pure (puts_nil new rfl)
  | cons old rest ih =>
      refine gives_ite (fun hname => ?_) fun hname => ?_
      · refine Tidying.bind (gives_meetFields hm old new) fun o ho => Tidying.pure ?_
        exact puts_here hname (ho.trans hname)
      · exact Tidying.bind ih fun rest' hrest => Tidying.pure (puts_later hname hrest)

theorem keeps_mergeIndex (hm : ∀ ts, Keeps (meet ts)) (a b : Option TypeId) :
    Keeps (mergeIndex meet a b) := by
  cases a with
  | none => exact keeps_pure
  | some t =>
      cases b with
      | none => exact keeps_pure
      | some u => exact keeps_bind (hm _) fun _ => keeps_pure

/-- The fields merged so far have different names. -/
def Apart (merged : List Owned × Option TypeId) : Prop := (merged.1.map (·.field.name)).Nodup

theorem gives_mergeObject (hm : ∀ ts, Keeps (meet ts)) {merged : List Owned × Option TypeId}
    (h : Apart merged) (object : TypeId) : Gives (mergeObject meet site merged object) Apart := by
  refine gives_store fun s _ => ?_
  cases s.objectShape? object with
  | none => exact Tidying.pure h
  | some shape =>
      refine Tidying.bind (Q := fun fields => (fields.map (·.field.name)).Nodup) ?_ fun fields hfields => ?_
      · refine gives_foldlM h fun fields hfields f => ?_
        exact gives_mono (gives_mergeField hm _ fields) fun _ hputs => hputs.nodup hfields
      · exact keeps_bind (keeps_mergeIndex hm _ _) fun _ => Tidying.pure hfields

theorem keeps_mergeObjects (hm : ∀ ts, Keeps (meet ts)) : Keeps (mergeObjects meet site ts) := by
  have hfold : Gives (ts.foldlM (mergeObject meet site) ([], none)) Apart :=
    gives_foldlM List.nodup_nil fun merged h object => gives_mergeObject hm h object
  refine Tidying.bind hfold fun merged h => ?_
  obtain ⟨fields, index⟩ := merged
  have hnames : ((fields.map (·.field)).map (·.name)).Nodup := by
    rw [List.map_map]
    exact h
  refine keeps_bind (Tidying.lift (keeps_object hnames)) fun t => ?_
  refine keeps_bind (keeps_forM fun f => ?_) fun _ => keeps_pure
  exact Tidying.lift (keeps_copyFieldOrigins _ _ _)

theorem keeps_meetParts (hm : ∀ ts, Keeps (meet ts)) : Keeps (meetParts meet site ts) := by
  refine gives_store fun s _ => ?_
  cases reducePrimitives s ts with
  | none => exact keeps_pure
  | some members =>
      refine gives_ite (fun _ => ?_) fun _ => ?_
      · refine keeps_bind (keeps_mergeObjects hm) fun merged => ?_
        exact keeps_bind keeps_pure fun _ => Tidying.lift (keeps_rawIntersection _)
      · exact keeps_bind keeps_pure fun _ => Tidying.lift (keeps_rawIntersection _)

theorem keeps_intersectionAt (hm : ∀ ts, Keeps (meet ts)) (nesting : Nat) (ts : List TypeId) :
    Keeps (intersectionAt meet site nesting ts) := by
  induction nesting generalizing ts with
  | zero => exact keeps_pure
  | succ nesting ih =>
      refine gives_store fun s _ => ?_
      cases absorbMeet (TypeId.sortUnique s.numbers (ts.flatMap s.intersectionLeaves)) with
      | inl t => exact keeps_pure
      | inr flat =>
          refine gives_ite (fun _ => keeps_meetParts hm) fun _ => ?_
          exact keeps_bind (keeps_mapM ih) fun results => Tidying.lift (keeps_union results)

theorem keeps_intersectionIn (levels : Nat) (ts : List TypeId) :
    Keeps (intersectionIn site levels ts) := by
  induction levels generalizing ts with
  | zero => exact keeps_pure
  | succ levels ih => exact keeps_intersectionAt ih _ ts

theorem keeps_intersection (ts : List TypeId) : Keeps (Reporting.intersection site ts) :=
  keeps_intersectionIn _ ts

theorem keeps_buildIntersection (ts : List TypeId) : Keeps (Build.intersection ts) :=
  keeps_bind (keeps_intersection ts #[]) fun _ => keeps_pure

theorem keeps_rebuildObject {t : TypeId} {old new : ObjectShape}
    (h : (new.fields.map (·.name)).Nodup) : Keeps (rebuildObject t old new) := by
  refine gives_ite (fun _ => keeps_pure) fun _ => ?_
  refine keeps_bind (keeps_object h) fun rebuilt => ?_
  exact keeps_bind (keeps_copyFieldOrigins _ _ _) fun _ => keeps_pure

/-- Fields whose types are changed one by one keep their names. -/
theorem gives_mapFields {M : Type → Type} [Monad M] [LawfulMonad M] [MonadLiftT Build M] [Tidying M]
    {inner : TypeId → M TypeId} (hi : ∀ t, Keeps (inner t)) {fields : List Field}
    (h : (fields.map (·.name)).Nodup) :
    Gives (fields.mapM fun f => do return { f with type := ← inner f.type })
      fun fields' => (fields'.map (·.name)).Nodup := by
  refine gives_mono (gives_mapM (R := fun f g => g.name = f.name) fun f _ => ?_) fun fields' hall => ?_
  · exact keeps_bind (hi _) fun _ => Tidying.pure rfl
  · rw [map_name_eq hall fun _ _ h => h]
    exact h

theorem keeps_normalizeNode {inner : Option SourceTag → TypeId → Normalizing TypeId}
    (hi : ∀ site t, Keeps (inner site t)) (t : TypeId) {n : Node} {numbers : Numbering} (hn : n.Tidy numbers) :
    Keeps (normalizeNode inner site t n) := by
  cases n with
  | union members =>
      exact keeps_bind (keeps_mapM (hi site)) fun ts => Tidying.lift (keeps_union ts)
  | intersection members =>
      refine keeps_bind (Tidying.lift (keeps_origin _)) fun tag => ?_
      exact keeps_bind (keeps_mapM (hi _)) fun ts => gives_stateLift (keeps_intersection ts)
  | object shape =>
      refine Tidying.bind (gives_mapFields (hi site) hn) fun fields hfields => ?_
      refine keeps_bind (keeps_optionMapM (hi site)) fun index => ?_
      exact Tidying.lift (keeps_rebuildObject hfields)
  | function shape =>
      refine keeps_bind (keeps_mapM (hi site)) fun params => ?_
      exact keeps_bind (hi site _) fun result => Tidying.lift (keeps_function params result)
  | array element => exact keeps_bind (hi site _) fun t => Tidying.lift (keeps_array t)
  | _ => exact keeps_pure

theorem keeps_normalizeAt (depth : Nat) (site : Option SourceTag) (t : TypeId) :
    Keeps (normalizeAt depth site t) := by
  induction depth generalizing site t with
  | zero =>
      unfold normalizeAt
      refine gives_ite (fun _ => keeps_pure) fun _ => ?_
      refine keeps_bind keeps_get fun cache => ?_
      cases cache[t]? <;> exact keeps_pure
  | succ depth ih =>
      unfold normalizeAt
      refine gives_ite (fun _ => keeps_pure) fun _ => ?_
      refine keeps_bind keeps_get fun cache => ?_
      cases cache[t]? with
      | some known => exact keeps_pure
      | none =>
          refine Tidying.bind (Tidying.lift (gives_node t)) fun n hn => ?_
          obtain ⟨_, hn⟩ := hn
          refine keeps_bind (keeps_normalizeNode ih t hn) fun result => ?_
          exact keeps_bind keeps_modify fun _ => keeps_pure

theorem keeps_normalize (site : Option SourceTag) (t : TypeId) :
    Keeps (Reporting.normalize site t) := by
  have hrun : Keeps (normalizeAt maxDepth site t) := keeps_normalizeAt _ _ _
  exact keeps_bind (hrun {}) fun _ => keeps_pure

end normal

section substitution

open Instantiation

variable {inner : Instantiation.Inner} (hi : ∀ σ shadowed t, Keeps (inner σ shadowed t))
  {σ : Substitution} {shadowed : List String}

include hi

theorem keeps_conditionalParts (c : Conditional) : Keeps (conditionalParts inner σ shadowed c) := by
  refine keeps_bind (hi _ _ _) fun check => ?_
  refine keeps_bind (hi _ _ _) fun pattern => ?_
  refine keeps_bind (hi _ _ _) fun whenTrue => ?_
  exact keeps_bind (hi _ _ _) fun whenFalse => Tidying.lift (keeps_conditional _)

theorem keeps_mappedParts (m : Mapped) : Keeps (mappedParts inner σ shadowed m) := by
  refine keeps_bind (hi _ _ _) fun source => ?_
  refine keeps_bind (keeps_optionMapM (hi _ _)) fun keyFilter => ?_
  refine keeps_bind (hi _ _ _) fun template => ?_
  exact keeps_bind (keeps_optionMapM (hi _ _)) fun nameType => Tidying.lift (keeps_mapped _)

omit hi in
theorem keeps_instantiatePerMember {parts : Substitution → Instantiating TypeId}
    (h : ∀ σ, Keeps (parts σ)) (name : String) (members : List TypeId) :
    Keeps (perMember name members σ parts) := by
  refine keeps_bind (keeps_mapM fun t => ?_) fun results => Tidying.lift (keeps_rawUnion results)
  exact fun cache => keeps_bind (h _ {}) fun _ => keeps_pure

theorem keeps_instantiateConditional (c : Conditional) :
    Keeps (Instantiation.conditional inner σ shadowed c) := by
  refine gives_store fun s _ => ?_
  cases (if c.distributive then replacement? s σ shadowed c.check else none) with
  | none => exact keeps_conditionalParts hi c
  | some x =>
      obtain ⟨name, t⟩ := x
      refine gives_ite (fun _ => keeps_pure) fun _ => ?_
      split
      · exact keeps_instantiatePerMember (fun σ => keeps_conditionalParts hi c) name _
      · exact keeps_conditionalParts hi c

theorem keeps_instantiateMapped (m : Mapped) : Keeps (Instantiation.mapped inner σ shadowed m) := by
  refine gives_store fun s _ => ?_
  cases replacement? s σ shadowed m.source with
  | none => exact keeps_mappedParts hi m
  | some x =>
      obtain ⟨name, t⟩ := x
      dsimp only
      split
      · exact keeps_instantiatePerMember (fun σ => keeps_mappedParts hi m) name _
      · exact keeps_mappedParts hi m

theorem keeps_instantiateNode (t : TypeId) {n : Node} {numbers : Numbering} (hn : n.Tidy numbers) :
    Keeps (Instantiation.node inner σ shadowed t n) := by
  cases n with
  | error | intrinsic | literal | param => exact keeps_pure
  | union members =>
      exact keeps_bind (keeps_mapM (hi _ _)) fun ts => Tidying.lift (keeps_rawUnion ts)
  | intersection members =>
      exact keeps_bind (keeps_mapM (hi _ _)) fun ts => Tidying.lift (keeps_rawIntersection ts)
  | object shape =>
      refine Tidying.bind (gives_mapFields (hi _ _) hn) fun fields hfields => ?_
      refine keeps_bind (keeps_optionMapM (hi _ _)) fun index => ?_
      refine keeps_bind (Tidying.lift (keeps_object hfields)) fun rebuilt => ?_
      exact keeps_bind (Tidying.lift (keeps_copyFieldOrigins _ _ _)) fun _ => keeps_pure
  | function shape =>
      refine keeps_bind (keeps_mapM (hi _ _)) fun params => ?_
      exact keeps_bind (hi _ _ _) fun result => Tidying.lift (keeps_function params result)
  | array element => exact keeps_bind (hi _ _ _) fun t => Tidying.lift (keeps_array t)
  | reference name args =>
      exact keeps_bind (keeps_mapM (hi _ _)) fun args => Tidying.lift (keeps_reference name args)
  | indexAccess object key =>
      refine keeps_bind (hi _ _ _) fun object => ?_
      exact keeps_bind (hi _ _ _) fun key => Tidying.lift (keeps_indexAccess object key)
  | template spans =>
      refine keeps_bind (keeps_mapM fun span => ?_) fun spans => Tidying.lift (keeps_template spans)
      cases span with
      | text a => exact keeps_pure
      | hole t => exact keeps_bind (hi _ _ _) fun _ => keeps_pure
  | stringMap kind arg => exact keeps_bind (hi _ _ _) fun t => Tidying.lift (keeps_stringMap kind t)
  | conditional c => exact keeps_instantiateConditional hi c
  | mapped m => exact keeps_instantiateMapped hi m

omit hi in
theorem keeps_instantiateAt (depth : Nat) (σ : Substitution) (shadowed : List String) (t : TypeId) :
    Keeps (instantiateAt depth σ shadowed t) := by
  induction depth generalizing σ shadowed t with
  | zero =>
      unfold instantiateAt
      refine gives_ite (fun _ => keeps_pure) fun _ => ?_
      refine gives_ite (fun _ => ?_) fun _ => keeps_pure
      refine keeps_bind keeps_get fun cache => ?_
      cases cache[t]? <;> exact keeps_pure
  | succ depth ih =>
      have hwork : Keeps (do
          let n ← Build.node t
          let result ← node (instantiateAt depth) σ shadowed t n
          if shadowed.isEmpty then
            modify (·.insert t result)
          return result : Instantiating TypeId) := by
        refine Tidying.bind (Tidying.lift (gives_node t)) fun n hn => ?_
        obtain ⟨_, hn⟩ := hn
        refine keeps_bind (keeps_instantiateNode ih t hn) fun result => ?_
        exact gives_ite (fun _ => keeps_bind keeps_modify fun _ => keeps_pure) fun _ => keeps_pure
      unfold instantiateAt
      refine gives_ite (fun _ => keeps_pure) fun _ => ?_
      refine gives_ite (fun _ => ?_) fun _ => hwork
      refine keeps_bind keeps_get fun cache => ?_
      cases cache[t]? with
      | some known => exact keeps_pure
      | none => exact hwork

omit hi in
theorem keeps_instantiate (σ : Substitution) (t : TypeId) : Keeps (Build.instantiate σ t) := by
  refine gives_ite (fun _ => keeps_pure) fun _ => ?_
  have hrun : Keeps (instantiateAt maxDepth σ [] t) := keeps_instantiateAt _ _ _ _
  exact keeps_bind (hrun {}) fun _ => keeps_pure

end substitution

section inference

open Inference

theorem keeps_widenAt (fuel : Nat) (t : TypeId) : Keeps (widenAt fuel t) := by
  induction fuel generalizing t with
  | zero => exact keeps_pure
  | succ fuel ih =>
      refine Tidying.bind (gives_node t) fun n hn => ?_
      obtain ⟨_, hn⟩ := hn
      cases n with
      | literal value => exact keeps_pure
      | union members => exact keeps_bind (keeps_mapM ih) fun ts => keeps_union ts
      | object shape =>
          refine Tidying.bind (gives_mapM (R := fun f g => g.name = f.name) fun f _ => ?_)
            fun fields hfields => keeps_object ?_
          · refine gives_ite (fun _ => Tidying.pure rfl) fun _ => ?_
            exact keeps_bind (ih _) fun _ => Tidying.pure rfl
          · rw [map_name_eq hfields fun _ _ h => h]
            exact hn
      | array element => exact keeps_bind (ih _) fun t => keeps_array t
      | function shape => exact keeps_bind (ih _) fun t => keeps_function _ t
      | _ => exact keeps_pure

theorem keeps_expandAt (env : Environment) (n : Nat) (t : TypeId) : Keeps (expandAt env n t) := by
  induction n generalizing t with
  | zero => exact keeps_pure
  | succ n ih =>
      refine Tidying.bind (gives_node t) fun node _ => ?_
      cases node with
      | reference name args =>
          dsimp only
          cases env.get? name with
          | none => exact keeps_pure
          | some a => exact keeps_bind (keeps_instantiate _ _) fun t => ih t
      | _ => exact keeps_pure

variable {p : Problem} {inner : Inference.Inner} (hi : ∀ strict t u, Keeps (inner strict t u))

theorem keeps_addCandidate (strict : Bool) (info : TypeParam) (t : TypeId) :
    Keeps (addCandidate p strict info t) := by
  refine gives_ite (fun _ => ?_) fun _ => ?_
  · exact keeps_bind keeps_pure fun _ => keeps_modify
  · exact keeps_bind (Tidying.lift (keeps_widenAt _ _)) fun _ => keeps_modify

theorem keeps_walkAll {walk : TypeId → TypeId → Inferring Bool} (h : ∀ t u, Keeps (walk t u))
    (pairs : List (TypeId × TypeId)) : Keeps (walkAll walk pairs) := by
  induction pairs with
  | nil => exact keeps_pure
  | cons x rest ih => exact keeps_bind (h _ _) fun _ => keeps_bind ih fun _ => keeps_pure

theorem keeps_walkAny {walk : TypeId → TypeId → Inferring Bool} (h : ∀ t u, Keeps (walk t u))
    (pairs : List (TypeId × TypeId)) : Keeps (walkAny walk pairs) := by
  induction pairs with
  | nil => exact keeps_pure
  | cons x rest ih => exact keeps_bind (h _ _) fun _ => keeps_bind ih fun _ => keeps_pure

include hi

theorem keeps_toUnion (strict : Bool) (members : List TypeId) (source : TypeId) :
    Keeps (toUnion p inner strict members source) := by
  refine gives_store fun s _ => ?_
  refine gives_ite (fun _ => keeps_pure) fun _ => ?_
  split
  · exact keeps_bind (Tidying.lift (keeps_union _)) fun rest => hi _ _ _
  · exact keeps_bind (keeps_walkAny (hi true) _) fun _ => keeps_pure

theorem keeps_objects (strict : Bool) (target source : ObjectShape) :
    Keeps (objects p inner strict target source) := by
  refine keeps_bind (keeps_mapM fun f => ?_) fun fields => ?_
  · cases source.find? f.name with
    | some g => exact hi _ _ _
    | none => exact gives_store fun s _ => keeps_pure
  · cases target.stringIndex with
    | none => exact keeps_bind keeps_pure fun _ => keeps_pure
    | some t => exact keeps_bind (keeps_walkAll (hi strict) _) fun _ => keeps_pure

theorem keeps_texts (strict : Bool) (spans : List Span) (text : String) :
    Keeps (texts inner strict spans text) := by
  refine gives_ite (fun _ => keeps_pure) fun _ => ?_
  cases Template.capture spans text.toList with
  | none => exact keeps_pure
  | some captured =>
      refine keeps_bind (keeps_mapM fun x => ?_) fun _ => keeps_pure
      exact keeps_bind (Tidying.lift (keeps_stringLiteral _)) fun _ => hi _ _ _

theorem keeps_walkNodes (strict : Bool) (target source : TypeId) :
    Keeps (walkNodes p inner strict target source) := by
  refine Tidying.bind (Tidying.lift (gives_node target)) fun targetNode _ => ?_
  refine Tidying.bind (Tidying.lift (gives_node source)) fun sourceNode _ => ?_
  split
  · exact keeps_toUnion hi _ _ _
  · exact keeps_walkAll (hi strict) _
  · exact keeps_walkAll (hi strict) _
  · exact keeps_objects hi _ _ _
  · exact keeps_walkAll (hi strict) _
  · exact hi _ _ _
  · exact gives_ite (fun _ => keeps_walkAll (hi strict) _) fun _ => keeps_pure
  · exact keeps_texts hi _ _ _
  · exact keeps_pure

theorem keeps_walkPair (strict : Bool) (target source : TypeId) :
    Keeps (walkPair p inner strict target source) := by
  refine keeps_bind (Tidying.lift (keeps_expandAt _ _ _)) fun target => ?_
  refine keeps_bind (Tidying.lift (keeps_expandAt _ _ _)) fun source => ?_
  refine Tidying.bind (Tidying.lift (gives_node target)) fun n _ => ?_
  split
  · exact keeps_walkNodes hi _ _ _
  · refine Tidying.bind (Tidying.lift (gives_node source)) fun m _ => ?_
    split
    · exact keeps_bind keeps_modify fun _ => keeps_pure
    · exact keeps_bind (keeps_addCandidate _ _ _) fun _ => keeps_pure

omit hi

theorem keeps_inferAt (depth : Nat) (active : List (TypeId × TypeId)) (strict : Bool)
    (target source : TypeId) : Keeps (inferAt p depth active strict target source) := by
  induction depth generalizing active strict target source with
  | zero => exact keeps_pure
  | succ depth ih =>
      refine gives_store fun s _ => ?_
      refine gives_ite (fun _ => keeps_pure) fun _ => ?_
      refine gives_ite (fun _ => keeps_pure) fun _ => ?_
      exact keeps_walkPair (ih _) _ _ _

theorem keeps_joinFrom (strict : Bool) (name : String) (current : TypeId) (ts : List TypeId) :
    Keeps (joinFrom strict name current ts) := by
  induction ts generalizing current with
  | nil => exact keeps_pure
  | cons next rest ih =>
      have hjoin : Keeps (do
          let joined ← Build.union [current, next]
          joinFrom strict name joined rest : ExceptT Conflict Build TypeId) :=
        keeps_bind (Tidying.lift (keeps_union _)) fun joined => ih joined
      refine gives_store fun s _ => ?_
      exact gives_ite (fun _ => keeps_bind keeps_throw fun _ => hjoin) fun _ => hjoin

theorem keeps_solve (strict : Bool) (name : String) (pools : List Pool) :
    Keeps (solve strict name pools) := by
  unfold solve
  cases candidatesOf pools name with
  | nil => exact keeps_pure
  | cons first rest => exact keeps_bind (keeps_joinFrom _ _ _ _) fun _ => keeps_pure

theorem keeps_collect (params args : List TypeId) : Keeps (collect p params args) := by
  refine keeps_forM fun x => ?_
  simp only [discard, Functor.discard, Functor.mapConst, Function.comp_apply]
  exact keeps_bind (keeps_inferAt _ _ _ _ _) fun _ => keeps_pure

theorem keeps_unify (env : Environment) (literals : Bool) (typeParams : List TypeParam)
    (params args : List TypeId) : Keeps (unify env literals typeParams params args) := by
  have hcollect : Keeps (collect (Problem.of env literals typeParams) params args) :=
    keeps_collect params args
  refine keeps_bind (Tidying.lift (hcollect _)) fun x => ?_
  refine gives_foldlM trivial fun σ _ info => ?_
  refine keeps_bind (keeps_solve _ _ _) fun o => ?_
  cases o <;> exact keeps_pure

theorem keeps_argument (pools : List Pool) (info : TypeParam) : Keeps (argument pools info) := by
  have hsolve : Keeps (solve false info.name pools) := keeps_solve _ _ _
  refine Tidying.bind (Tidying.lift hsolve) fun r _ => ?_
  rcases r with conflict | (_ | t)
  · exact gives_store fun s _ => keeps_bind (keeps_report _) fun _ => keeps_pure
  · exact keeps_pure
  · exact keeps_pure

theorem keeps_typeArguments (env : Environment) (literals : Bool) (typeParams : List TypeParam)
    (params args : List TypeId) : Keeps (typeArguments env literals typeParams params args) := by
  have hcollect : Keeps (collect (Problem.of env literals typeParams) params args) :=
    keeps_collect params args
  refine keeps_bind (Tidying.lift (hcollect _)) fun x => ?_
  exact keeps_mapM fun info => keeps_argument _ info

theorem keeps_matchPattern (env : Environment) (literals : Bool) (source pattern : TypeId)
    (names : List String) : Keeps (matchPattern env literals source pattern names) := by
  have hwalk : Keeps (inferFrom (Problem.of env literals (names.map .named)) true pattern source) :=
    keeps_inferAt _ _ _ _ _
  refine keeps_bind (hwalk _) fun x => ?_
  obtain ⟨matched, pools⟩ := x
  refine gives_ite (fun _ => ?_) fun _ => keeps_pure
  refine keeps_bind (gives_foldlM trivial fun σ _ name => ?_) fun _ => keeps_pure
  have hsolve : Keeps (solve true name pools) := keeps_solve _ _ _
  refine Tidying.bind hsolve fun r _ => ?_
  rcases r with conflict | (_ | t) <;> exact keeps_pure

end inference

section lowering

open Lowering

theorem puts_putField (new : Field) (fields : List Field) :
    Puts (·.name) new fields (putField new fields) := by
  induction fields with
  | nil => exact puts_nil new rfl
  | cons old rest ih =>
      unfold putField
      split
      · exact puts_here ‹_› rfl
      · exact puts_later ‹_› ih

theorem keeps_bindNames (names : List String) (scope : TypeScope) : Keeps (bindNames names scope) :=
  gives_foldlM trivial fun _ _ _ => keeps_bind (keeps_param _) fun _ => keeps_pure

theorem keeps_application (name : String) (args : List TypeId) : Keeps (application name args) := by
  rcases args with _ | ⟨arg, _ | ⟨second, rest⟩⟩
  · exact keeps_reference _ _
  · refine gives_ite (fun _ => keeps_array _) fun _ => ?_
    cases builtinMap? name with
    | none => exact keeps_reference _ _
    | some kind => exact keeps_stringMap _ _
  · exact keeps_reference _ _

theorem keeps_recordFields (object : TypeId) (fields : List FieldExpr) :
    Keeps (recordFields object fields) := by
  refine keeps_forM fun f => ?_
  cases f.location.or f.type.location with
  | none => exact keeps_pure
  | some tag => exact keeps_recordOrigin _ _

mutual

theorem keeps_lower (e : TypeExpr) (scope : TypeScope) : Keeps (e.lower scope) := by
  obtain ⟨kind, location⟩ := e
  unfold TypeExpr.lower
  refine keeps_bind (keeps_bind keeps_modify fun _ => keeps_bind keeps_get fun _ => keeps_pure)
    fun b => ?_
  refine gives_ite (fun _ => ?_) fun _ => keeps_pure
  refine keeps_bind (keeps_lowerKind kind scope) fun t => ?_
  cases location with
  | none => exact keeps_pure
  | some tag => exact keeps_bind (Tidying.lift (keeps_recordOrigin _ _)) fun _ => keeps_pure

theorem keeps_lowerKind (kind : ExprKind) (scope : TypeScope) : Keeps (kind.lower scope) := by
  unfold ExprKind.lower
  cases kind with
  | intrinsic kind => exact keeps_pure
  | literal value => exact Tidying.lift (keeps_literal value)
  | object fields index =>
      refine Tidying.bind (gives_lowerFields fields scope List.nodup_nil) fun lowered hnames => ?_
      refine keeps_bind (keeps_lowerOption index scope) fun stringIndex => ?_
      refine keeps_bind (Tidying.lift (keeps_object hnames)) fun object => ?_
      exact keeps_bind (Tidying.lift (keeps_recordFields object fields)) fun _ => keeps_pure
  | union members =>
      exact keeps_bind (keeps_lowerAll members scope) fun ts => Tidying.lift (keeps_rawUnion ts)
  | intersection members =>
      exact keeps_bind (keeps_lowerAll members scope) fun ts =>
        Tidying.lift (keeps_rawIntersection ts)
  | function params result =>
      refine keeps_bind (keeps_lowerAll params scope) fun params => ?_
      exact keeps_bind (keeps_lower result scope) fun t => Tidying.lift (keeps_function params t)
  | array element =>
      exact keeps_bind (keeps_lower element scope) fun t => Tidying.lift (keeps_array t)
  | reference name args =>
      dsimp only
      cases if args.isEmpty then scope.lookup name else none with
      | some param => exact keeps_pure
      | none =>
          exact keeps_bind (keeps_lowerAll args scope) fun ts =>
            Tidying.lift (keeps_application name ts)
  | conditional check pattern infer thenBranch elseBranch distributive =>
      refine keeps_bind (keeps_lower check scope) fun check => ?_
      refine Tidying.bind (Tidying.lift (gives_node check)) fun n _ => ?_
      refine keeps_bind (Tidying.lift (keeps_bindNames infer scope)) fun inner => ?_
      refine keeps_bind (keeps_lower pattern inner) fun pattern => ?_
      refine keeps_bind (keeps_lower thenBranch inner) fun whenTrue => ?_
      exact keeps_bind (keeps_lower elseBranch inner) fun whenFalse =>
        Tidying.lift (keeps_conditional _)
  | mapped keyParam source keyFilter template nameType optional readonly =>
      refine keeps_bind (keeps_lower source scope) fun source => ?_
      refine keeps_bind (Tidying.lift (keeps_bindNames [keyParam] scope)) fun inner => ?_
      refine keeps_bind (keeps_lowerOption keyFilter inner) fun keyFilter => ?_
      refine keeps_bind (keeps_lower template inner) fun template => ?_
      exact keeps_bind (keeps_lowerOption nameType inner) fun nameType =>
        Tidying.lift (keeps_mapped _)
  | indexAccess object index =>
      refine keeps_bind (keeps_lower object scope) fun object => ?_
      exact keeps_bind (keeps_lower index scope) fun key =>
        Tidying.lift (keeps_indexAccess object key)
  | template spans =>
      exact keeps_bind (keeps_lowerSpans spans scope) fun spans =>
        Tidying.lift (keeps_template spans)
  | stringMap kind argument =>
      exact keeps_bind (keeps_lower argument scope) fun t => Tidying.lift (keeps_stringMap kind t)

theorem keeps_lowerAll (es : List TypeExpr) (scope : TypeScope) : Keeps (lowerAll es scope) := by
  unfold lowerAll
  cases es with
  | nil => exact keeps_pure
  | cons e rest =>
      refine keeps_bind (keeps_lower e scope) fun t => ?_
      exact keeps_bind (keeps_lowerAll rest scope) fun _ => keeps_pure

theorem keeps_lowerOption (e : Option TypeExpr) (scope : TypeScope) :
    Keeps (lowerOption e scope) := by
  unfold lowerOption
  cases e with
  | none => exact keeps_pure
  | some e => exact keeps_bind (keeps_lower e scope) fun _ => keeps_pure

theorem gives_lowerFields (fields : List FieldExpr) (scope : TypeScope) {done : List Field}
    (hdone : (done.map (·.name)).Nodup) :
    Gives (lowerFields fields scope done) fun lowered => (lowered.map (·.name)).Nodup := by
  unfold lowerFields
  cases fields with
  | nil => exact Tidying.pure hdone
  | cons f rest =>
      obtain ⟨name, type, optional, readonly, location⟩ := f
      refine keeps_bind (keeps_lower type scope) fun t => ?_
      exact gives_lowerFields rest scope ((puts_putField _ done).nodup hdone)

theorem keeps_lowerSpans (spans : List SpanExpr) (scope : TypeScope) :
    Keeps (lowerSpans spans scope) := by
  unfold lowerSpans
  cases spans with
  | nil => exact keeps_pure
  | cons span rest =>
      cases span with
      | text a => exact keeps_bind (keeps_lowerSpans rest scope) fun _ => keeps_pure
      | hole e =>
          refine keeps_bind (keeps_lower e scope) fun t => ?_
          exact keeps_bind (keeps_lowerSpans rest scope) fun _ => keeps_pure

end

theorem keeps_bindParams (params : List ParamExpr) (scope : TypeScope) :
    Keeps (bindParams params scope) := by
  refine keeps_bind (Tidying.lift (keeps_bindNames _ scope)) fun bare => ?_
  refine keeps_bind (keeps_mapM fun p => ?_) fun infos => ?_
  · refine keeps_bind (keeps_optionMapM fun e => keeps_lower e _) fun constraint => ?_
    exact keeps_bind (keeps_optionMapM fun e => keeps_lower e _) fun _ => keeps_pure
  · refine keeps_bind (gives_foldlM trivial fun scope _ info => ?_) fun _ => keeps_pure
    exact keeps_bind (Tidying.lift (keeps_param info)) fun _ => keeps_pure

theorem keeps_lowerAlias (a : AliasExpr) (scope : TypeScope) : Keeps (a.lower scope) := by
  refine keeps_bind (keeps_bindParams a.params scope) fun x => ?_
  exact keeps_bind (keeps_lower a.body x.2) fun _ => keeps_pure

end lowering

end TypeResolution.Tidy
