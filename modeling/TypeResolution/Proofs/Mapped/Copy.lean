import TypeResolution.Proofs.Assignability.Leaves
import TypeResolution.Proofs.Mapped.Source
import TypeResolution.Proofs.Store.Instantiation
import TypeResolution.Proofs.Tidy.Reachable

/-!
Homomorphic mapped types. A mapped type that accesses its source at each key copies the fields of the
source and its index signature, up to the modifiers of the fields.
-/

namespace TypeResolution

open Store Replay Limits Context

/-- The field under the modifiers of a mapped type. -/
def Mapped.modified (m : Mapped) (f : Field) : Field :=
  { f with
    optional := Modifier.apply m.optional f.optional
    readonly := Modifier.apply m.readonly f.readonly }

/-- The object under the modifiers of a mapped type. -/
def Mapped.copied (m : Mapped) (shape : ObjectShape) : ObjectShape :=
  { shape with fields := shape.fields.map m.modified }

/-- What the mapped type makes of a field. -/
def Mapped.copiedField (m : Mapped) (f : Field) : Eval.MappedField := ⟨m.modified f, f.name⟩

theorem Mapped.copied_of_no_modifier {m : Mapped} (hoptional : m.optional = none)
    (hreadonly : m.readonly = none) (shape : ObjectShape) : m.copied shape = shape := by
  have hmodified : m.modified = id := by
    funext f
    rw [Mapped.modified, hoptional, hreadonly]
    rfl
  rw [Mapped.copied, hmodified, List.map_id]

/-- The mapped type takes each field of its source, which is an object, as it is, up to the modifiers. -/
structure Store.Homomorphic (s : Store) (m : Mapped) (shape : ObjectShape) : Prop where
  unfiltered : m.keyFilter = none
  named : m.nameType = none
  object : s.node m.source = .object shape
  template : ∃ key info, s.node m.template = .indexAccess m.source key ∧
    s.node key = .param info ∧ info.name = m.keyParam
  not_free : ¬s.HasFree (· = m.keyParam) [] m.source

theorem Store.Homomorphic.mono {s s' : Store} {m : Mapped} {shape : ObjectShape} (hs : s.Formed)
    (h : s.Homomorphic m shape) (hext : s.Extends s') : s'.Homomorphic m shape where
  unfiltered := h.unfiltered
  named := h.named
  object := (hext.node_eq _ (known_of_node h.object (by simp))).trans h.object
  template := by
    obtain ⟨key, info, htemplate, hkey, hname⟩ := h.template
    exact ⟨key, info, (hext.node_eq _ (known_of_node htemplate (by simp))).trans htemplate,
      (hext.node_eq _ (known_of_node hkey (by simp))).trans hkey, hname⟩
  not_free hfree :=
    h.not_free (hfree.back hext (hs.closed_of_known (known_of_node h.object (by simp))))

namespace Eval

section reaches

variable {stage : Store → Evaluator → Prop} {α β : Type} {a : α} {b : β} {e e' : Evaluator}
  {s s' : Store}

/-- The run ends as said, unless it hits a limit. -/
def Unless (Q : End α → Prop) (m : Eval α) (e : Evaluator) (s : Store) : Prop :=
  (m e s).1.2.guard.exceeded ∨ Q (m e s)

/-- The run gives `a` and comes to the stage, unless it hits a limit. -/
abbrev Reaches (stage : Store → Evaluator → Prop) (m : Eval α) (a : α) : Evaluator → Store → Prop :=
  Unless (fun x => ∃ e' s', x = ((.ok a, e'), s') ∧ stage s' e') m

theorem Reaches.of_run {m : Eval α} (hm : m e s = ((.ok a, e'), s')) (h : stage s' e') :
    Reaches stage m a e s :=
  .inr ⟨e', s', hm, h⟩

theorem Unless.of_bind_run {m : Eval α} {f : α → Eval β} {Q : End β → Prop}
    (hm : m e s = ((.ok a, e'), s')) (h : Unless Q (f a) e' s') : Unless Q (m >>= f) e s := by
  have hbind : (m >>= f) e s = f a e' s' := bind_run hm
  unfold Unless
  rw [hbind]
  exact h

/-- A limit that is hit in the first part stays hit. -/
theorem Reaches.bind {m : Eval α} {f : α → Eval β} {Q : End β → Prop} (hm : Reaches stage m a e s)
    (hlasting : ∀ a, Lasting (f a)) (hf : ∀ e s, stage s e → Unless Q (f a) e s) :
    Unless Q (m >>= f) e s := by
  rcases hm with hexceeded | ⟨e₁, s₁, hrun, h₁⟩
  · exact .inl ((later_bind hlasting e s).exceeded hexceeded)
  · exact .of_bind_run hrun (hf e₁ s₁ h₁)

end reaches

/-- A field with a new name comes last. -/
theorem putMapped_of_new {new : MappedField} {done : List MappedField}
    (h : ∀ old ∈ done, old.field.name ≠ new.field.name) : putMapped new done = done ++ [new] := by
  induction done with
  | nil => rfl
  | cons old rest ih =>
      obtain ⟨hold, hrest⟩ := List.forall_mem_cons.mp h
      rw [putMapped, if_neg hold, ih hrest, List.cons_append]

variable {m : Mapped} {shape : ObjectShape} {t : TypeId} {limit depth : Nat} {ds : Array Diagnostic}
  {s s' : Store} {e : Evaluator} {env : Environment} {o : Options} {key part : TypeId} {f : Field}

section stage

/-- The mapped type `t` is under evaluation, its source has been evaluated, and `ds` are the
diagnostics so far. -/
structure Stage (m : Mapped) (shape : ObjectShape) (t : TypeId) (limit : Nat) (ds : Array Diagnostic)
    (s : Store) (e : Evaluator) : Prop where
  formed : s.Formed
  tidy : s.Tidy
  mapped : s.node t = .mapped m
  homomorphic : s.Homomorphic m shape
  remembers : Remembers m.source shape limit 1 s e
  active : e.guard.active = [t]
  diagnostics : e.diagnostics = ds

namespace Stage

theorem extend (h : Stage m shape t limit ds s e) (hext : s.Extends s') (hs' : s'.Formed)
    (htidy' : s'.Tidy) : Stage m shape t limit ds s' e :=
  { h with
    formed := hs'
    tidy := htidy'
    mapped := (hext.node_eq t (known_of_node h.mapped (by simp))).trans h.mapped
    homomorphic := h.homomorphic.mono h.formed hext
    remembers := h.remembers.mono hext }

theorem passed (h : Stage m shape t limit ds s e) {e' : Evaluator}
    (h' : Remembers m.source shape limit 1 s e') (hactive : e'.guard.active = e.guard.active)
    (hdiagnostics : e'.diagnostics = e.diagnostics) : Stage m shape t limit ds s e' :=
  { h with
    remembers := h'
    active := hactive.trans h.active
    diagnostics := hdiagnostics.trans h.diagnostics }

theorem distinct (h : Stage m shape t limit ds s e) : shape.Distinct :=
  h.tidy.nodup_names (t := m.source) (by rw [objectShape?, h.homomorphic.object])

/-- Access to the source with a constant key. -/
theorem reaches_access (h : Stage m shape t limit ds s e) (hlimit : limit ≤ 1 + depth) {u : TypeId}
    (hu : s.node u = .indexAccess m.source key) (hpart : shape.part? (s.node key) = some part) :
    Reaches (Stage m shape t limit ds) (evaluateAt ⟨env, o⟩ depth u) part e s := by
  have hactive : u ∉ e.guard.active := by
    rw [h.active, List.mem_singleton]
    rintro rfl
    rw [h.mapped] at hu
    cases hu
  have haccess : (evaluateAt ⟨env, o⟩ depth u e s).1.2.guard.exceeded ∨
      Gives m.source shape limit 1 s e part (evaluateAt ⟨env, o⟩ depth u e s) :=
    gives_evaluateAt_access h.formed hactive hu hpart hlimit h.remembers
  rcases haccess with hexceeded | ⟨e', hrun, h', hpasses⟩
  · exact .inl hexceeded
  · rcases hpasses.silent with hexceeded | hdiagnostics
    · exact .inl (hrun ▸ hexceeded)
    · exact .of_run hrun (h.passed h' hpasses.active hdiagnostics)

/-- The part of the source that belongs to a constant key. -/
theorem reaches_part (h : Stage m shape t limit ds s e) (hlimit : limit ≤ 1 + depth)
    (hkey : s.Closed AnyName key) (hpart : shape.part? (s.node key) = some part) :
    Reaches (Stage m shape t limit ds) (do
      evaluateAt ⟨env, o⟩ depth
        (← Build.instantiate (Substitution.empty.insert m.keyParam key) m.template)) part e s := by
  obtain ⟨param, info, htemplate, hparam, hname⟩ := h.homomorphic.template
  have hinstance := Build.instantiate_access h.formed h.tidy htemplate hparam
    (hname ▸ h.homomorphic.not_free) key
  rw [hname] at hinstance
  have hsource : s.Closed AnyName m.source :=
    h.formed.closed_of_known (known_of_node h.homomorphic.object (by simp))
  have hn : (Node.indexAccess m.source key).Closed AnyName s := by
    refine ⟨fun _ _ => nofun, fun c hc => ?_⟩
    simp only [Node.components, List.mem_cons, List.not_mem_nil, or_false] at hc
    rcases hc with rfl | rfl
    · exact hsource
    · exact hkey
  have hext : s.Extends (s.intern (.indexAccess m.source key)).2 := extends_intern
  have hs' := h.formed.formed_intern hn
  have h' := h.extend hext hs' (h.tidy.intern (n := .indexAccess m.source key) trivial)
  have hu := Formed.node_of_intern hs' (by simp)
  have hpart' : shape.part? ((s.intern (.indexAccess m.source key)).2.node key) = some part := by
    rw [hext.node_eq key hkey.known]
    exact hpart
  have hlift : (liftM (Build.instantiate (Substitution.empty.insert m.keyParam key) m.template) :
      Eval TypeId) e s = ((.ok (s.intern (.indexAccess m.source key)).1, e),
        (s.intern (.indexAccess m.source key)).2) := by
    rw [← hinstance]
    rfl
  exact .of_bind_run hlift (h'.reaches_access hlimit hu hpart')

/-- A field of the source is copied. -/
theorem reaches_mapField (h : Stage m shape t limit ds s e) (hlimit : limit ≤ 1 + depth)
    (hf : f ∈ shape.fields) :
    Reaches (Stage m shape t limit ds) (mapField (evaluateAt ⟨env, o⟩ depth) m f)
      (some (m.copiedField f)) e s := by
  have hmapField : mapField (evaluateAt ⟨env, o⟩ depth) m f = (do
      poll
      let key ← Build.stringLiteral f.name
      let type ← (do
        evaluateAt ⟨env, o⟩ depth
          (← Build.instantiate (Substitution.empty.insert m.keyParam key) m.template))
      return some ⟨{ m.modified f with type := type }, f.name⟩) := by
    unfold mapField Eval.keeps mappedName
    rw [h.homomorphic.unfiltered, h.homomorphic.named]
    simp [Mapped.modified]
  have hpoll : poll e s = ((.ok (), e), s) := Regime.poll_of_none h.remembers.patience s
  let n := Node.literal (.string f.name)
  have hn : n.Closed AnyName s := ⟨fun _ _ => nofun, fun c hc => by cases hc⟩
  have hs' : (s.intern n).2.Formed := h.formed.formed_intern hn
  have h' := h.extend extends_intern hs' (h.tidy.intern (n := n) trivial)
  have hkey : (liftM (Build.stringLiteral f.name) : Eval TypeId) e s =
      ((.ok (s.intern n).1, e), (s.intern n).2) := rfl
  have hfield : fieldType shape f.name = f.type := by
    rw [fieldType, h.distinct.find? hf]
    rfl
  have hpart : shape.part? ((s.intern n).2.node (s.intern n).1) = some f.type := by
    rw [Formed.node_of_intern hs' (by simp [n]), ← hfield]
    rfl
  rw [hmapField]
  refine .of_bind_run hpoll (.of_bind_run hkey ?_)
  exact (h'.reaches_part hlimit (h.formed.closed_intern hn) hpart).bind (fun _ _ => Pairs.pure _)
    fun e₁ s₁ h₁ => Reaches.of_run rfl h₁

/-- All fields of the source are copied, in their order. -/
theorem reaches_mapFields (hlimit : limit ≤ 1 + depth) {copied fields : List Field}
    (hfields : copied ++ fields = shape.fields) (h : Stage m shape t limit ds s e) :
    Reaches (Stage m shape t limit ds)
      (mapFields (evaluateAt ⟨env, o⟩ depth) m m.source fields (copied.map m.copiedField))
      (shape.fields.map m.copiedField) e s := by
  induction fields generalizing copied s e with
  | nil =>
      rw [← hfields, List.append_nil]
      exact .of_run rfl h
  | cons f rest ih =>
      have hlasting : ∀ fields done, Lasting
          (mapFields (evaluateAt ⟨env, o⟩ depth) m m.source fields done) := fun fields done P =>
        together_mapFields (lasting_evaluateAt depth) m m.source fields done
      refine (h.reaches_mapField hlimit (f := f) ?_).bind (fun new P => ?_) fun e₁ s₁ h₁ => ?_
      · rw [← hfields]
        simp
      · cases new with
        | none => exact hlasting _ _ P
        | some new =>
            dsimp only
            split
            · exact Pairs.bind (together_reportCollision _ _ _ _) fun _ => hlasting _ _ P
            · exact hlasting _ _ P
      · have hname : ∀ old ∈ copied.map m.copiedField,
            old.field.name ≠ (m.copiedField f).field.name := by
          have hdistinct := h.distinct
          rw [ObjectShape.Distinct, ← hfields, List.map_append, List.nodup_append] at hdistinct
          rintro _ hold
          obtain ⟨g, hg, rfl⟩ := List.mem_map.mp hold
          exact hdistinct.2.2 _ (List.mem_map_of_mem hg) f.name (by simp)
        have hnew : (copied.map m.copiedField).find? (·.field.name = (m.copiedField f).field.name) =
            none :=
          List.find?_eq_none.mpr fun old hold => by simpa using hname old hold
        have hnext := ih (List.append_cons copied f rest ▸ hfields) h₁
        rw [List.map_append, List.map_singleton, ← putMapped_of_new hname] at hnext
        dsimp only
        rw [hnew]
        exact hnext

end Stage

end stage

section result

/-- The copy was made in a store that knows the source. -/
structure Copied (m : Mapped) (shape : ObjectShape) (ds : Array Diagnostic) (x : End TypeId) :
    Prop where
  made : ∃ s : Store, s.Formed ∧ s.node m.source = .object shape ∧
    x.1.1 = .ok (s.intern (.object (m.copied shape))).1 ∧
    (s.intern (.object (m.copied shape))).2.Alike x.2
  diagnostics : x.1.2.diagnostics = ds

theorem forM_run {l : List MappedField} {f : MappedField → Eval PUnit}
    (hf : ∀ a e s, ∃ s', f a e s = ((.ok ⟨⟩, e), s') ∧ s.Alike s') (e : Evaluator) (s : Store) :
    ∃ s', l.forM f e s = ((.ok ⟨⟩, e), s') ∧ s.Alike s' := by
  induction l generalizing s with
  | nil => exact ⟨s, rfl, .refl s⟩
  | cons a rest ih =>
      obtain ⟨s₁, hhead, halike⟩ := hf a e s
      obtain ⟨s₂, hrest, halike'⟩ := ih s₁
      exact ⟨s₂, (bind_run hhead).trans hrest, halike.trans halike'⟩

/-- A tag that is handed on changes neither the evaluator nor the types. -/
theorem copyTag_run (source target : Place) (e : Evaluator) (s : Store) : ∃ s',
    (do if let some tag ← Build.origin? source then Build.recordOrigin target tag : Eval PUnit) e s =
      ((.ok ⟨⟩, e), s') ∧ s.Alike s' := by
  have hget : (liftM (Build.origin? source) : Eval (Option SourceTag)) e s =
      ((.ok (s.origin? source), e), s) := rfl
  cases htag : s.origin? source with
  | none =>
      refine ⟨s, (bind_run hget).trans ?_, .refl s⟩
      rw [htag]
      rfl
  | some tag =>
      refine ⟨s.recordOrigin target tag, (bind_run hget).trans ?_, alike_recordOrigin s target tag⟩
      rw [htag]
      rfl

theorem copied_result (h : Stage m shape t limit ds s e) : Copied m shape ds ((do
    let result ← Build.object ⟨(shape.fields.map m.copiedField).map (·.field), shape.stringIndex⟩
    (shape.fields.map m.copiedField).forM fun f => do
      if let some tag ← Build.origin? (.field m.source f.key) then
        Build.recordOrigin (.field result f.field.name) tag
    return result : Eval TypeId) e s) := by
  have hshape : (⟨(shape.fields.map m.copiedField).map (·.field), shape.stringIndex⟩ : ObjectShape) =
      m.copied shape := by
    rw [List.map_map]
    rfl
  rw [hshape]
  have hobject : (liftM (Build.object (m.copied shape)) : Eval TypeId) e s =
      ((.ok (s.intern (.object (m.copied shape))).1, e),
        (s.intern (.object (m.copied shape))).2) := rfl
  obtain ⟨s', htags, halike⟩ := forM_run (l := shape.fields.map m.copiedField)
    (fun f => copyTag_run (.field m.source f.key)
      (.field (s.intern (.object (m.copied shape))).1 f.field.name)) e
    (s.intern (.object (m.copied shape))).2
  have hrun := (bind_run (f := fun result => do
    (shape.fields.map m.copiedField).forM fun f => do
      if let some tag ← Build.origin? (.field m.source f.key) then
        Build.recordOrigin (.field result f.field.name) tag
    return result) hobject).trans (bind_run htags)
  rw [hrun]
  exact ⟨⟨s, h.formed, h.homomorphic.object, rfl, halike⟩, h.diagnostics⟩

/-- The copying of all fields and of the index signature. -/
theorem copies_mapObject (h : Stage m shape t limit ds s e) (hlimit : limit ≤ 1 + depth) :
    Unless (Copied m shape ds) (mapObject (evaluateAt ⟨env, o⟩ depth) m m.source shape) e s := by
  have hfields : Reaches (Stage m shape t limit ds)
      (mapFields (evaluateAt ⟨env, o⟩ depth) m m.source shape.fields [])
      (shape.fields.map m.copiedField) e s :=
    Stage.reaches_mapFields hlimit (List.nil_append _) h
  refine hfields.bind (fun fields P => ?_) fun e₁ s₁ h₁ => ?_
  · have hrest := together_mapResult (P := P) (G := noGuards) m.source fields
    refine together_ite ?_ (Pairs.bind (Pairs.pure _) hrest)
    refine together_instantiate _ _ fun _ => Pairs.bind (lasting_evaluateAt depth _) fun _ => ?_
    exact Pairs.bind (Pairs.pure _) hrest
  · have hnamed : m.nameType.isNone = true := by rw [h.homomorphic.named]; rfl
    cases hindex : shape.stringIndex with
    | none =>
        have hresult := copied_result h₁
        rw [hindex] at hresult
        rw [if_neg (by simp)]
        exact .inr hresult
    | some u =>
        have hstring : s₁.node .string = .intrinsic .string := h₁.formed.node_intrinsic .string
        have hpart : shape.part? (s₁.node .string) = some u := by
          rw [hstring]
          exact congrArg (some <| ·.getD .unknown) hindex
        have hindexed : Reaches (Stage m shape t limit ds) (do
            evaluateAt ⟨env, o⟩ depth
              (← Build.instantiate (Substitution.empty.insert m.keyParam .string) m.template))
            u e₁ s₁ :=
          h₁.reaches_part hlimit (h₁.formed.closed_fixed (by rfl)) hpart
        rw [if_pos (by simp [hnamed])]
        have hrest := hindexed.bind (f := fun t => pure (some t) >>= fun index => do
          let result ← Build.object ⟨(shape.fields.map m.copiedField).map (·.field), index⟩
          (shape.fields.map m.copiedField).forM fun f => do
            if let some tag ← Build.origin? (.field m.source f.key) then
              Build.recordOrigin (.field result f.field.name) tag
          return result)
          (fun t P => Pairs.bind (Pairs.pure _) (together_mapResult m.source _))
          (Q := Copied m shape ds) fun e₂ s₂ h₂ => by
            have hresult := copied_result h₂
            rw [hindex] at hresult
            exact .inr hresult
        rw [bind_assoc] at hrest
        exact hrest

/-- A homomorphic mapped type copies its source. If a fresh evaluation leaves the source as it is and
does not come to the mapped type, the result has the fields of the source under the modifiers and
its index signature, and is the source if there are no modifiers; nothing is reported that the
source does not report. -/
theorem evaluate_homomorphic (hs : s.Reachable) (henv : s.Knows env) (hn : s.node t = .mapped m)
    (hm : s.Homomorphic m shape) :
    let x := evaluate ⟨env, o⟩ m.source (.fresh o 0 none) s
    let y := evaluate ⟨env, o⟩ t (.fresh o 0 none) s
    x.1.1 = .ok m.source → t ∉ x.1.2.cache → x.1.2.Unlimited → y.1.2.Unlimited →
      ∃ r copy, y.1.1 = .ok r ∧ y.2.node r = .object copy ∧
        copy.sorted = (m.copied shape).sorted ∧
        (m.optional = none → m.readonly = none → r = m.source) ∧
        y.1.2.diagnostics = x.1.2.diagnostics := by
  intro x y hvalue ht hlimit hlimit'
  obtain ⟨hformed, htidy⟩ := formed_and_tidy_of_reachable hs
  have hagrees := hformed.agrees henv
  obtain ⟨depth, hdepth, hrun⟩ :=
    evaluate_entered (hformed.not_isFixed hn (by simp) (by simp) (by simp)) hlimit'
  have hexceeded : y.1.2.guard.exceeded = false := exceeded_of_unlimited hlimit'
  let z := Eval.mapped (evaluateAt ⟨env, o⟩ depth) m (entering o t) s
  have hy : y = finish t z := by
    rw [hn] at hrun
    exact hrun
  rw [hy, finish_diagnostics, finish_result, finish_store]
  rw [hy, finish_exceeded] at hexceeded
  have hwithin : (evaluateAt ⟨env, o⟩ depth m.source (entering o t) s).1.2.Unlimited := by
    have hlater : Later (evaluateAt ⟨env, o⟩ depth m.source (entering o t) s).1.2 z.1.2 :=
      later_bind (fun source P => together_mappedFrom (lasting_evaluateAt depth) m source) _ s
    intro d hd
    have hd' : d ∈ y.1.2.diagnostics := by
      rw [hy, finish_diagnostics]
      exact hlater.diagnostics d hd
    exact hlimit' d hd'
  obtain ⟨hext, hformed', -, -⟩ := sound_evaluate hagrees hformed hm.object hvalue hlimit
  obtain ⟨e₁, hsource, hremembers, hactive, hdiagnostics⟩ :=
    remembers_within hagrees hformed hm.object hdepth hvalue hlimit ht hwithin
  have hstage : Stage m shape t o.maxEvaluationDepth.toNat x.1.2.diagnostics x.2 e₁ :=
    ⟨hformed', (Tidy.keeps_evaluate ⟨env, o⟩ m.source (.fresh o 0 none) s htidy).1,
      (hext.node_eq t (known_of_node hn (by simp))).trans hn, hm.mono hformed hext, hremembers,
      hactive, hdiagnostics⟩
  have hnode : (liftM (Build.node m.source) : Eval Node) e₁ x.2 =
      ((.ok (.object shape), e₁), x.2) := by
    rw [← hremembers.object]
    rfl
  have hz : z = mapObject (evaluateAt ⟨env, o⟩ depth) m m.source shape e₁ x.2 :=
    (bind_run hsource).trans (bind_run hnode)
  have hlevels : o.maxEvaluationDepth.toNat ≤ 1 + depth := by omega
  rcases copies_mapObject hstage hlevels with hlimited | hcopied
  · rw [← hz, hexceeded] at hlimited
    cases hlimited
  · rw [← hz] at hcopied
    obtain ⟨⟨s₁, hs₁, hobject, hvalue', halike⟩, hreported⟩ := hcopied
    obtain ⟨copy, hcopy, hsorted⟩ :=
      Node.exists_object_of_identity_eq (hs₁.node_intern (n := .object (m.copied shape))).2
    refine ⟨_, copy, hvalue', (halike.node _).trans hcopy, hsorted, fun hoptional hreadonly => ?_,
      hreported⟩
    rw [Mapped.copied_of_no_modifier hoptional hreadonly,
      hs₁.intern_node (known_of_node hobject (by simp)) hobject]

end result

section samples

/-- `{ [K in keyof source]: source[K] }`, perhaps with a modifier for optional fields. -/
def mappingExpr (source : TypeExpr) (optional : Option Modifier) : TypeExpr :=
  .of (.mapped "K" source none (.indexAccess source (.named "K")) none optional none)

/-- A mapped type over a source, in the scope of one alias `Y`. -/
structure Sample where
  environment : Environment
  source : TypeId
  mapped : TypeId
  store : Store

def Sample.of (body source : TypeExpr) (optional : Option Modifier) : Sample :=
  let body := body.lower [] 0 .empty
  let mapped := (mappingExpr source optional).lower [] 0 body.2
  ⟨⟨[⟨"Y", [], body.1.1, none⟩]⟩, (source.lower [] 0 mapped.2).1.1, mapped.1.1, mapped.2⟩

/-- What a fresh evaluation gives. -/
def Sample.evaluate (x : Sample) (t : TypeId) : End TypeId :=
  Eval.evaluate ⟨x.environment, .standard⟩ t (.fresh .standard 0 none) x.store

/-- `type Y = { a: Y }["a"]` and the type over `{ f: Y, [key: string]: string }` that makes fields
optional. -/
def lazySample : Sample :=
  .of (.indexAccess (.object [.of "a" (.named "Y")]) (.stringLiteral "a"))
    (.of (.object [.of "f" (.named "Y")] (some .string))) (some .add)

/-- `type Y = { a: Y, b: Missing }["a"]` and the type over `{ f: Y }`. -/
def reportingSample : Sample :=
  .of (.indexAccess (.object [.of "a" (.named "Y"), .of "b" (.named "Missing")]) (.stringLiteral "a"))
    (.object [.of "f" (.named "Y")]) none

/-- `type Y = { [K in keyof { f: Y }]: { f: Y }[K] }["f"]` and the type over `{ f: Y }`. -/
def cyclicSample : Sample :=
  .of (.indexAccess (mappingExpr (.object [.of "f" (.named "Y")]) none) (.stringLiteral "f"))
    (.object [.of "f" (.named "Y")]) none

theorem object_stays {inner : TypeId → Eval TypeId} {t : TypeId} {shape : ObjectShape} {f : Field}
    {e : Evaluator} {s : Store} (hfields : shape.fields = [f])
    (hindex : ∀ u ∈ shape.stringIndex, ∀ e s, inner u e s = ((.ok u, e), s))
    (hstays : (inner f.type e s).1.1 = .ok f.type) :
    object inner t shape e s = ((.ok t, (inner f.type e s).1.2), (inner f.type e s).2) := by
  have hrun : inner f.type e s =
      ((.ok f.type, (inner f.type e s).1.2), (inner f.type e s).2) := by
    exact Prod.ext (Prod.ext hstays rfl) rfl
  have hmap : (shape.fields.mapM fun f => return { f with type := ← inner f.type } :
      Eval (List Field)) e s = ((.ok shape.fields, (inner f.type e s).1.2), (inner f.type e s).2) := by
    have hfield : (do return { f with type := ← inner f.type } : Eval Field) e s =
        ((.ok f, (inner f.type e s).1.2), (inner f.type e s).2) := bind_run hrun
    rw [hfields, List.mapM_cons]
    exact bind_run hfield
  have hoption : ∀ e s, (shape.stringIndex.mapM inner : Eval (Option TypeId)) e s =
      ((.ok shape.stringIndex, e), s) := by
    intro e s
    cases h : shape.stringIndex with
    | none => rfl
    | some u => exact bind_run (hindex u h e s)
  have hrebuild : Normal.rebuildObject t shape ⟨shape.fields, shape.stringIndex⟩ = pure t :=
    if_pos rfl
  refine (bind_run hmap).trans ((bind_run (hoption _ _)).trans ?_)
  change (liftM (Normal.rebuildObject t shape ⟨shape.fields, shape.stringIndex⟩) : Eval TypeId) _ _ = _
  rw [hrebuild]
  rfl

/-- An object with one field stays as it is if the type of the field does. -/
theorem evaluateAt_stays {setting : Setting} {depth : Nat} {t : TypeId} {shape : ObjectShape}
    {f : Field} {e : Evaluator} {s : Store} (hfixed : t.isFixed = false)
    (hnode : s.node t = .object shape) (hfields : shape.fields = [f])
    (hindex : ∀ u ∈ shape.stringIndex, u.isFixed) (hpatience : e.patience = none)
    (hcache : e.cache[t]? = none) (hexceeded : e.guard.exceeded = false)
    (henter : (e.guard.enter t).1 = .entered) :
    let y := evaluateAt setting depth f.type
      { e with guard := (e.guard.enter t).2, productive := e.productive + 1 } s
    y.1.1 = .ok f.type → evaluateAt setting (depth + 1) t e s =
      finish t ((.ok t, { y.1.2 with productive := y.1.2.productive - 1 }), y.2) := by
  intro y hstays
  have hobject : object (evaluateAt setting depth) t shape
      { e with guard := (e.guard.enter t).2, productive := e.productive + 1 } s =
      ((.ok t, y.1.2), y.2) :=
    object_stays hfields (fun u hu => evaluateAt_fixed (hindex u hu) depth) hstays
  refine (guarded_entered hfixed hpatience hcache hexceeded henter).trans (congrArg (finish t) ?_)
  rw [hnode]
  exact congrArg (fun x : End TypeId =>
    ((x.1.1, { x.1.2 with productive := x.1.2.productive - 1 }), x.2)) hobject

theorem mapped_stays {inner : TypeId → Eval TypeId} {m : Mapped} {shape : ObjectShape}
    {e : Evaluator} {s : Store} (hstays : (inner m.source e s).1.1 = .ok m.source)
    (hn : (inner m.source e s).2.node m.source = .object shape) :
    mapped inner m e s =
      mapObject inner m m.source shape (inner m.source e s).1.2 (inner m.source e s).2 := by
  have hrun : inner m.source e s =
      ((.ok m.source, (inner m.source e s).1.2), (inner m.source e s).2) :=
    Prod.ext (Prod.ext hstays rfl) rfl
  have hnode : ∀ e s, (liftM (Build.node m.source) : Eval Node) e s = ((.ok (s.node m.source), e), s) :=
    fun _ _ => rfl
  refine (bind_run hrun).trans ((bind_run (hnode _ _)).trans ?_)
  rw [hn]
  rfl

/-- The types that the evaluation of a sample's source meets: the source, the alias in its field, and
the access that the alias stands for. -/
structure Path where
  source : TypeId
  lazy : TypeId
  body : TypeId
  object : TypeId
  key : TypeId

variable {x : Sample} {p : Path} {e : Evaluator} {depth : Nat}

namespace Path

def atField (p : Path) (e : Evaluator) : Evaluator :=
  { e with guard := (e.guard.enter p.source).2, productive := e.productive + 1 }

def atBody (p : Path) (e : Evaluator) : Evaluator :=
  { p.atField e with
    guard := ((p.atField e).guard.enter p.lazy).2
    frames := ⟨"Y", [], (p.atField e).productive⟩ :: e.frames }

def atAccess (p : Path) (e : Evaluator) : Evaluator :=
  { p.atBody e with guard := ((p.atBody e).guard.enter p.body).2 }

/-- Nothing on the path was met before. -/
structure Fresh (p : Path) (e : Evaluator) : Prop where
  patience : e.patience = none
  cache : e.cache = ∅
  frames : e.frames = []
  exceeded : e.guard.exceeded = false ∧ (p.atField e).guard.exceeded = false ∧
    (p.atBody e).guard.exceeded = false
  entered : (e.guard.enter p.source).1 = .entered ∧
    ((p.atField e).guard.enter p.lazy).1 = .entered ∧
    ((p.atBody e).guard.enter p.body).1 = .entered

/-- How the evaluation of the alias ends, given how that of the access ends. -/
def leaveAlias (p : Path) (z : End TypeId) : End TypeId :=
  let y := finish p.body z
  finish p.lazy ((y.1.1, { y.1.2 with frames := y.1.2.frames.tail }), y.2)

/-- How the evaluation of the source ends if the alias stays as it is. -/
def leaveSource (p : Path) (z : End TypeId) : End TypeId :=
  let y := p.leaveAlias z
  finish p.source ((.ok p.source, { y.1.2 with productive := y.1.2.productive - 1 }), y.2)

end Path

/-- The path through a sample. -/
structure Sample.Follows (x : Sample) (p : Path) (index : Option TypeId) : Prop where
  environment : x.environment = ⟨[⟨"Y", [], p.body, none⟩]⟩
  source : x.store.node p.source = .object ⟨[⟨"f", p.lazy, false, false⟩], index⟩
  lazy : x.store.node p.lazy = .reference "Y" []
  body : x.store.node p.body = .indexAccess p.object p.key
  index : ∀ i ∈ index, i.isFixed
  own : p.source.isFixed = false ∧ p.lazy.isFixed = false ∧ p.body.isFixed = false

/-- The last step on the path. -/
def Sample.access (x : Sample) (p : Path) (depth : Nat) (e : Evaluator) : End TypeId :=
  (indexAccess (evaluateAt ⟨x.environment, .standard⟩ depth) p.body p.object p.key).run (p.atAccess e)
    x.store

theorem Sample.Follows.lazy_run {index : Option TypeId} (h : x.Follows p index) (he : p.Fresh e) :
    evaluateAt ⟨x.environment, .standard⟩ (depth + 2) p.lazy (p.atField e) x.store =
      p.leaveAlias (x.access p depth e) := by
  have hcache : (p.atBody e).cache = ∅ := he.cache
  have hbody : (evaluateAt ⟨x.environment, .standard⟩ (depth + 1) p.body).run (p.atBody e) x.store =
      finish p.body (x.access p depth e) := by
    rw [evaluateAt, guarded_entered (e := p.atBody e) h.own.2.2 he.patience (by simp [hcache])
      he.exceeded.2.2 he.entered.2.2, h.body]
    rfl
  have hget : x.environment.get? "Y" = some ⟨"Y", [], p.body, none⟩ := by
    rw [h.environment]
    rfl
  have hcache' : (p.atField e).cache = ∅ := he.cache
  have hframes : (p.atField e).frames = [] := he.frames
  refine (evaluateAt_plain (e := p.atField e) h.own.2.1 h.lazy he.patience (by simp [hcache'])
    he.exceeded.2.1 he.entered.2.1 hget rfl (by simp [hframes])).trans ?_
  rw [Path.leaveAlias, ← hbody]
  rfl

theorem Sample.Follows.source_run {index : Option TypeId} (h : x.Follows p index) (he : p.Fresh e)
    (hstays : (x.access p depth e).1.1 = .ok p.lazy) :
    evaluateAt ⟨x.environment, .standard⟩ (depth + 3) p.source e x.store =
      p.leaveSource (x.access p depth e) := by
  have hlazy : evaluateAt ⟨x.environment, .standard⟩ (depth + 2) p.lazy (p.atField e) x.store =
      p.leaveAlias (x.access p depth e) := h.lazy_run he
  rw [Path.leaveSource, ← hlazy]
  refine evaluateAt_stays (f := ⟨"f", p.lazy, false, false⟩) h.own.1 h.source rfl h.index he.patience
    (by simp [he.cache]) he.exceeded.1 he.entered.1 ?_
  refine (congrArg (·.1.1) hlazy).trans ?_
  simp [Path.leaveAlias, finish_result, hstays]

theorem Sample.evaluate_run (x : Sample) (t : TypeId) : x.evaluate t =
    evaluateAt ⟨x.environment, .standard⟩ (49 + 1) t (.fresh .standard 0 none) x.store := by
  have hrun : x.evaluate t = evaluateAt ⟨x.environment, .standard⟩
      Options.standard.maxEvaluationDepth.toNat t (.fresh .standard 0 none) x.store := rfl
  have hdepth : Options.standard.maxEvaluationDepth.toNat = 49 + 1 := by decide
  rw [hrun, hdepth]

theorem Sample.evaluate_entered (x : Sample) {t : TypeId} (ht : t.isFixed = false) :
    x.evaluate t = finish t (node (evaluateAt ⟨x.environment, .standard⟩ 49)
      ⟨x.environment, .standard⟩ t (x.store.node t) (entering .standard t) x.store) := by
  rw [x.evaluate_run]
  exact guarded_entered ht rfl (by simp [Evaluator.fresh]) rfl rfl

/-- A source that stays as it is. -/
theorem Sample.Follows.evaluate_source {index : Option TypeId} (h : x.Follows p index)
    (he : p.Fresh (.fresh .standard 0 none))
    (hstays : (x.access p 47 (.fresh .standard 0 none)).1.1 = .ok p.lazy) :
    x.evaluate p.source = p.leaveSource (x.access p 47 (.fresh .standard 0 none)) := by
  rw [x.evaluate_run]
  exact h.source_run he hstays

/-- The mapped type `t` over a source that stays as it is. -/
theorem Sample.Follows.evaluate_mapped {index : Option TypeId} (h : x.Follows p index) {t : TypeId}
    {m : Mapped} {shape : ObjectShape} (ht : t.isFixed = false) (hn : x.store.node t = .mapped m)
    (hm : m.source = p.source) (he : p.Fresh (entering .standard t)) :
    let z := x.access p 46 (entering .standard t)
    let w := p.leaveSource z
    z.1.1 = .ok p.lazy → w.2.node p.source = .object shape → x.evaluate t =
      finish t (mapObject (evaluateAt ⟨x.environment, .standard⟩ 49) m p.source shape w.1.2 w.2) := by
  intro z w hstays hobject
  have hrun : evaluateAt ⟨x.environment, .standard⟩ 49 m.source (entering .standard t) x.store = w := by
    rw [hm]
    exact h.source_run he hstays
  have hvalue : w.1.1 = .ok m.source := by
    rw [hm]
    exact finish_result _ _
  rw [x.evaluate_entered ht, hn]
  refine congrArg (finish t) ?_
  refine (mapped_stays (by rw [hrun, hvalue]) (by rw [hrun, hm, hobject])).trans ?_
  rw [hrun, hm]

def reportingPath : Path := ⟨⟨17⟩, ⟨12⟩, ⟨16⟩, ⟨14⟩, ⟨15⟩⟩

def cyclicPath : Path := ⟨⟨13⟩, ⟨12⟩, ⟨18⟩, ⟨16⟩, ⟨17⟩⟩

theorem follows_reportingPath : reportingSample.Follows reportingPath none := by
  refine ⟨?_, ?_, ?_, ?_, nofun, rfl, rfl, rfl⟩ <;> cbv

theorem follows_cyclicPath : cyclicSample.Follows cyclicPath none := by
  refine ⟨?_, ?_, ?_, ?_, nofun, rfl, rfl, rfl⟩ <;> cbv

theorem reportingSample_eq : reportingSample.source = reportingPath.source ∧ reportingSample.mapped = ⟨20⟩ ∧
    reportingSample.store.node ⟨20⟩ = .mapped ⟨"K", ⟨17⟩, none, ⟨19⟩, none, none, none⟩ := by
  refine ⟨?_, ?_, ?_⟩ <;> cbv

theorem cyclicSample_eq : cyclicSample.source = cyclicPath.source ∧ cyclicSample.mapped = ⟨16⟩ ∧
    cyclicSample.store.node ⟨16⟩ = .mapped ⟨"K", ⟨13⟩, none, ⟨15⟩, none, none, none⟩ := by
  refine ⟨?_, ?_, ?_⟩ <;> cbv

/-- A source that stays as it is may still report something, and it may come to the mapped type. -/
theorem evaluate_homomorphic_exceptions :
    (let x := reportingSample;
      (x.evaluate x.source).1.1 = .ok x.source ∧
        (x.evaluate x.mapped).1.2.diagnostics.map (·.kind) = #[.unresolvedReference]) ∧
    (let x := cyclicSample;
      (x.evaluate x.source).1.1 = .ok x.source ∧ (x.evaluate x.source).1.2.diagnostics = #[] ∧
        (x.evaluate x.mapped).1.2.diagnostics = #[] ∧
        (x.evaluate x.mapped).1.1 ≠ .ok x.source) := by
  obtain ⟨hrs, hrm, hrn⟩ := reportingSample_eq
  obtain ⟨hcs, hcm, hcn⟩ := cyclicSample_eq
  have hreporting := follows_reportingPath.evaluate_source
    ⟨rfl, rfl, rfl, ⟨rfl, rfl, rfl⟩, rfl, rfl, rfl⟩ (by cbv)
  have hcyclic := follows_cyclicPath.evaluate_source
    ⟨rfl, rfl, rfl, ⟨rfl, rfl, rfl⟩, rfl, rfl, rfl⟩ (by cbv)
  have hreporting' := follows_reportingPath.evaluate_mapped rfl hrn rfl
    ⟨rfl, rfl, rfl, ⟨rfl, rfl, rfl⟩, rfl, rfl, rfl⟩ (by cbv) (by cbv)
  dsimp only
  rw [hrs, hrm, hcs, hcm]
  refine ⟨⟨?_, ?_⟩, ?_, ?_, ?_, ?_⟩
  · rw [hreporting, Path.leaveSource, finish_result]
  · rw [hreporting', finish_diagnostics]
    cbv
  · rw [hcyclic, Path.leaveSource, finish_result]
  · rw [hcyclic, Path.leaveSource, finish_diagnostics]
    cbv
  · rw [Sample.evaluate_entered _ rfl, hcn, finish_diagnostics]
    cbv
  · rw [Sample.evaluate_entered _ rfl, hcn, finish_result]
    cbv
    simp

theorem Sample.reachable (body source : TypeExpr) (optional : Option Modifier) :
    (Sample.of body source optional).store.Reachable := by
  have hscope : ∀ s : Store, s.Knows ([] : TypeScope) := by
    rintro s t ⟨b, hb, -⟩
    cases hb
  exact ⟨.byAge,
    .tail (.single (.lower body 0 (hscope _))) (.lower (mappingExpr source optional) 0 (hscope _))⟩

def lazyShape : ObjectShape := ⟨[⟨"f", ⟨12⟩, false, false⟩], some .string⟩

def lazyMapped : Mapped := ⟨"K", ⟨16⟩, none, ⟨18⟩, none, some .add, none⟩

theorem lazySample_nodes :
    lazySample.environment = ⟨[⟨"Y", [], ⟨15⟩, none⟩]⟩ ∧ lazySample.store.size = 20 ∧
      lazySample.store.node ⟨12⟩ = .reference "Y" [] ∧
      lazySample.store.node ⟨16⟩ = .object lazyShape ∧
      lazySample.store.node ⟨17⟩ = .param ⟨"K", none, none, false⟩ ∧
      lazySample.store.node ⟨18⟩ = .indexAccess ⟨16⟩ ⟨17⟩ ∧
      lazySample.store.node ⟨19⟩ = .mapped lazyMapped := by
  refine ⟨?_, ?_, ?_, ?_, ?_, ?_, ?_⟩ <;> cbv

theorem lazySample_homomorphic : lazySample.store.Homomorphic lazyMapped lazyShape := by
  obtain ⟨-, hsize, hlazy, hobject, hkey, htemplate, -⟩ := lazySample_nodes
  have hs : lazySample.store.Formed := (formed_and_tidy_of_reachable (Sample.reachable _ _ _)).1
  have hfree : lazySample.store.Without (· = "K") ⟨16⟩ := by
    refine .of_scopes (hs.closed_of_known (by rw [hsize]; decide)) (by simp [hobject]) ?_
    rw [hobject]
    rintro c hc
    rcases List.mem_pair.mp hc with rfl | rfl
    · exact ⟨rfl, .of_leaf (by rw [hsize]; decide) (by simp [hlazy]) (by rw [hlazy]; rfl) hs⟩
    · exact ⟨rfl, .fixed hs rfl⟩
  exact ⟨rfl, rfl, hobject, ⟨_, _, htemplate, hkey, rfl⟩, hfree.not_free⟩

def lazyPath : Path := ⟨⟨16⟩, ⟨12⟩, ⟨15⟩, ⟨13⟩, ⟨14⟩⟩

theorem follows_lazyPath : lazySample.Follows lazyPath (some .string) := by
  refine ⟨?_, ?_, ?_, ?_, by decide, rfl, rfl, rfl⟩ <;> cbv

theorem lazySample_source :
    (lazySample.evaluate ⟨16⟩).1.1 = .ok ⟨16⟩ ∧
      (lazySample.evaluate ⟨16⟩).1.2.diagnostics = #[] ∧
      (lazySample.evaluate ⟨16⟩).1.2.cache.contains ⟨19⟩ = false := by
  have hrun : lazySample.evaluate ⟨16⟩ =
      lazyPath.leaveSource (lazySample.access lazyPath 47 (.fresh .standard 0 none)) :=
    follows_lazyPath.evaluate_source ⟨rfl, rfl, rfl, ⟨rfl, rfl, rfl⟩, rfl, rfl, rfl⟩ (by cbv)
  rw [hrun]
  refine ⟨?_, ?_, ?_⟩
  · cbv
  · cbv
  · cbv

theorem lazySample_mapped : (lazySample.evaluate ⟨19⟩).1.2.diagnostics = #[] := by
  obtain ⟨-, -, -, -, -, -, hn⟩ := lazySample_nodes
  rw [follows_lazyPath.evaluate_mapped rfl hn rfl
    ⟨rfl, rfl, rfl, ⟨rfl, rfl, rfl⟩, rfl, rfl, rfl⟩ (by cbv) (by cbv), finish_diagnostics]
  cbv

theorem evaluate_homomorphic_lazy :
    let x := lazySample
    x.store.node ⟨19⟩ = .mapped lazyMapped ∧ x.store.Homomorphic lazyMapped lazyShape ∧
      ∃ r copy, (x.evaluate ⟨19⟩).1.1 = .ok r ∧ (x.evaluate ⟨19⟩).2.node r = .object copy ∧
        copy.sorted = (lazyMapped.copied lazyShape).sorted ∧
        (x.evaluate ⟨19⟩).1.2.diagnostics = #[] := by
  obtain ⟨henv, hsize, -, -, -, -, hn⟩ := lazySample_nodes
  obtain ⟨hvalue, hquiet, hcontains⟩ := lazySample_source
  have hquiet' := lazySample_mapped
  have hknows : lazySample.store.Knows lazySample.environment := by
    rw [henv]
    rintro u ⟨a, ha, hu⟩
    rw [List.mem_singleton] at ha
    subst ha
    rcases hu with rfl | ⟨p, hp, -⟩
    · rw [hsize]
      decide
    · cases hp
  have hapart : ⟨19⟩ ∉ (lazySample.evaluate ⟨16⟩).1.2.cache := by
    simp [Std.HashMap.mem_iff_contains, hcontains]
  have hlimit : (lazySample.evaluate ⟨16⟩).1.2.Unlimited := fun d hd => by simp [hquiet] at hd
  have hlimit' : (lazySample.evaluate ⟨19⟩).1.2.Unlimited := fun d hd => by simp [hquiet'] at hd
  obtain ⟨r, copy, hr, hcopy, hsorted, -, -⟩ := evaluate_homomorphic (Sample.reachable _ _ _) hknows hn
    lazySample_homomorphic hvalue hapart hlimit hlimit'
  exact ⟨hn, lazySample_homomorphic, r, copy, hr, hcopy, hsorted, hquiet'⟩

end samples

end Eval

end TypeResolution
