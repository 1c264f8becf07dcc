import TypeResolution.Proofs.Inference.Candidates
import TypeResolution.Proofs.Store.Free

/-!
What inference binds. Bound types have no literals that widening would replace, as long as nothing
keeps literals and no walk is strict. Inferred type arguments do not mention the parameters of the
call, apart from the default or the constraint that stands in for a parameter without candidates.
-/

namespace TypeResolution

open Store

namespace Inference

variable {p : Problem} {T : Bool → Store → TypeId → Prop} {S C : Store → TypeId → Prop}
  {s s' : Store} {strict : Bool} {t : TypeId} {ts : List TypeId} {pools : List Pool}

/-- Computations that may find a conflict; what is said holds if they find none. -/
def trying : Outcomes (ExceptT Conflict Build) where
  Holds s m Q := building.Holds s m.run fun s' r => ∀ a, r = .ok a → Q s' a
  pure {_ _ a _} h := building.pure fun b hb => by
    cases hb
    exact h
  bind {_ _ s step f Q Q'} hm hf := by
    rw [ExceptT.run_bind]
    refine building.bind hm fun s₁ r h₁ hs₁ hr => ?_
    cases r with
    | ok a => exact hf s₁ a h₁ hs₁ (hr a rfl)
    | error e => exact building.pure (by simp)
  formed h := building.formed h

theorem trying_lift {α : Type} {m : Build α} {Q : Store → α → Prop} (hm : building.Holds s m Q) :
    trying.Holds s (liftM m) Q := by
  change building.Holds s (m >>= fun a => pure (Except.ok a : Except Conflict α))
    fun s' r => ∀ a, r = .ok a → Q s' a
  refine building.bind hm fun s₁ a _ _ ha => building.pure ?_
  rintro _ ⟨⟩
  exact ha

theorem trying_store {α : Type} {f : Store → ExceptT Conflict Build α} {Q : Store → α → Prop}
    (h : trying.Holds s (f s) Q) : trying.Holds s (getThe Store >>= f) Q :=
  h

theorem trying_throw {α : Type} {c : Conflict} {Q : Store → α → Prop} :
    trying.Holds s (throw c) Q := by
  change building.Holds s (pure (Except.error c : Except Conflict α))
    fun s' r => ∀ a, r = .ok a → Q s' a
  exact building.pure (by simp)

section solve

variable (hmono : ∀ {s s' : Store} {t : TypeId}, s.Extends s' → C s t → C s' t)
  (hunion : ∀ {s : Store} {ts : List TypeId}, (∀ t ∈ ts, C s t) →
    building.Holds s (Build.union ts) C)

include hmono hunion

theorem trying_joinFrom {name : String} (ht : C s t) (hts : ∀ u ∈ ts, C s u) :
    trying.Holds s (joinFrom strict name t ts) C := by
  induction ts generalizing s t with
  | nil => exact trying.pure ht
  | cons next rest ih =>
      obtain ⟨hnext, hrest⟩ := List.forall_mem_cons.mp hts
      unfold joinFrom
      refine trying_store ?_
      dsimp only
      split
      · exact trying_throw
      · refine trying.bind (trying_lift (hunion (by simp [ht, hnext]))) fun s₁ joined h₁ _ hj => ?_
        exact ih hj fun u hu => hmono h₁ (hrest u hu)

/-- What the candidates of a parameter agree on is of their kind. -/
theorem trying_solve (strict : Bool) (hpools : Recorded C s pools) (name : String) :
    trying.Holds s (solve strict name pools) fun s' found => ∀ t, found = some t → C s' t := by
  have hmem : ∀ u ∈ candidatesOf pools name, C s u := fun u hu => hpools.of_mem_candidatesOf hu
  unfold solve
  generalize candidatesOf pools name = candidates at hmem
  cases candidates with
  | nil => exact trying.pure (by simp)
  | cons first rest =>
      obtain ⟨hfirst, hrest⟩ := List.forall_mem_cons.mp hmem
      refine trying.bind (trying_joinFrom (C := C) hmono hunion hfirst hrest) fun s₁ u _ _ hu => ?_
      refine trying.pure fun t ht => ?_
      cases ht
      exact hu

end solve

/-- What a substitution binds. -/
def Binds (C : Store → TypeId → Prop) (s : Store) (σ : Substitution) : Prop :=
  ∀ name t, σ.get? name = some t → C s t

theorem Binds.insert {σ : Substitution} (hσ : Binds C s σ) (ht : C s t) (name : String) :
    Binds C s (σ.insert name t) := by
  intro other u hu
  rw [Substitution.get?_insert] at hu
  split at hu
  · cases hu
    exact ht
  · exact hσ other u hu

namespace Offers

variable {params args : List TypeId}

theorem recorded (O : Offers p T S C) (hparams : ∀ t ∈ params, T false s t)
    (hargs : ∀ t ∈ args, S s t) :
    building.Holds s (collect p params args p.pools) fun s' r => Recorded C s' r.2 := by
  refine building.mono (O.collects_collect hparams hargs p.pools fun pool hpool t ht => ?_)
    fun _ _ _ _ h => h.2
  obtain ⟨info, -, rfl⟩ := List.mem_map.mp hpool
  cases ht

variable {env : Environment} {literals : Bool} {typeParams : List TypeParam}
  (O : Offers (Problem.of env literals typeParams) T S C)
  (hunion : ∀ {s : Store} {ts : List TypeId}, (∀ t ∈ ts, C s t) →
    building.Holds s (Build.union ts) C)

include O hunion

/-- A call binds its parameters to joins of what its arguments offer. -/
theorem trying_unify (hparams : ∀ t ∈ params, T false s t) (hargs : ∀ t ∈ args, S s t) :
    trying.Holds s (unify env literals typeParams params args) (Binds C) := by
  have hcollect := O.recorded hparams hargs
  unfold unify
  refine trying.bind (trying_lift hcollect) fun s₁ r _ _ hpools => ?_
  refine trying.foldlM (P := fun s' _ σ => Binds C s' σ) (fun name t h => ?_)
    fun info _ s₂ _ σ h₂ _ hσ => ?_
  · cases h
  have hsolve := trying_solve (C := C) O.mono hunion false
    (fun pool hpool t ht => O.mono h₂ (hpools pool hpool t ht)) info.name
  refine trying.bind hsolve fun s₃ found h₃ _ hfound => ?_
  have hσ : Binds C s₃ σ := fun name t h => O.mono h₃ (hσ name t h)
  cases found with
  | none => exact trying.pure hσ
  | some u => exact trying.pure (hσ.insert (hfound u rfl) info.name)

/-- An inferred type argument is a join of what the arguments of the call offer, `unknown`, or what
stands in for a parameter without candidates. -/
theorem reporting_typeArguments (hparams : ∀ t ∈ params, T false s t) (hargs : ∀ t ∈ args, S s t) :
    reporting.Holds s (typeArguments env literals typeParams params args) fun s' ts =>
      List.Forall₂ (fun info t => C s' t ∨ t = .unknown ∨ info.default.or info.constraint = some t)
        typeParams ts := by
  have hcollect := O.recorded hparams hargs
  unfold typeArguments
  refine reporting.bind (reporting_lift hcollect) fun s₁ r _ _ hpools => ?_
  refine reporting.mapM (P := fun s' (info : TypeParam) t =>
    C s' t ∨ t = .unknown ∨ info.default.or info.constraint = some t)
    (fun h ht => ht.imp_left (O.mono h)) fun info _ s₂ h₂ _ => ?_
  have hsolve : building.Holds s₂ (solve false info.name r.2).run fun s' found =>
      ∀ a, found = .ok a → ∀ t, a = some t → C s' t :=
    trying_solve (C := C) O.mono hunion false
      (fun pool hpool t ht => O.mono h₂ (hpools pool hpool t ht)) info.name
  unfold argument
  refine reporting.bind (reporting_lift hsolve) fun s₃ found h₃ _ hfound => ?_
  cases found with
  | error conflict =>
      refine reporting_store fun _ => ?_
      refine reporting.bind (Q := fun _ _ => True) (fun _ hs => ⟨.refl _, hs, trivial⟩) ?_
      exact fun _ _ _ _ _ => reporting.pure (.inr (.inl rfl))
  | ok found =>
      cases found with
      | some t => exact reporting.pure (.inl (hfound _ rfl t rfl))
      | none =>
          refine reporting.pure (.inr ?_)
          cases info.default.or info.constraint with
          | none => exact .inl rfl
          | some t => exact .inr rfl

end Offers

section plain

variable {env : Environment}

/-- A type that names no alias of the environment. -/
abbrev Unexpanded (env : Environment) (s : Store) (t : TypeId) : Prop :=
  s.Closed (fun name => env.get? name = none) t

theorem expand_unexpanded (ht : Unexpanded env s t) : expand env t s = (t, s) := by
  have hnode : Build.node t s = (s.node t, s) := rfl
  unfold expand maxExpansions expandAt
  rw [bind_idle hnode]
  cases hn : s.node t with
  | reference name args =>
      dsimp only
      rw [ht.node.names name args hn]
      rfl
  | _ => rfl

theorem building_stringLiteral (text : String) :
    building.Holds s (Build.stringLiteral text) fun s' t =>
      t.index < s'.size ∧ s'.node t = .literal (.string text) :=
  building_node (fun _ hc => absurd hc List.not_mem_nil) (by simp)

theorem unexpanded_literal (ht : t.index < s.size) {v : Literal} (hn : s.node t = .literal v) :
    Unexpanded env s t := by
  refine .intro ht (by simp [hn]) fun c hc => ?_
  rw [hn] at hc
  cases hc

end plain

section widened

variable {env : Environment} {typeParams : List TypeParam} {params args : List TypeId}

/-- A type that names no alias, and in which no union has several members that mention parameters
to be inferred. -/
inductive Single (p : Problem) (s : Store) : TypeId → Prop
  | intro {t : TypeId} (known : t.index < s.size)
      (names : ∀ name args, s.node t = .reference name args → p.environment.get? name = none)
      (single : ∀ members, s.node t = .union members →
        (members.filter (mentions p s)).length ≤ 1)
      (components : ∀ c ∈ (s.node t).components, Single p s c) : Single p s t

namespace Single

theorem unexpanded (h : Single p s t) : Unexpanded p.environment s t := by
  induction h with
  | intro known names _ _ ih => exact .intro known names ih

theorem component {c : TypeId} (h : Single p s t) (hc : c ∈ (s.node t).components) :
    Single p s c := by
  cases h with
  | intro _ _ _ components => exact components c hc

theorem mono (h : s.Extends s') (ht : Single p s t) : Single p s' t := by
  induction ht with
  | @intro t known names single components ih =>
      have hnode := h.node_eq t known
      refine .intro (Nat.lt_of_lt_of_le known h.size_le) ?_ (fun members hn => ?_) ?_
      · rwa [hnode]
      · rw [hnode] at hn
        have hmentions : members.filter (mentions p s') = members.filter (mentions p s) := by
          refine List.filter_congr fun m hm => mentionsAt_eq h p p rfl (components m ?_).unexpanded
          rw [hn]
          exact hm
        rw [hmentions]
        exact single members hn
      · rwa [hnode]

end Single

theorem mem_of_mem_distinct {info : TypeParam} (h : info ∈ distinct typeParams) :
    info ∈ typeParams := by
  have hgeneral : ∀ (rest done : List TypeParam), (∀ q ∈ rest, q ∈ typeParams) →
      (∀ q ∈ done, q ∈ typeParams) → ∀ q ∈ rest.foldl
        (fun done q => if done.any (·.name = q.name) then done else done ++ [q]) done,
      q ∈ typeParams := by
    intro rest
    induction rest with
    | nil => exact fun done _ hdone => hdone
    | cons q rest ih =>
        intro done hrest hdone
        obtain ⟨hq, hrest⟩ := List.forall_mem_cons.mp hrest
        refine ih _ hrest fun r hr => ?_
        dsimp only at hr
        split at hr
        · exact hdone r hr
        · rcases List.mem_append.mp hr with hr | hr
          · exact hdone r hr
          · exact List.mem_singleton.mp hr ▸ hq
  exact hgeneral typeParams [] (fun _ h => h) (by simp) info h

/-- Without const parameters and unions of several generic members, candidates are widened. -/
theorem offers_widened (hconst : ∀ info ∈ typeParams, info.isConst = false) :
    Offers (Problem.of env false typeParams)
      (fun strict s t => strict = false ∧ Single (Problem.of env false typeParams) s t)
      (Unexpanded env) Widened where
  target_mono h ht := ⟨ht.1, ht.2.mono h⟩
  source_mono h ht := h.closed ht
  mono h ht := ht.mono h
  target_plain ht := expand_unexpanded ht.2.unexpanded
  source_plain ht := expand_unexpanded ht
  target_part ht hc := ⟨ht.1, ht.2.component hc⟩
  target_member ht hn hmany _ := by
    cases ht.2 with
    | intro _ _ single _ => exact absurd hmany (Nat.not_lt_of_le (single _ hn))
  source_part ht _ hc := ht.node.components _ hc
  source_union hts := (kept_closed _).union hts
  source_text text := building.mono (building_stringLiteral text) fun _ _ _ _ h =>
    unexpanded_literal h.1 h.2
  kept {s strict t u info} ht hu hinfo hkeep := by
    have hmem : info ∈ typeParams := mem_of_mem_distinct (List.mem_of_find?_eq_some hinfo)
    rw [ht.1, hconst info hmem] at hkeep
    cases hkeep
  widened hu := widened_widen hu.known

/-- In a call that keeps no literals, without const parameters and unions of several generic
members, every parameter is bound to a type that widening leaves as it is. -/
theorem unify_binds_widened (hs : s.Formed) (hconst : ∀ info ∈ typeParams, info.isConst = false)
    (hparams : ∀ t ∈ params, Single (Problem.of env false typeParams) s t)
    (hargs : ∀ t ∈ args, Unexpanded env s t) :
    let r := (unify env false typeParams params args).run s
    ∀ σ, r.1 = .ok σ → ∀ name t, σ.get? name = some t →
      Widened r.2 t ∧ widen t r.2 = (t, r.2) := by
  intro r σ hr name t ht
  have hbinds : trying.Holds s (unify env false typeParams params args) (Binds Widened) :=
    (offers_widened hconst).trying_unify widened_union (fun t ht => ⟨rfl, hparams t ht⟩) hargs
  obtain ⟨-, hformed, hbinds⟩ := hbinds hs
  have hwidened := hbinds σ hr name t ht
  exact ⟨hwidened, widen_of_widened hformed hwidened⟩

end widened

section free

variable {env : Environment} {literals : Bool} {typeParams : List TypeParam}
  {params args : List TypeId}

/-- Whatever is inferred comes from the arguments. -/
theorem offers_without (p : Problem) (wanted : String → Prop) :
    Offers p (fun _ s t => Unexpanded p.environment s t)
      (fun s t => Unexpanded p.environment s t ∧ s.Without wanted t)
      (fun s t => s.Without wanted t) where
  target_mono h ht := h.closed ht
  source_mono h ht := ⟨h.closed ht.1, ht.2.mono h⟩
  mono h ht := ht.mono h
  target_plain ht := expand_unexpanded ht
  source_plain ht := expand_unexpanded ht.1
  target_part ht hc := ht.node.components _ hc
  target_member ht hn _ hc := ht.node.components _ (by rw [hn]; exact hc)
  source_part {s t c} ht hn hc := by
    refine ⟨ht.1.node.components c hc, ht.2.component ?_⟩
    rw [Node.scopes_of_walked hn]
    exact List.mem_map_of_mem hc
  source_union hts := building_and ((kept_closed _).union fun t ht => (hts t ht).1)
    ((kept_without wanted).union fun t ht => (hts t ht).2)
  source_text text := building.mono (building_stringLiteral text) fun _ _ _ hs' h =>
    ⟨unexpanded_literal h.1 h.2, .of_leaf h.1 (by simp [h.2]) (by rw [h.2]; rfl) hs'⟩
  kept _ hu _ _ := hu.2
  widened hu := kept_widenAt (kept_without wanted) hu.2

/-- An inferred type argument mentions no parameter of the call, unless it is the default or the
constraint that stands in for a parameter without candidates. -/
theorem typeArguments_without (hs : s.Formed) (hparams : ∀ t ∈ params, Unexpanded env s t)
    (hargs : ∀ t ∈ args, Unexpanded env s t ∧ s.Without (∃ info ∈ typeParams, info.name = ·) t)
    (ds : Array Diagnostic) :
    let r := typeArguments env literals typeParams params args ds s
    List.Forall₂ (fun info t => r.2.Without (∃ info ∈ typeParams, info.name = ·) t ∨
      info.default.or info.constraint = some t) typeParams r.1.1 := by
  have hkept := kept_without (∃ info ∈ typeParams, info.name = ·)
  have hrun := (offers_without (Problem.of env literals typeParams)
    (∃ info ∈ typeParams, info.name = ·)).reporting_typeArguments hkept.union hparams hargs
  obtain ⟨-, hformed, harguments⟩ := hrun ds hs
  refine harguments.imp fun info t ht => ?_
  rcases ht with ht | rfl | ht
  · exact .inl ht
  · exact .inl (.fixed hformed rfl)
  · exact .inr ht

end free

end Inference

end TypeResolution
