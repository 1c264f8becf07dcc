import TypeResolution.Proofs.Inference.Widening
import TypeResolution.Proofs.Replay.Inference

/-!
Where the candidates of an inference come from. What is known of sources and targets is passed on
to the pairs of components that are walked, and the candidates are what the sources allow.
-/

namespace TypeResolution

open Store

/-- The nodes of a source whose components are walked. -/
def Node.isWalked : Node → Bool
  | .union _ | .object _ | .function _ | .array _ | .reference .. => true
  | _ => false

theorem Node.scopes_of_walked {n : Node} (hn : n.isWalked) :
    n.scopes = n.components.map ([], ·) := by
  cases n with
  | union _ | object _ | function _ | array _ | reference _ _ => rfl
  | _ => cases hn

namespace Inference

/-- What is passed on from a pair to the pairs that are walked for it. `T` holds of the targets, of
those in a strict walk and of the others, `S` of the sources and `C` of the candidates. -/
structure Offers (p : Problem) (T : Bool → Store → TypeId → Prop) (S C : Store → TypeId → Prop) :
    Prop where
  target_mono {s s' : Store} {strict : Bool} {t : TypeId} : s.Extends s' → T strict s t →
    T strict s' t
  source_mono {s s' : Store} {t : TypeId} : s.Extends s' → S s t → S s' t
  mono {s s' : Store} {t : TypeId} : s.Extends s' → C s t → C s' t
  target_plain {s : Store} {strict : Bool} {t : TypeId} : T strict s t →
    expand p.environment t s = (t, s)
  source_plain {s : Store} {t : TypeId} : S s t → expand p.environment t s = (t, s)
  target_part {s : Store} {strict : Bool} {t c : TypeId} : T strict s t →
    c ∈ (s.node t).components → T strict s c
  /-- Several generic members of a union are walked strictly. -/
  target_member {s : Store} {strict : Bool} {t c : TypeId} {members : List TypeId} : T strict s t →
    s.node t = .union members → 1 < (members.filter (mentions p s)).length → c ∈ members →
    T true s c
  source_part {s : Store} {t c : TypeId} : S s t → (s.node t).isWalked →
    c ∈ (s.node t).components → S s c
  source_union {s : Store} {ts : List TypeId} : (∀ t ∈ ts, S s t) →
    building.Holds s (Build.union ts) S
  source_text {s : Store} (text : String) : building.Holds s (Build.stringLiteral text) S
  kept {s : Store} {strict : Bool} {t u : TypeId} {info : TypeParam} : T strict s t → S s u →
    p.find? info.name = some info → (strict || p.preserveLiterals || info.isConst) = true → C s u
  widened {s : Store} {u : TypeId} : S s u → building.Holds s (widen u) C

/-- Computations that record candidates as `C` says. -/
def collecting (C : Store → TypeId → Prop) : Outcomes Inferring where
  Holds s m Q := ∀ pools, Recorded C s pools →
    building.Holds s (m pools) fun s' r => Q s' r.1 ∧ Recorded C s' r.2
  pure h _ hpools := building.pure ⟨h, hpools⟩
  bind hm hf pools hpools :=
    building.bind (hm pools hpools) fun s₁ r h₁ hs₁ hr => hf s₁ r.1 h₁ hs₁ hr.1 r.2 hr.2
  formed h pools hpools := building.formed fun hs => h hs pools hpools

/-- Only the candidates matter. -/
def Collects {α : Type} (C : Store → TypeId → Prop) (s : Store) (m : Inferring α) : Prop :=
  (collecting C).Holds s m fun _ _ => True

variable {p : Problem} {T : Bool → Store → TypeId → Prop} {S C : Store → TypeId → Prop}
  {s s' : Store} {strict : Bool} {inner : Inner} {target source : TypeId}

/-- Walking components collects from `s` on. -/
def Walks (T : Bool → Store → TypeId → Prop) (S C : Store → TypeId → Prop) (s : Store)
    (inner : Inner) : Prop :=
  ∀ s₁, s.Extends s₁ → ∀ strict target source, T strict s₁ target → S s₁ source →
    Collects C s₁ (inner strict target source)

theorem Walks.mono (h : Walks T S C s inner) (hs : s.Extends s') : Walks T S C s' inner :=
  fun s₁ h₁ => h s₁ (hs.trans h₁)

section steps

variable {α β : Type}

theorem collects_pure {a : α} : Collects C s (pure a) := (collecting C).pure trivial

theorem collects_bind {m : Inferring α} {f : α → Inferring β} (hm : Collects C s m)
    (hf : ∀ s₁ a, s.Extends s₁ → s₁.Formed → Collects C s₁ (f a)) : Collects C s (m >>= f) :=
  (collecting C).bind hm fun s₁ a h₁ hs₁ _ => hf s₁ a h₁ hs₁

theorem collects_store {f : Store → Inferring β} (h : s.Formed → Collects C s (f s)) :
    Collects C s (getThe Store >>= f) :=
  fun pools hpools hs => h hs pools hpools hs

theorem collects_node {t : TypeId} {f : Node → Inferring β} (h : Collects C s (f (s.node t))) :
    Collects C s (Build.node t >>= f) :=
  h

theorem collects_mapM {l : List α} {f : α → Inferring β}
    (h : ∀ a ∈ l, ∀ s₁, s.Extends s₁ → s₁.Formed → Collects C s₁ (f a)) :
    Collects C s (l.mapM f) :=
  (collecting C).mono ((collecting C).mapM (P := fun _ _ _ => True) (fun _ h => h)
    fun a ha s₁ h₁ hs₁ => h a ha s₁ h₁ hs₁) fun _ _ _ _ _ => trivial

theorem collects_walkAll {pairs : List (TypeId × TypeId)} {walk : TypeId → TypeId → Inferring Bool}
    (h : ∀ x ∈ pairs, ∀ s₁, s.Extends s₁ → s₁.Formed → Collects C s₁ (walk x.1 x.2)) :
    Collects C s (walkAll walk pairs) := by
  induction pairs generalizing s with
  | nil => exact collects_pure
  | cons x rest ih =>
      refine (collecting C).formed fun hs => ?_
      refine collects_bind (h x (by simp) s (.refl s) hs) fun s₁ here h₁ _ => ?_
      refine collects_bind (ih fun y hy s₂ h₂ => h y (by simp [hy]) s₂ (h₁.trans h₂)) ?_
      exact fun _ _ _ _ => collects_pure

theorem collects_walkAny {pairs : List (TypeId × TypeId)} {walk : TypeId → TypeId → Inferring Bool}
    (h : ∀ x ∈ pairs, ∀ s₁, s.Extends s₁ → s₁.Formed → Collects C s₁ (walk x.1 x.2)) :
    Collects C s (walkAny walk pairs) := by
  induction pairs generalizing s with
  | nil => exact collects_pure
  | cons x rest ih =>
      refine (collecting C).formed fun hs => ?_
      refine collects_bind (h x (by simp) s (.refl s) hs) fun s₁ here h₁ _ => ?_
      refine collects_bind (ih fun y hy s₂ h₂ => h y (by simp [hy]) s₂ (h₁.trans h₂)) ?_
      exact fun _ _ _ _ => collects_pure

end steps

namespace Offers

variable (O : Offers p T S C)

include O

theorem lift {α β : Type} {m : Build α} {f : α → Inferring β} {Q : Store → α → Prop}
    (hm : building.Holds s m Q)
    (hf : ∀ s₁ a, s.Extends s₁ → s₁.Formed → Q s₁ a → Collects C s₁ (f a)) :
    Collects C s (liftM m >>= f) := by
  intro pools hpools
  change building.Holds s (m >>= fun a => f a pools) _
  refine building.bind hm fun s₁ a h₁ hs₁ ha => ?_
  exact hf s₁ a h₁ hs₁ ha pools fun pool hpool t ht => O.mono h₁ (hpools pool hpool t ht)

theorem collects_addCandidate {info : TypeParam} (hinfo : p.find? info.name = some info)
    (htarget : T strict s target) (hsource : S s source) :
    Collects C s (addCandidate p strict info source) := by
  have hadd : ∀ s₁ u, C s₁ u →
      Collects C s₁ (modify (addTo info.name u) : Inferring PUnit) := fun s₁ u hu pools hpools =>
    building.pure ⟨trivial, hpools.addTo hu _⟩
  unfold addCandidate
  dsimp only
  split
  · rename_i hkeep
    exact hadd s source (O.kept htarget hsource hinfo hkeep)
  · exact O.lift (O.widened hsource) fun s₁ u _ _ hu => hadd s₁ u hu

theorem collects_toUnion {members : List TypeId} (hi : Walks T S C s inner)
    (hn : s.node target = .union members) (htarget : T strict s target) (hsource : S s source) :
    Collects C s (toUnion p inner strict members source) := by
  refine collects_store fun _ => ?_
  have hpart : ∀ t ∈ members, T strict s t := fun t ht =>
    O.target_part htarget (by rw [hn]; exact ht)
  have hleft : ∀ m ∈ (s.unionMembers source).filter fun m =>
      !(members.filter (!mentions p s ·)).any (covers s · m), S s m := by
    intro m hm
    have hm := List.mem_of_mem_filter hm
    unfold unionMembers at hm
    cases hsourceNode : (s.node source).unionMembers? with
    | none =>
        rw [hsourceNode] at hm
        exact List.mem_singleton.mp hm ▸ hsource
    | some others =>
        rw [hsourceNode] at hm
        have hnode := Node.eq_union_of_members hsourceNode
        exact O.source_part hsource (by rw [hnode]; rfl) (by rw [hnode]; exact hm)
  dsimp only
  generalize (s.unionMembers source).filter _ = leftover at hleft
  split
  · exact collects_pure
  split
  · rename_i single hsingle
    have hsingle : single ∈ members := by
      refine List.mem_of_mem_filter (p := mentions p s) ?_
      rw [hsingle]
      exact List.mem_singleton_self single
    refine O.lift (O.source_union hleft) fun s₁ rest h₁ _ hrest => ?_
    exact hi s₁ h₁ strict single rest (O.target_mono h₁ (hpart single hsingle)) hrest
  · have hlength : 1 < (members.filter (mentions p s)).length := by
      rename_i hsome _ hmany
      generalize members.filter (mentions p s) = generic at hsome hmany
      match generic with
      | [] => simp at hsome
      | [t] => exact absurd rfl (hmany t)
      | _ :: _ :: _ => simp
    refine collects_bind (collects_walkAny fun x hx s₁ h₁ _ => ?_) fun _ _ _ _ => collects_pure
    obtain ⟨t, ht, hx⟩ := List.mem_flatMap.mp hx
    obtain ⟨m, hm, rfl⟩ := List.mem_map.mp hx
    have ht := O.target_member htarget hn hlength (List.mem_of_mem_filter ht)
    exact hi s₁ h₁ true t m (O.target_mono h₁ ht) (O.source_mono h₁ (hleft m hm))

theorem collects_objects {o q : ObjectShape} (hi : Walks T S C s inner)
    (hn : s.node target = .object o) (hn' : s.node source = .object q) (htarget : T strict s target)
    (hsource : S s source) : Collects C s (objects p inner strict o q) := by
  have htargetPart : ∀ c ∈ (Node.object o).components, T strict s c := fun c hc =>
    O.target_part htarget (by rw [hn]; exact hc)
  have hsourcePart : ∀ c ∈ (Node.object q).components, S s c := fun c hc =>
    O.source_part hsource (by rw [hn']; rfl) (by rw [hn']; exact hc)
  refine collects_bind (collects_mapM fun f hf s₁ h₁ _ => ?_) fun s₁ _ h₁ _ => ?_
  · cases hfind : q.find? f.name with
    | none => exact collects_store fun _ => collects_pure
    | some g =>
        have hf := htargetPart f.type (List.mem_append_left _ (List.mem_map_of_mem hf))
        have hg := hsourcePart g.type
          (List.mem_append_left _ (List.mem_map_of_mem (List.mem_of_find?_eq_some hfind)))
        exact hi s₁ h₁ strict _ _ (O.target_mono h₁ hf) (O.source_mono h₁ hg)
  · cases hindex : o.stringIndex with
    | none => exact collects_bind collects_pure fun _ _ _ _ => collects_pure
    | some t =>
        refine collects_bind (collects_walkAll fun x hx s₂ h₂ _ => ?_) fun _ _ _ _ => collects_pure
        obtain ⟨u, hu, rfl⟩ := List.mem_map.mp hx
        have ht := htargetPart t (List.mem_append_right _ (Option.mem_toList.mpr hindex))
        have hu := hsourcePart u (List.mem_append.mpr (List.mem_append.mp hu).symm)
        exact hi s₂ (h₁.trans h₂) strict t u (O.target_mono (h₁.trans h₂) ht)
          (O.source_mono (h₁.trans h₂) hu)

theorem collects_texts {spans : List Span} (hi : Walks T S C s inner)
    (hspans : ∀ t, Span.hole t ∈ spans → T strict s t) (text : String) :
    Collects C s (texts inner strict spans text) := by
  unfold texts
  split
  · exact collects_pure
  cases hc : Template.capture spans text.toList with
  | none => exact collects_pure
  | some captured =>
      refine collects_bind (collects_mapM fun x hx s₁ h₁ _ => ?_) fun _ _ _ _ => collects_pure
      have hhole := hspans x.1 (Template.mem_spans_of_capture hc x hx)
      refine O.lift (O.source_text x.2) fun s₂ piece h₂ _ hpiece => ?_
      exact hi s₂ (h₁.trans h₂) strict x.1 piece (O.target_mono (h₁.trans h₂) hhole) hpiece

theorem collects_walkNodes (hi : Walks T S C s inner) (htarget : T strict s target)
    (hsource : S s source) : Collects C s (walkNodes p inner strict target source) := by
  refine collects_node (collects_node ?_)
  have hpairs : ∀ pairs : List (TypeId × TypeId), (∀ x ∈ pairs, T strict s x.1 ∧ S s x.2) →
      Collects C s (walkAll (inner strict) pairs) := by
    intro pairs hpairs
    refine collects_walkAll fun x hx s₁ h₁ _ => ?_
    obtain ⟨ht, hu⟩ := hpairs x hx
    exact hi s₁ h₁ strict x.1 x.2 (O.target_mono h₁ ht) (O.source_mono h₁ hu)
  have htargetPart : ∀ c ∈ (s.node target).components, T strict s c := fun c hc =>
    O.target_part htarget hc
  have hsourcePart : (s.node source).isWalked → ∀ c ∈ (s.node source).components, S s c :=
    fun hwalked c hc => O.source_part hsource hwalked hc
  have hzip : ∀ l r : List TypeId, (∀ t ∈ l, T strict s t) → (∀ u ∈ r, S s u) →
      ∀ x ∈ l.zip r, T strict s x.1 ∧ S s x.2 := fun l r hl hr x hx =>
    ⟨hl _ (List.of_mem_zip hx).1, hr _ (List.of_mem_zip hx).2⟩
  have hunion : ∀ members, s.node source = .union members →
      Collects C s (walkAll (inner strict) (members.map (target, ·))) := by
    intro members hn
    refine hpairs _ fun x hx => ?_
    obtain ⟨m, hm, rfl⟩ := List.mem_map.mp hx
    exact ⟨htarget, hsourcePart (by rw [hn]; rfl) m (by rw [hn]; exact hm)⟩
  cases hn : s.node target with
  | union members => exact O.collects_toUnion hi hn htarget hsource
  | intersection members =>
      rw [hn] at htargetPart
      cases hn' : s.node source with
      | union others => exact hunion others hn'
      | _ =>
          refine hpairs _ fun x hx => ?_
          obtain ⟨m, hm, rfl⟩ := List.mem_map.mp hx
          exact ⟨htargetPart m hm, hsource⟩
  | object o =>
      cases hn' : s.node source with
      | union others => exact hunion others hn'
      | object q => exact O.collects_objects hi hn hn' htarget hsource
      | _ => exact collects_pure
  | function f =>
      rw [hn] at htargetPart
      cases hn' : s.node source with
      | union others => exact hunion others hn'
      | function g =>
          rw [hn'] at hsourcePart
          refine hpairs _ fun x hx => ?_
          rcases List.mem_append.mp hx with hx | hx
          · exact hzip _ _ (fun t ht => htargetPart t (List.mem_append_left _ ht))
              (fun u hu => hsourcePart rfl u (List.mem_append_left _ hu)) x hx
          · rw [List.mem_singleton.mp hx]
            exact ⟨htargetPart _ (List.mem_append_right _ (List.mem_singleton_self _)),
              hsourcePart rfl _ (List.mem_append_right _ (List.mem_singleton_self _))⟩
      | _ => exact collects_pure
  | array element =>
      rw [hn] at htargetPart
      cases hn' : s.node source with
      | union others => exact hunion others hn'
      | array other =>
          rw [hn'] at hsourcePart
          exact hi s (.refl s) strict element other (htargetPart _ (List.mem_singleton_self _))
            (hsourcePart rfl _ (List.mem_singleton_self _))
      | _ => exact collects_pure
  | reference name args =>
      rw [hn] at htargetPart
      cases hn' : s.node source with
      | union others => exact hunion others hn'
      | reference other others =>
          rw [hn'] at hsourcePart
          dsimp only
          split
          · exact hpairs _ (hzip _ _ htargetPart (hsourcePart rfl))
          · exact collects_pure
      | _ => exact collects_pure
  | template spans =>
      rw [hn] at htargetPart
      cases hn' : s.node source with
      | union others => exact hunion others hn'
      | literal value =>
          cases value with
          | string text =>
              refine O.collects_texts hi (fun t ht => htargetPart t ?_) text
              exact List.mem_filterMap.mpr ⟨_, ht, rfl⟩
          | _ => exact collects_pure
      | _ => exact collects_pure
  | _ =>
      cases hn' : s.node source with
      | union others => exact hunion others hn'
      | _ => exact collects_pure

theorem collects_walkPair (hi : Walks T S C s inner) (htarget : T strict s target)
    (hsource : S s source) : Collects C s (walkPair p inner strict target source) := by
  have hplain : ∀ {t : TypeId} {f : TypeId → Inferring Bool},
      expand p.environment t s = (t, s) → Collects C s (f t) →
      Collects C s (liftM (expand p.environment t) >>= f) := by
    intro t f ht hf pools hpools
    change building.Holds s (expand p.environment t >>= fun u => f u pools) _
    intro hs
    rw [bind_idle ht]
    exact hf pools hpools hs
  unfold walkPair
  refine hplain (O.target_plain htarget) (hplain (O.source_plain hsource) (collects_node ?_))
  have hadd : ∀ info, p.find? info.name = some info →
      Collects C s (do addCandidate p strict info source; return true) := fun info hinfo =>
    collects_bind (O.collects_addCandidate hinfo htarget hsource) fun _ _ _ _ => collects_pure
  cases hn : s.node target with
  | param info =>
      dsimp only
      cases hfind : p.find? info.name with
      | none => exact O.collects_walkNodes hi htarget hsource
      | some found =>
          have hname : found.name = info.name := by simpa using List.find?_some hfind
          have hinfo : p.find? found.name = some found := hname ▸ hfind
          refine collects_node ?_
          cases hn' : s.node source with
          | param other =>
              dsimp only
              cases p.find? other.name with
              | none => exact hadd found hinfo
              | some other =>
                  refine collects_bind (fun pools hpools => ?_) fun _ _ _ _ => collects_pure
                  exact building.pure ⟨trivial, hpools.merge _ _⟩
          | _ => exact hadd found hinfo
  | _ => exact O.collects_walkNodes hi htarget hsource

/-- The walk of a pair of types of which `T` and `S` hold records candidates of which `C` holds. -/
theorem walks_inferAt (depth : Nat) (active : List (TypeId × TypeId)) (s : Store) :
    Walks T S C s (inferAt p depth active) := by
  induction depth generalizing active s with
  | zero => exact fun s₁ _ strict target source _ _ => collects_pure
  | succ depth ih =>
      intro s₁ h₁ strict target source htarget hsource
      refine collects_store fun _ => ?_
      split
      · exact collects_pure
      split
      · exact collects_pure
      · exact O.collects_walkPair (ih _ s₁) htarget hsource

theorem collects_collect {params args : List TypeId} (hparams : ∀ t ∈ params, T false s t)
    (hargs : ∀ t ∈ args, S s t) : Collects C s (collect p params args) := by
  have hpairs : ∀ x ∈ params.zip args, T false s x.1 ∧ S s x.2 := fun x hx =>
    ⟨hparams _ (List.of_mem_zip hx).1, hargs _ (List.of_mem_zip hx).2⟩
  clear hparams hargs
  unfold collect
  generalize params.zip args = pairs at hpairs
  induction pairs generalizing s with
  | nil => exact collects_pure
  | cons x rest ih =>
      obtain ⟨hx, hrest⟩ := List.forall_mem_cons.mp hpairs
      rw [List.forM_eq_forM, List.forM_cons]
      refine collects_bind (collects_bind ?_ fun _ _ _ _ => collects_pure) fun s₁ _ h₁ _ => ?_
      · exact O.walks_inferAt maxDepth [] s s (.refl s) false x.1 x.2 hx.1 hx.2
      · exact ih fun y hy =>
          ⟨O.target_mono h₁ (hrest y hy).1, O.source_mono h₁ (hrest y hy).2⟩

end Offers

end Inference

end TypeResolution
