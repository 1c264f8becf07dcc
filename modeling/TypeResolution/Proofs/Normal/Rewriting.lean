import TypeResolution.Proofs.Outcomes

/-!
Normalizing rebuilds a type from its normalized components. A relation between types that the
rebuilding of each kind of node keeps holds between a type and its normal form, whatever is
remembered, if it holds between a type and itself where normalizing does not go on.
-/

namespace TypeResolution

open Store

/-- The nodes that normalizing goes into. -/
def Node.isStructural : Node → Bool
  | .union _ | .intersection _ | .object _ | .function _ | .array _ => true
  | _ => false

theorem Store.Formed.not_structural_of_isFixed {s : Store} {t : TypeId} (hs : s.Formed)
    (hfixed : t.isFixed) : (s.node t).isStructural = false := by
  have hleaf : ∀ m ∈ Node.fixed, m.isStructural = false := by decide
  obtain ⟨i⟩ := t
  have hi : i < TypeId.fixedCount := by simpa [TypeId.isFixed] using hfixed
  rw [hs.node_fixed hi]
  cases hm : Node.fixed[i]? with
  | none => rfl
  | some m => exact hleaf m (List.mem_of_getElem? hm)

/-- A field whose type has been replaced by a related one. -/
def FieldBecomes (C : TypeId → TypeId → Prop) (f g : Field) : Prop :=
  ∃ r, g = { f with type := r } ∧ C f.type r

/-- A relation `C` that rebuilding keeps, from the types in `P n` where `n` levels are left. -/
structure Rewriting (P : Nat → Store → TypeId → Prop) (C : Store → TypeId → TypeId → Prop) :
    Prop where
  mono {n : Nat} {s s' : Store} {t : TypeId} : s.Extends s' → P n s t → P n s' t
  known {n : Nat} {s : Store} {t : TypeId} : P n s t → t.index < s.size
  component {n : Nat} {s : Store} {t c : TypeId} : P (n + 1) s t → (s.node t).isStructural →
    c ∈ (s.node t).components → P n s c
  keeps {s s' : Store} {t r : TypeId} : s.Extends s' → C s t r → C s' t r
  stop {s : Store} {t : TypeId} : P 0 s t → C s t t
  leaf {n : Nat} {s : Store} {t : TypeId} : P n s t → (s.node t).isStructural = false → C s t t
  again {s : Store} {t r : TypeId} : C s t r → C s r r
  union {n : Nat} {s : Store} {t : TypeId} {ms rs : List TypeId} : P n s t → s.node t = .union ms →
    List.Forall₂ (C s) ms rs → building.Holds s (Build.union rs) (C · t)
  intersection {n : Nat} {s : Store} {t : TypeId} {ms rs : List TypeId} {site : Option SourceTag} :
    P n s t → s.node t = .intersection ms → List.Forall₂ (C s) ms rs →
    reporting.Holds s (Reporting.intersection site rs) (C · t)
  object {n : Nat} {s : Store} {t : TypeId} {o : ObjectShape} {gs : List Field}
    {index : Option TypeId} : P n s t → s.node t = .object o → List.Forall₂ (FieldBecomes (C s)) o.fields gs →
    Option.Rel (C s) o.stringIndex index →
    building.Holds s (Normal.rebuildObject t o ⟨gs, index⟩) (C · t)
  function {n : Nat} {s : Store} {t r : TypeId} {f : FunctionShape} {ps : List TypeId} : P n s t →
    s.node t = .function f → List.Forall₂ (C s) f.params ps → C s f.result r →
    building.Holds s (Build.function ps r) (C · t)
  array {n : Nat} {s : Store} {t c r : TypeId} : P n s t → s.node t = .array c → C s c r →
    building.Holds s (Build.array r) (C · t)

variable {P : Nat → Store → TypeId → Prop} {C : Store → TypeId → TypeId → Prop} {s : Store} {n : Nat}

/-- Results that are remembered are related to the types they belong to. -/
def Remembers (C : Store → TypeId → TypeId → Prop) (s : Store)
    (cache : Std.HashMap TypeId TypeId) : Prop :=
  ∀ t r, cache[t]? = some r → C s t r

/-- Computations that remember results. -/
def normalizing (C : Store → TypeId → TypeId → Prop) : Outcomes Normal.Normalizing where
  Holds s m Q := ∀ cache, Remembers C s cache →
    reporting.Holds s (m cache) fun s' r => Remembers C s' r.2 ∧ Q s' r.1
  pure h _ hc := reporting.pure ⟨hc, h⟩
  bind hm hf cache hc := reporting.bind (hm cache hc) fun s₁ r h₁ hs₁ hr =>
    hf s₁ r.1 h₁ hs₁ hr.2 r.2 hr.1
  formed h cache hc := reporting.formed fun hs => h hs cache hc

theorem normalizing_get {α : Type} {f : Std.HashMap TypeId TypeId → Normal.Normalizing α}
    {Q : Store → α → Prop}
    (h : ∀ cache, Remembers C s cache → (normalizing C).Holds s (f cache) Q) :
    (normalizing C).Holds s (get >>= f) Q :=
  fun cache hc => h cache hc cache hc

namespace Rewriting

variable (W : Rewriting P C) {inner : Option SourceTag → TypeId → Normal.Normalizing TypeId}
  {site : Option SourceTag} {t : TypeId}

include W

theorem lift {α : Type} {m : Reporting α} {Q : Store → α → Prop} (hm : reporting.Holds s m Q) :
    (normalizing C).Holds s (liftM m) Q := by
  intro cache hc
  change reporting.Holds s (m >>= fun a => pure (a, cache)) _
  refine reporting.bind hm fun s₁ a h₁ _ ha => reporting.pure ⟨fun t r hr => ?_, ha⟩
  exact W.keeps h₁ (hc t r hr)

theorem remember {r : TypeId} (hr : C s t r) :
    (normalizing C).Holds s (Normal.remember t r) fun _ _ => True := by
  refine fun cache hc => reporting.pure ⟨fun u v huv => ?_, trivial⟩
  simp only [Std.HashMap.getElem?_insert, beq_iff_eq] at huv
  split at huv
  · rename_i hru
    cases huv
    exact hru ▸ W.again hr
  · split at huv
    · rename_i htu
      cases huv
      exact htu ▸ hr
    · exact hc u v huv

omit W in
/-- From a store on, `inner` gives types related ones. -/
def Normalizes (P : Store → TypeId → Prop) (C : Store → TypeId → TypeId → Prop) (s : Store)
    (inner : Option SourceTag → TypeId → Normal.Normalizing TypeId) : Prop :=
  ∀ s₁, s.Extends s₁ → ∀ site t, P s₁ t → (normalizing C).Holds s₁ (inner site t) (C · t)

omit W in
theorem Normalizes.mono {s' : Store} (h : Normalizes (P n) C s inner) (hs : s.Extends s') :
    Normalizes (P n) C s' inner :=
  fun s₁ h₁ => h s₁ (hs.trans h₁)

theorem members (site : Option SourceTag) {ts : List TypeId} (hinner : Normalizes (P n) C s inner)
    (hts : ∀ t ∈ ts, P n s t) :
    (normalizing C).Holds s (ts.mapM (inner site)) fun s' rs => List.Forall₂ (C s') ts rs :=
  (normalizing C).mapM (fun h hr => W.keeps h hr) fun t ht s₁ h₁ _ =>
    hinner s₁ h₁ site t (W.mono h₁ (hts t ht))

theorem node (hinner : Normalizes (P n) C s inner) (ht : P (n + 1) s t) :
    (normalizing C).Holds s (Normal.normalizeNode inner site t (s.node t)) (C · t) := by
  have hparts : (s.node t).isStructural → ∀ c ∈ (s.node t).components, P n s c :=
    fun h c hc => W.component ht h hc
  have hnode : ∀ {s'}, s.Extends s' → s'.node t = s.node t := fun h => h.node_eq t (W.known ht)
  cases hn : s.node t with
  | union ms =>
      rw [hn] at hparts
      have hparts := hparts rfl
      refine (normalizing C).bind (W.members site hinner hparts) fun s₁ rs h₁ _ hrs => ?_
      exact W.lift (reporting_lift (W.union (W.mono h₁ ht) ((hnode h₁).trans hn) hrs))
  | intersection ms =>
      rw [hn] at hparts
      have hparts := hparts rfl
      have horigin : (normalizing C).Holds s (liftM (Build.origin? (.type t))) fun _ _ => True :=
        W.lift (reporting_lift (building_quiet (.refl s) trivial))
      refine (normalizing C).bind horigin fun s₁ _ h₁ _ _ => ?_
      refine (normalizing C).bind (W.members _ (hinner.mono h₁) fun m hm => W.mono h₁ (hparts m hm))
        fun s₂ rs h₂ _ hrs => ?_
      have h := h₁.trans h₂
      exact W.lift (W.intersection (W.mono h ht) ((hnode h).trans hn) hrs)
  | object o =>
      rw [hn] at hparts
      have hparts := hparts rfl
      have hfields : (normalizing C).Holds s
          (o.fields.mapM fun f => return { f with type := ← inner site f.type })
          fun s' gs => List.Forall₂ (FieldBecomes (C s')) o.fields gs := by
        refine (normalizing C).mapM (fun h ⟨r, hg, hr⟩ => ⟨r, hg, W.keeps h hr⟩) fun f hf s₁ h₁ _ => ?_
        have hf : P n s f.type :=
          hparts f.type (List.mem_append_left _ (List.mem_map_of_mem hf))
        exact (normalizing C).bind (hinner s₁ h₁ site f.type (W.mono h₁ hf)) fun s₂ r _ _ hr =>
          (normalizing C).pure ⟨r, rfl, hr⟩
      refine (normalizing C).bind hfields fun s₁ gs h₁ _ hgs => ?_
      have hindex : (normalizing C).Holds s₁ (o.stringIndex.mapM (inner site)) fun s' index =>
          Option.Rel (C s') o.stringIndex index := by
        cases hi : o.stringIndex with
        | none => exact (normalizing C).pure .none
        | some c =>
            have hc : P n s c := hparts c (List.mem_append_right _ (by simp [hi]))
            exact (normalizing C).bind (hinner s₁ h₁ site c (W.mono h₁ hc)) fun s₂ r _ _ hr =>
              (normalizing C).pure (.some hr)
      refine (normalizing C).bind hindex fun s₂ index h₂ _ hi => ?_
      have h := h₁.trans h₂
      refine W.lift (reporting_lift (W.object (W.mono h ht) ((hnode h).trans hn) ?_ hi))
      exact hgs.imp fun f g ⟨r, hg, hr⟩ => ⟨r, hg, W.keeps h₂ hr⟩
  | function f =>
      rw [hn] at hparts
      have hparts := hparts rfl
      have hparams := W.members site hinner fun c hc =>
        hparts c (List.mem_append_left _ hc)
      have hresult : P n s f.result := hparts f.result (List.mem_append_right _ (by simp))
      refine (normalizing C).bind hparams fun s₁ ps h₁ _ hps => ?_
      refine (normalizing C).bind (hinner s₁ h₁ site f.result (W.mono h₁ hresult))
        fun s₂ r h₂ _ hr => ?_
      have h := h₁.trans h₂
      refine W.lift (reporting_lift (W.function (W.mono h ht) ((hnode h).trans hn) ?_ hr))
      exact hps.imp fun _ _ hp => W.keeps h₂ hp
  | array c =>
      rw [hn] at hparts
      have hparts := hparts rfl
      have hc : P n s c := hparts c (List.mem_singleton_self c)
      refine (normalizing C).bind (hinner s (.refl s) site c hc) fun s₁ r h₁ _ hr => ?_
      exact W.lift (reporting_lift (W.array (W.mono h₁ ht) ((hnode h₁).trans hn) hr))
  | _ => exact (normalizing C).pure (W.leaf ht (by rw [hn]; rfl))

theorem fixed (ht : P n s t) (hfixed : t.isFixed) :
    (normalizing C).Holds s (pure t) (C · t) :=
  (normalizing C).formed fun hs =>
    (normalizing C).pure (W.leaf ht (hs.not_structural_of_isFixed hfixed))

theorem normalizes (depth : Nat) : Normalizes (P depth) C s (Normal.normalizeAt depth) := by
  induction depth generalizing s with
  | zero =>
      intro s₁ _ site t ht
      unfold Normal.normalizeAt
      split
      · exact W.fixed ht ‹_›
      refine normalizing_get fun cache hc => ?_
      cases hk : cache[t]? with
      | some r => exact (normalizing C).pure (hc t r hk)
      | none => exact (normalizing C).pure (W.stop ht)
  | succ depth ih =>
      intro s₁ _ site t ht
      unfold Normal.normalizeAt
      split
      · exact W.fixed ht ‹_›
      refine normalizing_get fun cache hc => ?_
      cases hk : cache[t]? with
      | some r => exact (normalizing C).pure (hc t r hk)
      | none =>
          have hnode : (normalizing C).Holds s₁ (liftM (Build.node t)) fun _ n => n = s₁.node t :=
            W.lift (reporting_lift (building_quiet (.refl s₁) rfl))
          refine (normalizing C).bind hnode fun s₂ n h₂ _ hn => ?_
          rw [hn, ← h₂.node_eq t (W.known ht)]
          refine (normalizing C).bind (W.node ih (W.mono h₂ ht)) fun s₃ r _ _ hr => ?_
          exact (normalizing C).bind (W.remember hr) fun s₄ _ h₄ _ _ =>
            (normalizing C).pure (W.keeps h₄ hr)

/-- A type is related to its normal form. -/
theorem normalize (site : Option SourceTag) (ht : P Normal.maxDepth s t) :
    reporting.Holds s (Reporting.normalize site t) (C · t) := by
  have hnone : Remembers C s (∅ : Std.HashMap TypeId TypeId) := by simp [Remembers]
  exact reporting.bind (W.normalizes _ s (.refl s) site t ht ∅ hnone)
    fun s₁ r _ _ hr => reporting.pure hr.2

end Rewriting

end TypeResolution
