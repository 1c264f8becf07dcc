import TypeResolution.Proofs.Replay.Types

/-!
Intersections and normal forms follow.
-/

namespace TypeResolution.Replay

open Store TypeResolution.Normal

variable {P : String → Prop} {L : Link} {s s' : Store} {t : TypeId} {ts : List TypeId}

instance : Value P Field :=
  ⟨Field.mapIds, fun s f => s.Closed P f.type, fun h hf => h.closed hf, Field.mapIds_same⟩

instance : Value P Owned :=
  ⟨fun f o => ⟨o.field.mapIds f, f o.owner⟩,
    fun s o => s.Closed P o.field.type ∧ s.Closed P o.owner,
    fun h ho => ⟨h.closed ho.1, h.closed ho.2⟩, fun _ => rfl⟩

section normal

variable {site site' : Option SourceTag} {meet meet' : List TypeId → Reporting TypeId}

/-- Computations on lists of types that follow from `s` on. -/
def Meets (L : Link) (s : Store) (meet meet' : List TypeId → Reporting TypeId) : Prop :=
  ∀ s₁, s.Extends s₁ → ∀ ts, (∀ t ∈ ts, s₁.Closed L.names t) →
    Follows L s₁ (meet ts) (meet' (ts.map L))

theorem Meets.mono (h : Meets L s meet meet') (hs : s.Extends s') : Meets L s' meet meet' :=
  fun s₁ h₁ => h s₁ (hs.trans h₁)

section reporting

variable (hsite : L.exact → site' = site)

include hsite

theorem follows_reportConflict (name : String) {a b : Owned} (ha : Ok L.names s a)
    (hb : Ok L.names s b) :
    Follows L s (reportConflict site name a b) (reportConflict site' name (L.image a) (L.image b)) := by
  refine bind_value (Runs.lift (follows_text ha.1)) fun s₁ h₁ _ firstText _ => ?_
  refine bind_value (Runs.lift (follows_text (h₁.closed hb.1))) fun s₂ h₂ _ secondText _ => ?_
  have h₁₂ := h₁.trans h₂
  refine Runs.bind (Runs.lift (follows_origin (p := .field a.owner name) (h₁₂.closed ha.2)))
    fun s₃ h₃ _ first first' hfirst => ?_
  refine Runs.bind (Runs.lift (follows_origin (p := .field b.owner name)
    ((h₁₂.trans h₃).closed hb.2))) fun s₄ _ _ second second' hsecond => ?_
  exact follows_report fun hexact => by
    rw [hsite hexact, hfirst hexact, hsecond hexact]
    rfl

theorem follows_meetFields (hm : Meets L s meet meet') {a b : Owned} (ha : Ok L.names s a)
    (hb : Ok L.names s b) :
    Follows L s (meetFields meet site a b) (meetFields meet' site' (L.image a) (L.image b)) := by
  have hrest : ∀ s₁ t, s.Extends s₁ → s₁.Closed L.names t → Follows L s₁
      (do
        if t = .never && a.field.type ≠ .never && b.field.type ≠ .never then
          reportConflict site b.field.name a b
        return { a with
          field := { a.field with
            type := t
            optional := a.field.optional && b.field.optional
            readonly := a.field.readonly || b.field.readonly } } : Reporting Owned)
      (do
        if L t = .never && L a.field.type ≠ .never && L b.field.type ≠ .never then
          reportConflict site' b.field.name (L.image a) (L.image b)
        return { L.image a with
          field := { a.field with
            type := L t
            optional := a.field.optional && b.field.optional
            readonly := a.field.readonly || b.field.readonly } }) := by
    intro s₁ t h₁ ht
    have hdone : ∀ s₂, s₁.Extends s₂ → Ok L.names s₂ ({ a with
        field := { a.field with
          type := t
          optional := a.field.optional && b.field.optional
          readonly := a.field.readonly || b.field.readonly } } : Owned) :=
      fun s₂ h₂ => ⟨h₂.closed ht, (h₁.trans h₂).closed ha.2⟩
    refine follows_ite_iff (by simp) (fun _ => ?_) fun _ => pure_value (hdone s₁ (.refl s₁))
    exact bind_value (follows_reportConflict hsite _ (Value.mono h₁ ha) (Value.mono h₁ hb))
      fun s₂ h₂ _ _ _ => pure_value (hdone s₂ h₂)
  refine follows_ite_iff L.rename.eq_iff (fun _ => ?_) fun _ => ?_
  · exact bind_value (pure_value ha.1) fun s₁ h₁ _ t ht => hrest s₁ t h₁ ht
  · refine bind_value (hm s (.refl s) _ ?_) fun s₁ h₁ _ t ht => hrest s₁ t h₁ ht
    simpa using ⟨ha.1, hb.1⟩

theorem follows_mergeField (hm : Meets L s meet meet') (new : Owned) (hnew : Ok L.names s new)
    {fields : List Owned} (hf : Ok L.names s fields) :
    Follows L s (mergeField meet site new fields)
      (mergeField meet' site' (L.image new) (L.image fields)) := by
  induction fields with
  | nil => exact pure_value (a := [new]) (by simpa [Ok] using hnew)
  | cons old rest ih =>
      have hold : Ok L.names s old := hf old (by simp)
      have hrest : Ok L.names s rest := fun o ho => hf o (by simp [ho])
      refine follows_ite (fun _ => ?_) fun _ => ?_
      · refine bind_value (follows_meetFields hsite hm hold hnew) fun s₁ h₁ _ o ho =>
          pure_value (a := o :: rest) ?_
        exact List.forall_mem_cons.mpr ⟨ho, Value.mono h₁ hrest⟩
      · refine bind_value (ih hrest) fun s₁ h₁ _ os hos => pure_value (a := old :: os) ?_
        exact List.forall_mem_cons.mpr ⟨Value.mono h₁ hold, hos⟩

omit hsite in
theorem follows_mergeIndex (hm : Meets L s meet meet') {a b : Option TypeId} (ha : Ok L.names s a)
    (hb : Ok L.names s b) :
    Follows L s (mergeIndex meet a b) (mergeIndex meet' (L.image a) (L.image b)) := by
  cases a with
  | none => exact pure_value hb
  | some t =>
      cases b with
      | none => exact pure_value ha
      | some u =>
          refine bind_value (hm s (.refl s) [t, u] ?_) fun s₁ _ _ v hv => pure_value (a := some v) ?_
          · simpa using ⟨ha t rfl, hb u rfl⟩
          · rintro _ ⟨⟩
            exact hv

theorem follows_mergeObject (hm : Meets L s meet meet') {merged : List Owned × Option TypeId}
    (h₁ : Ok L.names s merged.1) (h₂ : Ok L.names s merged.2) (ht : s.Closed L.names t) :
    Follows L s (mergeObject meet site merged t)
      (mergeObject meet' site' (L.image merged.1, L.image merged.2) (L t)) := by
  refine Runs.store fun s' hs' => ?_
  rw [hs'.objectShape? ht]
  cases ho : s.objectShape? t with
  | none => exact Runs.pure ⟨⟨rfl, h₁⟩, rfl, h₂⟩
  | some o =>
      obtain ⟨hfields, hindex⟩ := closed_of_objectShape? ht ho
      have hfold : Follows L s
          (o.fields.foldlM (fun fields f => mergeField meet site ⟨f, t⟩ fields) merged.1)
          ((o.fields.map (·.mapIds L)).foldlM
            (fun fields f => mergeField meet' site' ⟨f, L t⟩ fields) (L.image merged.1)) := by
        refine follows_foldlM_map (fun f hf s₁ hs₁ b c hbc => ?_) ⟨rfl, h₁⟩
        obtain ⟨rfl, hb⟩ := hbc
        exact follows_mergeField hsite (hm.mono hs₁) ⟨f, t⟩
          ⟨hs₁.closed (hfields f hf), hs₁.closed ht⟩ hb
      refine bind_value hfold fun s₁ hs₁ _ fields hfields' => ?_
      refine bind_value (follows_mergeIndex (hm.mono hs₁) (Value.mono hs₁ h₂) (b := o.stringIndex) ?_)
        fun s₂ hs₂ _ index hindex' => ?_
      · exact fun u hu => hs₁.closed (hindex u hu)
      · exact Runs.pure ⟨⟨rfl, Value.mono hs₂ hfields'⟩, rfl, hindex'⟩

theorem follows_mergeObjects (hm : Meets L s meet meet') (h : ∀ t ∈ ts, s.Closed L.names t) :
    Follows L s (mergeObjects meet site ts) (mergeObjects meet' site' (ts.map L)) := by
  have hfold : Follows L s (ts.foldlM (mergeObject meet site) ([], none))
      ((ts.map L).foldlM (mergeObject meet' site') ([], none)) := by
    refine follows_foldlM_map (fun t ht s₁ hs₁ b c hbc => ?_) ⟨⟨rfl, by simp [Ok]⟩, rfl, by simp [Ok]⟩
    obtain ⟨⟨h₁, hok₁⟩, h₂, hok₂⟩ := hbc
    obtain rfl : c = (L.image b.1, L.image b.2) := Prod.ext h₁ h₂
    exact follows_mergeObject hsite (hm.mono hs₁) hok₁ hok₂ (hs₁.closed (h t ht))
  refine Runs.bind hfold fun s₁ hs₁ _ b c hbc => ?_
  obtain ⟨⟨h₁, hok₁⟩, h₂, hok₂⟩ := hbc
  obtain rfl : c = (L.image b.1, L.image b.2) := Prod.ext h₁ h₂
  have hobject : Follows L s₁ (Build.object ⟨b.1.map (·.field), b.2⟩)
      (Build.object ⟨(L.image b.1).map (·.field), L.image b.2⟩) := by
    have hmap : (L.image b.1).map (·.field) = (b.1.map (·.field)).map (·.mapIds L) := by
      change (b.1.map (Value.image L.names L)).map (·.field) = _
      rw [List.map_map, List.map_map]
      rfl
    rw [hmap]
    refine follows_object (o := ⟨b.1.map (·.field), b.2⟩) (fun f hf => ?_) fun u hu => hok₂ u hu
    obtain ⟨o, ho, rfl⟩ := List.mem_map.mp hf
    exact (hok₁ o ho).1
  refine bind_value (Runs.lift hobject) fun s₂ hs₂ _ t ht => ?_
  refine bind_value (follows_forM_map fun o ho s₃ hs₃ => ?_) fun s₃ hs₃ _ _ _ => ?_
  · exact Runs.lift (follows_copyFieldOrigins ((hs₂.trans hs₃).closed (hok₁ o ho).2)
      (hs₃.closed ht) [o.field.name])
  · exact pure_value (hs₃.closed ht)

theorem follows_meetParts (hm : Meets L s meet meet') (h : ∀ t ∈ ts, s.Closed L.names t) :
    Follows L s (meetParts meet site ts) (meetParts meet' site' (ts.map L)) := by
  refine Runs.ofFormed fun hs => ?_
  refine Runs.store fun s' hs' => ?_
  simp only [reducePrimitives_mirror hs' h]
  cases hr : reducePrimitives s ts with
  | none => exact pure_fixed hs rfl
  | some l =>
      have hl : ∀ t ∈ l, s.Closed L.names t := fun t ht => h t (mem_of_mem_reducePrimitives hr t ht)
      have hobjects : (l.map L).filter s'.isObject = (l.filter s.isObject).map L :=
        filter_map_congr fun t ht => hs'.isObject (hl t ht)
      have hrest : (l.map L).filter (!((l.filter s.isObject).map L).contains ·) =
          (l.filter (!(l.filter s.isObject).contains ·)).map L :=
        filter_map_congr fun t _ => by rw [TypeId.contains_map]
      simp only [Option.map_some, hobjects, hrest, List.length_map]
      refine follows_ite (fun _ => ?_) fun _ => ?_
      · refine bind_value (follows_mergeObjects hsite hm ?_) fun s₁ hs₁ _ t ht => ?_
        · exact fun t ht => hl t (List.mem_of_mem_filter ht)
        · simp only [pure_bind]
          refine Runs.lift (follows_rawIntersection (List.forall_mem_cons.mpr ⟨ht, fun u hu => hs₁.closed (hl u ?_)⟩))
          exact List.mem_of_mem_filter hu
      · simp only [pure_bind]
        exact Runs.lift (follows_rawIntersection hl)

end reporting

theorem closed_of_absorbMeet (hs : s.Formed) (h : ∀ t ∈ ts, s.Closed P t) :
    (∀ t, absorbMeet ts = .inl t → s.Closed P t) ∧
      ∀ l, absorbMeet ts = .inr l → ∀ t ∈ l, s.Closed P t := by
  unfold absorbMeet
  split
  · simpa using hs.closed_fixed rfl
  split
  · simpa using hs.closed_fixed rfl
  split
  · simpa using hs.closed_fixed rfl
  have hfilter : ∀ t ∈ ts.filter (· ≠ .unknown), s.Closed P t :=
    fun t ht => h t (List.mem_of_mem_filter ht)
  generalize ts.filter (· ≠ .unknown) = l at hfilter
  rcases l with _ | ⟨a, _ | ⟨b, rest⟩⟩
  · simpa using hs.closed_fixed rfl
  · simpa using hfilter
  · refine ⟨fun t ht => (by cases ht), ?_⟩
    intro l hl
    cases hl
    exact hfilter

theorem follows_intersectionAt (hsite : L.exact → site' = site) (hm : Meets L s meet meet')
    (nesting : Nat) (h : ∀ t ∈ ts, s.Closed L.names t) :
    Follows L s (intersectionAt meet site nesting ts)
      (intersectionAt meet' site' nesting (ts.map L)) := by
  induction nesting generalizing s ts with
  | zero => exact Runs.ofFormed fun hs => pure_fixed hs rfl
  | succ nesting ih =>
      refine Runs.ofFormed fun hs => ?_
      refine Runs.store fun s' hs' => ?_
      have hleaf : TypeId.sortUnique s'.numbers ((ts.map L).flatMap s'.intersectionLeaves) =
          (TypeId.sortUnique s.numbers (ts.flatMap s.intersectionLeaves)).map L :=
        hs'.flatLeaves hs Node.intersectionMembers?_subset (Node.intersectionMembers?_mapIds _) h
      have hflat : ∀ t ∈ TypeId.sortUnique s.numbers (ts.flatMap s.intersectionLeaves), s.Closed L.names t := by
        intro t ht
        obtain ⟨u, hu, ht⟩ := List.mem_flatMap.mp (TypeId.mem_sortUnique.mp ht)
        exact closed_of_mem_leavesAt Node.intersectionMembers?_subset (h u hu) ht
      simp only [hleaf, absorbMeet_map]
      obtain ⟨hinl, hinr⟩ := closed_of_absorbMeet hs hflat
      cases ha : absorbMeet (TypeId.sortUnique s.numbers (ts.flatMap s.intersectionLeaves)) with
      | inl t => exact pure_value (hinl t ha)
      | inr flat =>
          have hclosed := hinr flat ha
          have hunions : (flat.map L).filterMap s'.unionMembers? =
              (flat.filterMap s.unionMembers?).map (·.map L) :=
            filterMap_map_congr fun t ht => hs'.unionMembers? (hclosed t ht)
          have hothers : (flat.map L).filter (fun t => (s'.unionMembers? t).isNone) =
              (flat.filter (fun t => (s.unionMembers? t).isNone)).map L :=
            filter_map_congr fun t ht => by simp [hs'.unionMembers? (hclosed t ht)]
          simp only [Sum.map_inr, hunions, hothers, choices_map, choiceCount_map, List.isEmpty_map]
          refine follows_ite (fun _ => follows_meetParts hsite hm hclosed) fun _ => ?_
          refine bind_value (follows_mapM_map fun c hc s₁ hs₁ => ih (hm.mono hs₁) fun u hu => ?_)
            fun s₁ _ _ results hresults => Runs.lift (follows_union hresults)
          refine hs₁.closed ?_
          rcases mem_of_mem_choices hc hu with hu | ⟨members, hmem, hu⟩
          · exact hclosed u (List.mem_of_mem_filter hu)
          · obtain ⟨t, ht, hmembers⟩ := List.mem_filterMap.mp hmem
            exact (hclosed t ht).of_mem_components (node_of_unionMembers? hmembers) hu

theorem meets_intersectionBy (hsite : L.exact → site' = site) (levels : Nat) :
    Meets L s (intersectionBy (fun ts => rank (ts.map L)) site levels)
      (intersectionIn site' levels) := by
  induction levels generalizing s with
  | zero => exact fun s₁ _ ts _ => Runs.ofFormed fun hs => pure_fixed hs rfl
  | succ levels ih => exact fun s₁ _ ts h => follows_intersectionAt hsite ih _ h

theorem rank_le_map (f : Renaming) (ts : List TypeId) : rank ts ≤ rank (ts.map f) := by
  induction ts with
  | nil => exact Nat.le_refl _
  | cons t rest ih =>
      have hle := f.index_le (a := t)
      simp only [rank, List.map_cons, List.foldr_cons] at ih ⊢
      omega

theorem Build.Follows.congr {α : Type} [Paired L α] {m₁ m₂ m' : Build α}
    (h : Build.Follows (L := L) s m₁ m') (heq : m₁ s = m₂ s) :
    Build.Follows (L := L) s m₂ m' := by
  obtain ⟨hgrows, hformed, hpartner, halong⟩ := h
  rw [heq] at hgrows hformed hpartner halong
  exact ⟨hgrows, hformed, hpartner, halong⟩

/-- The ids of the second run bound its nesting, and larger bounds do as well for the first one. -/
theorem follows_intersection (hsite : L.exact → site' = site) (h : ∀ t ∈ ts, s.Closed L.names t) :
    Follows L s (Reporting.intersection site ts) (Reporting.intersection site' (ts.map L)) := by
  intro ds ds' hds hs
  have hrun := meets_intersectionBy hsite (rank (ts.map L)) s (.refl s) ts h ds ds' hds hs
  exact hrun.congr (intersectionBy_run (fun us => rank_le_map L.rename us) hs
    (rank_le_map L.rename ts) (fun t ht => (h t ht).known) ds)

theorem follows_rebuildObject (o o' : ObjectShape) (ht : s.Closed L.names t)
    (hf : ∀ f ∈ o'.fields, s.Closed L.names f.type) (hi : ∀ u, o'.stringIndex = some u → s.Closed L.names u) :
    Follows L s (rebuildObject t o o') (rebuildObject (L t) (o.mapIds L) (o'.mapIds L)) := by
  refine follows_ite_iff (ObjectShape.mapIds_injective L.rename.injective).eq_iff
    (fun _ => pure_value ht) fun _ => ?_
  refine bind_value (follows_object hf hi) fun s₁ h₁ _ u hu => ?_
  have hnames : (o'.mapIds L).fields.map (·.name) = o'.fields.map (·.name) := by
    rw [ObjectShape.mapIds, List.map_map]
    rfl
  rw [hnames]
  refine bind_value (follows_copyFieldOrigins (h₁.closed ht) hu _) fun s₂ hs₂ _ _ _ => ?_
  exact pure_value (hs₂.closed hu)

end normal

/-- Results that are remembered are types of the store, and renamed in the second run. -/
structure CacheSame (L : Link) (s : Store) (cache cache' : Std.HashMap TypeId TypeId) : Prop where
  image (t : TypeId) : cache'[L t]? = cache[t]?.map L
  ok (t r : TypeId) : cache[t]? = some r → s.Closed L.names r

theorem CacheSame.mono {cache cache' : Std.HashMap TypeId TypeId} (h : s.Extends s')
    (hc : CacheSame L s cache cache') : CacheSame L s' cache cache' :=
  { hc with ok := fun t r hr => h.closed (hc.ok t r hr) }

instance : Paired L (Std.HashMap TypeId TypeId) := ⟨CacheSame L, CacheSame.mono⟩

theorem CacheSame.refl {calm : Prop} {cache : Std.HashMap TypeId TypeId}
    (h : ∀ t r : TypeId, cache[t]? = some r → s.Closed P r) :
    CacheSame (.plain P calm) s cache cache :=
  ⟨fun _ => Option.map_id'.symm, h⟩

theorem CacheSame.empty : CacheSame L s ∅ ∅ := ⟨by simp, by simp⟩

theorem CacheSame.insert {cache cache' : Std.HashMap TypeId TypeId} {r : TypeId}
    (hc : CacheSame L s cache cache') (hr : s.Closed L.names r) :
    CacheSame L s (cache.insert t r) (cache'.insert (L t) (L r)) where
  image u := by
    simp only [Std.HashMap.getElem?_insert, beq_iff_eq, L.rename.eq_iff, hc.image]
    split <;> rfl
  ok u v hv := by
    rw [Std.HashMap.getElem?_insert] at hv
    split at hv
    · cases hv
      exact hr
    · exact hc.ok u v hv

section normalize

variable {site site' : Option SourceTag}
  {inner inner' : Option SourceTag → TypeId → Normalizing TypeId}

theorem follows_normalizeNode (hsite : L.exact → site' = site)
    (hinner : ∀ s₁, s.Extends s₁ → ∀ site site' u, (L.exact → site' = site) → s₁.Closed L.names u →
      Follows L s₁ (inner site u) (inner' site' (L u)))
    (ht : s.Closed L.names t) {n : Node} (hn : n.Closed L.names s) :
    Follows L s (normalizeNode inner site t n) (normalizeNode inner' site' (L t) (n.mapIds L)) := by
  cases n with
  | union members =>
      refine bind_value (follows_mapM_map fun m hm s₁ hs₁ => ?_) fun s₁ _ _ us hus =>
        Runs.lift (follows_union hus)
      exact hinner s₁ hs₁ _ _ m hsite (hs₁.closed (hn.components m hm))
  | intersection members =>
      refine Runs.bind (Runs.lift (follows_origin (p := .type t) ht))
        fun s₁ hs₁ _ tag tag' htag => ?_
      have hsite₁ : L.exact → tag'.or site' = tag.or site := fun hexact => by
        rw [htag hexact, hsite hexact]
      refine bind_value (follows_mapM_map fun m hm s₂ hs₂ => ?_) fun s₂ _ _ us hus => ?_
      · exact hinner s₂ (hs₁.trans hs₂) _ _ m hsite₁ ((hs₁.trans hs₂).closed (hn.components m hm))
      · exact follows_stateLift (follows_intersection hsite₁ hus)
  | object shape =>
      refine bind_value (follows_mapM_map fun f hf s₁ hs₁ => ?_) fun s₁ hs₁ _ fields hfields => ?_
      · have hc := hn.components f.type (List.mem_append_left _ (List.mem_map_of_mem hf))
        exact bind_value (hinner s₁ hs₁ _ _ _ hsite (hs₁.closed hc)) fun s₂ _ _ u hu =>
          pure_value (a := { f with type := u }) hu
      · refine bind_value (follows_optionMapM_map fun u hu => ?_) fun s₂ hs₂ _ index hindex => ?_
        · have hc := hn.components u (List.mem_append_right _ (Option.mem_toList.mpr hu))
          exact hinner s₁ hs₁ _ _ u hsite (hs₁.closed hc)
        · refine Runs.lift (follows_rebuildObject _ ⟨fields, index⟩
            ((hs₁.trans hs₂).closed ht) ?_ hindex)
          exact Value.mono hs₂ hfields
  | function shape =>
      refine bind_value (follows_mapM_map fun m hm s₁ hs₁ => ?_) fun s₁ hs₁ _ params hparams => ?_
      · have hc := hn.components m (List.mem_append_left _ hm)
        exact hinner s₁ hs₁ _ _ m hsite (hs₁.closed hc)
      · have hc := hn.components shape.result (List.mem_append_right _ (by simp))
        refine bind_value (hinner s₁ hs₁ _ _ _ hsite (hs₁.closed hc)) fun s₂ hs₂ _ r hr => ?_
        exact Runs.lift (follows_function (Value.mono hs₂ hparams) hr)
  | array element =>
      have hc := hn.components element (by simp [Node.components])
      refine bind_value (hinner s (.refl s) _ _ _ hsite hc) fun s₁ _ _ u hu =>
        Runs.lift (follows_array hu)
  | _ => exact pure_value ht

theorem follows_normalizeAt {depth : Nat} (hsite : L.exact → site' = site)
    (ht : s.Closed L.names t) :
    Follows L s (normalizeAt depth site t) (normalizeAt depth site' (L t)) := by
  induction depth generalizing s t site site' with
  | zero =>
      unfold normalizeAt
      refine follows_ite_iff (by simp) (fun _ => pure_value ht) fun _ => ?_
      refine Runs.bind follows_get fun s₁ hs₁ _ cache cache' hcache => ?_
      rw [hcache.image]
      cases hk : cache[t]? with
      | some known => exact pure_value (hcache.ok t known hk)
      | none => exact pure_value (hs₁.closed ht)
  | succ depth ih =>
      unfold normalizeAt
      refine follows_ite_iff (by simp) (fun _ => pure_value ht) fun _ => ?_
      refine Runs.bind follows_get fun s₁ hs₁ _ cache cache' hcache => ?_
      rw [hcache.image]
      cases hk : cache[t]? with
      | some known => exact pure_value (hcache.ok t known hk)
      | none =>
          have ht₁ := hs₁.closed ht
          refine bind_value (Runs.lift (follows_node ht₁)) fun s₂ hs₂ _ n hn => ?_
          have hinner : ∀ s₃, s₂.Extends s₃ → ∀ site site' u, (L.exact → site' = site) →
              s₃.Closed L.names u →
              Follows L s₃ (normalizeAt depth site u) (normalizeAt depth site' (L u)) :=
            fun s₃ _ _ _ u hsite hu => ih hsite hu
          refine bind_value (follows_normalizeNode hsite hinner (hs₂.closed ht₁) hn)
            fun s₃ hs₃ _ r hr => ?_
          refine bind_value (follows_modify fun x y hxy => ?_) fun s₄ hs₄ _ _ _ => ?_
          · exact (CacheSame.insert hxy hr).insert hr
          · exact pure_value (hs₄.closed hr)

theorem follows_normalize (hsite : L.exact → site' = site) (ht : s.Closed L.names t) :
    Follows L s (Reporting.normalize site t) (Reporting.normalize site' (L t)) := by
  have hrun : Follows L s (normalizeAt maxDepth site t) (normalizeAt maxDepth site' (L t)) :=
    follows_normalizeAt hsite ht
  exact Runs.bind (follows_run hrun .empty) fun s₁ _ _ a b hab => Runs.pure hab.1

end normalize

end TypeResolution.Replay
