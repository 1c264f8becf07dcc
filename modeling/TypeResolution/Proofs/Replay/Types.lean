import TypeResolution.Proofs.Limits.Nesting
import TypeResolution.Proofs.Replay.Basic

/-!
Making types follows: what is interned, and what unions are joined from, are the same types again.
-/

namespace TypeResolution

variable {P : String → Prop} {L : Replay.Link} {s s' : Store} {t : TypeId} {ts : List TypeId}

namespace Store.Mirrors

/-- Taking a type apart gives the same parts, though its id and so the bound is another one. -/
theorem leaves {exact : Prop} {f : Renaming} (h : s.Mirrors exact f s') (hs : s.Formed)
    {parts : Node → Option (List TypeId)}
    (hparts : ∀ n members, parts n = some members → members ⊆ n.components)
    (hmap : ∀ n, parts (n.mapIds f) = (parts n).map (·.map f)) (ht : s.Closed P t) :
    s'.leaves parts (f t) = (s.leaves parts t).map f := by
  rw [Store.leaves, h.leavesAt hparts hmap ht, hs.leavesAt_eq_leaves hparts]
  exact Nat.lt_succ_of_le f.index_le

theorem flatLeaves {exact : Prop} {f : Renaming} (h : s.Mirrors exact f s') (hs : s.Formed)
    {parts : Node → Option (List TypeId)}
    (hparts : ∀ n members, parts n = some members → members ⊆ n.components)
    (hmap : ∀ n, parts (n.mapIds f) = (parts n).map (·.map f)) (hts : ∀ t ∈ ts, s.Closed P t) :
    TypeId.sortUnique s'.numbers ((ts.map f).flatMap (s'.leaves parts)) =
      (TypeId.sortUnique s.numbers (ts.flatMap (s.leaves parts))).map f := by
  have hknown : ∀ u ∈ ts.flatMap (s.leaves parts), u.index < s.size := by
    intro u hu
    obtain ⟨t, ht, hu⟩ := List.mem_flatMap.mp hu
    exact (closed_of_mem_leavesAt hparts (hts t ht) hu).known
  have hleaves : (ts.map f).flatMap (s'.leaves parts) = (ts.flatMap (s.leaves parts)).map f := by
    rw [List.flatMap_map, List.map_flatMap]
    exact List.flatMap_congr fun t ht => h.leaves hs hparts hmap (hts t ht)
  rw [hleaves, TypeId.sortUnique_map f fun t ht u hu => h.order t u (hknown t ht) (hknown u hu)]

end Store.Mirrors

namespace Replay

open Store

theorem closed_pair {u : TypeId} (ht : s.Closed P t) (hu : s.Closed P u) :
    ∀ v ∈ [t, u], s.Closed P v := by
  simp [ht, hu]

theorem ok_of_fixed (hs : s.Formed) {t : TypeId} (ht : t.isFixed) : Ok P s t :=
  hs.closed_fixed ht

section build

/-- A fixed type is the same in both runs. -/
theorem pure_fixed {M : Type → Type} [Monad M] [MonadLiftT Build M] [Runs L M] (hs : s.Formed)
    (ht : t.isFixed) : Follows L s (pure t : M TypeId) (pure t) :=
  Runs.pure ⟨(L.rename.fixed ht).symm, ok_of_fixed hs ht⟩

theorem follows_intern {n : Node} (hn : n.Closed L.names s) :
    Follows L s (Build.intern n) (Build.intern (n.mapIds L)) := by
  intro hs
  refine ⟨extends_intern, hs.formed_intern hn, ⟨_, rfl, hs.closed_intern hn⟩,
    fun w s' hbeside hfits => ?_⟩
  obtain ⟨hbeside', hid⟩ := L.intern hs (fun c hc => (hn.components c hc).known) hbeside hfits
  exact ⟨hbeside', hid, hs.closed_intern hn⟩

theorem follows_node (ht : s.Closed L.names t) :
    Follows L s (Build.node t) (Build.node (L t)) :=
  follows_read (fun _ => rfl) (fun _ => rfl) fun _ h => ⟨h.node ht, ht.node⟩

theorem follows_text (ht : s.Closed L.names t) :
    Follows L s (Build.text t) (Build.text (L t)) :=
  follows_read (fun _ => rfl) (fun _ => rfl) fun _ h => ⟨h.text ht, trivial⟩

theorem follows_origin {p : Place} (hp : s.Closed L.names p.owner) :
    Follows L s (Build.origin? p) (Build.origin? (p.mapIds L)) :=
  follows_read (fun _ => rfl) (fun _ => rfl) fun _ h hexact => h.origin_eq hexact p hp.known

/-- Where tags do not matter, steps that look at tags or record them may differ. -/
theorem follows_quiet (hexact : ¬L.exact) {m m' : Build Unit} (hm : ∀ s : Store, s.Alike (m s).2)
    (hm' : ∀ s : Store, s.Alike (m' s).2) : Follows L s m m' := fun hs =>
  ⟨(hm s).toExtends, (hm s).formed hs, ⟨(), rfl, trivial⟩, fun _ s' hbeside _ =>
    ⟨L.quiet hexact (hm s) (hm' s') hbeside, rfl, trivial⟩⟩

theorem follows_recordOrigin {p : Place} (hp : s.Closed L.names p.owner) {tag tag' : SourceTag}
    (htag : L.exact → tag' = tag) :
    Follows L s (Build.recordOrigin p tag) (Build.recordOrigin (p.mapIds L) tag') := by
  by_cases hexact : L.exact
  · obtain rfl := htag hexact
    intro hs
    have halike := alike_recordOrigin s p tag'
    exact ⟨halike.toExtends, halike.formed hs, ⟨(), rfl, trivial⟩, fun _ s' hbeside _ =>
      ⟨L.record hexact hbeside hp.known, rfl, trivial⟩⟩
  · exact follows_quiet hexact (fun s => alike_recordOrigin s p tag)
      fun s => alike_recordOrigin s (p.mapIds L) tag'

/-- A tag that was looked up is recorded if there was one. -/
theorem follows_recordFound {p : Place} (hp : s.Closed L.names p.owner)
    {tag tag' : Option SourceTag} (htag : L.exact → tag' = tag) :
    Follows L s (do if let some tag := tag then Build.recordOrigin p tag : Build Unit)
      (do if let some tag := tag' then Build.recordOrigin (p.mapIds L) tag) := by
  by_cases hexact : L.exact
  · obtain rfl := htag hexact
    cases tag' with
    | none => exact pure_value trivial
    | some tag => exact follows_recordOrigin hp fun _ => rfl
  · have hquiet : ∀ (p : Place) (tag : Option SourceTag) (s : Store),
        s.Alike ((do if let some tag := tag then Build.recordOrigin p tag : Build Unit) s).2 := by
      intro p tag s
      cases tag with
      | none => exact .refl s
      | some tag => exact alike_recordOrigin s p tag
    exact follows_quiet hexact (hquiet p tag) (hquiet (p.mapIds L) tag')

theorem beside_copyFieldOrigins (hexact : L.exact) {w : L.World} {a b : TypeId}
    (ha : a.index < s.size) (hb : b.index < s.size) (names : List String) (hbeside : L.beside w s s')
    (hfits : L.fits w s) :
    L.beside w (s.copyFieldOrigins a b names) (s'.copyFieldOrigins (L a) (L b) names) := by
  simp only [copyFieldOrigins, L.rename.eq_iff]
  split
  · exact hbeside
  · induction names generalizing s s' with
    | nil => exact hbeside
    | cons name rest ih =>
        have htag := (L.mirrors hbeside hfits).origin_eq hexact (.field a name) ha
        simp only [Place.mapIds] at htag
        simp only [List.foldl_cons, htag]
        cases s.origin? (.field a name) with
        | none => exact ih ha hb hbeside hfits
        | some tag =>
            have halike := alike_recordOrigin s (.field b name) tag
            have hfits' := L.fits_back halike.symm.toExtends hfits
            refine ih ?_ ?_ (L.record hexact hbeside hb) hfits' <;> rwa [halike.size]

theorem follows_copyFieldOrigins {a b : TypeId} (ha : s.Closed L.names a) (hb : s.Closed L.names b)
    (names : List String) :
    Follows L s (Build.copyFieldOrigins a b names) (Build.copyFieldOrigins (L a) (L b) names) := by
  by_cases hexact : L.exact
  · intro hs
    have halike := alike_copyFieldOrigins s a b names
    refine ⟨halike.toExtends, halike.formed hs, ⟨(), rfl, trivial⟩, fun w s' hbeside hfits => ?_⟩
    exact ⟨beside_copyFieldOrigins hexact ha.known hb.known names hbeside
      (L.fits_back halike.toExtends hfits), rfl, trivial⟩
  · exact follows_quiet hexact (fun s => alike_copyFieldOrigins s a b names)
      fun s => alike_copyFieldOrigins s (L a) (L b) names

theorem closedNode_of_components {n : Node} (hn : ∀ name args, n ≠ .reference name args)
    (h : ∀ c ∈ n.components, s.Closed P c) : n.Closed P s :=
  ⟨fun name args e => absurd e (hn name args), h⟩

theorem follows_leaf {n : Node} (hn : ∀ name args, n ≠ .reference name args)
    (h : n.components = []) : Follows L s (Build.intern n) (Build.intern (n.mapIds L)) :=
  follows_intern (closedNode_of_components hn (by simp [h]))

theorem follows_stringLiteral (text : String) :
    Follows L s (Build.stringLiteral text) (Build.stringLiteral text) :=
  follows_leaf (n := .literal (.string text)) (by simp) rfl

theorem follows_inOrder (h : ∀ t ∈ ts, s.Closed L.names t) :
    Follows L s (Build.inOrder ts) (Build.inOrder (ts.map L)) := by
  refine follows_read (fun _ => rfl) (fun _ => rfl) fun s' hs' => ⟨?_, fun t ht => ?_⟩
  · exact TypeId.sortUnique_map L.rename fun t ht u hu => hs'.order t u (h t ht).known (h u hu).known
  · exact h t (TypeId.mem_sortUnique.mp ht)

/-- What is made of members in order follows. -/
theorem follows_members {none : TypeId} (node : List TypeId → Node) (hnone : none.isFixed)
    (hmap : ∀ l, (node l).mapIds L = node (l.map L))
    (hnode : ∀ (s : Store) l, (∀ t ∈ l, s.Closed L.names t) → (node l).Closed L.names s)
    (h : ∀ t ∈ ts, s.Closed L.names t) :
    Follows L s (do Build.ofMembers none node (← Build.inOrder ts))
      (do Build.ofMembers none node (← Build.inOrder (ts.map L))) := by
  refine Runs.ofFormed fun hs => ?_
  refine bind_value (follows_inOrder h) fun s₁ h₁ hs₁ l hl => ?_
  rcases l with _ | ⟨a, _ | ⟨b, rest⟩⟩
  · exact pure_fixed hs₁ hnone
  · exact pure_value (hl a (by simp))
  · have hintern := follows_intern (hnode s₁ _ hl)
    rw [hmap] at hintern
    exact hintern

theorem follows_rawUnion (h : ∀ t ∈ ts, s.Closed L.names t) :
    Follows L s (Build.rawUnion ts) (Build.rawUnion (ts.map L)) :=
  follows_members .union rfl (fun _ => rfl)
    (fun _ _ h => closedNode_of_components (by simp) h) h

theorem follows_rawIntersection (h : ∀ t ∈ ts, s.Closed L.names t) :
    Follows L s (Build.rawIntersection ts) (Build.rawIntersection (ts.map L)) :=
  follows_members .intersection rfl (fun _ => rfl)
    (fun _ _ h => closedNode_of_components (by simp) h) h

theorem closedNode_object {o : ObjectShape} (hf : ∀ f ∈ o.fields, s.Closed P f.type)
    (hi : ∀ t, o.stringIndex = some t → s.Closed P t) : (Node.object o).Closed P s := by
  refine closedNode_of_components (by simp) fun c hc => ?_
  simp only [Node.components, List.mem_append, List.mem_map, Option.mem_toList] at hc
  rcases hc with ⟨f, hmem, rfl⟩ | hc
  · exact hf f hmem
  · exact hi c hc

theorem follows_object {o : ObjectShape} (hf : ∀ f ∈ o.fields, s.Closed L.names f.type)
    (hi : ∀ t, o.stringIndex = some t → s.Closed L.names t) :
    Follows L s (Build.object o) (Build.object (o.mapIds L)) :=
  follows_intern (n := .object o) (closedNode_object hf hi)

theorem follows_function (h : ∀ t ∈ ts, s.Closed L.names t) (ht : s.Closed L.names t) :
    Follows L s (Build.function ts t) (Build.function (ts.map L) (L t)) := by
  refine follows_intern (n := .function ⟨ts, t⟩) (closedNode_of_components (by simp) fun c hc => ?_)
  simp only [Node.components, List.mem_append, List.mem_singleton] at hc
  rcases hc with hc | rfl
  · exact h c hc
  · exact ht

theorem follows_array (ht : s.Closed L.names t) :
    Follows L s (Build.array t) (Build.array (L t)) :=
  follows_intern (n := .array t)
    (closedNode_of_components (by simp) (by simpa [Node.components] using ht))

theorem follows_reference {name : String} (hname : L.names name) (h : ∀ t ∈ ts, s.Closed L.names t) :
    Follows L s (Build.reference name ts) (Build.reference name (ts.map L)) := by
  refine follows_intern (n := .reference name ts) ⟨?_, h⟩
  rintro _ _ ⟨⟩
  exact hname

theorem follows_indexAccess {u : TypeId} (ht : s.Closed L.names t) (hu : s.Closed L.names u) :
    Follows L s (Build.indexAccess t u) (Build.indexAccess (L t) (L u)) :=
  follows_intern (n := .indexAccess t u)
    (closedNode_of_components (by simp) (by simp [Node.components, ht, hu]))

theorem follows_stringMap (kind : StringMap) (ht : s.Closed L.names t) :
    Follows L s (Build.stringMap kind t) (Build.stringMap kind (L t)) :=
  follows_intern (n := .stringMap kind t)
    (closedNode_of_components (by simp) (by simpa [Node.components] using ht))

theorem follows_union (h : ∀ t ∈ ts, s.Closed L.names t) :
    Follows L s (Build.union ts) (Build.union (ts.map L)) := by
  refine Runs.ofFormed fun hs => ?_
  refine Runs.store fun s' hs' => ?_
  have hleaf : TypeId.sortUnique s'.numbers ((ts.map L).flatMap s'.unionLeaves) =
      (TypeId.sortUnique s.numbers (ts.flatMap s.unionLeaves)).map L :=
    hs'.flatLeaves hs Node.unionMembers?_subset (Node.unionMembers?_mapIds _) h
  have hflat : ∀ t ∈ TypeId.sortUnique s.numbers (ts.flatMap s.unionLeaves),
      s.Closed L.names t := by
    intro t ht
    obtain ⟨u, hu, ht⟩ := List.mem_flatMap.mp (TypeId.mem_sortUnique.mp ht)
    exact closed_of_mem_leavesAt Node.unionMembers?_subset (h u hu) ht
  simp only [hleaf]
  generalize TypeId.sortUnique s.numbers (ts.flatMap s.unionLeaves) = flat at hflat
  have hcontains : ∀ c : TypeId, c.isFixed → ((flat.map L).contains c ↔ flat.contains c) :=
    fun c hc => by rw [TypeId.contains_map_fixed L.rename hc]
  refine follows_ite_iff (hcontains .error rfl) (fun _ => pure_fixed hs rfl) fun _ => ?_
  refine follows_ite_iff (hcontains .any rfl) (fun _ => pure_fixed hs rfl) fun _ => ?_
  refine follows_ite_iff (hcontains .unknown rfl) (fun _ => pure_fixed hs rfl) fun _ => ?_
  have hfilter : ∀ t ∈ flat.filter (· ≠ .never), s.Closed L.names t :=
    fun t ht => hflat t (List.mem_of_mem_filter ht)
  rw [TypeId.filter_map_ne_fixed L.rename (c := .never) rfl, hs'.absorbLiterals hfilter hs]
  have habsorb : ∀ t ∈ s.absorbLiterals (flat.filter (· ≠ .never)), s.Closed L.names t :=
    fun t ht => closed_of_mem_absorbLiterals hs hfilter ht
  generalize s.absorbLiterals (flat.filter (· ≠ .never)) = l at habsorb
  rcases l with _ | ⟨a, _ | ⟨b, rest⟩⟩
  · exact pure_fixed hs rfl
  · exact pure_value (habsorb a (by simp))
  · exact follows_intern (n := .union (a :: b :: rest)) (closedNode_of_components (by simp) habsorb)

end build

instance : Paired L (Array Diagnostic) := Paired.exactly

theorem follows_report {d d' : Diagnostic} (h : L.exact → d' = d) :
    Follows L s (Reporting.report d) (Reporting.report d') :=
  follows_modify fun _ _ hds hexact => by rw [h hexact, hds hexact]

end Replay

end TypeResolution
