import TypeResolution.Proofs.Replay.Lodging
import TypeResolution.Proofs.Session.Sequence

/-!
A session one module after the other. A turn takes what has been published and the types so far to
what is published and known after it, and reports on the module. Where the second store holds the
types of the first one and the module sees the same aliases, the turn is followed.
-/

namespace TypeResolution

open Store Replay

theorem Alias.mapIds_congr {P : String → Prop} {s : Store} {f g : TypeId → TypeId} {a : Alias}
    (ha : Ok P s a) (h : ∀ t : TypeId, t.index < s.size → f t = g t) : a.mapIds f = a.mapIds g := by
  have hoption {o : Option TypeId} (ho : ∀ t, o = some t → s.Closed P t) : o.map f = o.map g := by
    cases o with
    | none => rfl
    | some t => exact congrArg some (h t (ho t rfl).known)
  have hparams : a.params.map (·.mapIds f) = a.params.map (·.mapIds g) := by
    refine List.map_congr_left fun p hp => ?_
    obtain ⟨hconstraint, hdefault⟩ := ha.2 p hp
    rw [TypeParam.mapIds, hoption hconstraint, hoption hdefault]
    rfl
  rw [Alias.mapIds, hparams, h a.body ha.1.known]
  rfl

namespace Session

variable {config : SessionConfig} {g : ModuleGraph} {s : Store} {source : ModuleSource}

/-- What modules have published, and the types, when some of them have been checked. -/
structure State where
  exports : Exports
  store : Store

def State.start (numbers : Numbering) : State := ⟨[], .fresh numbers⟩

/-- A module publishes its aliases and is checked. -/
def takeTurn (config : SessionConfig) (g : ModuleGraph) (w : State) (source : ModuleSource) :
    Except Cancelled ModuleReport × State :=
  let (m, s) := prepare g source w.store
  let exports := publish m.id m.own w.exports
  let (r, s) := report config false g exports m s
  (r, ⟨exports, s⟩)

/-- The state after modules have been checked one after the other. -/
def after (config : SessionConfig) (g : ModuleGraph) (sources : List ModuleSource) (w : State) :
    State :=
  sources.foldl (fun w source => (takeTurn config g w source).2) w

/-- The aliases of the module, lowered, and the report on it. -/
def turnIn (config : SessionConfig) (g : ModuleGraph) (exports : Exports) (source : ModuleSource) :
    Build (List Alias × Except Cancelled ModuleReport) := do
  let (own, operations) ← (source.aliases.mapM (·.lower []) : Lowering _).run 0
  let m : Prepared := ⟨g.number source.name, source, own, operations⟩
  let r ← report config false g (publish m.id own exports) m
  return (own, r)

theorem takeTurn_eq (w : State) :
    takeTurn config g w source =
      let t := turnIn config g w.exports source w.store
      (t.1.2, ⟨publish (g.number source.name) t.1.1 w.exports, t.2⟩) :=
  rfl

section follow

variable {L : Link} {exports exports' : Exports} {own : List Alias} {i d : Nat}

/-- The aliases that modules have published are types of the store. -/
def Stored (P : String → Prop) (s : Store) (exports : Exports) : Prop :=
  ∀ d own, exports.lookup d = some own → Ok P s own

theorem Stored.publish {P : String → Prop} (h : Stored P s exports) (hown : Ok P s own) :
    Stored P s (publish i own exports) := by
  intro d own' hd
  rw [lookup_publish, Option.or_eq_some_iff] at hd
  rcases hd with hd | ⟨_, hd⟩
  · exact h d own' hd
  · split at hd
    · cases hd
      exact hown
    · cases hd

theorem lookup_publish_map {f : TypeId → TypeId} (own : List Alias)
    (h : exports'.lookup d = (exports.lookup d).map (·.map (·.mapIds f))) :
    (publish i (own.map (·.mapIds f)) exports').lookup d =
      ((publish i own exports).lookup d).map (·.map (·.mapIds f)) := by
  rw [lookup_publish, lookup_publish, h, Option.map_or]
  split <;> rfl

/-- A module that sees renamed aliases has a renamed environment. -/
theorem agree_environment (hown : Ok L.names s own)
    (hstored : Stored L.names s exports)
    (hexports : ∀ d ∈ imports g i,
      exports'.lookup d = (exports.lookup d).map (·.map (·.mapIds L))) :
    Agree L s (environment g i own exports)
      (environment g i (own.map (·.mapIds L)) exports') := by
  have hfind (l : List Alias) (name : String) :
      (l.map (·.mapIds L)).reverse.find? (·.name = name) =
        (l.reverse.find? (·.name = name)).map (·.mapIds L) := by
    rw [← List.map_reverse, List.find?_map]
    rfl
  have himported : (imports g i).flatMap (fun d => (exports'.lookup d).getD []) =
      ((imports g i).flatMap fun d => (exports.lookup d).getD []).map (·.mapIds L) := by
    rw [List.map_flatMap]
    refine List.flatMap_congr fun d hd => ?_
    rw [hexports d hd]
    cases exports.lookup d <;> rfl
  have hok : ∀ name a, (environment g i own exports).get? name = some a → Ok L.names s a := by
    intro name a ha
    rw [get?_environment, Option.or_eq_some_iff] at ha
    rcases ha with ha | ⟨_, ha⟩
    · exact hown a (List.mem_reverse.mp (List.mem_of_find?_eq_some ha))
    · obtain ⟨d, _, ha⟩ := List.mem_flatMap.mp (List.mem_reverse.mp (List.mem_of_find?_eq_some ha))
      cases hlookup : exports.lookup d with
      | none => simp [hlookup] at ha
      | some own' => exact hstored d own' hlookup a (by simpa [hlookup] using ha)
  refine ⟨fun name _ => ?_, fun name a _ ha => (hok name a ha).1,
    fun name a _ ha p hp t ht => ((hok name a ha).2 p hp).2 t ht⟩
  rw [get?_environment, get?_environment, hfind, ← imports, himported, hfind, Option.map_or]

theorem follows_turnIn (config : SessionConfig) (source : ModuleSource)
    (hL : ∀ name, L.names name) (hstored : Stored L.names s exports)
    (hexports : ∀ d ∈ imports g (g.number source.name),
      exports'.lookup d = (exports.lookup d).map (·.map (·.mapIds L))) :
    Follows L s (turnIn config g exports source) (turnIn config g exports' source) := by
  have hstart : Same L s (0 : Nat) 0 := ⟨rfl, trivial⟩
  refine Runs.bind (follows_run (follows_lowerAliases hL source.aliases) hstart)
    fun s₁ h₁ _ x y hxy => ?_
  obtain ⟨own, n⟩ := x
  obtain ⟨own', n'⟩ := y
  obtain ⟨⟨hown', hown⟩, hn, _⟩ := hxy
  simp only at hown' hown hn
  subst hown' hn
  have hstored₁ : Stored L.names s₁ exports := fun d own hd => Value.mono h₁ (hstored d own hd)
  have henv := agree_environment hown (hstored₁.publish (i := g.number source.name) hown)
    fun d hd => lookup_publish_map own (hexports d hd)
  have hcycle : cycleDiagnostic g (g.number source.name) source.name =
      cycleDiagnostic g (g.number source.name) source.name := rfl
  have hreport := follows_reportIn config (m := ⟨g.number source.name, source, own, n'⟩)
    hL (fun _ => rfl) henv fun _ => hcycle
  refine Runs.bind hreport fun s₂ h₂ _ r r' hr => Runs.pure ⟨⟨rfl, Value.mono h₂ hown⟩, hr⟩

end follow

section turns

variable {f : Renaming} {w w' : State} {a : Store} {d : Nat}

/-- A turn is followed in a store that holds more, if what it makes was not there. -/
theorem takeTurn_follows (config : SessionConfig) (h : w.store.Lodges f w'.store)
    (hstored : Stored AnyName w.store w.exports)
    (hexports : ∀ d ∈ imports g (g.number source.name),
      w'.exports.lookup d = (w.exports.lookup d).map (·.map (·.mapIds f)))
    (hfits : h.Fits (takeTurn config g w source).2.store) :
    h.Beside (takeTurn config g w source).2.store (takeTurn config g w' source).2.store ∧
      (∃ own, Ok AnyName (takeTurn config g w source).2.store own ∧
        (takeTurn config g w source).2.exports =
          publish (g.number source.name) own w.exports ∧
        (takeTurn config g w' source).2.exports =
          publish (g.number source.name) (own.map (·.mapIds h.next)) w'.exports) ∧
      ∃ r r', (takeTurn config g w source).1 = .ok r ∧ (takeTurn config g w' source).1 = .ok r' ∧
        SameAnswers h.link (takeTurn config g w source).2.store r r' := by
  have hnext : ∀ d ∈ imports g (g.number source.name),
      w'.exports.lookup d = (w.exports.lookup d).map (·.map (·.mapIds h.next)) := by
    intro d hd
    rw [hexports d hd]
    cases hown : w.exports.lookup d with
    | none => rfl
    | some own =>
        refine congrArg some (List.map_congr_left fun a ha => ?_)
        exact Alias.mapIds_congr (hstored d own hown a ha) fun t ht => (h.next_of_lt ht).symm
  have hfollows := follows_turnIn (L := h.link) config source (fun _ => trivial) hstored hnext
  obtain ⟨hbeside, hown, hreport⟩ := h.follow (hfollows h.formed) hfits
  refine ⟨hbeside, ⟨_, hown.2, rfl, ?_⟩, ?_⟩
  · exact congrArg (publish _ · _) hown.1
  · rw [takeTurn_eq, takeTurn_eq]
    simp only
    generalize (turnIn config g w.exports source w.store).1.2 = r at hreport ⊢
    generalize (turnIn config g w'.exports source w'.store).1.2 = r' at hreport ⊢
    cases hreport with
    | ok hr => exact ⟨_, _, rfl, rfl, hr⟩
    | error hcalm => exact absurd trivial hcalm

/-- What holds of a session at any time. -/
structure State.Sound (w : State) : Prop where
  formed : w.store.Formed
  placed : w.store.Placed
  stored : Stored AnyName w.store w.exports

theorem State.sound_start (numbers : Numbering) : (State.start numbers).Sound :=
  ⟨formed_fresh, placed_fresh, fun _ _ h => by cases h⟩

/-- A module is checked, and what was known stays. -/
theorem State.Sound.takeTurn (h : w.Sound) (config : SessionConfig) (g : ModuleGraph)
    (source : ModuleSource) :
    (takeTurn config g w source).2.Sound ∧
      w.store.Extends (Session.takeTurn config g w source).2.store ∧
        ∃ r, (Session.takeTurn config g w source).1 = .ok r := by
  have hlodges := Lodges.refl h.formed h.placed
  have hexports : ∀ d ∈ imports g (g.number source.name),
      w.exports.lookup d = (w.exports.lookup d).map (·.map (·.mapIds Renaming.same)) := by
    intro d _
    simp [List.map_id'' Alias.mapIds_same]
  obtain ⟨hbeside, ⟨own, hown, hpublish, _⟩, r, _, hr, _⟩ :=
    takeTurn_follows config hlodges h.stored hexports (Lodges.fits_refl h.formed h.placed _)
  refine ⟨⟨hbeside.lodges.formed, hbeside.lodges.placed, ?_⟩, hbeside.extends_left, r, hr⟩
  rw [hpublish]
  have hstored : Stored AnyName (Session.takeTurn config g w source).2.store w.exports :=
    fun d own hd => Value.mono hbeside.extends_left (h.stored d own hd)
  exact hstored.publish hown

/-- The second session has what the first one has, under other ids, and has published the same for
the modules in `D`. -/
structure Shares (D : Nat → Prop) (f : Renaming) (w w' : State) : Prop where
  lodges : w.store.Lodges f w'.store
  stored : Stored AnyName w.store w.exports
  stored' : Stored AnyName w'.store w'.exports
  exports : ∀ d, D d → w'.exports.lookup d = (w.exports.lookup d).map (·.map (·.mapIds f))

variable {D : Nat → Prop}

theorem Shares.sound (h : Shares D f w w') : w'.Sound :=
  ⟨h.lodges.formed', h.lodges.placed', h.stored'⟩

/-- A module of `D` that sees modules of `D` only is checked in both sessions. -/
theorem Shares.inside (h : Shares D f w w')
    (himports : ∀ d ∈ imports g (g.number source.name), D d)
    (honly : h.lodges.Only a) (ha : (takeTurn config g w source).2.store.Extends a)
    (horder : ∀ t u : TypeId, t.index < (takeTurn config g w source).2.store.size →
      u.index < (takeTurn config g w source).2.store.size →
      TypeId.SameOrder h.lodges.next w.store.numbers w'.store.numbers t u) :
    (∃ h' : Shares D h.lodges.next (takeTurn config g w source).2 (takeTurn config g w' source).2,
      h'.lodges.Only a) ∧
      ∃ r r', (takeTurn config g w source).1 = .ok r ∧ (takeTurn config g w' source).1 = .ok r' ∧
        SameAnswers h.lodges.link (takeTurn config g w source).2.store r r' := by
  have hsound : w.Sound := ⟨h.lodges.formed, h.lodges.placed, h.stored⟩
  obtain ⟨hsound₁, hext, _⟩ := hsound.takeTurn config g source
  obtain ⟨hbeside, ⟨own, hown, hpublish, hpublish'⟩, hreport⟩ :=
    takeTurn_follows config h.lodges h.stored (fun d hd => h.exports d (himports d hd))
      (honly.fits hext ha horder)
  refine ⟨⟨⟨hbeside.lodges, hsound₁.stored, (h.sound.takeTurn config g source).1.stored,
    fun d hd => ?_⟩, hbeside.only honly⟩, hreport⟩
  rw [hpublish, hpublish']
  refine lookup_publish_map own ?_
  rw [h.exports d hd]
  cases hlookup : w.exports.lookup d with
  | none => rfl
  | some own' =>
      refine congrArg some (List.map_congr_left fun b hb => ?_)
      exact Alias.mapIds_congr (h.stored d own' hlookup b hb)
        fun t ht => (h.lodges.next_of_lt ht).symm

/-- A module outside of `D` that spares the types of `a` is checked in the second session. -/
theorem Shares.outside (h : Shares D f w w') (hnumber : ¬D (g.number source.name))
    (honly : h.lodges.Only a) (ha : w.store.Extends a)
    (hspares : a.Spares w'.store (takeTurn config g w' source).2.store) :
    ∃ h' : Shares D f w (takeTurn config g w' source).2, h'.lodges.Only a := by
  obtain ⟨hsound, hext, _⟩ := h.sound.takeTurn config g source
  have hlodges := h.lodges.spared ha hsound.formed hsound.placed hext hspares
  refine ⟨⟨hlodges, h.stored, hsound.stored, fun d hd => ?_⟩, honly.spared hlodges hext hspares⟩
  have hne : g.number source.name ≠ d := by
    rintro rfl
    exact hnumber hd
  rw [takeTurn_eq]
  simp only
  rw [lookup_publish, if_neg hne, Option.or_none, h.exports d hd]

end turns

end Session

end TypeResolution
