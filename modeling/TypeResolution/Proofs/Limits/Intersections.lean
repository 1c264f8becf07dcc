import TypeResolution.Proofs.Limits.Nesting
import TypeResolution.Proofs.Tidy.Reachable

/-!
Building an intersection ends. It calls itself for the members that it is distributed into and for
the fields that it merges, which may be types that it has just made. A call calls only for types in
which objects are nested less deep, or else not deeper while the unions and intersections among them
have smaller ids. So the recursion has one result without any bound, and the bounds that the
intersection carries along are no part of it.
-/

namespace TypeResolution

section recursion

variable {ι α : Type} {step : (ι → α) → ι → α} {i : ι}

/-- The recursive program with the body `step` ends at `i` and gives `a`. It ends at all places that
the body asks at, and what would be answered elsewhere is of no matter. -/
inductive Returns (step : (ι → α) → ι → α) : ι → α → Prop
  | intro {i : ι} {a : α} (answers : ι → α) (asked : ι → Prop) :
      (∀ j, asked j → Returns step j (answers j)) →
      (∀ f, (∀ j, asked j → f j = answers j) → step f i = a) → Returns step i a

open Classical in
theorem Returns.unique {a b : α} (ha : Returns step i a) (hb : Returns step i b) : a = b := by
  induction ha generalizing b with
  | intro answers asked _ hbody ih =>
      cases hb with
      | intro answers' asked' hreturns' hbody' =>
          -- a place that both derivations ask at is answered alike
          let both : _ → _ := fun j => if asked j then answers j else answers' j
          have hboth : ∀ j, asked' j → both j = answers' j := by
            intro j hj
            by_cases hasked : asked j
            · exact (if_pos hasked).trans (ih j hasked (hreturns' j hj))
            · exact if_neg hasked
          rw [← hbody both fun j hj => if_pos hj, hbody' both hboth]

theorem Returns.iff_eq {a b : α} (ha : Returns step i a) : Returns step i b ↔ b = a :=
  ⟨fun hb => hb.unique ha, fun h => h ▸ ha⟩

variable {r : ι → ι → Prop} {good : ι → Prop} {f : ι → α}

/-- A program that asks below `i` only, for what `f` gives, gives what `f` gives. -/
theorem Returns.of_wellFounded (hr : WellFounded r) (hgood : ∀ i j, good i → r j i → good j)
    (hstep : ∀ i, good i → ∀ g, (∀ j, r j i → g j = f j) → step g i = f i) (hi : good i) :
    Returns step i (f i) := by
  induction i using hr.induction with
  | _ i ih => exact .intro f (r · i) (fun j hj => ih j hj (hgood i j hi hj)) (hstep i hi)

end recursion

section flatten

variable {s : Store} {parts : Node → Option (List TypeId)}

/-- What is left of a type when it is taken apart once and `leaves` takes its parts apart. -/
def Store.takeApart (s : Store) (parts : Node → Option (List TypeId))
    (leaves : TypeId → List TypeId) (t : TypeId) : List TypeId :=
  match parts (s.node t) with
  | some members => members.flatMap leaves
  | none => [t]

theorem Store.Formed.returns_leaves (hs : s.Formed)
    (hparts : ∀ n members, parts n = some members → members ⊆ n.components) (t : TypeId) :
    Returns (s.takeApart parts) t (s.leaves parts t) := by
  have hwf : WellFounded fun c t : TypeId => c.index < t.index :=
    InvImage.wf TypeId.index Nat.lt_wfRel.wf
  have hstep : ∀ t, True → ∀ leaves : TypeId → List TypeId,
      (∀ c : TypeId, c.index < t.index → leaves c = s.leaves parts c) →
        s.takeApart parts leaves t = s.leaves parts t := by
    intro t _ leaves hleaves
    unfold Store.takeApart Store.leaves Store.leavesAt
    cases hn : parts (s.node t) with
    | none => rfl
    | some members =>
        refine List.flatMap_congr fun m hm => ?_
        have hlt := hs.index_lt (hparts _ _ hn hm)
        rw [hleaves m hlt, hs.leavesAt_eq_leaves hparts hlt]
  exact .of_wellFounded hwf (fun _ _ _ _ => trivial) hstep trivial

end flatten

namespace Normal

section calls

variable {s : Store} {n : Nat} {ts : List TypeId} {site : Option SourceTag}

/-- An intersection nests objects no deeper than its members. -/
theorem nests_intersection (hts : ∀ t ∈ ts, Nests s n t) :
    reports.Hold s (Reporting.intersection site ts) (Reporting.intersection site ts) (Nests · n) := by
  refine reports.formed fun hs => ?_
  have hrank := nests_rank hs fun t ht => (hts t ht).known
  have hpos := rank_pos ts
  have hboth : ∀ t ∈ ts, Nests s (min n (rank ts - 1)) t := fun t ht => (hts t ht).min (hrank t ht)
  exact reports.mono (alike_intersectionIn (by omega) (by omega) hboth) fun _ _ h =>
    h.of_le (Nat.min_le_left _ _)

theorem reports_of_eq {α : Type} {m m' : Reporting α} {Q : Store → α → Prop}
    (h : reports.Hold s m m Q) (heq : s.Formed → ∀ ds, m' ds s = m ds s) : reports.Hold s m m' Q :=
  fun ds hs => ⟨heq hs ds, (h ds hs).2⟩

/-- A call for an intersection. -/
structure Call where
  members : List TypeId
  diagnostics : Array Diagnostic
  store : Store

namespace Call

/-- What the call gives, and the reports and the store after it. -/
def result (site : Option SourceTag) (q : Call) : (TypeId × Array Diagnostic) × Store :=
  Reporting.intersection site q.members q.diagnostics q.store

/-- The body of the recursion. Intersections of fields and those that an intersection is distributed
into are made by `answer`; nothing bounds them. -/
def body (site : Option SourceTag) (answer : Call → (TypeId × Array Diagnostic) × Store) (q : Call) :
    (TypeId × Array Diagnostic) × Store :=
  let meet : List TypeId → Reporting TypeId := fun members ds store =>
    answer ⟨members, ds, store⟩
  meetOnce meet meet site q.members q.diagnostics q.store

/-- The members are in the store. -/
structure Known (q : Call) : Prop where
  formed : q.store.Formed
  members : ∀ t ∈ q.members, t.index < q.store.size

/-- How deep the members nest objects at most, and below which id the unions and intersections among
them are. -/
noncomputable def nesting (q : Call) : Nat × Nat :=
  (sInf {n | ∀ t ∈ q.members, Nests q.store n t}, sInf {n | ∀ t ∈ q.members, Shallow q.store n t})

/-- A call at a later store, for members that nest objects less deep, or not deeper with unions and
intersections below a smaller id. -/
structure Below (q' q : Call) : Prop where
  grows : q.store.Extends q'.store
  known : q'.Known
  nesting : Prod.Lex (· < ·) (· < ·) q'.nesting q.nesting

variable {q q' : Call}

theorem nests (hq : q.Known) : ∀ t ∈ q.members, Nests q.store q.nesting.1 t :=
  Nat.sInf_mem (s := {n | ∀ t ∈ q.members, Nests q.store n t}) ⟨_, nests_rank hq.formed hq.members⟩

theorem shallow (q : Call) : ∀ t ∈ q.members, Shallow q.store q.nesting.2 t :=
  Nat.sInf_mem (s := {n | ∀ t ∈ q.members, Shallow q.store n t}) ⟨_, fun _ ht _ => lt_rank ht⟩

theorem nesting_fst_le (h : ∀ t ∈ q.members, Nests q.store n t) : q.nesting.1 ≤ n :=
  Nat.sInf_le h

theorem nesting_snd_le (h : ∀ t ∈ q.members, Shallow q.store n t) : q.nesting.2 ≤ n :=
  Nat.sInf_le h

theorem wellFounded_below : WellFounded Below :=
  Subrelation.wf (fun h => h.nesting)
    (InvImage.wf nesting (WellFounded.prod_lex Nat.lt_wfRel.wf Nat.lt_wfRel.wf))

/-- Fields that meet nest objects less deep than the objects that they are fields of. -/
theorem below_of_fields (hgrows : q.store.Extends q'.store) (hformed : q'.store.Formed)
    (hn : q.nesting.1 = n + 1) (h : ∀ t ∈ q'.members, Nests q'.store n t) : q'.Below q where
  grows := hgrows
  known := ⟨hformed, fun t ht => (h t ht).known⟩
  nesting := by
    have hobjects := nesting_fst_le h
    rw [Prod.lex_def]
    omega

/-- Members that a union is replaced by have smaller ids and nest objects no deeper. -/
theorem below_of_choice (hgrows : q.store.Extends q'.store) (hformed : q'.store.Formed)
    (hpos : 0 < q.nesting.2 - 1) (h : ∀ t ∈ q'.members,
      Nests q'.store q.nesting.1 t ∧ Shallow q'.store (q.nesting.2 - 1) t) : q'.Below q where
  grows := hgrows
  known := ⟨hformed, fun t ht => (h t ht).1.known⟩
  nesting := by
    have hobjects := nesting_fst_le fun t ht => (h t ht).1
    have hunions := nesting_snd_le fun t ht => (h t ht).2
    rw [Prod.lex_def]
    omega

/-- The body asks for calls below only. -/
theorem body_eq_result (hq : q.Known) {answer : Call → (TypeId × Array Diagnostic) × Store}
    (hanswer : ∀ q', q'.Below q → answer q' = q'.result site) :
    body site answer q = q.result site := by
  let meet : List TypeId → Reporting TypeId := fun members ds store =>
    answer ⟨members, ds, store⟩
  have hfields : ∀ k, q.nesting.1 = k + 1 →
      MeetAlike k q.store (Reporting.intersection site) meet := by
    intro k hk s₁ h₁ us hus
    refine reports_of_eq (nests_intersection hus) fun hs₁ ds => ?_
    exact hanswer ⟨us, ds, s₁⟩ (below_of_fields h₁ hs₁ hk hus)
  have hchoices : 0 < q.nesting.2 - 1 → ∀ s₁, q.store.Extends s₁ → ∀ us,
      (∀ u ∈ us, Nests s₁ q.nesting.1 u ∧ Shallow s₁ (q.nesting.2 - 1) u) →
        reports.Hold s₁ (Reporting.intersection site us) (meet us) (Nests · q.nesting.1) := by
    intro hpos s₁ h₁ us hus
    refine reports_of_eq (nests_intersection fun u hu => (hus u hu).1) fun hs₁ ds => ?_
    exact hanswer ⟨us, ds, s₁⟩ (below_of_choice h₁ hs₁ hpos hus)
  have hbody : reports.Hold q.store
      (meetOnce (Reporting.intersection site) (Reporting.intersection site) site q.members)
      (meetOnce meet meet site q.members) (Nests · q.nesting.1) :=
    alike_meetOnce hfields hchoices (nests hq) fun t ht => (q.shallow t ht).of_le (by omega)
  exact (hbody q.diagnostics hq.formed).1.trans
    (alike_intersection hq.members q.diagnostics hq.formed).1

theorem Known.of_below (hq : q.Known) (h : Relation.ReflTransGen Below q' q) : q'.Known := by
  rcases h.cases_head with rfl | ⟨_, hbelow, _⟩
  · exact hq
  · exact hbelow.known

theorem returns_iff (hq : q.Known) {r : (TypeId × Array Diagnostic) × Store} :
    Returns (body site) q r ↔ r = q.result site := by
  have hreturns : Returns (body site) q (q.result site) :=
    .of_wellFounded wellFounded_below (fun _ _ _ h => h.known) (fun _ hq _ => body_eq_result hq) hq
  exact hreturns.iff_eq

end Call

end calls

end Normal

variable {s : Store} {members : List TypeId}

/-- For all types of a store that can arise, the recursion that no bound guards ends in one way, and
that is their intersection. What it gives at a call follows from what it gives at calls below, and no
chain of calls goes down for ever. In all stores on the way, unions and intersections are taken apart
to the end. -/
theorem Reporting.intersection_ends (hs : s.Reachable) (hmembers : s.Knows members)
    (site : Option SourceTag) (ds : Array Diagnostic) :
    (∀ r, Returns (Normal.Call.body site) ⟨members, ds, s⟩ r ↔
      r = Reporting.intersection site members ds s) ∧
    Acc Normal.Call.Below ⟨members, ds, s⟩ ∧
    (∀ q, Relation.ReflTransGen Normal.Call.Below q ⟨members, ds, s⟩ → ∀ answer,
      (∀ q', q'.Below q → answer q' = q'.result site) →
        Normal.Call.body site answer q = q.result site) ∧
    ∀ s', s.Extends s' → s'.Formed → ∀ t leaves,
      (Returns (s'.takeApart Node.intersectionMembers?) t leaves ↔
        leaves = s'.intersectionLeaves t) ∧
      (Returns (s'.takeApart Node.unionMembers?) t leaves ↔ leaves = s'.unionLeaves t) := by
  have hformed := (Store.formed_and_tidy_of_reachable hs).1
  have hq : (Normal.Call.mk members ds s).Known := ⟨hformed, fun t ht => hmembers t ⟨t, ht, rfl⟩⟩
  refine ⟨fun r => Normal.Call.returns_iff hq, Normal.Call.wellFounded_below.apply _,
    fun q hbelow answer hanswer => ?_, fun s' _ hs' t leaves => ?_⟩
  · exact Normal.Call.body_eq_result (hq.of_below hbelow) hanswer
  · exact ⟨(hs'.returns_leaves Node.intersectionMembers?_subset t).iff_eq,
      (hs'.returns_leaves Node.unionMembers?_subset t).iff_eq⟩

/-- `({ a: { p: string } } | string) & { a: { q: number } } & { a: { r: boolean } }` is distributed,
and in one of its parts the field `a` has a type that is made on the way. -/
theorem Reporting.intersection_ends_distributed :
    let raw := (TypeExpr.lower (.intersection [
      .union [.object [.of "a" (.object [.of "p" .string])], .string],
      .object [.of "a" (.object [.of "q" .number])],
      .object [.of "a" (.object [.of "r" .boolean])]]) [] 0 Store.empty).2
    let members : List TypeId := [⟨14⟩, ⟨16⟩, ⟨18⟩]
    let result := Reporting.intersection none members #[] raw
    raw.Reachable ∧ raw.Knows members ∧ result.1.1 = ⟨26⟩ ∧
      Returns (Normal.Call.body none) ⟨members, #[], raw⟩ result ∧
      Acc Normal.Call.Below ⟨members, #[], raw⟩ := by
  intro raw members result
  have hreach : raw.Reachable := by
    refine ⟨.byAge, .single (.lower _ 0 ?_)⟩
    rintro t ⟨b, hb, _⟩
    cases hb
  have hsize : raw.size = 20 := by
    subst raw
    cbv
  have htype : result.1.1 = ⟨26⟩ := by
    subst result members raw
    cbv
  clear_value raw
  have hknows : raw.Knows members := by
    rintro t ⟨u, hu, rfl⟩
    rw [hsize]
    revert u
    decide
  have hends := Reporting.intersection_ends hreach hknows none #[]
  exact ⟨hreach, hknows, htype, (hends.1 result).mpr rfl, hends.2.1⟩

end TypeResolution
