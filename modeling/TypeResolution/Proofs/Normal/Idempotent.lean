import TypeResolution.Proofs.Normal.Kept

/-!
Normalizing is idempotent. The normal form of a type that does not nest too deep is settled, and
normalizing a settled type gives it back, reports nothing and leaves the store alone, whatever the
depth at which it is met.
-/

namespace TypeResolution

open Store TypeResolution.Normal

/-- Normal down to its smallest components. -/
inductive Settled (s : Store) : TypeId → Prop
  | intro {t : TypeId} : t.index < s.size → (s.node t).InForm s →
      ((s.node t).isStructural → ∀ c ∈ (s.node t).components, Settled s c) → Settled s t

namespace Settled

variable {s s' : Store} {t c : TypeId}

theorem known (h : Settled s t) : t.index < s.size := by
  cases h
  assumption

theorem inForm (h : Settled s t) : (s.node t).InForm s := by
  cases h
  assumption

theorem component (h : Settled s t) (hn : (s.node t).isStructural)
    (hc : c ∈ (s.node t).components) : Settled s c := by
  cases h with
  | intro _ _ hparts => exact hparts hn c hc

theorem mono (h : Settled s t) (hs : s.Extends s') : Settled s' t := by
  induction h with
  | @intro t hlt hform hparts ih =>
      have hnode := hs.node_eq t hlt
      refine .intro (Nat.lt_of_lt_of_le hlt hs.size_le) ?_ ?_
      · rw [hnode]
        exact hform.congr hs.numbers_eq fun hn c hc => hs.node_eq c (hparts hn c hc).known
      · rw [hnode]
        exact ih

theorem of_leaf (ht : t.index < s.size) (hn : (s.node t).isStructural = false) : Settled s t := by
  refine .intro ht ?_ fun h => absurd h (by simp [hn])
  cases hnode : s.node t with
  | union _ | intersection _ => simp [hnode, Node.isStructural] at hn
  | _ => trivial

theorem of_fixed (hs : s.Formed) (ht : t.isFixed) : Settled s t := by
  refine of_leaf (hs.known_of_isFixed ht) ?_
  have hleaf : ∀ n ∈ Node.fixed, n.isStructural = false := by decide
  obtain ⟨i⟩ := t
  have hi : i < TypeId.fixedCount := by simpa [TypeId.isFixed] using ht
  rw [hs.node_fixed hi]
  cases hn : Node.fixed[i]? with
  | none => rfl
  | some n => exact hleaf n (List.mem_of_getElem? hn)

end Settled

theorem kept_settled : Kept Settled where
  mono h ht := ht.mono h
  known ht := ht.known
  fixed hs ht := .of_fixed hs ht
  component ht hn hc := ht.component hn hc
  made ht _ hform hc := .intro ht hform fun _ => hc

/-- Nests unions, intersections, objects, functions and arrays at most `n` deep. -/
inductive NestedWithin (s : Store) : Nat → TypeId → Prop
  | leaf {n : Nat} {t : TypeId} : t.index < s.size → (s.node t).isStructural = false →
      NestedWithin s n t
  | node {n : Nat} {t : TypeId} : t.index < s.size → (s.node t).isStructural →
      (∀ c ∈ (s.node t).components, NestedWithin s n c) → NestedWithin s (n + 1) t

namespace NestedWithin

variable {s s' : Store} {n m : Nat} {t c : TypeId}

theorem known (h : NestedWithin s n t) : t.index < s.size := by
  cases h <;> assumption

theorem mono (h : NestedWithin s n t) (hs : s.Extends s') : NestedWithin s' n t := by
  induction h with
  | leaf hlt hn => exact .leaf (Nat.lt_of_lt_of_le hlt hs.size_le) (by rw [hs.node_eq _ hlt]; exact hn)
  | node hlt hn _ ih =>
      have hnode := hs.node_eq _ hlt
      refine .node (Nat.lt_of_lt_of_le hlt hs.size_le) ?_ ?_
      · rw [hnode]
        exact hn
      · rw [hnode]
        exact ih

theorem of_le (h : NestedWithin s n t) (hle : n ≤ m) : NestedWithin s m t := by
  induction h generalizing m with
  | leaf hlt hn => exact .leaf hlt hn
  | node hlt hn _ ih =>
      obtain ⟨k, rfl⟩ : ∃ k, m = k + 1 := ⟨m - 1, by omega⟩
      exact .node hlt hn fun c hc => ih c hc (by omega)

theorem component (h : NestedWithin s (n + 1) t) (hn : (s.node t).isStructural)
    (hc : c ∈ (s.node t).components) : NestedWithin s n c := by
  cases h with
  | leaf _ hleaf => simp [hleaf] at hn
  | node _ _ hparts => exact hparts c hc

theorem settled (h : NestedWithin s 0 t) : Settled s t := by
  cases h with
  | leaf hlt hn => exact .of_leaf hlt hn

end NestedWithin

section rewriting

variable {s : Store} {t : TypeId}

/-- Rebuilding from normal components gives a normal type, if those at which rebuilding stops are. -/
theorem rewriting_settled_of {P : Nat → Store → TypeId → Prop}
    (hmono : ∀ {n s s' t}, s.Extends s' → P n s t → P n s' t)
    (hknown : ∀ {n s t}, P n s t → t.index < s.size)
    (hcomponent : ∀ {n s t c}, P (n + 1) s t → (s.node t).isStructural →
      c ∈ (s.node t).components → P n s c)
    (hstop : ∀ {s t}, P 0 s t → Settled s t) : Rewriting P (fun s _ r => Settled s r) where
  mono := hmono
  known := hknown
  component := hcomponent
  keeps h hr := hr.mono h
  stop := hstop
  leaf ht hn := .of_leaf (hknown ht) hn
  again hr := hr
  union _ _ hrs := kept_settled.union (forall_right_of_forall₂ hrs fun _ _ h => h)
  intersection _ _ hrs := kept_settled.intersection (forall_right_of_forall₂ hrs fun _ _ h => h)
  object {_ s t o gs index} ht hn hgs hi := by
    refine kept_settled.rebuildObject (hknown ht) hn fun c hc => ?_
    simp only [Node.components, List.mem_append, List.mem_map, Option.mem_toList] at hc
    rcases hc with ⟨g, hg, rfl⟩ | hc
    · refine forall_right_of_forall₂ hgs (q := fun g => Settled s g.type) ?_ g hg
      rintro f _ ⟨r, rfl, hr⟩
      exact hr
    · generalize o.stringIndex = old at hi
      cases hi with
      | none => cases hc
      | some hr =>
          cases hc
          exact hr
  function _ _ hps hr := by
    refine kept_settled.intern rfl (by simp) (fun c hc => ?_) fun _ _ _ => trivial
    rcases List.mem_append.mp hc with hc | hc
    · exact forall_right_of_forall₂ hps (fun _ _ h => h) c hc
    · rw [List.mem_singleton.mp hc]
      exact hr
  array _ _ hr := by
    refine kept_settled.intern rfl (by simp) (fun c hc => ?_) fun _ _ _ => trivial
    rw [List.mem_singleton.mp hc]
    exact hr

theorem rewriting_settled :
    Rewriting (fun n s t => NestedWithin s n t) (fun s _ r => Settled s r) :=
  rewriting_settled_of (fun h ht => ht.mono h) (fun ht => ht.known)
    (fun ht hn hc => ht.component hn hc) fun ht => ht.settled

end rewriting

namespace Reporting

variable {α : Type} (ds : Array Diagnostic) (s : Store)

theorem run_store (f : Store → Reporting α) : (getThe Store >>= f) ds s = f s ds s := rfl

theorem run_lift (m : Build α) :
    (liftM m : Reporting α) ds s = (((m s).1, ds), (m s).2) := rfl

end Reporting

section again

variable {s : Store} {t : TypeId} {ms : List TypeId} (hs : s.Formed) (ht : t.index < s.size)

include hs ht

omit hs ht in
theorem Normal.JoinForm.absorbLiterals_eq (h : JoinForm s ms) : s.absorbLiterals ms = ms := by
  have hboth : (ms.contains .trueLiteral && ms.contains .falseLiteral) = false := by
    simpa using h.not_both
  unfold absorbLiterals
  simp only [hboth, Bool.false_eq_true, if_false]
  refine List.filter_eq_self.mpr fun m hm => ?_
  cases hn : s.node m with
  | literal v => simpa using h.absorbed m hm v hn
  | _ => rfl

theorem union_again (hn : s.node t = .union ms) (hmany : 1 < ms.length)
    (hsorted : s.InOrder ms) (hform : JoinForm s ms) : Build.union ms s = (t, s) := by
  have hflat : TypeId.sortUnique s.numbers (ms.flatMap s.unionLeaves) = ms := by
    have hleaves : ms.flatMap s.unionLeaves = ms := flatMap_leaves_of_flat hform.flat
    rw [hleaves, TypeId.sortUnique_of_sorted hsorted]
  have hnever : ms.filter (· ≠ .never) = ms :=
    List.filter_eq_self.mpr fun m hm => by simpa using (hform.plain m hm).2.2.2
  have herror : ms.contains .error = false := by
    simpa using fun h => (hform.plain _ h).1 rfl
  have hany : ms.contains .any = false := by
    simpa using fun h => (hform.plain _ h).2.1 rfl
  have hunknown : ms.contains .unknown = false := by
    simpa using fun h => (hform.plain _ h).2.2.1 rfl
  have hintern := hs.intern_node ht hn
  have hmembers := hform.absorbLiterals_eq
  unfold Build.union
  simp only [bind, StateT.bind, get, getThe, MonadStateOf.get, StateT.get, pure, hflat, herror, hany,
    hunknown, hnever, hmembers, Bool.false_eq_true, if_false]
  obtain ⟨m, u, rest, rfl⟩ := exists_cons_cons hmany
  exact hintern

omit hs ht in
theorem Normal.MeetForm.absorbMeet_eq (h : MeetForm s ms) (hmany : 1 < ms.length) :
    absorbMeet ms = .inr ms := by
  have herror : ms.contains .error = false := by
    simpa using fun hm => (h.plain _ hm).1 rfl
  have hnever : ms.contains .never = false := by
    simpa using fun hm => (h.plain _ hm).2.1 rfl
  have hany : ms.contains .any = false := by
    simpa using fun hm => (h.plain _ hm).2.2.1 rfl
  have hunknown : ms.filter (· ≠ .unknown) = ms :=
    List.filter_eq_self.mpr fun m hm => by simpa using (h.plain m hm).2.2.2
  unfold absorbMeet
  simp only [herror, hnever, hany, hunknown, Bool.false_eq_true, if_false]
  obtain ⟨m, u, rest, rfl⟩ := exists_cons_cons hmany
  rfl

theorem intersection_again (hn : s.node t = .intersection ms) (hmany : 1 < ms.length)
    (hsorted : s.InOrder ms) (hform : MeetForm s ms) (site : Option SourceTag)
    (ds : Array Diagnostic) : Reporting.intersection site ms ds s = ((t, ds), s) := by
  obtain ⟨levels, hlevels⟩ := Nat.exists_eq_succ_of_ne_zero (Nat.pos_iff_ne_zero.mp (rank_pos ms))
  have hraw : Build.rawIntersection ms s = (t, s) := by
    have hintern := hs.intern_node ht hn
    change Build.ofMembers _ _ (TypeId.sortUnique s.numbers ms) s = _
    rw [TypeId.sortUnique_of_sorted hsorted]
    obtain ⟨m, u, rest, rfl⟩ := exists_cons_cons hmany
    exact hintern
  have hparts : meetParts (intersectionIn site levels) site ms ds s = ((t, ds), s) := by
    have hreduce := hform.irreducible.reducePrimitives_eq (TypeId.nodup_of_sorted hsorted)
    have hobjects : ¬1 < (ms.filter s.isObject).length := by
      have hle := length_filterMap_le_one (f := Option.guard s.isObject)
        (TypeId.nodup_of_sorted hsorted) fun m hm u hu hmo huo =>
          hform.one_object m hm u hu (by simpa using hmo) (by simpa using huo)
      rw [List.filterMap_eq_filter] at hle
      omega
    unfold meetParts
    rw [Reporting.run_store]
    simp only [hreduce, if_neg hobjects, pure_bind, Reporting.run_lift, hraw]
  have hflat : TypeId.sortUnique s.numbers (ms.flatMap s.intersectionLeaves) = ms := by
    have hleaves : ms.flatMap s.intersectionLeaves = ms := flatMap_leaves_of_flat hform.flat
    rw [hleaves, TypeId.sortUnique_of_sorted hsorted]
  have hcrowded := hform.crowded
  unfold Normal.crowded at hcrowded
  rw [Reporting.intersection, hlevels, intersectionIn, hlevels, intersectionAt, Reporting.run_store]
  simp only [hflat, hform.absorbMeet_eq hmany, hcrowded, if_true, hparts]

end again

section idle

/-- Every remembered result is the type itself. -/
abbrev RemembersSame (s : Store) : Std.HashMap TypeId TypeId → Prop :=
  Remembers (fun _ t r => r = t) s

/-- Gives `a` and changes nothing but what is remembered. -/
def Idle {α : Type} (s : Store) (m : Normalizing α) (a : α) : Prop :=
  ∀ cache ds, RemembersSame s cache →
    ∃ cache', RemembersSame s cache' ∧ m cache ds s = (((a, cache'), ds), s)

namespace Idle

variable {s : Store} {α β : Type} {a : α} {b : β}

theorem pure : Idle s (pure a) a :=
  fun cache _ hc => ⟨cache, hc, rfl⟩

theorem bind {m : Normalizing α} {f : α → Normalizing β} (hm : Idle s m a) (hf : Idle s (f a) b) :
    Idle s (m >>= f) b := by
  intro cache ds hc
  obtain ⟨cache₁, hc₁, hm⟩ := hm cache ds hc
  obtain ⟨cache₂, hc₂, hf⟩ := hf cache₁ ds hc₁
  refine ⟨cache₂, hc₂, ?_⟩
  change f (m cache ds s).1.1.1 (m cache ds s).1.1.2 (m cache ds s).1.2 (m cache ds s).2 = _
  rw [hm]
  exact hf

theorem get {f : Std.HashMap TypeId TypeId → Normalizing α}
    (h : ∀ cache, RemembersSame s cache → Idle s (f cache) a) : Idle s (get >>= f) a :=
  fun cache ds hc => h cache hc cache ds hc

theorem remembered {cache : Std.HashMap TypeId TypeId} {t r : TypeId} (hc : RemembersSame s cache)
    (hk : cache[t]? = some r) : Idle s (Pure.pure r) t := by
  rw [hc t r hk]
  exact pure

theorem lift {m : Reporting α} (hm : ∀ ds, m ds s = ((a, ds), s)) : Idle s (liftM m) a := by
  intro cache ds hc
  refine ⟨cache, hc, ?_⟩
  change ((((m ds s).1.1, cache), (m ds s).1.2), (m ds s).2) = _
  rw [hm]

theorem build {m : Build α} (hm : m s = (a, s)) : Idle s (liftM (liftM m : Reporting α)) a :=
  lift fun ds => by rw [Reporting.run_lift, hm]

theorem mapM {l : List α} {f : α → Normalizing α} (h : ∀ a ∈ l, Idle s (f a) a) :
    Idle s (l.mapM f) l := by
  induction l with
  | nil => exact pure
  | cons a rest ih =>
      rw [List.mapM_cons]
      exact bind (h a (by simp)) (bind (ih fun c hc => h c (by simp [hc])) pure)

theorem optionMapM {o : Option α} {f : α → Normalizing α} (h : ∀ a, o = some a → Idle s (f a) a) :
    Idle s (o.mapM f) o := by
  cases o with
  | none => exact pure
  | some a => exact bind (f := fun r => Pure.pure (some r)) (h a rfl) pure

end Idle

variable {s : Store} {t : TypeId} (site : Option SourceTag)

theorem idle_normalizeNode {inner : Option SourceTag → TypeId → Normalizing TypeId} (hs : s.Formed)
    (hinner : ∀ site c, Settled s c → Idle s (inner site c) c) (ht : Settled s t) :
    Idle s (normalizeNode inner site t (s.node t)) t := by
  have hform := ht.inForm
  have hparts : (s.node t).isStructural → ∀ site, ∀ c ∈ (s.node t).components,
      Idle s (inner site c) c := fun hn site c hc => hinner site c (ht.component hn hc)
  cases hn : s.node t with
  | union ms =>
      rw [hn] at hform hparts
      obtain ⟨hmany, hsorted, hjoin⟩ := hform
      exact .bind (.mapM (hparts rfl site)) (.build (union_again hs ht.known hn hmany hsorted hjoin))
  | intersection ms =>
      rw [hn] at hform hparts
      obtain ⟨hmany, hsorted, hmeet⟩ := hform
      refine .bind (.build rfl) (.bind (.mapM (hparts rfl _)) (.lift fun ds => ?_))
      exact intersection_again hs ht.known hn hmany hsorted hmeet _ ds
  | object o =>
      rw [hn] at hparts
      have hfields : Idle s (o.fields.mapM fun f => return { f with type := ← inner site f.type })
          o.fields := by
        refine .mapM fun f hf => .bind (hparts rfl site f.type ?_) .pure
        exact List.mem_append_left _ (List.mem_map_of_mem hf)
      have hindex : Idle s (o.stringIndex.mapM (inner site)) o.stringIndex :=
        .optionMapM fun c hc => hparts rfl site c (List.mem_append_right _ (by simp [hc]))
      refine .bind hfields (.bind hindex (.build ?_))
      rw [rebuildObject, if_pos rfl]
      rfl
  | function f =>
      rw [hn] at hparts
      have hparams := Idle.mapM fun c hc => hparts rfl site c (List.mem_append_left _ hc)
      have hresult := hparts rfl site f.result (List.mem_append_right _ (by simp))
      exact .bind hparams (.bind hresult (.build (hs.intern_node ht.known hn)))
  | array c =>
      rw [hn] at hparts
      exact .bind (hparts rfl site c (by simp [Node.components]))
        (.build (hs.intern_node ht.known hn))
  | _ => exact .pure

theorem idle_remember : Idle s (remember t t) () := by
  refine fun cache ds hc => ⟨_, fun u r hr => ?_, rfl⟩
  simp only [Std.HashMap.getElem?_insert, beq_iff_eq] at hr
  split at hr
  · rename_i htu
    cases hr
    exact htu
  · exact hc u r hr

theorem idle_normalizeAt (hs : s.Formed) (depth : Nat) (ht : Settled s t) :
    Idle s (normalizeAt depth site t) t := by
  induction depth generalizing t site with
  | zero =>
      unfold normalizeAt
      split
      · exact .pure
      refine .get fun cache hc => ?_
      cases hk : cache[t]? with
      | some r => exact .remembered hc hk
      | none => exact .pure
  | succ depth ih =>
      unfold normalizeAt
      split
      · exact .pure
      refine .get fun cache hc => ?_
      cases hk : cache[t]? with
      | some r => exact .remembered hc hk
      | none =>
          have hnode := idle_normalizeNode site hs (fun site c hc => ih site hc) ht
          exact .bind (.build rfl) (.bind hnode (.bind idle_remember .pure))

end idle

/-- Normalizing a type that is settled gives it back, reports nothing and leaves the store alone. -/
theorem normalize_of_settled {s : Store} {t : TypeId} (hs : s.Formed) (ht : Settled s t)
    (site : Option SourceTag) (ds : Array Diagnostic) :
    Reporting.normalize site t ds s = ((t, ds), s) := by
  have hnone : RemembersSame s (∅ : Std.HashMap TypeId TypeId) := by simp [Remembers]
  obtain ⟨cache, -, hagain⟩ := idle_normalizeAt site hs Normal.maxDepth ht ∅ ds hnone
  change (((normalizeAt Normal.maxDepth site t ∅ ds s).1.1.1,
    (normalizeAt Normal.maxDepth site t ∅ ds s).1.2),
    (normalizeAt Normal.maxDepth site t ∅ ds s).2) = _
  rw [hagain]

/-- Normalizing a normal form gives it back and reports nothing, in the store that the first run
left or any later one. -/
theorem normalize_idempotent {s s' : Store} {t : TypeId} {n : Nat} (hs : s.Formed)
    (ht : NestedWithin s n t) (hn : n ≤ Normal.maxDepth) (site site' : Option SourceTag)
    (ds ds' : Array Diagnostic) (h : (Reporting.normalize site t ds s).2.Extends s')
    (hs' : s'.Formed) :
    Reporting.normalize site' (Reporting.normalize site t ds s).1.1 ds' s' =
      (((Reporting.normalize site t ds s).1.1, ds'), s') := by
  have hrun := rewriting_settled.normalize site (ht.of_le hn) ds hs
  have hnone : RemembersSame s' (∅ : Std.HashMap TypeId TypeId) := by simp [Remembers]
  obtain ⟨cache, -, hagain⟩ :=
    idle_normalizeAt site' hs' Normal.maxDepth (hrun.2.2.mono h) ∅ ds' hnone
  generalize (Reporting.normalize site t ds s).1.1 = r at hagain
  change (((normalizeAt Normal.maxDepth site' r ∅ ds' s').1.1.1,
    (normalizeAt Normal.maxDepth site' r ∅ ds' s').1.2),
    (normalizeAt Normal.maxDepth site' r ∅ ds' s').2) = _
  rw [hagain]

/-- The union of `string`, `true` and `false` becomes that of `boolean` and `string`, and stays. -/
theorem normalize_idempotent_folded :
    let made := Store.empty.intern (.union [.string, .trueLiteral, .falseLiteral])
    let run := Reporting.normalize none made.1 #[] made.2
    NestedWithin made.2 1 made.1 ∧ Reporting.normalize none run.1.1 run.1.2 run.2 = run := by
  intro made run
  have hmade : made.2.Formed := formed_empty.intern (by decide)
  obtain ⟨hknown, hid⟩ :=
    formed_empty.node_intern (n := .union [.string, .trueLiteral, .falseLiteral])
  have hnode : made.2.node made.1 = .union [.string, .trueLiteral, .falseLiteral] :=
    Node.eq_of_identity_eq hid (by simp)
  have hstring : made.2.node .string = .intrinsic .string := hmade.node_intrinsic .string
  have htrue : made.2.node .trueLiteral = .literal (.boolean true) :=
    hmade.node_fixed (i := 10) (by decide)
  have hfalse : made.2.node .falseLiteral = .literal (.boolean false) :=
    hmade.node_fixed (i := 11) (by decide)
  have hnested : NestedWithin made.2 1 made.1 := by
    refine .node hknown (by rw [hnode]; rfl) fun c hc => .leaf ?_ ?_
    · exact Nat.lt_trans (hmade.descends made.1 hknown c hc) hknown
    · rw [hnode] at hc
      simp only [Node.components, List.mem_cons, List.not_mem_nil, or_false] at hc
      rcases hc with rfl | rfl | rfl
      · rw [hstring]
        rfl
      · rw [htrue]
        rfl
      · rw [hfalse]
        rfl
  have hformed : run.2.Formed :=
    (rewriting_settled.normalize none (hnested.of_le (by decide)) #[] hmade).2.1
  exact ⟨hnested,
    normalize_idempotent hmade hnested (by decide) none none #[] run.1.2 (.refl _) hformed⟩

end TypeResolution
