import Mathlib.Order.Lattice.Nat
import Mathlib.Data.Prod.Lex
import TypeResolution.Proofs.Evaluated.Basic
import TypeResolution.Proofs.Store.Walks

/-!
How deep the work in a type is nested. Work is left at conditional and mapped types, at accesses and
at transformed texts, unless the type is finished: evaluated, and with nothing to wait for. Types are
ranked by the nesting of work, and next by what they are made of; what the evaluation of a type asks
for ranks below the type.
-/

namespace TypeResolution

open Store

namespace Node

theorem mem_scopes_of_mem_focus {n : Node} {c : TypeId} (hc : c ∈ n.focus) : ([], c) ∈ n.scopes := by
  cases n with
  | conditional _ | mapped _ | indexAccess _ _ | stringMap _ _ =>
      simp_all [focus, scopes, components]
  | _ => cases hc

theorem mem_components_of_mem_focus {n : Node} {c : TypeId} (hc : c ∈ n.focus) : c ∈ n.components :=
  mem_components_of_mem_scopes (mem_scopes_of_mem_focus hc)

end Node

/-- Evaluated, with nothing to wait for. -/
structure Finished (s : Store) (t : TypeId) : Prop where
  evaluated : Evaluated s t
  without : s.Without AnyName t

theorem kept_finished : Normal.Kept Finished where
  mono h ht := ⟨ht.evaluated.mono h, ht.without.mono h⟩
  known ht := ht.evaluated.closed.known
  fixed hs ht := ⟨.of_fixed hs ht, .fixed hs ht⟩
  component ht hn hc :=
    ⟨kept_evaluated.component ht.evaluated hn hc, (kept_without _).component ht.without hn hc⟩
  made ht hn hform hparts :=
    ⟨kept_evaluated.made ht hn hform fun c hc => (hparts c hc).evaluated,
      (kept_without _).made ht hn hform fun c hc => (hparts c hc).without⟩

namespace Finished

variable {s s' : Store} {t c : TypeId}

theorem closed (h : Finished s t) : s.Closed AnyName t := h.evaluated.closed

theorem mono (h : Finished s t) (hext : s.Extends s') : Finished s' t := kept_finished.mono hext h

theorem back (h : Finished s' t) (hext : s.Extends s') (ht : s.Closed AnyName t) : Finished s t :=
  ⟨h.evaluated.back hext ht, h.without.back hext ht⟩

/-- A conditional waits for a parameter that is free in it, and so does an access. -/
theorem not_waiting (h : Finished s t) {wanted : String → Bool} {names : List String}
    (hc : (names, c) ∈ (s.node t).scopes) (hwanted : ∀ name, wanted name → name ∉ names) :
    s.hasFreeParam wanted c = false := by
  by_contra hfound
  apply h.without.not_free
  obtain ⟨name, hname, -, hfree⟩ := hasFree_iff.mp (hasFree_of_hasFreeParam (by simpa using hfound))
  refine .within hc (hasFree_iff.mpr ⟨name, trivial, ?_, hfree⟩)
  simpa using hwanted name hname

theorem ne_conditional (h : Finished s t) (d : Conditional) : s.node t ≠ .conditional d := by
  intro hn
  obtain ⟨-, -, hwaits⟩ : (Node.conditional d).Rests s := hn ▸ h.evaluated.rests
  have hscopes : ([], d.check) ∈ (s.node t).scopes ∧ (d.infer, d.pattern) ∈ (s.node t).scopes := by
    simp [hn, Node.scopes]
  have hcheck : s.containsParams d.check = false := h.not_waiting hscopes.1 (by simp)
  have hpattern : s.containsParamsExcept d.infer d.pattern = false := h.not_waiting hscopes.2 (by simp)
  simp [hcheck, hpattern] at hwaits

theorem part (h : Finished s t) (hc : c ∈ (s.node t).evaluatedParts) : Finished s c := by
  refine ⟨h.evaluated.part hc, h.without.component ?_⟩
  cases hn : s.node t with
  | conditional d => exact absurd hn (h.ne_conditional d)
  | mapped m =>
      rw [hn] at hc
      rw [List.mem_singleton.mp hc]
      exact List.mem_cons_self
  | param _ | reference _ _ =>
      rw [hn] at hc
      cases hc
  | _ =>
      rw [hn] at hc
      exact List.mem_map_of_mem hc

/-- An evaluated type in which no parameter is found is finished, if the search goes deep enough. -/
theorem of_containsParams (hs : s.Formed) (h : Evaluated s t) (hsearched : s.Searched t)
    (hnone : s.containsParams t = false) : Finished s t := by
  refine ⟨h, h.closed, fun hfree => ?_⟩
  obtain ⟨name, -, -, hfree⟩ := hasFree_iff.mp hfree
  have hfound : s.containsParams t = true := (hsearched.containsParams_iff hs).mpr ⟨name, hfree⟩
  rw [hnone] at hfound
  cases hfound

end Finished

namespace Store

/-- Work is nested at most so deep. -/
inductive Within (s : Store) : ℕ → TypeId → Prop
  | finished {n : ℕ} {t : TypeId} : Finished s t → Within s n t
  | plain {n : ℕ} {t : TypeId} : s.Closed AnyName t → (s.node t).focus = [] →
      (∀ x ∈ (s.node t).scopes, Within s (n + 1) x.2) → Within s (n + 1) t
  | work {n : ℕ} {t : TypeId} : s.Closed AnyName t → (∀ x ∈ (s.node t).scopes, Within s n x.2) →
      Within s (n + 1) t

variable {s s' : Store} {t u c : TypeId} {n m k : ℕ}

namespace Within

theorem closed (h : s.Within n t) : s.Closed AnyName t := by
  cases h with
  | finished h => exact h.closed
  | plain h _ _ => exact h
  | work h _ => exact h

theorem mono (h : s.Within n t) (hext : s.Extends s') : s'.Within n t := by
  induction h with
  | finished h => exact .finished (h.mono hext)
  | plain ht hfocus _ ih =>
      refine .plain (hext.closed ht) ?_ ?_ <;> rw [ht.node_eq hext]
      · exact hfocus
      · exact ih
  | work ht _ ih =>
      refine .work (hext.closed ht) ?_
      rw [ht.node_eq hext]
      exact ih

theorem back (h : s'.Within n t) (hext : s.Extends s') (ht : s.Closed AnyName t) : s.Within n t := by
  have hscope : ∀ {t x}, s.Closed AnyName t → x ∈ (s.node t).scopes → s.Closed AnyName x.2 :=
    fun ht hx => ht.node.components _ (Node.mem_components_of_mem_scopes hx)
  induction h with
  | finished h => exact .finished (h.back hext ht)
  | plain _ hfocus _ ih =>
      rw [ht.node_eq hext] at hfocus ih
      exact .plain ht hfocus fun x hx => ih x hx (hscope ht hx)
  | work _ _ ih =>
      rw [ht.node_eq hext] at ih
      exact .work ht fun x hx => ih x hx (hscope ht hx)

theorem succ (h : s.Within n t) : s.Within (n + 1) t := by
  induction h with
  | finished h => exact .finished h
  | plain ht hfocus _ ih => exact .plain ht hfocus ih
  | work ht _ ih => exact .work ht ih

theorem of_le (h : s.Within n t) (hle : n ≤ m) : s.Within m t := by
  induction hle with
  | refl => exact h
  | step _ ih => exact ih.succ

theorem scopes (h : s.Within (n + 1) t) (hfinished : ¬Finished s t) :
    ∀ x ∈ (s.node t).scopes, s.Within (n + 1) x.2 := by
  cases h with
  | finished h => exact absurd h hfinished
  | plain _ _ h => exact h
  | work _ h => exact fun x hx => (h x hx).succ

/-- Below a node at which there is work, less work is left. -/
theorem inside (h : s.Within (n + 1) t) (hfinished : ¬Finished s t) (hfocus : (s.node t).focus ≠ []) :
    ∀ x ∈ (s.node t).scopes, s.Within n x.2 := by
  cases h with
  | finished h => exact absurd h hfinished
  | plain _ h _ => exact absurd h hfocus
  | work _ h => exact h

end Within

theorem within_zero_iff : s.Within 0 t ↔ Finished s t := by
  constructor
  · intro h
    cases h
    assumption
  · exact .finished

/-- Components have smaller ids. -/
theorem within_index (hs : s.Formed) (ht : s.Closed AnyName t) : s.Within (t.index + 1) t := by
  induction ht with
  | @intro t hknown _ hcomponents ih =>
      have ht : s.Closed AnyName t := hs.closed_of_known hknown
      refine .work ht fun x hx => ?_
      have hx := Node.mem_components_of_mem_scopes hx
      exact (ih x.2 hx).of_le (hs.index_lt_of_component hx)

/-- How deep work is nested. -/
noncomputable def depth (s : Store) (t : TypeId) : ℕ := sInf {n | s.Within n t}

theorem within_depth (hs : s.Formed) (ht : s.Closed AnyName t) : s.Within (s.depth t) t := by
  have hsome : {n | s.Within n t}.Nonempty := ⟨_, within_index hs ht⟩
  exact Nat.sInf_mem hsome

theorem Within.depth_le (h : s.Within n t) : s.depth t ≤ n := Nat.sInf_le h

theorem depth_eq (hext : s.Extends s') (ht : s.Closed AnyName t) : s'.depth t = s.depth t := by
  unfold depth
  congr
  funext n
  exact propext ⟨fun h => h.back hext ht, fun h => h.mono hext⟩

theorem depth_of_finished (h : Finished s t) : s.depth t = 0 :=
  Nat.le_zero.mp (Within.finished h).depth_le

open Classical in
/-- Types at whose nodes there is no work rank above the others of the same depth, and those whose
focus is evaluated below those whose focus is not. -/
noncomputable def rank (s : Store) (t : TypeId) : ℕ ×ₗ ℕ :=
  if (s.node t).focus = [] ∨ Finished s t then toLex (3 * s.depth t + 2, t.index)
  else toLex (3 * s.depth t + if ∀ c ∈ (s.node t).focus, Evaluated s c then 0 else 1,
    ((s.node t).focus.map (·.index)).sum)

open Classical in
theorem rank_eq (hext : s.Extends s') (ht : s.Closed AnyName t) : s'.rank t = s.rank t := by
  have hfinished : Finished s' t ↔ Finished s t := ⟨fun h => h.back hext ht, fun h => h.mono hext⟩
  have hfocus : (∀ c ∈ (s.node t).focus, Evaluated s' c) ↔ ∀ c ∈ (s.node t).focus, Evaluated s c :=
    forall₂_congr fun c hc => ⟨fun h => h.back hext
      (ht.node.components c (Node.mem_components_of_mem_focus hc)), fun h => h.mono hext⟩
  unfold rank
  rw [ht.node_eq hext, depth_eq hext ht]
  exact if_congr (or_congr_right hfinished) rfl (by rw [if_congr hfocus rfl rfl])

theorem rank_of_finished (h : Finished s t) : s.rank t = toLex (2, t.index) := by
  rw [rank, if_pos (.inr h), depth_of_finished h]

theorem rank_of_work (hfinished : ¬Finished s t) (hfocus : (s.node t).focus ≠ []) :
    ∃ i ≤ 1, s.rank t = toLex (3 * s.depth t + i, ((s.node t).focus.map (·.index)).sum) ∧
      (i = 0 ↔ ∀ c ∈ (s.node t).focus, Evaluated s c) := by
  rw [rank, if_neg (by simp [hfocus, hfinished])]
  split
  · exact ⟨0, by omega, rfl, iff_of_true rfl ‹_›⟩
  · exact ⟨1, by omega, rfl, iff_of_false (by omega) ‹_›⟩

theorem exists_rank_eq : ∃ i ≤ 2, ∃ w, s.rank t = toLex (3 * s.depth t + i, w) := by
  by_cases h : (s.node t).focus = [] ∨ Finished s t
  · exact ⟨2, le_rfl, _, if_pos h⟩
  · obtain ⟨hfocus, hfinished⟩ := not_or.mp h
    obtain ⟨i, hi, hrank, -⟩ := rank_of_work hfinished hfocus
    exact ⟨i, by omega, _, hrank⟩

theorem le_rank : toLex (3 * s.depth t, 0) ≤ s.rank t := by
  obtain ⟨i, -, w, hrank⟩ := exists_rank_eq (s := s) (t := t)
  rw [hrank, Prod.Lex.toLex_le_toLex]
  dsimp only
  omega

/-- What has less work ranks below. -/
theorem Within.rank_lt (h : s.Within n t) : s.rank t < toLex (3 * (n + 1), 0) := by
  obtain ⟨i, hi, w, hrank⟩ := exists_rank_eq (s := s) (t := t)
  have hle := h.depth_le
  rw [hrank, Prod.Lex.toLex_lt_toLex]
  dsimp only
  omega

theorem rank_part_lt (hs : s.Formed) (h : Finished s t) (hc : c ∈ (s.node t).evaluatedParts) :
    s.rank c < s.rank t := by
  rw [rank_of_finished h, rank_of_finished (h.part hc), Prod.Lex.toLex_lt_toLex]
  exact .inr ⟨rfl, hs.index_lt_of_component (Node.evaluatedParts_subset hc)⟩

/-- Where there is no work at the node, its parts rank below it. -/
theorem rank_scope_lt (hs : s.Formed) (ht : s.Closed AnyName t) (hfinished : ¬Finished s t)
    (hfocus : (s.node t).focus = []) {x : List String × TypeId} (hx : x ∈ (s.node t).scopes) :
    s.rank x.2 < s.rank t := by
  have hindex : x.2.index < t.index :=
    hs.index_lt_of_component (Node.mem_components_of_mem_scopes hx)
  have hdepth : s.depth x.2 ≤ s.depth t := by
    have hwithin := within_depth hs ht
    generalize s.depth t = n at hwithin
    cases n with
    | zero => exact absurd (within_zero_iff.mp hwithin) hfinished
    | succ n => exact (hwithin.scopes hfinished x hx).depth_le
  have hrank : s.rank t = toLex (3 * s.depth t + 2, t.index) := if_pos (.inl hfocus)
  by_cases hx : (s.node x.2).focus = [] ∨ Finished s x.2
  · rw [hrank, rank, if_pos hx, Prod.Lex.toLex_lt_toLex]
    dsimp only
    omega
  · obtain ⟨hfocus', hfinished'⟩ := not_or.mp hx
    obtain ⟨i, hi, hrank', -⟩ := rank_of_work hfinished' hfocus'
    rw [hrank, hrank', Prod.Lex.toLex_lt_toLex]
    dsimp only
    omega

theorem rank_lt_of_focus (h : s.Within (n + 1) t) (hfocus : (s.node t).focus ≠ [])
    (hevaluated : ∀ c ∈ (s.node t).focus, Evaluated s c) :
    s.rank t < toLex (3 * (n + 1), ((s.node t).focus.map (·.index)).sum + 1) := by
  have hle := h.depth_le
  by_cases hfinished : Finished s t
  · rw [rank_of_finished hfinished, Prod.Lex.toLex_lt_toLex]
    dsimp only
    omega
  · obtain ⟨i, -, hrank, hi⟩ := rank_of_work hfinished hfocus
    obtain rfl := hi.mpr hevaluated
    rw [hrank, Prod.Lex.toLex_lt_toLex]
    dsimp only
    omega

/-- A node with work left ranks above all nodes that have less in focus. -/
theorem focus_le_rank (hfinished : ¬Finished s t) (hfocus : (s.node t).focus ≠ []) {rs : List TypeId}
    (hrs : List.Forall₂ (fun c r => Evaluated s c → r = c) (s.node t).focus rs) :
    toLex (3 * s.depth t, (rs.map (·.index)).sum) ≤ s.rank t := by
  obtain ⟨i, -, hrank, hi⟩ := rank_of_work hfinished hfocus
  rw [hrank, Prod.Lex.toLex_le_toLex]
  cases i with
  | zero =>
      have heq : rs = (s.node t).focus := by
        have hevaluated := hi.mp rfl
        generalize (s.node t).focus = cs at hrs hevaluated
        clear hfocus hi hrank
        induction hrs with
        | nil => rfl
        | cons hr _ ih =>
            rw [hr (hevaluated _ (by simp)), ih fun c hc => hevaluated c (by simp [hc])]
      exact .inr ⟨rfl, by rw [heq]⟩
  | succ i =>
      dsimp only
      omega

/-- The work that is left at a node of depth `k + 1` leads to types of rank below `N`. -/
structure Descends (s : Store) (k : ℕ) (N : ℕ ×ₗ ℕ) (n : Node) : Prop where
  room : toLex (3 * (k + 1), 0) ≤ N
  plain : n.focus = [] → ∀ x ∈ n.scopes, s.Within (k + 1) x.2 ∧ s.rank x.2 < N
  work : n.focus ≠ [] → ∀ x ∈ n.scopes, s.Within k x.2
  focus : n.focus ≠ [] → ∀ rs, List.Forall₂ (fun c r => Evaluated s c → r = c) n.focus rs →
    toLex (3 * (k + 1), (rs.map (·.index)).sum) ≤ N

theorem exists_descends (hs : s.Formed) (ht : s.Closed AnyName t) (hfinished : ¬Finished s t) :
    ∃ k, s.depth t = k + 1 ∧ s.Descends k (s.rank t) (s.node t) := by
  have hwithin := within_depth hs ht
  have hroom := le_rank (s := s) (t := t)
  have hfocus : (s.node t).focus ≠ [] → ∀ rs,
      List.Forall₂ (fun c r => Evaluated s c → r = c) (s.node t).focus rs →
        toLex (3 * s.depth t, (rs.map (·.index)).sum) ≤ s.rank t :=
    fun h _ => focus_le_rank hfinished h
  have hplain := fun h x => rank_scope_lt hs ht hfinished h (x := x)
  generalize s.depth t = d at hwithin hroom hfocus
  cases d with
  | zero => exact absurd (within_zero_iff.mp hwithin) hfinished
  | succ k =>
      exact ⟨k, rfl, hroom, fun h x hx => ⟨hwithin.scopes hfinished x hx, hplain h x hx⟩,
        hwithin.inside hfinished, hfocus⟩

theorem Descends.mono {N : ℕ ×ₗ ℕ} {n : Node} (h : s.Descends k N n) (hext : s.Extends s') :
    s'.Descends k N n where
  room := h.room
  plain hfocus x hx := by
    obtain ⟨hwithin, hrank⟩ := h.plain hfocus x hx
    exact ⟨hwithin.mono hext, (rank_eq hext hwithin.closed).symm ▸ hrank⟩
  work hfocus x hx := (h.work hfocus x hx).mono hext
  focus hfocus rs hrs := h.focus hfocus rs (hrs.imp fun _ _ hr hc => hr (hc.mono hext))

end Store

end TypeResolution
