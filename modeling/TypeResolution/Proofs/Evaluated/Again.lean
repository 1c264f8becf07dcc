import TypeResolution.Proofs.Evaluated.Rules
import TypeResolution.Proofs.Evaluation.Templates

/-!
Evaluated types stay as they are, whatever the aliases are: a run finds nothing to do at their nodes
and makes no type.
-/

namespace TypeResolution

open Store Limits

namespace Eval

variable {P : Evaluator → Prop} {s : Store} {α β : Type} {t : TypeId} {ts : List TypeId}
  {e : Evaluator} {setting : Setting} {inner : TypeId → Eval TypeId}

/-- From evaluators with `P`, the run gives `a` if it is not cancelled, and leaves the store as it
is. -/
def Finds (P : Evaluator → Prop) (s : Store) (m : Eval α) (a : α) : Prop :=
  ∀ e, P e → ∀ b e' s', m e s = ((.ok b, e'), s') → b = a ∧ s' = s ∧ P e' ∧ Passes e e'

section steps

theorem finds_pure (a : α) : Finds P s (pure a) a := by
  rintro e he _ _ _ ⟨⟩
  exact ⟨rfl, rfl, he, .refl e⟩

theorem finds_bind {m : Eval α} {f : α → Eval β} {a : α} {b : β} (hm : Finds P s m a)
    (hf : Finds P s (f a) b) : Finds P s (m >>= f) b := by
  intro e he c e' s' hrun
  rcases hr : m e s with ⟨⟨r, e₁⟩, s₁⟩
  rw [Replay.bind_run hr] at hrun
  cases r with
  | error => cases hrun
  | ok a' =>
      obtain ⟨rfl, rfl, he₁, hpasses⟩ := hm e he a' e₁ s₁ hr
      obtain ⟨rfl, rfl, he', hpasses'⟩ := hf e₁ he₁ c e' s' hrun
      exact ⟨rfl, rfl, he', hpasses.trans hpasses'⟩

theorem finds_store {f : Store → Eval β} {b : β} (h : Finds P s (f s) b) :
    Finds P s ((getThe Store : Eval Store) >>= f) b := h

theorem finds_node {f : Node → Eval β} {b : β} (h : Finds P s (f (s.node t)) b) :
    Finds P s ((liftM (Build.node t) : Eval Node) >>= f) b := h

theorem finds_origin {f : Option SourceTag → Eval β} {b : β}
    (h : Finds P s (f (s.origin? (.type t))) b) : Finds P s (Eval.origin? t >>= f) b := h

theorem finds_lift {m : Build α} {a : α} (h : m s = (a, s)) : Finds P s (liftM m : Eval α) a := by
  intro e he b e' s' hrun
  have hrun' : (liftM m : Eval α) e s = ((.ok (m s).1, e), (m s).2) := rfl
  rw [hrun', h] at hrun
  cases hrun
  exact ⟨rfl, rfl, he, .refl e⟩

theorem finds_mapM {f : α → Eval β} {g : α → β} {l : List α} (h : ∀ a ∈ l, Finds P s (f a) (g a)) :
    Finds P s (l.mapM f) (l.map g) := by
  induction l with
  | nil => exact finds_pure []
  | cons a rest ih =>
      obtain ⟨ha, hrest⟩ := List.forall_mem_cons.mp h
      rw [List.mapM_cons]
      exact finds_bind ha (finds_bind (ih hrest) (finds_pure _))

theorem finds_members (h : ∀ t ∈ ts, Finds P s (inner t) t) : Finds P s (ts.mapM inner) ts := by
  simpa using finds_mapM (g := id) h

end steps

section nodes

variable (hproductive : ∀ e n, P e → P { e with productive := n })

include hproductive in
theorem finds_productively {m : Eval α} {a : α} (h : Finds P s m a) :
    Finds P s (productively m) a := by
  intro e he b e' s' hrun
  rcases hr : m { e with productive := e.productive + 1 } s with ⟨⟨r, e₁⟩, s₁⟩
  cases (productively_run hr).symm.trans hrun
  obtain ⟨rfl, rfl, he₁, hpasses⟩ := h _ (hproductive _ _ he) _ _ _ hr
  exact ⟨rfl, rfl, hproductive _ _ he₁, hpasses.active, hpasses.exceeded,
    hpasses.silent, hpasses.limits⟩

variable (hs : s.Formed) (ht : Evaluated s t)
  (hinner : ∀ c ∈ (s.node t).evaluatedParts, Finds P s (inner c) c)

include hs ht

theorem finds_intern {n : Node} (hn : s.node t = n) : Finds P s (liftM (Build.intern n) : Eval TypeId) t :=
  finds_lift (hs.intern_node ht.closed.known hn)

include hinner

omit hs ht in
theorem finds_part {n : Node} (hn : s.node t = n) {c : TypeId} (hc : c ∈ n.evaluatedParts) :
    Finds P s (inner c) c :=
  hinner c (hn ▸ hc)

omit hs ht in
theorem finds_object {shape : ObjectShape} (hn : s.node t = .object shape) :
    Finds P s (Eval.object inner t shape) t := by
  have hpart : ∀ c ∈ (Node.object shape).components, Finds P s (inner c) c := fun c hc =>
    finds_part hinner hn hc
  have hfields : Finds P s (shape.fields.mapM fun f => return { f with type := ← inner f.type })
      (shape.fields.map id) := by
    refine finds_mapM fun f hf => finds_bind (hpart f.type ?_) (finds_pure f)
    exact List.mem_append_left _ (List.mem_map_of_mem hf)
  have hindex : Finds P s (shape.stringIndex.mapM inner) shape.stringIndex := by
    cases h : shape.stringIndex with
    | none => exact finds_pure none
    | some u => exact finds_bind (hpart u (by simp [Node.components, h])) (finds_pure (some u))
  rw [List.map_id] at hfields
  refine finds_bind hfields (finds_bind hindex (finds_lift ?_))
  unfold Normal.rebuildObject
  rw [if_pos rfl]
  rfl

theorem finds_function {shape : FunctionShape} (hn : s.node t = .function shape) :
    Finds P s (Eval.function inner shape) t := by
  have hpart : ∀ c ∈ (Node.function shape).components, Finds P s (inner c) c := fun c hc =>
    finds_part hinner hn hc
  simp only [Node.components, List.mem_append, List.mem_singleton] at hpart
  exact finds_bind (finds_members fun c hc => hpart c (.inl hc))
    (finds_bind (hpart _ (.inr rfl)) (finds_intern hs ht hn))

theorem finds_conditional {c : Conditional} (hn : s.node t = .conditional c) :
    Finds P s (Eval.conditional inner setting t c) t := by
  have hrests := ht.rests
  rw [hn] at hrests
  obtain ⟨hany, hsplit, hwaits⟩ := hrests
  have hcheck : Finds P s (inner c.check) c.check :=
    finds_part hinner hn (by simp [Node.evaluatedParts])
  have hpattern : Finds P s (inner c.pattern) c.pattern :=
    finds_part hinner hn (by simp [Node.evaluatedParts])
  have hchoose : Finds P s (choose inner setting t c c.check) t := by
    refine finds_bind hpattern (finds_store ?_)
    rw [if_pos hwaits]
    exact finds_intern hs ht hn
  refine finds_bind hcheck ?_
  rw [if_neg hany, if_neg (by simpa using fun hd => (hsplit hd).1)]
  refine finds_node ?_
  split
  · rename_i members hd hunion
    exact absurd hunion (unionMembers?_eq_none_iff.mp (hsplit hd).2 members)
  · exact hchoose

theorem finds_mapped {m : Mapped} (hn : s.node t = .mapped m) : Finds P s (Eval.mapped inner m) t := by
  have hrests : Eval.unmapped (s.node m.source) := by
    have h := ht.rests
    rw [hn] at h
    exact h
  have hsource : Finds P s (inner m.source) m.source :=
    finds_part hinner hn (by simp [Node.evaluatedParts])
  refine finds_bind hsource (finds_node ?_)
  generalize s.node m.source = n at hrests
  cases n with
  | union | object | intrinsic | literal | array | function | error => cases hrests
  | _ => exact finds_intern hs ht hn

theorem finds_indexAccess {object key : TypeId} (hn : s.node t = .indexAccess object key) (u : TypeId) :
    Finds P s (Eval.indexAccess inner u object key) t := by
  have hrests := ht.rests
  rw [hn] at hrests
  obtain ⟨hany, hnever, hunion, hpicks, hwaits⟩ := hrests
  have hobject : Finds P s (inner object) object :=
    finds_part hinner hn (by simp [Node.evaluatedParts, Node.components])
  have hkey : Finds P s (inner key) key :=
    finds_part hinner hn (by simp [Node.evaluatedParts, Node.components])
  have haccess : Finds P s (accessKey inner u object key) t := by
    intro e he b e' s' hrun
    rw [accessKey_eq hpicks, deferAccess, if_pos hwaits] at hrun
    exact finds_intern hs ht hn e he b e' s' hrun
  refine finds_bind hobject (finds_bind hkey ?_)
  rw [if_neg hany, if_neg hnever]
  refine finds_node ?_
  split
  · rename_i keys hkeys
    exact absurd hkeys (unionMembers?_eq_none_iff.mp hunion keys)
  · exact haccess

omit hs ht hinner in
theorem finds_evaluateSpans {spans : List Span} (hspans : ∀ c, .hole c ∈ spans → Finds P s (inner c) c)
    (hnever : .hole .never ∉ spans) (texts : Option (List String)) :
    Finds P s (evaluateSpans inner spans texts) (some (spans, spelled s spans texts)) := by
  induction spans generalizing texts with
  | nil => exact finds_pure _
  | cons span rest ih =>
      have hrest := ih (fun c hc => hspans c (List.mem_cons_of_mem _ hc))
        fun h => hnever (List.mem_cons_of_mem _ h)
      cases span with
      | text a => exact finds_bind (hrest _) (finds_pure _)
      | hole c =>
          refine finds_bind (hspans c List.mem_cons_self) ?_
          rw [if_neg fun h : c = .never => hnever (h ▸ List.mem_cons_self)]
          exact finds_store (finds_bind (hrest _) (finds_pure _))

theorem finds_template {spans : List Span} (hn : s.node t = .template spans) :
    Finds P s (Eval.template inner spans) t := by
  have hrests := ht.rests
  rw [hn] at hrests
  obtain ⟨htidy, hnever, hlisted⟩ := hrests
  have hspans : ∀ c, .hole c ∈ spans → Finds P s (inner c) c := fun c hc =>
    finds_part hinner hn (List.mem_filterMap.mpr ⟨_, hc, rfl⟩)
  have hkeep : Finds P s (liftM (Build.template spans)) t := by
    rw [template_eq_intern htidy]
    exact finds_intern hs ht hn
  refine finds_bind (finds_evaluateSpans hspans hnever _) ?_
  generalize spelled s spans (some [""]) = texts at hlisted
  cases texts with
  | none => exact hkeep
  | some texts =>
      dsimp only
      rw [if_neg (by simpa [listed] using hlisted)]
      exact hkeep

theorem finds_stringMap {kind : StringMap} {arg : TypeId} (hn : s.node t = .stringMap kind arg) :
    Finds P s (Eval.stringMap inner kind arg) t := by
  have hrests := ht.rests
  rw [hn] at hrests
  obtain ⟨hnever, hany, hunion, hliteral⟩ := hrests
  have harg : Finds P s (inner arg) arg :=
    finds_part hinner hn (by simp [Node.evaluatedParts, Node.components])
  refine finds_bind harg (finds_node ?_)
  split
  · rename_i text htext
    rw [stringLiteral?, htext] at hliteral
    cases hliteral
  · rename_i members hmembers
    exact absurd hmembers (unionMembers?_eq_none_iff.mp hunion members)
  · rw [if_neg (by simp [hnever, hany])]
    exact finds_intern hs ht hn

include hproductive in
/-- There is nothing to do at the node of an evaluated type. -/
theorem finds_at_node : Finds P s (node inner setting t (s.node t)) t := by
  have hpart : ∀ {c : TypeId} {n : Node}, s.node t = n → c ∈ n.evaluatedParts → Finds P s (inner c) c :=
    fun hn hc => finds_part hinner hn hc
  have hform := ht.inForm
  have hrests := ht.rests
  have hknown := ht.closed.known
  cases hn : s.node t with
  | error | intrinsic _ | literal _ | param _ => exact finds_pure t
  | union members =>
      rw [hn] at hform
      obtain ⟨hmany, hsorted, hjoin⟩ := hform
      exact finds_bind (finds_members fun c hc => hpart hn hc)
        (finds_lift (union_again hs hknown hn hmany hsorted hjoin))
  | intersection members =>
      rw [hn] at hform
      obtain ⟨hmany, hsorted, hmeet⟩ := hform
      refine finds_bind (finds_members fun c hc => hpart hn hc) (finds_origin ?_)
      have hagain := intersection_again hs hknown hn hmany hsorted hmeet (s.origin? (.type t)) #[]
      exact finds_bind (finds_lift (m := (Reporting.intersection _ members).run #[]) hagain)
        (finds_bind (finds_pure ()) (finds_pure t))
  | object shape => exact finds_productively hproductive (finds_object hinner hn)
  | function shape => exact finds_productively hproductive (finds_function hs ht hinner hn)
  | array element =>
      have helement := hpart hn (c := element) (by simp [Node.evaluatedParts, Node.components])
      exact finds_bind (finds_productively hproductive helement) (finds_intern hs ht hn)
  | reference name args =>
      rw [hn] at hrests
      cases hrests
  | conditional c => exact finds_conditional hs ht hinner hn
  | mapped m => exact finds_mapped hs ht hinner hn
  | indexAccess object key => exact finds_indexAccess hs ht hinner hn t
  | template spans => exact finds_template hs ht hinner hn
  | stringMap kind arg => exact finds_stringMap hs ht hinner hn

end nodes

end Eval

/-- An evaluator that remembers evaluated types, if at all, as they are. -/
def Evaluator.Faithful (s : Store) (e : Evaluator) : Prop :=
  ∀ t r, Evaluated s t → e.cache[t]? = some r → r = t

theorem Evaluator.Faithful.fresh (o : Options) (patience : Option Nat) (s : Store) :
    (Evaluator.fresh o 0 patience).Faithful s :=
  fun t r _ h => by simp [Evaluator.fresh] at h

namespace Evaluated

open Eval

variable {s : Store} {t : TypeId} {setting : Setting} {work : TypeId → Node → Eval TypeId}

theorem finds_guarded (ht : Evaluated s t)
    (hwork : Finds (Evaluator.Faithful s) s (work t (s.node t)) t) :
    Finds (Evaluator.Faithful s) s (guarded work setting t) t := by
  intro e he r e' s' hrun
  cases hfixed : t.isFixed with
  | true =>
      cases (guarded_fixed hfixed e s).symm.trans hrun
      exact ⟨rfl, rfl, he, .refl e⟩
  | false =>
      obtain ⟨p, hturn⟩ := turn_of_done hfixed hrun
      have he : Evaluator.Faithful s { e with patience := p } := he
      have hpasses : Passes e { e with patience := p } := .of_eq rfl rfl rfl
      generalize hx : ((Except.ok r, e'), s') = x at hturn
      cases hturn with
      | known h =>
          cases hx
          obtain rfl := he t _ ht h
          exact ⟨rfl, rfl, he, hpasses⟩
      | halted h =>
          cases hx
          refine ⟨rfl, rfl, fun u v hu hv => he u v hu ?_, hpasses.trans (.halted h)⟩
          rwa [h.cache] at hv
      | cycle =>
          -- references are not evaluated
          have hn : ∀ name args, s.node t ≠ .reference name args := fun name args hn => by
            have hrests := ht.rests
            rw [hn] at hrests
            cases hrests
          rw [reenterCycle_of_ne_reference hn] at hx
          cases hx
          exact ⟨rfl, rfl, he, .of_eq rfl rfl rfl⟩
      | entered =>
          let e₀ : Evaluator := { e with
            patience := p
            guard := { e.guard.tick with
              active := t :: e.guard.active, depth := e.guard.depth + 1 } }
          rcases hr : work t (s.node t) e₀ s with ⟨⟨x, e₁⟩, s₁⟩
          rw [hr] at hx
          cases x with
          | error => cases hx
          | ok u =>
              obtain ⟨rfl, rfl, he₁, hworked⟩ := hwork e₀ he u e₁ s₁ hr
              cases hx
              refine ⟨rfl, rfl, fun v w hv h => ?_,
                hpasses.trans (Passes.finish (x := ((.ok r, e₁), s')) hworked)⟩
              dsimp only at h
              split at h
              · exact he₁ v w hv h
              · rw [Std.HashMap.getElem?_insert] at h
                split at h
                · rename_i heq
                  exact (Option.some.inj h).symm.trans (eq_of_beq heq)
                · exact he₁ v w hv h

/-- However far an evaluation gets, it leaves an evaluated type as it is. -/
theorem finds_evaluateAt (ht : Evaluated s t) (hs : s.Formed) (depth : Nat) :
    Finds (Evaluator.Faithful s) s (evaluateAt setting depth t) t := by
  induction depth generalizing t with
  | zero => exact ht.finds_guarded (finds_pure t)
  | succ depth ih =>
      refine ht.finds_guarded (finds_at_node ?_ hs ht fun c hc => ih (ht.part hc))
      exact fun e n he => he

theorem finds_evaluate (ht : Evaluated s t) (hs : s.Formed) :
    Finds (Evaluator.Faithful s) s (evaluate setting t) t :=
  fun e he => ht.finds_evaluateAt hs (e.guard.maxDepth - e.guard.depth) e he

end Evaluated

end TypeResolution
