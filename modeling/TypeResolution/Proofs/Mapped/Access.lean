import TypeResolution.Proofs.Context.Invariants
import TypeResolution.Proofs.Evaluation.Turns

/-!
Access to an object that stays as it is. While the object is under evaluation, and once it has turned
out to evaluate to itself, access to it with a constant key gives the part of the object with this
key, whatever else was evaluated before.
-/

namespace TypeResolution

open Store Replay Limits Context

namespace Node

/-- Literals and built-in types evaluate to themselves. -/
def isConstant : Node → Bool
  | .intrinsic _ | .literal _ => true
  | _ => false

end Node

/-- The part of an object that belongs to a constant key. -/
def ObjectShape.part? (shape : ObjectShape) : Node → Option TypeId
  | .literal (.string name) => some (Eval.fieldType shape name)
  | .intrinsic .string => some (shape.stringIndex.getD .unknown)
  | _ => none

namespace Eval

variable {source : TypeId} {shape : ObjectShape} {limit k : Nat} {s s' : Store} {t r key : TypeId}
  {e e' e₁ : Evaluator} {env : Environment} {o : Options} {depth : Nat}

/-- Constants and the object stay as they are, and access to the object gives its parts. -/
structure Fits (source : TypeId) (shape : ObjectShape) (s : Store) (t r : TypeId) : Prop where
  unchanged : (s.node t).isConstant ∨ t = source → r = t
  access : ∀ key part, s.node t = .indexAccess source key →
    shape.part? (s.node key) = some part → r = part

theorem Fits.mono (h : Fits source shape s t r) (ht : s.Closed AnyName t) (hext : s.Extends s') :
    Fits source shape s' t r := by
  have hn : s'.node t = s.node t := hext.node_eq t ht.known
  refine ⟨fun h' => h.unchanged (hn ▸ h'), fun key part haccess hpart => ?_⟩
  rw [hn] at haccess
  have hkey : s.Closed AnyName key :=
    ht.node.components key (by rw [haccess]; simp [Node.components])
  rw [hext.node_eq key hkey.known] at hpart
  exact h.access key part haccess hpart

/-- What is remembered of types that are known. -/
def Sound (source : TypeId) (shape : ObjectShape) (s : Store) (cache : Std.HashMap TypeId TypeId) :
    Prop :=
  ∀ t r : TypeId, cache[t]? = some r →
    s.Closed AnyName t ∧ s.Closed AnyName r ∧ Fits source shape s t r

theorem Sound.mono {cache : Std.HashMap TypeId TypeId} (h : Sound source shape s cache)
    (hext : s.Extends s') : Sound source shape s' cache := by
  intro t r hr
  obtain ⟨ht, hclosed, hfits⟩ := h t r hr
  exact ⟨hext.closed ht, hext.closed hclosed, hfits.mono ht hext⟩

theorem Sound.insert {cache : Std.HashMap TypeId TypeId} (h : Sound source shape s cache)
    (hr : s.Closed AnyName t ∧ s.Closed AnyName r ∧ Fits source shape s t r) :
    Sound source shape s (cache.insert t r) := by
  intro u v hv
  rw [Std.HashMap.getElem?_insert] at hv
  by_cases htu : t = u
  · rw [if_pos (by simpa using htu)] at hv
    cases hv
    exact htu ▸ hr
  · rw [if_neg (by simpa using htu)] at hv
    exact h u v hv

/-- An evaluator at nesting `k` for which the object is under evaluation, or has stayed as it is. -/
structure Remembers (source : TypeId) (shape : ObjectShape) (limit k : Nat) (s : Store)
    (e : Evaluator) : Prop where
  object : s.node source = .object shape
  settled : source ∈ e.guard.active ∨ source ∈ e.cache
  depth : e.guard.depth = k
  base : e.guard.baseDepth = 0
  maxDepth : e.guard.maxDepth = limit
  patience : e.patience = none
  remembered : Sound source shape s e.cache

namespace Remembers

theorem known (h : Remembers source shape limit k s e) : source.index < s.size :=
  known_of_node h.object (by simp)

theorem mono (h : Remembers source shape limit k s e) (hext : s.Extends s') :
    Remembers source shape limit k s' e :=
  { h with
    object := (hext.node_eq source h.known).trans h.object
    remembered := h.remembered.mono hext }

theorem of_same (h : Remembers source shape limit k s e)
    (hactive : e'.guard.active = e.guard.active) (hdepth : e'.guard.depth = e.guard.depth)
    (hbase : e'.guard.baseDepth = e.guard.baseDepth)
    (hmaxDepth : e'.guard.maxDepth = e.guard.maxDepth) (hcache : e'.cache = e.cache)
    (hpatience : e'.patience = none) : Remembers source shape limit k s e' where
  object := h.object
  settled := by
    rw [hactive, hcache]
    exact h.settled
  depth := hdepth.trans h.depth
  base := hbase.trans h.base
  maxDepth := hmaxDepth.trans h.maxDepth
  patience := hpatience
  remembered := hcache ▸ h.remembered

theorem halted (h : Remembers source shape limit k s e) (hhalts : Halts e e') :
    Remembers source shape limit k s e' :=
  h.of_same hhalts.active hhalts.depth hhalts.baseDepth hhalts.maxDepth hhalts.cache
    (hhalts.patience.trans h.patience)

/-- The object itself is not entered. -/
theorem ne_source (h : Remembers source shape limit k s e) (hcache : e.cache[t]? = none)
    (hactive : t ∉ e.guard.active) : t ≠ source := by
  rintro rfl
  rcases h.settled with hmem | hmem
  · exact hactive hmem
  · rw [Std.HashMap.mem_iff_isSome_getElem?, hcache] at hmem
    cases hmem

theorem entered (h : Remembers source shape limit k s e) (t : TypeId) :
    Remembers source shape limit (k + 1) s { e with
      guard := { e.guard.tick with
        active := t :: e.guard.active, depth := e.guard.depth + 1 } } :=
  { h with
    settled := h.settled.imp (List.mem_cons_of_mem t) id
    depth := congrArg (· + 1) h.depth }

theorem left (h : Remembers source shape limit (k + 1) s e) (ht : t ≠ source) :
    Remembers source shape limit k s { e with guard := e.guard.leave t } :=
  { h with
    settled := h.settled.imp (List.mem_erase_of_ne ht.symm).mpr id
    depth := by
      have hdepth := h.depth
      have hbase := h.base
      change max (e.guard.depth - 1) e.guard.baseDepth = k
      omega }

theorem finished (h : Remembers source shape limit (k + 1) s e) (ht : t ≠ source)
    (hr : s.Closed AnyName t ∧ s.Closed AnyName r ∧ Fits source shape s t r) :
    Remembers source shape limit k s
      { e with guard := e.guard.leave t, cache := e.cache.insert t r } := by
  have hleft := h.left ht
  exact { hleft with
    settled := hleft.settled.imp id fun hmem => Std.HashMap.mem_insert.mpr (.inr hmem)
    remembered := h.remembered.insert hr }

/-- The type that was entered is left, and its result is remembered unless there is none. -/
theorem finish {x : End TypeId} (h : Remembers source shape limit (k + 1) x.2 x.1.2) (ht : t ≠ source)
    (hr : ∀ r, x.1.1 = .ok r →
      x.2.Closed AnyName t ∧ x.2.Closed AnyName r ∧ Fits source shape x.2 t r) :
    Remembers source shape limit k (Eval.finish t x).2 (Eval.finish t x).1.2 := by
  rcases x with ⟨⟨_ | r, e⟩, s⟩
  · exact h.left ht
  · have hleft := h.left ht
    have hfinished := h.finished ht (hr r rfl)
    unfold Eval.finish
    dsimp only
    split
    · exact hleft
    · exact hfinished

end Remembers

/-- Nesting at `k`, with the object under evaluation or settled, as an invariant. -/
def remembering (source : TypeId) (shape : ObjectShape) (limit k : Nat) : Invariant where
  holds := Remembers source shape limit k
  mono hext h := h.mono hext
  idle hidle h := h.of_same (by rw [hidle.guard]) (by rw [hidle.guard]) (by rw [hidle.guard])
    (by rw [hidle.guard]) hidle.cache (hidle.patience h.patience)
  frames _ h := h.of_same rfl rfl rfl rfl rfl h.patience

section quiet

/-- The run makes no type and gives `r`. -/
def Gives (source : TypeId) (shape : ObjectShape) (limit k : Nat) (s : Store) (e : Evaluator)
    (r : TypeId) (x : End TypeId) : Prop :=
  ∃ e', x = ((.ok r, e'), s) ∧ Remembers source shape limit k s e' ∧ Passes e e'

theorem Gives.stop (h : Remembers source shape limit k s e) :
    Gives source shape limit k s e r ((.ok r, e), s) :=
  ⟨e, rfl, h, .refl e⟩

theorem Gives.halted (h : Remembers source shape limit k s e) (hhalts : Halts e e') :
    Gives source shape limit k s e r ((.ok r, e'), s) :=
  ⟨e', rfl, h.halted hhalts, .halted hhalts⟩

/-- What is given for a type that was entered is given for the type. -/
theorem Gives.finish {x : End TypeId} (h : Gives source shape limit (k + 1) s { e with
      guard := { e.guard.tick with
        active := t :: e.guard.active, depth := e.guard.depth + 1 } } r x)
    (ht : t ≠ source) (hr : s.Closed AnyName t ∧ s.Closed AnyName r ∧ Fits source shape s t r) :
    Gives source shape limit k s e r (Eval.finish t x) := by
  obtain ⟨e₁, rfl, h₁, hpasses⟩ := h
  exact ⟨_, rfl, h₁.finish (x := ((.ok r, e₁), s)) ht (by rintro _ ⟨⟩; exact hr),
    hpasses.finish (x := ((.ok r, e₁), s))⟩

/-- A type that is met again stays as it is, unless it is a reference. -/
theorem gives_reenterCycle (h : Remembers source shape limit k s e) {setting : Setting}
    (hn : ∀ name args, s.node t ≠ .reference name args) :
    Gives source shape limit k s e t
      (reenterCycle setting t { e with guard := e.guard.tick } s) :=
  ⟨_, reenterCycle_of_ne_reference hn _, h.of_same rfl rfl rfl rfl rfl h.patience, .of_eq rfl rfl rfl⟩

variable {work : TypeId → Node → Eval TypeId} {setting : Setting}

/-- The object stays as it is. -/
theorem gives_source (hs : s.Formed) (h : Remembers source shape limit k s e) :
    Gives source shape limit k s e source (guarded work setting source e s) := by
  have hfixed := hs.not_isFixed h.object (by simp) (by simp) (by simp)
  have hturn : Turn work setting source e s (guarded work setting source e s) :=
    turn_guarded hfixed h.patience
  generalize guarded work setting source e s = x at hturn
  cases hturn with
  | @known r hknown =>
      obtain rfl : r = source := (h.remembered source r hknown).2.2.unchanged (.inr rfl)
      exact .stop h
  | halted hhalts => exact .halted h hhalts
  | cycle _ => exact gives_reenterCycle h (by simp [h.object])
  | entered hcache hactive _ => exact absurd rfl (h.ne_source hcache hactive)

/-- A constant stays as it is. -/
theorem gives_constant (hwork : ∀ n, n.isConstant → work t n = pure t) (ht : s.Closed AnyName t)
    (hn : (s.node t).isConstant) (h : Remembers source shape limit k s e) :
    Gives source shape limit k s e t (guarded work setting t e s) := by
  cases hfixed : t.isFixed with
  | true =>
      have hrun : guarded work setting t e s = ((.ok t, e), s) := guarded_fixed hfixed e s
      exact hrun ▸ .stop h
  | false =>
      have hturn : Turn work setting t e s (guarded work setting t e s) :=
        turn_guarded hfixed h.patience
      generalize guarded work setting t e s = x at hturn
      cases hturn with
      | @known r hknown =>
          obtain rfl : r = t := (h.remembered t r hknown).2.2.unchanged (.inl hn)
          exact .stop h
      | halted hhalts => exact .halted h hhalts
      | cycle _ =>
          refine gives_reenterCycle h fun name args hreference => ?_
          rw [hreference] at hn
          cases hn
      | entered hcache hactive _ =>
          rw [hwork _ hn]
          refine Gives.finish (.stop (h.entered t)) (h.ne_source hcache hactive)
            ⟨ht, ht, fun _ => rfl, fun key part haccess => ?_⟩
          rw [haccess] at hn
          cases hn

end quiet

section access

variable {part : TypeId}

theorem isConstant_of_part? {n : Node} (h : shape.part? n = some part) : n.isConstant := by
  cases n with
  | intrinsic _ | literal _ => rfl
  | _ => cases h

theorem closed_part (hs : s.Formed) (ho : (Node.object shape).Closed AnyName s) {n : Node}
    (h : shape.part? n = some part) : s.Closed AnyName part := by
  unfold ObjectShape.part? at h
  split at h
  · cases h
    exact closed_fieldOf hs ho _
  · cases h
    cases hindex : shape.stringIndex with
    | some u => exact closed_stringIndex ho hindex
    | none => exact hs.closed_fixed rfl
  · cases h

/-- Access to an object with a constant key. -/
theorem accessKey_run {inner : TypeId → Eval TypeId} (hobject : s.node source = .object shape)
    (hpart : shape.part? (s.node key) = some part) (e : Evaluator) :
    accessKey inner t source key e s = ((.ok part, e), s) := by
  have hget : (getThe Store : Eval Store).run e s = ((.ok s, e), s) := rfl
  change (accessKey inner t source key).run e s = _
  unfold accessKey
  rw [run_bind, hget]
  dsimp only
  rw [hobject]
  cases hkey : s.node key with
  | literal l =>
      rw [hkey] at hpart
      cases l with
      | string name =>
          cases hpart
          rfl
      | _ => cases hpart
  | intrinsic i =>
      rw [hkey] at hpart
      cases i with
      | string =>
          cases hpart
          rfl
      | _ => cases hpart
  | _ =>
      rw [hkey] at hpart
      cases hpart

/-- Access to the object, when the evaluation of components leaves it and the key as they are. -/
theorem gives_access {inner : TypeId → Eval TypeId} (hs : s.Formed)
    (hpart : shape.part? (s.node key) = some part)
    (hsource : ∀ e, Remembers source shape limit k s e →
      Gives source shape limit k s e source (inner source e s))
    (hkey : ∀ e, Remembers source shape limit k s e →
      Gives source shape limit k s e key (inner key e s))
    (h : Remembers source shape limit k s e) :
    Gives source shape limit k s e part (indexAccess inner t source key e s) := by
  obtain ⟨e₁, hrun, h₁, hpasses⟩ := hsource e h
  obtain ⟨e₂, hrun', h₂, hpasses'⟩ := hkey e₁ h₁
  refine ⟨e₂, ?_, h₂, hpasses.trans hpasses'⟩
  have hany : source ≠ .any := by
    rintro rfl
    have hobject := h.object
    rw [show s.node .any = .intrinsic .any from hs.node_intrinsic .any] at hobject
    cases hobject
  have hnever : key ≠ .never := by
    rintro rfl
    rw [show s.node .never = .intrinsic .never from hs.node_intrinsic .never] at hpart
    cases hpart
  have hrun : (inner source).run e s = ((.ok source, e₁), s) := hrun
  have hrun' : (inner key).run e₁ s = ((.ok key, e₂), s) := hrun'
  have hnode : (liftM (Build.node key) : Eval Node).run e₂ s = ((.ok (s.node key), e₂), s) := rfl
  have hconstant := isConstant_of_part? hpart
  have haccess : accessKey inner t source key e₂ s = ((.ok part, e₂), s) :=
    accessKey_run h.object hpart e₂
  change (indexAccess inner t source key).run e s = _
  unfold indexAccess
  rw [run_bind, hrun]
  dsimp only
  rw [run_bind, hrun']
  dsimp only
  rw [if_neg hany, if_neg hnever, run_bind, hnode]
  cases hn : s.node key with
  | union members =>
      rw [hn] at hconstant
      cases hconstant
  | _ => exact haccess

end access

section runs

variable {work : TypeId → Node → Eval TypeId} {setting : Setting}

theorem node_of_isConstant {inner : TypeId → Eval TypeId} {n : Node} (hn : n.isConstant) :
    node inner setting t n = pure t := by
  cases n with
  | intrinsic _ | literal _ => rfl
  | _ => cases hn

theorem gives_evaluateAt_source (hs : s.Formed) (h : Remembers source shape limit k s e) :
    Gives source shape limit k s e source (evaluateAt setting depth source e s) := by
  cases depth <;> exact gives_source hs h

theorem gives_evaluateAt_constant (ht : s.Closed AnyName t) (hn : (s.node t).isConstant)
    (h : Remembers source shape limit k s e) :
    Gives source shape limit k s e t (evaluateAt setting depth t e s) := by
  cases depth with
  | zero => exact gives_constant (fun _ _ => rfl) ht hn h
  | succ depth => exact gives_constant (fun _ => node_of_isConstant) ht hn h

/-- What an evaluation of components gives for a type other than the object fits. -/
theorem fits_node (hs : s.Formed) (ht : s.Closed AnyName t) (hsource : t ≠ source)
    (h : Remembers source shape limit k s e)
    (hr : (node (evaluateAt setting depth) setting t (s.node t) e s).1.1 = .ok r) :
    Fits source shape s t r := by
  refine ⟨fun hunchanged => ?_, fun key part haccess hpart => ?_⟩
  · rw [node_of_isConstant (hunchanged.resolve_right hsource)] at hr
    exact (Except.ok.inj hr).symm
  · rw [haccess] at hr
    have hkey : s.Closed AnyName key :=
      ht.node.components key (by rw [haccess]; simp [Node.components])
    have hgives : Gives source shape limit k s e part
        (node (evaluateAt setting depth) setting t (.indexAccess source key) e s) :=
      gives_access hs hpart (fun e he => gives_evaluateAt_source hs he)
        (fun e he => gives_evaluateAt_constant hkey (isConstant_of_part? hpart) he) h
    obtain ⟨e₁, hrun, -⟩ := hgives
    rw [hrun] at hr
    exact (Except.ok.inj hr).symm

theorem gives_guarded (hs : s.Formed) (hactive : t ∉ e.guard.active) {part : TypeId}
    (haccess : s.node t = .indexAccess source key) (hpart : shape.part? (s.node key) = some part)
    (hwork : k < limit → ∀ e₁, Remembers source shape limit (k + 1) s e₁ →
      Gives source shape limit (k + 1) s e₁ part (work t (s.node t) e₁ s))
    (h : Remembers source shape limit k s e) :
    (guarded work setting t e s).1.2.guard.exceeded ∨
      Gives source shape limit k s e part (guarded work setting t e s) := by
  have hfixed := hs.not_isFixed haccess (by simp) (by simp) (by simp)
  have hturn : Turn work setting t e s (guarded work setting t e s) :=
    turn_guarded hfixed h.patience
  generalize guarded work setting t e s = x at hturn
  cases hturn with
  | @known r hknown =>
      obtain rfl := (h.remembered t r hknown).2.2.access key part haccess hpart
      exact .inr (.stop h)
  | halted hhalts => exact .inl hhalts.exceeded
  | cycle hmem => exact absurd hmem hactive
  | entered hcache hactive hdepth =>
      have hne := h.ne_source hcache hactive
      have ht : s.Closed AnyName t := hs.closed_of_known (known_of_node haccess (by simp))
      have hgives := hwork (h.depth ▸ h.maxDepth ▸ hdepth) _ (h.entered t)
      have hobject : (Node.object shape).Closed AnyName s :=
        h.object ▸ (hs.closed_of_known h.known).node
      refine .inr (hgives.finish hne ⟨ht, closed_part hs hobject hpart, ?_, ?_⟩)
      · rintro (hconstant | hsource)
        · rw [haccess] at hconstant
          cases hconstant
        · exact absurd hsource hne
      · intro key' part' haccess' hpart'
        rw [haccess] at haccess'
        cases haccess'
        exact Option.some.inj (hpart.symm.trans hpart')

/-- Access to the object with a constant key, unless a limit is hit. -/
theorem gives_evaluateAt_access (hs : s.Formed) (hactive : t ∉ e.guard.active) {part : TypeId}
    (haccess : s.node t = .indexAccess source key) (hpart : shape.part? (s.node key) = some part)
    (hdepth : limit ≤ k + depth) (h : Remembers source shape limit k s e) :
    (evaluateAt setting depth t e s).1.2.guard.exceeded ∨
      Gives source shape limit k s e part (evaluateAt setting depth t e s) := by
  cases depth with
  | zero => exact gives_guarded hs hactive haccess hpart (fun hlt => absurd hlt (by omega)) h
  | succ depth =>
      refine gives_guarded hs hactive haccess hpart (fun _ e₁ h₁ => ?_) h
      rw [haccess]
      have hkey : s.Closed AnyName key := by
        have ht : s.Closed AnyName t := hs.closed_of_known (known_of_node haccess (by simp))
        exact ht.node.components key (by rw [haccess]; simp [Node.components])
      exact gives_access hs hpart (fun e he => gives_evaluateAt_source hs he)
        (fun e he => gives_evaluateAt_constant hkey (isConstant_of_part? hpart) he) h₁

/-- The evaluation of one type keeps the invariant, if the work on a type that is entered does. -/
theorem keeps_guarded (ht : s.Closed AnyName t)
    (hwork : k < limit → t ≠ source → ∀ e₁, s.Formed → Remembers source shape limit (k + 1) s e₁ →
      (remembering source shape limit (k + 1)).regime.Ends s (work t (s.node t))
        (work t (s.node t)) e₁ ∧
      ∀ r, (work t (s.node t) e₁ s).1.1 = .ok r → Fits source shape s t r) :
    (remembering source shape limit k).Keeps s (guarded work ⟨env, o⟩ t)
      (guarded work ⟨env, o⟩ t) := by
  intro hs e h
  cases hfixed : t.isFixed with
  | true =>
      exact Invariant.ends_after (Regime.ends_pure (b := t) hs h ⟨rfl, ht⟩) (.refl s)
        (guarded_fixed hfixed e s)
  | false =>
      have hturn : Turn work ⟨env, o⟩ t e s (guarded work ⟨env, o⟩ t e s) :=
        turn_guarded hfixed h.patience
      generalize hx : guarded work ⟨env, o⟩ t e s = x at hturn
      cases hturn with
      | @known r hknown =>
          have hr := (h.remembered t r hknown).2.1
          exact Invariant.ends_after (Regime.ends_pure (b := r) hs h ⟨rfl, hr⟩) (.refl s) hx
      | halted hhalts =>
          exact Invariant.ends_after (Regime.ends_pure (b := t) hs (h.halted hhalts) ⟨rfl, ht⟩)
            (.refl s) hx
      | cycle _ =>
          have hcycle : (remembering source shape limit k).Keeps s (reenterCycle ⟨env, o⟩ t)
              (reenterCycle ⟨env, o⟩ t) := Invariant.keeps_reenterCycle ht
          have he : Remembers source shape limit k s { e with guard := e.guard.tick } :=
            h.of_same rfl rfl rfl rfl rfl h.patience
          exact Invariant.ends_after (hcycle hs _ he) (.refl s) hx
      | entered hcache hactive hdepth =>
          have hne := h.ne_source hcache hactive
          have hlt : k < limit := h.depth ▸ h.maxDepth ▸ hdepth
          obtain ⟨⟨hgrows, hformed, hfit, -, hpartner, -⟩, hfits⟩ := hwork hlt hne _ hs (h.entered t)
          have hclosed := fun r hr => (hpartner r hr).elim fun _ hsame => hsame.2
          have hfinish := Remembers.finish hfit hne fun r hr =>
            ⟨hgrows.closed ht, hclosed r hr, (hfits r hr).mono ht hgrows⟩
          refine ⟨?_, ?_, ?_, ?_, ?_, ?_⟩ <;> rw [hx]
          · rw [finish_store]
            exact hgrows
          · rw [finish_store]
            exact hformed
          · exact hfinish
          · exact False.elim
          · rw [finish_result, finish_store]
            exact hpartner
          · exact fun hclear => hclear.elim

/-- Every evaluation keeps the invariant, whatever the aliases are. -/
theorem evaluates_remembering (henv : env.Agrees AnyName s env) (hdepth : limit ≤ k + depth) :
    @Evaluates anyLink (remembering source shape limit k).regime.runs s
      (evaluateAt ⟨env, o⟩ depth) (evaluateAt ⟨env, o⟩ depth) := by
  induction depth generalizing k s with
  | zero => exact fun s₁ h₁ t ht => keeps_guarded ht fun hlt => absurd hlt (Nat.not_lt_of_le hdepth)
  | succ depth ih =>
      refine fun s₁ h₁ t ht => keeps_guarded ht fun _ hne e₁ hs he₁ => ⟨?_, fun r hr => ?_⟩
      · have hresolves : ∀ s₂, s₁.Extends s₂ → ∀ n, Resolves anyLink s₂
            ⟨evaluateAt ⟨env, o⟩ depth, .fresh o n none⟩
            ⟨evaluateAt ⟨env, o⟩ depth, .fresh o n none⟩ := fun s₂ h₂ n s₃ h₃ u hu =>
          evaluates_evaluateAt (.of_agrees (henv.mono (h₁.trans (h₂.trans h₃)))) depth s₃ (.refl s₃)
            u hu _ _ (same_fresh n s₃)
        have hnode : (remembering source shape limit (k + 1)).Keeps s₁
            (node (evaluateAt ⟨env, o⟩ depth) ⟨env, o⟩ t (s₁.node t))
            (node (evaluateAt ⟨env, o⟩ depth) ⟨env, o⟩ t (s₁.node t)) :=
          Invariant.keeps_node (henv.mono h₁) (ih (henv.mono h₁) (by omega)) hresolves ht ht.node
        exact hnode hs e₁ he₁
      · exact fits_node hs ht hne he₁ hr

end runs

end Eval

end TypeResolution
