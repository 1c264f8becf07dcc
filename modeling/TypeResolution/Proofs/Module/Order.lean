import Mathlib.Data.List.Nodup
import Mathlib.Logic.Relation
import TypeResolution.Module.Graph

/-!
The order in which a depth-first walk is done with modules. When the walk is done with a module it
has entered all its imports. An import that it is not done with by then is one that it is in the
middle of, and such a module reaches the one that the walk is at.
-/

namespace TypeResolution.ModuleGraph

/-- The first module imports the second one. -/
def Imports (g : ModuleGraph) (a b : Nat) : Prop := b ∈ g.dependencies a

/-- The first module reaches the second one by one or more imports. -/
def Reaches (g : ModuleGraph) : Nat → Nat → Prop := Relation.TransGen g.Imports

/-- The modules and the targets of imports. -/
def ids (g : ModuleGraph) : List Nat := List.range g.size ++ g.modules.flatMap (·.dependencies)

theorem length_ids (g : ModuleGraph) : g.ids.length = g.size + g.edgeCount := by
  simp [ids, edgeCount, List.length_flatMap]

theorem mem_ids_of_lt {g : ModuleGraph} {a : Nat} (h : a < g.size) : a ∈ g.ids :=
  List.mem_append_left _ (List.mem_range.mpr h)

theorem mem_ids_of_imports {g : ModuleGraph} {a b : Nat} (h : g.Imports a b) : b ∈ g.ids := by
  unfold Imports dependencies module? at h
  cases hm : g.modules[a]? with
  | none => simp [hm] at h
  | some m =>
      rw [hm] at h
      exact List.mem_append_right _ (List.mem_flatMap.mpr ⟨m, List.mem_of_getElem? hm, h⟩)

theorem dependencies_of_size_le {g : ModuleGraph} {a : Nat} (h : g.size ≤ a) : g.dependencies a = [] := by
  simp [dependencies, module?, List.getElem?_eq_none h]

theorem Reaches.lt_size {g : ModuleGraph} {a b : Nat} (h : g.Reaches a b) : a < g.size := by
  by_contra hlt
  have hnone := dependencies_of_size_le (Nat.le_of_not_lt hlt)
  induction h with
  | single h => simp [Imports, hnone] at h
  | tail _ _ ih => exact ih

theorem mem_ids_iff {g : ModuleGraph} {a : Nat} :
    a ∈ g.ids ↔ a < g.size ∨ ∃ b, g.Imports b a := by
  constructor
  · intro h
    rcases List.mem_append.mp h with h | h
    · exact .inl (List.mem_range.mp h)
    · obtain ⟨m, hm, ha⟩ := List.mem_flatMap.mp h
      obtain ⟨b, hb⟩ := List.getElem?_of_mem hm
      refine .inr ⟨b, ?_⟩
      simpa [Imports, dependencies, module?, hb] using ha
  · rintro (h | ⟨b, h⟩)
    · exact mem_ids_of_lt h
    · exact mem_ids_of_imports h

/-- How many ids have not been seen. -/
def unseen (g : ModuleGraph) (seen : Nat → Bool) : Nat := (g.ids.filter fun a => !seen a).length

theorem unseen_le {g : ModuleGraph} {p q : Nat → Bool} (h : ∀ a, p a → q a) :
    g.unseen q ≤ g.unseen p := by
  refine List.Sublist.length_le (List.monotone_filter_right g.ids fun a ha => ?_)
  simp only [Bool.not_eq_true'] at ha ⊢
  exact Bool.eq_false_iff.mpr fun hp => Bool.eq_false_iff.mp ha (h a hp)

theorem unseen_lt {g : ModuleGraph} {p q : Nat → Bool} {id : Nat} (h : ∀ a, p a → q a)
    (hid : id ∈ g.ids) (hnew : p id = false) (hseen : q id) : g.unseen q < g.unseen p := by
  have hsub : (g.ids.filter fun a => !q a) = (g.ids.filter fun a => !p a).filter fun a => !q a := by
    rw [List.filter_filter]
    refine List.filter_congr fun a _ => ?_
    cases hp : p a with
    | false => simp
    | true => simp [h a hp]
  unfold unseen
  rw [hsub]
  exact List.length_filter_lt_length_iff_exists.mpr
    ⟨id, List.mem_filter.mpr ⟨hid, by simp [hnew]⟩, by simp [hseen]⟩

theorem unseen_lt_bound (g : ModuleGraph) (seen : Nat → Bool) :
    g.unseen seen < g.size + g.edgeCount + 1 := by
  rw [← length_ids]
  exact Nat.lt_succ_of_le (List.length_filter_le ..)

namespace Walk

/-- The walk is in the middle of the module. -/
def Open (w : Walk) (a : Nat) : Prop := a ∈ w.entered ∧ a ∉ w.done

/-- How many ids the walk has not entered. -/
def left (g : ModuleGraph) (w : Walk) : Nat := g.unseen w.entered.contains

/-- What a walk keeps. -/
structure Sound (g : ModuleGraph) (w : Walk) : Prop where
  entered : ∀ a ∈ w.done, a ∈ w.entered
  known : ∀ a ∈ w.entered, a ∈ g.ids
  nodup_entered : w.entered.Nodup
  nodup_done : w.done.Nodup
  ordered : ∀ after a before, w.done = after ++ a :: before →
    ∀ b, g.Imports a b → b ∈ before ∨ g.Reaches b a

/-- A walk that has gone on and is in the middle of the same modules. -/
structure Continues (g : ModuleGraph) (w w' : Walk) : Prop where
  sound : w'.Sound g
  entered : w.entered ⊆ w'.entered
  done : w.done ⊆ w'.done
  open_iff : ∀ a, w'.Open a ↔ w.Open a

variable {g : ModuleGraph} {w w₁ w₂ : Walk} {id depth : Nat}

theorem Continues.refl (hw : w.Sound g) : Continues g w w :=
  ⟨hw, fun _ h => h, fun _ h => h, fun _ => Iff.rfl⟩

theorem Continues.trans (h₁ : Continues g w w₁) (h₂ : Continues g w₁ w₂) : Continues g w w₂ :=
  ⟨h₂.sound, fun _ h => h₂.entered (h₁.entered h), fun _ h => h₂.done (h₁.done h),
    fun a => (h₂.open_iff a).trans (h₁.open_iff a)⟩

theorem left_le (h : w.entered ⊆ w₁.entered) : left g w₁ ≤ left g w :=
  unseen_le fun a ha => by simpa using h (by simpa using ha)

theorem left_enter (hid : id ∈ g.ids) (hnew : id ∉ w.entered) :
    left g { w with entered := id :: w.entered } < left g w := by
  refine unseen_lt (fun a ha => ?_) hid (by simpa using hnew) (by simp)
  rw [List.contains_iff_mem] at ha ⊢
  exact List.mem_cons_of_mem _ ha

theorem Sound.enter (hw : w.Sound g) (hid : id ∈ g.ids) (hnew : id ∉ w.entered) :
    Sound g { w with entered := id :: w.entered } where
  entered a ha := List.mem_cons_of_mem _ (hw.entered a ha)
  known a ha := by
    rcases List.mem_cons.mp ha with rfl | ha
    · exact hid
    · exact hw.known a ha
  nodup_entered := List.nodup_cons.mpr ⟨hnew, hw.nodup_entered⟩
  nodup_done := hw.nodup_done
  ordered := hw.ordered

theorem open_enter (hw : w.Sound g) (hnew : id ∉ w.entered) (a : Nat) :
    Open { w with entered := id :: w.entered } a ↔ w.Open a ∨ a = id := by
  have hdone : id ∉ w.done := fun h => hnew (hw.entered id h)
  unfold Open
  by_cases h : a = id
  · subst h
    simp [hdone]
  · simp [h]

theorem open_leave (a : Nat) :
    Open { w₁ with done := id :: w₁.done } a ↔ w₁.Open a ∧ a ≠ id := by
  unfold Open
  simp only [List.mem_cons, not_or]
  tauto

end Walk

open Walk

/-- A walk from a module that every open module reaches. -/
def Enters (g : ModuleGraph) (w : Walk) (id : Nat) : Prop :=
  id ∈ g.ids ∧ ∀ a, w.Open a → g.Reaches a id

variable {g : ModuleGraph} {w : Walk} {a b id depth : Nat}

/-- If the walk from each module goes on soundly, so does the walk from one after the other. -/
theorem foldl_continues {step : Walk → Nat → Walk}
    (hstep : ∀ w id, w.left g < depth → w.Sound g → Enters g w id →
      Continues g w (step w id) ∧ id ∈ (step w id).entered)
    (l : List Nat) (hdepth : w.left g < depth) (hw : w.Sound g) (hl : ∀ id ∈ l, Enters g w id) :
    Continues g w (l.foldl step w) ∧ ∀ id ∈ l, id ∈ (l.foldl step w).entered := by
  induction l generalizing w with
  | nil => exact ⟨.refl hw, fun _ h => absurd h List.not_mem_nil⟩
  | cons id rest ih =>
      obtain ⟨hgo, hid⟩ := hstep w id hdepth hw (hl id (by simp))
      have hrest : ∀ c ∈ rest, Enters g (step w id) c := fun c hc =>
        ⟨(hl c (by simp [hc])).1, fun a ha => (hl c (by simp [hc])).2 a ((hgo.open_iff a).mp ha)⟩
      obtain ⟨hgo', hmem⟩ := ih (Nat.lt_of_le_of_lt (left_le hgo.entered) hdepth) hgo.sound hrest
      refine ⟨hgo.trans hgo', fun c hc => ?_⟩
      rcases List.mem_cons.mp hc with rfl | hc
      · exact hgo'.entered hid
      · exact hmem c hc

/-- One visit keeps the order and comes back to the modules that were open before. -/
theorem visit_continues (hdepth : w.left g < depth) (hw : w.Sound g) (hid : Enters g w id) :
    Continues g w (g.visit depth w id) ∧ id ∈ (g.visit depth w id).entered := by
  induction depth generalizing w id with
  | zero => omega
  | succ depth ih =>
      unfold visit
      split
      · rename_i h
        exact ⟨.refl hw, by simpa using h⟩
      rename_i hnew
      have hnew : id ∉ w.entered := by simpa using hnew
      have hopen := open_enter hw hnew
      have hlt := left_enter hid.1 hnew
      -- the imports are entered below the module, which stays open meanwhile
      have hdeps : ∀ c ∈ g.dependencies id, Enters g { w with entered := id :: w.entered } c := by
        refine fun c hc => ⟨mem_ids_of_imports hc, fun a ha => ?_⟩
        rcases (hopen a).mp ha with ha | rfl
        · exact (hid.2 a ha).tail hc
        · exact .single hc
      obtain ⟨hgo, hmem⟩ := foldl_continues (fun w id h => ih h) (g.dependencies id) (by omega)
        (hw.enter hid.1 hnew) hdeps
      generalize (g.dependencies id).foldl (g.visit depth) { w with entered := id :: w.entered } =
        w₁ at hgo hmem
      have hid₁ : id ∈ w₁.entered := hgo.entered (List.mem_cons_self ..)
      have hundone : id ∉ w₁.done := ((hgo.open_iff id).mpr ((hopen id).mpr (.inr rfl))).2
      have hsound := hgo.sound
      refine ⟨⟨⟨?_, hsound.known, hsound.nodup_entered, ?_, ?_⟩, ?_, ?_, fun a => ?_⟩, hid₁⟩
      · refine fun a ha => ?_
        rcases List.mem_cons.mp ha with rfl | ha
        · exact hid₁
        · exact hsound.entered a ha
      · exact List.nodup_cons.mpr ⟨hundone, hsound.nodup_done⟩
      · intro after a before heq b hb
        cases after with
        | cons x after => exact hsound.ordered after a before (List.cons.inj heq).2 b hb
        | nil =>
            obtain ⟨rfl, rfl⟩ := List.cons.inj heq
            by_cases hdone : b ∈ w₁.done
            · exact .inl hdone
            · rcases (hopen b).mp ((hgo.open_iff b).mp ⟨hmem b hb, hdone⟩) with hb' | rfl
              · exact .inr (hid.2 b hb')
              · exact .inr (.single hb)
      · exact fun a ha => hgo.entered (List.mem_cons_of_mem _ ha)
      · exact fun a ha => List.mem_cons_of_mem _ (hgo.done ha)
      · rw [open_leave, hgo.open_iff, hopen]
        constructor
        · rintro ⟨ha | ha, hne⟩
          · exact ha
          · exact absurd ha hne
        · intro ha
          refine ⟨.inl ha, ?_⟩
          rintro rfl
          exact hnew ha.1

theorem walk_continues (g : ModuleGraph) :
    Continues g ⟨[], []⟩ g.walk ∧ ∀ id < g.size, id ∈ g.walk.entered := by
  have hsound : Sound g ⟨[], []⟩ :=
    ⟨by simp, by simp, .nil, .nil, fun after a before h => by simp at h⟩
  have hleft : left g ⟨[], []⟩ < g.size + g.edgeCount + 1 := unseen_lt_bound g _
  obtain ⟨hgo, hmem⟩ := foldl_continues (fun w id h => visit_continues h) (List.range g.size) hleft
    hsound fun id hid => ⟨mem_ids_of_lt (List.mem_range.mp hid), fun a ha => absurd ha.1 (by simp)⟩
  exact ⟨hgo, fun id hid => hmem id (List.mem_range.mpr hid)⟩

theorem mem_done_iff_entered (g : ModuleGraph) (a : Nat) : a ∈ g.walk.done ↔ a ∈ g.walk.entered := by
  have hgo := (walk_continues g).1
  refine ⟨hgo.sound.entered a, fun ha => ?_⟩
  by_contra hdone
  exact absurd ((hgo.open_iff a).mp ⟨ha, hdone⟩).1 (by simp)

/-- The order holds every module. -/
theorem mem_topologicalOrder (h : a < g.size) : a ∈ g.topologicalOrder :=
  List.mem_reverse.mpr ((mem_done_iff_entered g a).mpr ((walk_continues g).2 a h))

theorem mem_ids_of_mem_topologicalOrder (h : a ∈ g.topologicalOrder) : a ∈ g.ids := by
  have hsound := (walk_continues g).1.sound
  exact hsound.known a (hsound.entered a (List.mem_reverse.mp h))

/-- The order holds no module twice. -/
theorem nodup_topologicalOrder (g : ModuleGraph) : g.topologicalOrder.Nodup :=
  List.nodup_reverse.mpr (walk_continues g).1.sound.nodup_done

/-- An import that does not lead back comes first. -/
theorem mem_before_of_imports {before after : List Nat}
    (horder : g.topologicalOrder = before ++ a :: after) (himport : g.Imports a b)
    (hback : ¬g.Reaches b a) : b ∈ before := by
  have hdone : g.walk.done = after.reverse ++ a :: before.reverse := by
    have h := congrArg List.reverse horder
    simpa [topologicalOrder] using h
  rcases (walk_continues g).1.sound.ordered _ _ _ hdone b himport with h | h
  · exact List.mem_reverse.mp h
  · exact absurd h hback

/-- The target of an import is in the order, module or not. -/
theorem mem_topologicalOrder_of_imports (himport : g.Imports a b) : b ∈ g.topologicalOrder := by
  by_cases hback : g.Reaches b a
  · exact mem_topologicalOrder hback.lt_size
  · have ha : g.Reaches a b := .single himport
    obtain ⟨before, after, horder⟩ := List.append_of_mem (mem_topologicalOrder ha.lt_size)
    rw [horder]
    exact List.mem_append_left _ (mem_before_of_imports horder himport hback)

section nesting

theorem foldl_entered {step : Walk → Nat → Walk} (hstep : ∀ w id, w.entered ⊆ (step w id).entered)
    (l : List Nat) (w : Walk) : w.entered ⊆ (l.foldl step w).entered := by
  induction l generalizing w with
  | nil => exact List.Subset.refl _
  | cons id rest ih => exact List.Subset.trans (hstep w id) (ih (step w id))

theorem entered_subset_visit (depth : Nat) (w : Walk) (id : Nat) :
    w.entered ⊆ (g.visit depth w id).entered := by
  induction depth generalizing w id with
  | zero => exact List.Subset.refl _
  | succ depth ih =>
      unfold visit
      split
      · exact List.Subset.refl _
      · have hfold := foldl_entered ih (g.dependencies id) { w with entered := id :: w.entered }
        exact List.Subset.trans (List.subset_cons_self _ _) hfold

theorem foldl_eq_of_left {step step' : Walk → Nat → Walk} {bound : Nat}
    (hgrows : ∀ w id, w.entered ⊆ (step w id).entered)
    (heq : ∀ w id, w.left g < bound → id ∈ g.ids → step' w id = step w id) {l : List Nat}
    (hl : ∀ id ∈ l, id ∈ g.ids) (hw : w.left g < bound) : l.foldl step' w = l.foldl step w := by
  induction l generalizing w with
  | nil => rfl
  | cons id rest ih =>
      rw [List.foldl_cons, List.foldl_cons, heq w id hw (hl id List.mem_cons_self)]
      refine ih (fun c hc => hl c (List.mem_cons_of_mem _ hc)) ?_
      exact Nat.lt_of_le_of_lt (left_le (hgrows w id)) hw

/-- A bound on the nesting that exceeds the ids left is never hit. -/
theorem visit_eq_of_left {depth' : Nat} (hdepth : w.left g < depth) (hdepth' : w.left g < depth')
    (hid : id ∈ g.ids) : g.visit depth' w id = g.visit depth w id := by
  induction depth generalizing w id depth' with
  | zero => omega
  | succ depth ih =>
      obtain ⟨depth', rfl⟩ : ∃ d, depth' = d + 1 := ⟨depth' - 1, by omega⟩
      unfold visit
      split
      · rfl
      · rename_i hnew
        have hnew : id ∉ w.entered := by simpa using hnew
        have hlt := left_enter hid hnew
        have hfold : (g.dependencies id).foldl (g.visit depth') { w with entered := id :: w.entered } =
            (g.dependencies id).foldl (g.visit depth) { w with entered := id :: w.entered } := by
          refine foldl_eq_of_left (entered_subset_visit depth) (fun w₁ c hw hc => ?_)
            (fun c hc => mem_ids_of_imports hc) hlt
          exact ih (by omega) (by omega) hc
        rw [hfold]

theorem walk_eq_of_lt (hdepth : g.size + g.edgeCount < depth) :
    (List.range g.size).foldl (g.visit depth) ⟨[], []⟩ = g.walk := by
  have hleft : left g ⟨[], []⟩ < g.size + g.edgeCount + 1 := unseen_lt_bound g _
  refine foldl_eq_of_left (entered_subset_visit _) (fun w id hw hid => ?_) (fun id hid => ?_) hleft
  · exact visit_eq_of_left hw (by omega) hid
  · exact mem_ids_of_lt (List.mem_range.mp hid)

end nesting

/-- The order holds the modules and the targets of imports, each once, and an import that does not
lead back comes first. The walk that makes it ends by itself: with any bound on the nesting from
that of the walk on it is the same. -/
theorem topologicalOrder_dependencies_first (g : ModuleGraph) :
    g.topologicalOrder.Nodup ∧
    (∀ a, a ∈ g.topologicalOrder ↔ a < g.size ∨ ∃ b, g.Imports b a) ∧
    (∀ a b, g.Imports a b → ¬g.Reaches b a →
      ∃ before after, g.topologicalOrder = before ++ a :: after ∧ b ∈ before) ∧
    ∀ depth, g.size + g.edgeCount < depth →
      (List.range g.size).foldl (g.visit depth) ⟨[], []⟩ = g.walk := by
  refine ⟨nodup_topologicalOrder g, fun a => ⟨fun ha => ?_, ?_⟩, fun a b himport hback => ?_,
    fun _ => walk_eq_of_lt⟩
  · exact mem_ids_iff.mp (mem_ids_of_mem_topologicalOrder ha)
  · rintro (ha | ⟨b, hb⟩)
    · exact mem_topologicalOrder ha
    · exact mem_topologicalOrder_of_imports hb
  · have ha : g.Reaches a b := .single himport
    obtain ⟨before, after, horder⟩ := List.append_of_mem (mem_topologicalOrder ha.lt_size)
    exact ⟨before, after, horder, mem_before_of_imports horder himport hback⟩

end TypeResolution.ModuleGraph
