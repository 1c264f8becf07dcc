import Mathlib.Data.List.Nodup
import Mathlib.Logic.Relation
import TypeResolution.Proofs.Module.Order

/-!
What the search for cycles keeps. A module that has been entered is on the stack until its cycle is
complete. The modules that the search is in the middle of lead to all that stands above them on the
stack, and what is on the stack leads back to one of them. So when a module leads to none that was
entered before it, the stack from it on is the set of modules that reach it and are reached by it.
-/

namespace TypeResolution.ModuleGraph

variable {g : ModuleGraph} {a b id : Nat}

/-- The first module reaches the second one or is the same. -/
def Leads (g : ModuleGraph) : Nat → Nat → Prop := Relation.ReflTransGen g.Imports

/-- Two modules that reach each other. -/
def Mutual (g : ModuleGraph) (a b : Nat) : Prop := g.Reaches a b ∧ g.Reaches b a

theorem Mutual.symm (h : g.Mutual a b) : g.Mutual b a := ⟨h.2, h.1⟩

theorem Mutual.trans {c : Nat} (h : g.Mutual a b) (h' : g.Mutual b c) : g.Mutual a c :=
  ⟨h.1.trans h'.1, h'.2.trans h.2⟩

theorem Mutual.of_leads (hab : g.Leads a b) (hba : g.Leads b a) (hne : a ≠ b) : g.Mutual a b := by
  rcases Relation.reflTransGen_iff_eq_or_transGen.mp hab with h | hab
  · exact absurd h.symm hne
  rcases Relation.reflTransGen_iff_eq_or_transGen.mp hba with h | hba
  · exact absurd h hne
  exact ⟨hab, hba⟩

namespace Search

variable {s s' : Search} {path : List Nat}

/-- The number of a module that has been entered. -/
def number (s : Search) (a : Nat) : Nat := (s.index a).getD 0

theorem index_eq (h : s.seen a) : s.index a = some (s.number a) := by
  obtain ⟨n, hn⟩ := Option.isSome_iff_exists.mp h
  simp [number, hn]

theorem seen_enter : (s.enter id).seen a ↔ a = id ∨ s.seen a := by
  by_cases h : a = id <;> simp [enter, seen, h]

theorem number_enter_self : (s.enter id).number id = s.next := by
  simp [enter, number]

theorem ne_of_seen (hnew : ¬s.seen id) (ha : s.seen a) : a ≠ id := by
  rintro rfl
  exact hnew ha

theorem number_enter (hnew : ¬s.seen id) (ha : s.seen a) : (s.enter id).number a = s.number a := by
  simp [enter, number, ne_of_seen hnew ha]

/-- What the search keeps while it is in the middle of the modules of `path`. -/
structure Sound (g : ModuleGraph) (path : List Nat) (s : Search) : Prop where
  numbered : ∀ a, s.seen a → s.number a < s.next
  entered : ∀ a ∈ s.stack, s.seen a
  sorted : s.stack.Pairwise fun a b => s.number b < s.number a
  path_subset : path ⊆ s.stack
  scanned : ∀ a, s.seen a → a ∉ path → ∀ b, g.Imports a b → s.seen b
  complete : ∀ a, s.seen a → a ∉ s.stack → ∀ b, g.Imports a b → b ∉ s.stack
  leads : ∀ a ∈ path, ∀ b ∈ s.stack, s.number a ≤ s.number b → g.Leads a b
  leads_back : ∀ b ∈ s.stack, ∃ a ∈ path, s.number a ≤ s.number b ∧ g.Leads b a
  found_ne : ∀ c ∈ s.found, c ≠ []
  found_nodup : ∀ c ∈ s.found, c.Nodup
  found_sorted : ∀ c ∈ s.found, c.Pairwise fun a b => s.number a < s.number b
  found_closed : ∀ c ∈ s.found, ∀ a ∈ c, s.seen a ∧ a ∉ s.stack
  found_iff : ∀ c ∈ s.found, ∀ a ∈ c, ∀ b, b ∈ c ↔ g.Mutual a b
  found_apart : s.found.Pairwise List.Disjoint
  found_all : ∀ a, s.seen a → a ∉ s.stack → g.Mutual a a → ∃ c ∈ s.found, a ∈ c

theorem sound_start (g : ModuleGraph) : start.Sound g [] := by
  constructor <;> simp [start, seen]

theorem Sound.nodup (h : s.Sound g path) : s.stack.Nodup := by
  refine h.sorted.imp fun hlt heq => ?_
  subst heq
  exact Nat.lt_irrefl _ hlt

theorem Sound.not_mem_path (h : s.Sound g path) (ha : a ∉ s.stack) : a ∉ path :=
  fun hp => ha (h.path_subset hp)

/-- Imports of a module whose cycle is complete lead to such modules. -/
theorem Sound.complete_leads (h : s.Sound g path) (hab : g.Leads a b) (ha : s.seen a)
    (hstack : a ∉ s.stack) : s.seen b ∧ b ∉ s.stack := by
  induction hab with
  | refl => exact ⟨ha, hstack⟩
  | @tail b c _ hbc ih =>
      have hpath := h.not_mem_path ih.2
      exact ⟨h.scanned b ih.1 hpath c hbc, h.complete b ih.1 ih.2 c hbc⟩

theorem Sound.lower (h : s.Sound g path) (id : Nat) (bound : Option Nat) :
    (s.lower id bound).Sound g path := by
  cases bound with
  | none => exact h
  | some n => exact { h with }

theorem Sound.enter (h : s.Sound g path) (hnew : ¬s.seen id)
    (hpath : ∀ a ∈ path, g.Leads a id) : (s.enter id).Sound g (id :: path) := by
  have hnumber : ∀ a, s.seen a → (s.enter id).number a = s.number a := fun a => number_enter hnew
  have hself : (s.enter id).number id = s.next := number_enter_self
  have hstack : id ∉ s.stack := fun hs => hnew (h.entered id hs)
  have hold : ∀ {a}, (s.enter id).seen a → a ≠ id → s.seen a := fun ha hne =>
    (seen_enter.mp ha).resolve_left hne
  -- a module that is off the stack is not the one that is entered
  have hclosed : ∀ {a}, (s.enter id).seen a → a ∉ (s.enter id).stack →
      s.seen a ∧ a ∉ s.stack := by
    intro a ha hs
    obtain ⟨hne, hs⟩ := not_or.mp (List.mem_cons.not.mp hs)
    exact ⟨hold ha hne, hs⟩
  constructor
  case numbered =>
    intro a ha
    rcases seen_enter.mp ha with rfl | ha
    · rw [hself]
      exact Nat.lt_succ_self _
    · rw [hnumber a ha]
      exact Nat.lt_succ_of_lt (h.numbered a ha)
  case entered =>
    intro a ha
    rcases List.mem_cons.mp ha with rfl | ha
    · exact seen_enter.mpr (.inl rfl)
    · exact seen_enter.mpr (.inr (h.entered a ha))
  case sorted =>
    refine List.pairwise_cons.mpr ⟨fun a ha => ?_, ?_⟩
    · rw [hself, hnumber a (h.entered a ha)]
      exact h.numbered a (h.entered a ha)
    · refine h.sorted.imp_of_mem fun ha hb hlt => ?_
      rw [hnumber _ (h.entered _ ha), hnumber _ (h.entered _ hb)]
      exact hlt
  case path_subset => exact List.cons_subset_cons id h.path_subset
  case scanned =>
    intro a ha hp b hab
    obtain ⟨hne, hp⟩ := not_or.mp (List.mem_cons.not.mp hp)
    exact seen_enter.mpr (.inr (h.scanned a (hold ha hne) hp b hab))
  case complete =>
    intro a ha hs b hab
    obtain ⟨ha, hs⟩ := hclosed ha hs
    have hb := h.scanned a ha (h.not_mem_path hs) b hab
    refine List.mem_cons.not.mpr (not_or.mpr ⟨?_, h.complete a ha hs b hab⟩)
    rintro rfl
    exact hnew hb
  case leads =>
    intro a ha b hb hle
    rcases List.mem_cons.mp hb with rfl | hb
    · rcases List.mem_cons.mp ha with rfl | ha
      · exact .refl
      · exact hpath a ha
    · have hlt := h.numbered b (h.entered b hb)
      rw [hnumber b (h.entered b hb)] at hle
      rcases List.mem_cons.mp ha with rfl | ha
      · omega
      · rw [hnumber a (h.entered a (h.path_subset ha))] at hle
        exact h.leads a ha b hb hle
  case leads_back =>
    intro b hb
    rcases List.mem_cons.mp hb with rfl | hb
    · exact ⟨b, List.mem_cons_self, Nat.le_refl _, .refl⟩
    · obtain ⟨a, ha, hle, hba⟩ := h.leads_back b hb
      refine ⟨a, List.mem_cons_of_mem _ ha, ?_, hba⟩
      rw [hnumber a (h.entered a (h.path_subset ha)), hnumber b (h.entered b hb)]
      exact hle
  case found_ne => exact h.found_ne
  case found_nodup => exact h.found_nodup
  case found_sorted =>
    intro c hc
    refine (h.found_sorted c hc).imp_of_mem fun ha hb hlt => ?_
    rw [hnumber _ (h.found_closed c hc _ ha).1, hnumber _ (h.found_closed c hc _ hb).1]
    exact hlt
  case found_closed =>
    intro c hc a ha
    obtain ⟨hindex, hs⟩ := h.found_closed c hc a ha
    refine ⟨seen_enter.mpr (.inr hindex), List.mem_cons.not.mpr (not_or.mpr ⟨?_, hs⟩)⟩
    rintro rfl
    exact hnew hindex
  case found_iff => exact h.found_iff
  case found_apart => exact h.found_apart
  case found_all =>
    intro a ha hs hmutual
    obtain ⟨ha, hs⟩ := hclosed ha hs
    exact h.found_all a ha hs hmutual

/-- A later state of the search, with `added` on top of the stack. -/
structure Pushes (s s' : Search) (added : List Nat) : Prop where
  stack : s'.stack = added ++ s.stack
  fresh : ∀ a ∈ added, ¬s.seen a
  index : ∀ a, s.seen a → s'.seen a

theorem Pushes.refl (s : Search) : Pushes s s [] where
  stack := rfl
  fresh _ ha := absurd ha List.not_mem_nil
  index _ ha := ha

theorem pushes_enter (hnew : ¬s.seen id) : Pushes s (s.enter id) [id] where
  stack := rfl
  fresh a ha := List.mem_singleton.mp ha ▸ hnew
  index _ ha := seen_enter.mpr (.inr ha)

theorem Pushes.trans {s₁ s₂ : Search} {l l' : List Nat} (h : Pushes s s₁ l)
    (h' : Pushes s₁ s₂ l') : Pushes s s₂ (l' ++ l) where
  stack := by rw [h'.stack, h.stack, List.append_assoc]
  fresh a ha hs := by
    rcases List.mem_append.mp ha with ha | ha
    · exact h'.fresh a ha (h.index a hs)
    · exact h.fresh a ha hs
  index a ha := h'.index a (h.index a ha)

/-- A later state in which nothing has changed for the modules that were entered before. -/
structure Continues (s s' : Search) (added : List Nat) : Prop extends Pushes s s' added where
  next_le : s.next ≤ s'.next
  number : ∀ a, s.seen a → s'.number a = s.number a
  low : ∀ a, s.seen a → s'.low a = s.low a

theorem continues_enter (hnew : ¬s.seen id) : Continues s (s.enter id) [id] where
  toPushes := pushes_enter hnew
  next_le := Nat.le_succ _
  number a ha := number_enter hnew ha
  low a ha := by simp [enter, ne_of_seen hnew ha]

theorem Continues.trans {s₁ s₂ : Search} {l l' : List Nat} (h : Continues s s₁ l)
    (h' : Continues s₁ s₂ l') : Continues s s₂ (l' ++ l) where
  toPushes := h.toPushes.trans h'.toPushes
  next_le := Nat.le_trans h.next_le h'.next_le
  number a ha := (h'.number a (h.index a ha)).trans (h.number a ha)
  low a ha := (h'.low a (h.index a ha)).trans (h.low a ha)

theorem Continues.lower {added : List Nat} (h : Continues s s' added) (hnew : ¬s.seen id)
    (bound : Option Nat) : Continues s (s'.lower id bound) added := by
  cases bound with
  | none => exact h
  | some n =>
      refine { h with low := fun a ha => ?_ }
      rw [← h.low a ha]
      simp [Search.lower, ne_of_seen hnew ha]

theorem low_lower {n m : Nat} (h : s.low id = some n) :
    (s.lower id (some m)).low id = some (min n m) := by
  simp [lower, h]


/-- The search has been in the middle of `path` and then of `id`, and has followed the imports in
`done`. -/
structure Scans (g : ModuleGraph) (path : List Nat) (s : Search) (id : Nat) (done : List Nat)
    (s' : Search) (above : List Nat) (n : Nat) : Prop where
  sound : s'.Sound g (id :: path)
  continues : Continues s s' (above ++ [id])
  followed : ∀ a ∈ done, s'.seen a
  number_eq : s'.number id = s.next
  eq : s'.low id = some n
  le : n ≤ s'.number id
  attained : ∃ a ∈ s'.stack, s'.number a = n ∧ g.Leads id a
  above_le : ∀ a ∈ above, ∀ b ∈ s.stack, g.Imports a b → n ≤ s'.number b
  done_le : ∀ a ∈ done, a ∈ s.stack → n ≤ s'.number a

/-- The search of a module is over. -/
structure Connects (g : ModuleGraph) (path : List Nat) (s : Search) (id : Nat) (s' : Search)
    (added : List Nat) (n : Nat) : Prop where
  sound : s'.Sound g path
  continues : Continues s s' added
  entered : s'.seen id
  eq : s'.low id = some n
  attained : s.next ≤ n ∨ ∃ a ∈ s'.stack, s'.number a = n ∧ g.Leads id a
  added_le : ∀ a ∈ added, ∀ b ∈ s.stack, g.Imports a b → n ≤ s'.number b

section scan

variable {done above added : List Nat} {n m target : Nat} {s₂ : Search}

/-- Modules that reach each other form a cycle if there are several or `id`, one of them, imports
itself. -/
def Circular (g : ModuleGraph) (id : Nat) (members : List Nat) : Prop :=
  1 < members.length ∨ g.Imports id id

theorem scans_enter (h : s.Sound g path) (hnew : ¬s.seen id) (hpath : ∀ a ∈ path, g.Leads a id) :
    Scans g path s id [] (s.enter id) [] s.next where
  sound := h.enter hnew hpath
  continues := continues_enter hnew
  followed a ha := absurd ha List.not_mem_nil
  number_eq := number_enter_self
  eq := by simp [enter]
  le := Nat.le_of_eq number_enter_self.symm
  attained := ⟨id, List.mem_cons_self, number_enter_self, .refl⟩
  above_le a ha := absurd ha List.not_mem_nil
  done_le a ha := absurd ha List.not_mem_nil

theorem Scans.not_mem (h : Scans g path s id done s' above n) : ¬s.seen id :=
  h.continues.fresh id (List.mem_append_right _ (List.mem_singleton_self id))

theorem Scans.id_mem (h : Scans g path s id done s' above n) : id ∈ s'.stack :=
  h.sound.path_subset List.mem_cons_self

theorem Scans.stack_subset (h : Scans g path s id done s' above n) : s.stack ⊆ s'.stack := by
  rw [h.continues.stack]
  exact List.subset_append_right _ _

/-- An import that leads to a module on the stack. -/
theorem Scans.lower_stack (h : Scans g path s id done s' above n) (himport : g.Imports id target)
    (hstack : target ∈ s'.stack) :
    Scans g path s id (done ++ [target]) (s'.lower id (s'.index target)) above
      (min n (s'.number target)) := by
  have hindex := h.sound.entered target hstack
  rw [index_eq hindex]
  constructor
  case sound => exact h.sound.lower _ _
  case continues => exact h.continues.lower h.not_mem _
  case followed => simpa [or_imp, forall_and] using ⟨h.followed, hindex⟩
  case number_eq => exact h.number_eq
  case eq => exact low_lower h.eq
  case le => exact Nat.le_trans (Nat.min_le_left _ _) h.le
  case attained =>
    rcases Nat.le_total n (s'.number target) with hle | hle
    · rw [Nat.min_eq_left hle]
      exact h.attained
    · rw [Nat.min_eq_right hle]
      exact ⟨target, hstack, rfl, .single himport⟩
  case above_le =>
    intro a ha b hb hab
    exact Nat.le_trans (Nat.min_le_left _ _) (h.above_le a ha b hb hab)
  case done_le =>
    intro a ha hb
    rcases List.mem_append.mp ha with ha | ha
    · exact Nat.le_trans (Nat.min_le_left _ _) (h.done_le a ha hb)
    · rw [List.mem_singleton.mp ha]
      exact Nat.min_le_right _ _

/-- An import that leads to a module whose cycle is complete. -/
theorem Scans.skip (h : Scans g path s id done s' above n) (hindex : s'.seen target)
    (hstack : target ∉ s'.stack) : Scans g path s id (done ++ [target]) s' above n := by
  refine { h with followed := ?_, done_le := ?_ }
  · simpa [or_imp, forall_and] using ⟨h.followed, hindex⟩
  · intro a ha hs
    rcases List.mem_append.mp ha with ha | ha
    · exact h.done_le a ha hs
    · rw [List.mem_singleton.mp ha] at hs
      exact absurd (h.stack_subset hs) hstack

/-- An import that leads to a new module, which has been searched. -/
theorem Scans.lower_new (h : Scans g path s id done s' above n) (himport : g.Imports id target)
    (hnew : ¬s'.seen target) (hinner : Connects g (id :: path) s' target s₂ added m) :
    Scans g path s id (done ++ [target]) (s₂.lower id (s₂.low target)) (added ++ above)
      (min n m) := by
  have hcontinues := h.continues.trans hinner.continues
  have hindex : ∀ a ∈ s'.stack, s₂.number a = s'.number a := fun a ha =>
    hinner.continues.number a (h.sound.entered a ha)
  have hnumber : ∀ a ∈ s.stack, s₂.number a = s'.number a := fun a ha => hindex a (h.stack_subset ha)
  have hgrows : s'.stack ⊆ s₂.stack := by
    rw [hinner.continues.stack]
    exact List.subset_append_right _ _
  have hlow : s₂.low id = some n := by
    rw [hinner.continues.low id (h.sound.entered id h.id_mem)]
    exact h.eq
  rw [hinner.eq]
  constructor
  case sound => exact hinner.sound.lower _ _
  case continues =>
    rw [List.append_assoc]
    exact hcontinues.lower h.not_mem _
  case followed =>
    intro a ha
    change s₂.seen a
    rcases List.mem_append.mp ha with ha | ha
    · exact hinner.continues.index a (h.followed a ha)
    · rw [List.mem_singleton.mp ha]
      exact hinner.entered
  case number_eq => exact (hindex id h.id_mem).trans h.number_eq
  case eq => exact low_lower hlow
  case le =>
    change min n m ≤ s₂.number id
    rw [hindex id h.id_mem]
    exact Nat.le_trans (Nat.min_le_left _ _) h.le
  case attained =>
    rcases Nat.le_total n m with hle | hle
    · rw [Nat.min_eq_left hle]
      obtain ⟨a, ha, heq, hlead⟩ := h.attained
      exact ⟨a, hgrows ha, (hindex a ha).trans heq, hlead⟩
    · rw [Nat.min_eq_right hle]
      rcases hinner.attained with hnext | ⟨a, ha, heq, hlead⟩
      · -- what is entered now has a number above that of `id`, which bounds `n`
        have hid := h.sound.numbered id (h.sound.entered id h.id_mem)
        have hle' := h.le
        omega
      · exact ⟨a, ha, heq, .head himport hlead⟩
  case above_le =>
    intro a ha b hb hab
    change min n m ≤ s₂.number b
    rcases List.mem_append.mp ha with ha | ha
    · exact Nat.le_trans (Nat.min_le_right _ _) (hinner.added_le a ha b (h.stack_subset hb) hab)
    · rw [hnumber b hb]
      exact Nat.le_trans (Nat.min_le_left _ _) (h.above_le a ha b hb hab)
  case done_le =>
    intro a ha hs
    change min n m ≤ s₂.number a
    rw [hnumber a hs]
    rcases List.mem_append.mp ha with ha | ha
    · exact Nat.le_trans (Nat.min_le_left _ _) (h.done_le a ha hs)
    · rw [List.mem_singleton.mp ha] at hs
      exact absurd (h.sound.entered target (h.stack_subset hs)) hnew

end scan

section leave

variable {done above : List Nat} {n : Nat} (h : Scans g path s id (g.dependencies id) s' above n)

include h

theorem Scans.stack_eq : s'.stack = above ++ id :: s.stack := by
  rw [h.continues.stack, List.append_assoc, List.singleton_append]

theorem Scans.id_not_mem_above : id ∉ above := by
  intro hid
  have hnodup := h.sound.nodup
  rw [h.stack_eq] at hnodup
  exact (List.nodup_append.mp hnodup).2.2 id hid id List.mem_cons_self rfl

theorem Scans.number_lt {a : Nat} (ha : a ∈ s.stack) : s'.number a < s'.number id := by
  have hsorted := h.sound.sorted
  rw [h.stack_eq] at hsorted
  exact (List.pairwise_cons.mp (List.pairwise_append.mp hsorted).2.1).1 a ha

theorem Scans.lt_number {a : Nat} (ha : a ∈ above) : s'.number id < s'.number a := by
  have hsorted := h.sound.sorted
  rw [h.stack_eq] at hsorted
  exact (List.pairwise_append.mp hsorted).2.2 a ha id List.mem_cons_self

/-- All imports of the modules that the search has left have been entered. -/
theorem Scans.scanned {a : Nat} (ha : s'.seen a) (hpath : a ∉ path) {b : Nat}
    (hab : g.Imports a b) : s'.seen b := by
  by_cases hid : a = id
  · subst hid
    exact h.followed b hab
  · exact h.sound.scanned a ha (List.mem_cons.not.mpr (not_or.mpr ⟨hid, hpath⟩)) b hab

/-- A module that leads to an earlier one stays on the stack. -/
theorem Scans.connects_of_lt (hlt : n < s'.number id) :
    Connects g path s id s' (above ++ [id]) n := by
  constructor
  case sound =>
    refine { h.sound with path_subset := ?_, scanned := ?_, leads := ?_, leads_back := ?_ }
    · exact (List.cons_subset.mp h.sound.path_subset).2
    · exact fun a ha hp b hab => h.scanned ha hp hab
    · exact fun a ha => h.sound.leads a (List.mem_cons_of_mem _ ha)
    · intro b hb
      obtain ⟨a, ha, hle, hba⟩ := h.sound.leads_back b hb
      rcases List.mem_cons.mp ha with rfl | ha
      · -- `a` is the module that is left; it leads to an earlier one, and that to one of `path`
        obtain ⟨c, hc, hcn, hac⟩ := h.attained
        obtain ⟨d, hd, hdle, hcd⟩ := h.sound.leads_back c hc
        rcases List.mem_cons.mp hd with rfl | hd
        · omega
        · exact ⟨d, hd, by omega, (hba.trans hac).trans hcd⟩
      · exact ⟨a, ha, hle, hba⟩
  case continues => exact h.continues
  case entered => exact h.sound.entered id h.id_mem
  case eq => exact h.eq
  case attained => exact .inr h.attained
  case added_le =>
    intro a ha b hb hab
    rcases List.mem_append.mp ha with ha | ha
    · exact h.above_le a ha b hb hab
    · rw [List.mem_singleton.mp ha] at hab
      exact h.done_le b hab hb

theorem Scans.root_leads {a : Nat} (ha : a ∈ above ++ [id]) : g.Leads id a := by
  have hmem : a ∈ s'.stack := by
    rw [h.continues.stack]
    exact List.mem_append_left _ ha
  refine h.sound.leads id List.mem_cons_self a hmem ?_
  rcases List.mem_append.mp ha with ha | ha
  · exact Nat.le_of_lt (h.lt_number ha)
  · exact Nat.le_of_eq (by rw [List.mem_singleton.mp ha])

section root

variable (hs : s.Sound g path) (hroot : n = s'.number id)

include hs hroot

/-- Imports of the modules from the root on lead to such modules or to complete ones. -/
theorem Scans.imports_root {a b : Nat} (ha : a ∈ above ++ [id]) (hab : g.Imports a b) :
    b ∈ above ++ [id] ∨ (s'.seen b ∧ b ∉ s'.stack) := by
  have hmem : a ∈ s'.stack := by
    rw [h.continues.stack]
    exact List.mem_append_left _ ha
  have hpath : a ∉ path := by
    intro hp
    exact h.continues.fresh a ha (hs.entered a (hs.path_subset hp))
  have hb := h.scanned (h.sound.entered a hmem) hpath hab
  by_cases hstack : b ∈ s'.stack
  · rw [h.continues.stack] at hstack
    refine (List.mem_append.mp hstack).elim .inl fun hold => ?_
    -- an import that leads below the root would have lowered it
    have hlt := h.number_lt hold
    have hle : n ≤ s'.number b := by
      rcases List.mem_append.mp ha with ha | ha
      · exact h.above_le a ha b hold hab
      · rw [List.mem_singleton.mp ha] at hab
        exact h.done_le b hab hold
    omega
  · exact .inr ⟨hb, hstack⟩

theorem Scans.leads_root {a b : Nat} (ha : a ∈ above ++ [id]) (hab : g.Leads a b) :
    b ∈ above ++ [id] ∨ (s'.seen b ∧ b ∉ s'.stack) := by
  induction hab with
  | refl => exact .inl ha
  | tail _ hbc ih =>
      rcases ih with hb | hb
      · exact h.imports_root hs hroot hb hbc
      · exact .inr (h.sound.complete_leads (.single hbc) hb.1 hb.2)

theorem Scans.leads_to_root {a : Nat} (ha : a ∈ above ++ [id]) : g.Leads a id := by
  have hmem : a ∈ s'.stack := by
    rw [h.continues.stack]
    exact List.mem_append_left _ ha
  obtain ⟨b, hb, -, hab⟩ := h.sound.leads_back a hmem
  rcases List.mem_cons.mp hb with rfl | hb
  · exact hab
  · -- a module of `path` is below the root, and nothing from the root on leads there
    rcases h.leads_root hs hroot ha hab with hroot | hcomplete
    · exact absurd (hs.entered b (hs.path_subset hb)) (h.continues.fresh b hroot)
    · exact absurd (h.stack_subset (hs.path_subset hb)) hcomplete.2

/-- The modules from the root on are the ones that reach it and are reached by it. -/
theorem Scans.mem_root_iff {a : Nat} :
    a ∈ above ++ [id] ↔ g.Leads id a ∧ g.Leads a id := by
  constructor
  · exact fun ha => ⟨h.root_leads ha, h.leads_to_root hs hroot ha⟩
  · rintro ⟨hida, haid⟩
    rcases h.leads_root hs hroot (List.mem_append_right _ (List.mem_singleton_self id)) hida with
      ha | ha
    · exact ha
    · exact absurd h.id_mem (h.sound.complete_leads haid ha.1 ha.2).2

/-- They form a cycle if there are several of them or the root imports itself. -/
theorem Scans.mutual_root {a b : Nat} (hcycle : Circular g id (above ++ [id]))
    (ha : a ∈ above ++ [id]) : b ∈ above ++ [id] ↔ g.Mutual a b := by
  obtain ⟨hida, haid⟩ := (h.mem_root_iff hs hroot).mp ha
  constructor
  · intro hb
    obtain ⟨hidb, hbid⟩ := (h.mem_root_iff hs hroot).mp hb
    by_cases hab : a = b
    · subst hab
      -- another member, or the root itself, closes the circle
      by_cases hself : a = id ∧ g.Imports id id
      · obtain ⟨rfl, himport⟩ := hself
        exact ⟨.single himport, .single himport⟩
      · obtain ⟨c, hc, hne⟩ : ∃ c ∈ above ++ [id], a ≠ c := by
          by_cases heq : a = id
          · have hlength := hcycle.resolve_right fun himport => hself ⟨heq, himport⟩
            have hne : above ≠ [] := by
              rintro rfl
              exact absurd hlength (by simp)
            obtain ⟨c, hc⟩ := List.exists_mem_of_ne_nil above hne
            refine ⟨c, List.mem_append_left _ hc, ?_⟩
            rintro rfl
            exact h.id_not_mem_above (heq ▸ hc)
          · exact ⟨id, List.mem_append_right _ (List.mem_singleton_self id), heq⟩
        obtain ⟨hidc, hcid⟩ := (h.mem_root_iff hs hroot).mp hc
        have hmutual := Mutual.of_leads (haid.trans hidc) (hcid.trans hida) hne
        exact hmutual.trans hmutual.symm
    · exact .of_leads (haid.trans hidb) (hbid.trans hida) hab
  · intro hab
    refine (h.mem_root_iff hs hroot).mpr ⟨hida.trans hab.1.to_reflTransGen, ?_⟩
    exact hab.2.to_reflTransGen.trans haid

/-- Else the root is in no cycle. -/
theorem Scans.not_mutual_root (hcycle : ¬Circular g id (above ++ [id])) {a : Nat}
    (ha : a ∈ above ++ [id]) : ¬g.Mutual a a := by
  obtain ⟨hlength, hself⟩ := not_or.mp hcycle
  have habove : above = [] := by
    refine List.eq_nil_of_length_eq_zero ?_
    rw [List.length_append, List.length_singleton] at hlength
    omega
  subst habove
  have ha : a = id := by simpa using ha
  subst ha
  rintro ⟨hreach, -⟩
  -- the first step goes to another module, which would be on the stack above
  obtain ⟨b, hab, hba⟩ := Relation.TransGen.head'_iff.mp hreach
  have hb : b ∈ [] ++ [a] := (h.mem_root_iff hs hroot).mpr ⟨.single hab, hba⟩
  have hb : b = a := by simpa using hb
  exact hself (hb ▸ hab)

/-- The search is sound with the modules from the root on taken from the stack. -/
theorem Scans.sound_pop {found : List (List Nat)}
    (hfound : Circular g id (above ++ [id]) ∧
        found = (above ++ [id]).reverse :: s'.found ∨
      ¬Circular g id (above ++ [id]) ∧ found = s'.found) :
    Sound g path { s' with stack := s.stack, found := found } := by
  have hold := h.stack_subset
  have hroots : ∀ a ∈ above ++ [id], s'.seen a := by
    intro a ha
    refine h.sound.entered a ?_
    rw [h.continues.stack]
    exact List.mem_append_left _ ha
  have hpopped : ∀ a ∈ above ++ [id], a ∉ s.stack := fun a ha hs' =>
    h.continues.fresh a ha (hs.entered a hs')
  -- what is off the stack now was off it before, or is from the root on
  have hcases : ∀ a ∉ s.stack, a ∈ above ++ [id] ∨ a ∉ s'.stack := by
    intro a ha
    rw [h.continues.stack]
    by_cases hroot : a ∈ above ++ [id]
    · exact .inl hroot
    · exact .inr (List.mem_append.not.mpr (not_or.mpr ⟨hroot, ha⟩))
  have hmem : ∀ c ∈ found, c ∈ s'.found ∨
      c = (above ++ [id]).reverse ∧ Circular g id (above ++ [id]) := by
    rcases hfound with ⟨hcycle, rfl⟩ | ⟨-, rfl⟩
    · intro c hc
      rcases List.mem_cons.mp hc with rfl | hc
      · exact .inr ⟨rfl, hcycle⟩
      · exact .inl hc
    · exact fun c hc => .inl hc
  have hsub : s'.found ⊆ found := by
    rcases hfound with ⟨-, rfl⟩ | ⟨-, rfl⟩
    · exact List.subset_cons_self _ _
    · exact List.Subset.refl _
  constructor
  case numbered => exact h.sound.numbered
  case entered => exact fun a ha => h.sound.entered a (hold ha)
  case sorted =>
    have hsorted := h.sound.sorted
    rw [h.continues.stack] at hsorted
    exact (List.pairwise_append.mp hsorted).2.1
  case path_subset => exact hs.path_subset
  case scanned => exact fun a ha hp b hab => h.scanned ha hp hab
  case complete =>
    intro a ha hstack b hab
    rcases hcases a hstack with hroot' | hclosed
    · rcases h.imports_root hs hroot hroot' hab with hb | hb
      · exact hpopped b hb
      · exact fun hb' => hb.2 (hold hb')
    · exact fun hb => h.sound.complete a ha hclosed b hab (hold hb)
  case leads =>
    exact fun a ha b hb => h.sound.leads a (List.mem_cons_of_mem _ ha) b (hold hb)
  case leads_back =>
    intro b hb
    obtain ⟨a, ha, hle, hba⟩ := h.sound.leads_back b (hold hb)
    rcases List.mem_cons.mp ha with rfl | ha
    · exact absurd (h.number_lt hb) (Nat.not_lt_of_le hle)
    · exact ⟨a, ha, hle, hba⟩
  case found_ne =>
    intro c hc
    rcases hmem c hc with hc | ⟨rfl, -⟩
    · exact h.sound.found_ne c hc
    · simp
  case found_nodup =>
    intro c hc
    rcases hmem c hc with hc | ⟨rfl, -⟩
    · exact h.sound.found_nodup c hc
    · have hnodup := h.sound.nodup
      rw [h.continues.stack] at hnodup
      exact List.nodup_reverse.mpr (List.nodup_append.mp hnodup).1
  case found_sorted =>
    intro c hc
    rcases hmem c hc with hc | ⟨rfl, -⟩
    · exact h.sound.found_sorted c hc
    · have hsorted := h.sound.sorted
      rw [h.continues.stack] at hsorted
      exact List.pairwise_reverse.mpr (List.pairwise_append.mp hsorted).1
  case found_closed =>
    intro c hc a ha
    rcases hmem c hc with hc | ⟨rfl, -⟩
    · obtain ⟨hindex, hstack⟩ := h.sound.found_closed c hc a ha
      exact ⟨hindex, fun hs' => hstack (hold hs')⟩
    · exact ⟨hroots a (List.mem_reverse.mp ha), hpopped a (List.mem_reverse.mp ha)⟩
  case found_iff =>
    intro c hc a ha b
    rcases hmem c hc with hc | ⟨rfl, hcycle⟩
    · exact h.sound.found_iff c hc a ha b
    · rw [List.mem_reverse] at ha ⊢
      exact h.mutual_root hs hroot hcycle ha
  case found_apart =>
    rcases hfound with ⟨-, rfl⟩ | ⟨-, rfl⟩
    · refine List.pairwise_cons.mpr ⟨fun c hc a ha hac => ?_, h.sound.found_apart⟩
      obtain ⟨-, hstack⟩ := h.sound.found_closed c hc a hac
      refine hstack ?_
      rw [h.continues.stack]
      exact List.mem_append_left _ (List.mem_reverse.mp ha)
    · exact h.sound.found_apart
  case found_all =>
    intro a ha hstack hmutual
    rcases hcases a hstack with hroot' | hclosed
    · rcases hfound with ⟨-, rfl⟩ | ⟨hno, -⟩
      · exact ⟨_, List.mem_cons_self, List.mem_reverse.mpr hroot'⟩
      · exact absurd hmutual (h.not_mutual_root hs hroot hno hroot')
    · obtain ⟨c, hc, hac⟩ := h.sound.found_all a ha hclosed hmutual
      exact ⟨c, hsub hc, hac⟩

end root

omit h in
theorem popTo_append {id : Nat} {above rest : List Nat} (h : id ∉ above) :
    popTo id (above ++ id :: rest) = (above ++ [id], rest) := by
  induction above with
  | nil => simp [popTo]
  | cons top above ih =>
      obtain ⟨hne, hrest⟩ := not_or.mp (List.mem_cons.not.mp h)
      simp [popTo, Ne.symm hne, ih hrest]

/-- A module that is left is on the stack with an earlier one, or its cycle is complete. -/
theorem Scans.leave (hs : s.Sound g path) :
    ∃ added m, Connects g path s id (s'.leave id ((g.dependencies id).contains id)) added m := by
  have hindex := index_eq (h.sound.entered id h.id_mem)
  by_cases hroot : n = s'.number id
  · have hleave : ∃ found, s'.leave id ((g.dependencies id).contains id) =
          { s' with stack := s.stack, found := found } ∧
        (Circular g id (above ++ [id]) ∧
            found = (above ++ [id]).reverse :: s'.found ∨
          ¬Circular g id (above ++ [id]) ∧ found = s'.found) := by
      unfold Search.leave
      rw [if_neg (by rw [h.eq, hindex, hroot]; simp), h.stack_eq, popTo_append h.id_not_mem_above]
      by_cases hcycle : Circular g id (above ++ [id])
      · refine ⟨_, if_pos ?_, .inl ⟨hcycle, rfl⟩⟩
        simpa [Circular, Imports] using hcycle
      · refine ⟨_, if_neg ?_, .inr ⟨hcycle, rfl⟩⟩
        simpa [Circular, Imports] using hcycle
    obtain ⟨found, hleave, hfound⟩ := hleave
    rw [hleave]
    refine ⟨[], n, ⟨h.sound_pop hs hroot hfound, ?_, ?_, h.eq, .inl ?_, ?_⟩⟩
    · exact { h.continues with stack := rfl, fresh := fun a ha => absurd ha List.not_mem_nil }
    · exact h.sound.entered id h.id_mem
    · exact Nat.le_of_eq (h.number_eq.symm.trans hroot.symm)
    · exact fun a ha => absurd ha List.not_mem_nil
  · have hlt : n < s'.number id := Nat.lt_of_le_of_ne h.le hroot
    unfold Search.leave
    rw [if_pos (by rw [h.eq, hindex]; simpa using hroot)]
    exact ⟨_, n, h.connects_of_lt hlt⟩

end leave

theorem Scans.unseen_lt {done above : List Nat} {n : Nat} (h : Scans g path s id done s' above n)
    (hid : id ∈ g.ids) : g.unseen s'.seen < g.unseen s.seen := by
  refine ModuleGraph.unseen_lt (fun a ha => ?_) hid ?_ ?_
  · exact h.continues.index a ha
  · exact Bool.eq_false_iff.mpr h.not_mem
  · exact h.sound.entered id h.id_mem

/-- One import after the other is followed, given that new modules are searched as described. -/
theorem Scans.foldl {inner : Search → Nat → Search} {rest done above : List Nat} {n : Nat}
    (h : Scans g path s id done s' above n) (hrest : ∀ b ∈ rest, g.Imports id b)
    (hinner : ∀ s₁ b, g.unseen s₁.seen < g.unseen s.seen →
      s₁.Sound g (id :: path) → ¬s₁.seen b → g.Imports id b →
      ∃ added m, Connects g (id :: path) s₁ b (inner s₁ b) added m) (hid : id ∈ g.ids) :
    ∃ above n, Scans g path s id (done ++ rest) (rest.foldl (follow inner id) s') above n := by
  induction rest generalizing s' done above n with
  | nil =>
      rw [List.append_nil]
      exact ⟨above, n, h⟩
  | cons b rest ih =>
      have himport := hrest b List.mem_cons_self
      have hstep : ∃ above n, Scans g path s id (done ++ [b]) (follow inner id s' b) above n := by
        unfold follow
        split
        · rename_i hnew
          have hnew : ¬s'.seen b := by simpa using hnew
          obtain ⟨added, m, hb⟩ := hinner s' b (h.unseen_lt hid) h.sound hnew himport
          exact ⟨_, _, h.lower_new himport hnew hb⟩
        · rename_i hindex
          have hindex : s'.seen b := by simpa using hindex
          split
          · rename_i hstack
            exact ⟨_, _, h.lower_stack himport (by simpa using hstack)⟩
          · rename_i hstack
            exact ⟨_, _, h.skip hindex (by simpa using hstack)⟩
      obtain ⟨above, n, hstep⟩ := hstep
      obtain ⟨above, n, hall⟩ := ih hstep fun c hc => hrest c (List.mem_cons_of_mem _ hc)
      rw [List.append_assoc, List.singleton_append] at hall
      exact ⟨above, n, hall⟩

end Search

open Search

theorem connect_connects {depth : Nat} {s : Search} {path : List Nat}
    (hdepth : g.unseen s.seen < depth) (hs : s.Sound g path) (hnew : ¬s.seen id)
    (hid : id ∈ g.ids) (hpath : ∀ a ∈ path, g.Leads a id) :
    ∃ added n, Connects g path s id (g.connect depth s id) added n := by
  induction depth generalizing s path id with
  | zero => omega
  | succ depth ih =>
      have hinner : ∀ s₁ b, g.unseen s₁.seen < g.unseen s.seen →
          s₁.Sound g (id :: path) → ¬s₁.seen b → g.Imports id b →
          ∃ added m, Connects g (id :: path) s₁ b (g.connect depth s₁ b) added m := by
        intro s₁ b hlt hs₁ hb himport
        refine ih (by omega) hs₁ hb (mem_ids_of_imports himport) fun a ha => ?_
        rcases List.mem_cons.mp ha with rfl | ha
        · exact .single himport
        · exact (hpath a ha).tail himport
      obtain ⟨above, n, hscan⟩ := (scans_enter hs hnew hpath).foldl (fun b hb => hb) hinner hid
      rw [List.nil_append] at hscan
      exact hscan.leave hs

/-- The search ends soundly, with every module entered. -/
theorem search_sound (g : ModuleGraph) :
    g.search.Sound g [] ∧ ∀ a < g.size, g.search.seen a := by
  have hall : ∀ (l : List Nat) (s : Search), s.Sound g [] → (∀ a ∈ l, a < g.size) →
      let s' := l.foldl (fun s id =>
        if s.seen id then s else g.connect (g.size + g.edgeCount + 1) s id) s
      s'.Sound g [] ∧ (∀ a, s.seen a → s'.seen a) ∧ ∀ a ∈ l, s'.seen a := by
    intro l
    induction l with
    | nil => exact fun s hs _ => ⟨hs, fun _ ha => ha, fun a ha => absurd ha List.not_mem_nil⟩
    | cons id rest ih =>
        intro s hs hl
        have hid := hl id List.mem_cons_self
        have hstep : ∃ s₁, (if s.seen id then s
              else g.connect (g.size + g.edgeCount + 1) s id) = s₁ ∧
            s₁.Sound g [] ∧ (∀ a, s.seen a → s₁.seen a) ∧ s₁.seen id := by
          refine ⟨_, rfl, ?_⟩
          split
          · rename_i hknown
            exact ⟨hs, fun _ ha => ha, by simpa using hknown⟩
          · rename_i hnew
            obtain ⟨added, n, h⟩ := connect_connects (unseen_lt_bound g _) hs (by simpa using hnew)
              (mem_ids_of_lt hid) fun a ha => absurd ha List.not_mem_nil
            exact ⟨h.sound, h.continues.index, h.entered⟩
        obtain ⟨s₁, heq, hs₁, hgrows, hmem⟩ := hstep
        rw [List.foldl_cons, heq]
        obtain ⟨hs₂, hgrows', hmem'⟩ := ih s₁ hs₁ fun a ha => hl a (List.mem_cons_of_mem _ ha)
        refine ⟨hs₂, fun a ha => hgrows' a (hgrows a ha), fun a ha => ?_⟩
        rcases List.mem_cons.mp ha with rfl | ha
        · exact hgrows' _ hmem
        · exact hmem' a ha
  obtain ⟨hs, -, hmem⟩ := hall (List.range g.size) start (sound_start g) fun a => List.mem_range.mp
  exact ⟨hs, fun a ha => hmem a (List.mem_range.mpr ha)⟩

/-- Nothing is left on the stack: nothing leads back to a module that the search is in the middle
of. -/
theorem stack_search (g : ModuleGraph) : g.search.stack = [] := by
  refine List.eq_nil_iff_forall_not_mem.mpr fun a ha => ?_
  obtain ⟨b, hb, -⟩ := (search_sound g).1.leads_back a ha
  exact absurd hb List.not_mem_nil

end TypeResolution.ModuleGraph
