import TypeResolution.Proofs.Tidy.Basic
import TypeResolution.Type.Template

/-!
Patterns against texts. The matcher tries all cuts of a text and finds one whenever there is one.
The scan that captures what the holes stand for commits itself to the first occurrence of each text
of the pattern: what it accepts the matcher accepts too, and it misses nothing as long as a hole
comes after every text where it could have stopped too early.
-/

namespace TypeResolution.Template

/-- The texts that spans describe, when a hole stands for the pieces that `takes` says. -/
inductive Spells (takes : TypeId → List Char → Prop) : List Span → List Char → Prop
  | nil : Spells takes [] []
  | text {a : String} {rest : List Span} {tail : List Char} : Spells takes rest tail →
      Spells takes (.text a :: rest) (a.toList ++ tail)
  | hole {t : TypeId} {piece tail : List Char} {rest : List Span} : takes t piece →
      Spells takes rest tail → Spells takes (.hole t :: rest) (piece ++ tail)

variable {takes takes' : TypeId → List Char → Prop} {spans rest : List Span} {t : TypeId}
  {a : String} {text head tail next before : List Char}

namespace Spells

theorem nil_iff : Spells takes [] text ↔ text = [] := by
  constructor
  · rintro ⟨⟩
    rfl
  · rintro rfl
    exact .nil

theorem text_iff :
    Spells takes (.text a :: rest) text ↔
      ∃ tail, text = a.toList ++ tail ∧ Spells takes rest tail := by
  constructor
  · rintro ⟨⟩
    exact ⟨_, rfl, ‹_›⟩
  · rintro ⟨tail, rfl, h⟩
    exact .text h

theorem hole_iff :
    Spells takes (.hole t :: rest) text ↔
      ∃ piece tail, text = piece ++ tail ∧ takes t piece ∧ Spells takes rest tail := by
  constructor
  · rintro ⟨⟩
    exact ⟨_, _, rfl, ‹_›, ‹_›⟩
  · rintro ⟨piece, tail, rfl, hpiece, h⟩
    exact .hole hpiece h

theorem imp (h : Spells takes spans text)
    (himp : ∀ t, .hole t ∈ spans → ∀ piece, takes t piece → takes' t piece) :
    Spells takes' spans text := by
  induction h with
  | nil => exact .nil
  | text _ ih => exact .text (ih fun t ht => himp t (List.mem_cons_of_mem _ ht))
  | hole hpiece _ ih =>
      apply Spells.hole (himp _ (List.mem_cons_self ..) _ hpiece)
      exact ih fun t ht => himp t (List.mem_cons_of_mem _ ht)

theorem congr (hiff : ∀ t, .hole t ∈ spans → ∀ piece, takes t piece ↔ takes' t piece) :
    Spells takes spans text ↔ Spells takes' spans text :=
  ⟨fun h => h.imp fun t ht piece => (hiff t ht piece).mp,
    fun h => h.imp fun t ht piece => (hiff t ht piece).mpr⟩

end Spells

theorem anyCut_iff {p : List Char → List Char → Bool} :
    anyCut p before text ↔
      ∃ piece tail, text = piece ++ tail ∧ p (piece.reverse ++ before) tail := by
  induction text generalizing before with
  | nil =>
      simp only [anyCut, List.nil_eq_append_iff]
      constructor
      · exact fun h => ⟨[], [], ⟨rfl, rfl⟩, h⟩
      · rintro ⟨_, _, ⟨rfl, rfl⟩, h⟩
        exact h
  | cons c text ih =>
      simp only [anyCut, Bool.or_eq_true, ih]
      constructor
      · rintro (h | ⟨piece, tail, rfl, h⟩)
        · exact ⟨[], c :: text, rfl, h⟩
        · exact ⟨c :: piece, tail, rfl, by simpa using h⟩
      · rintro ⟨piece, tail, htext, h⟩
        cases piece with
        | nil =>
            obtain rfl : c :: text = tail := htext
            exact .inl h
        | cons d piece =>
            obtain ⟨rfl, rfl⟩ := List.cons.inj htext
            exact .inr ⟨piece, tail, rfl, by simpa using h⟩

/-- The matcher misses no way to cut the text. -/
theorem matchSpans_iff {accepts : List Char → TypeId → Bool} :
    matchSpans accepts spans text ↔ Spells (fun t piece => accepts piece.reverse t) spans text := by
  induction spans generalizing text with
  | nil => simp [matchSpans, Spells.nil_iff]
  | cons span rest ih =>
      cases span with
      | text a =>
          rw [Spells.text_iff]
          simp only [matchSpans]
          cases hafter : after? a.toList text with
          | none =>
              simp only [Bool.false_eq_true, false_iff, not_exists, not_and]
              rintro tail rfl
              cases hafter.symm.trans (after?_eq_some_iff.mpr rfl)
          | some tail =>
              obtain rfl := after?_eq_some_iff.mp hafter
              rw [ih]
              constructor
              · exact fun h => ⟨tail, rfl, h⟩
              · rintro ⟨tail', heq, h⟩
                rwa [List.append_cancel_left heq]
      | hole t =>
          rw [Spells.hole_iff]
          simp only [matchSpans, anyCut_iff, Bool.and_eq_true, List.append_nil, ih]

/-- A cut lies before an occurrence of the text that is looked for, and no later than any other. -/
theorem cutBefore_spec (h : cutBefore next before text = some (head, tail)) :
    ∃ piece, head = before.reverse ++ piece ∧ text = piece ++ tail ∧ next <+: tail ∧
      ∀ other rest, text = other ++ rest → next <+: rest → piece.length ≤ other.length := by
  induction text generalizing before with
  | nil =>
      simp only [cutBefore] at h
      split at h
      · rename_i hempty
        cases h
        exact ⟨[], by simp, rfl, by simpa using hempty, fun _ _ _ _ => Nat.zero_le _⟩
      · cases h
  | cons c text ih =>
      simp only [cutBefore] at h
      split at h
      · rename_i hfound
        cases h
        exact ⟨[], by simp, rfl, by simpa using hfound, fun _ _ _ _ => Nat.zero_le _⟩
      · rename_i hmissed
        obtain ⟨piece, rfl, rfl, hnext, hfirst⟩ := ih h
        refine ⟨c :: piece, by simp, rfl, hnext, fun other rest htext hrest => ?_⟩
        cases other with
        | nil =>
            obtain rfl : c :: (piece ++ tail) = rest := htext
            exact absurd (List.isPrefixOf_iff_prefix.mpr hrest) hmissed
        | cons d other => exact Nat.succ_le_succ (hfirst other rest (List.cons.inj htext).2 hrest)

theorem isSome_cutBefore (before : List Char) (h : next <:+: text) :
    (cutBefore next before text).isSome := by
  induction text generalizing before with
  | nil => simp [cutBefore, List.infix_nil.mp h]
  | cons c text ih =>
      simp only [cutBefore]
      split
      · rfl
      · rename_i hmissed
        apply ih
        exact (List.infix_cons_iff.mp h).resolve_left
          fun hprefix => hmissed (List.isPrefixOf_iff_prefix.mpr hprefix)

theorem cutBefore_eq_some_iff : cutBefore next [] text = some (head, tail) ↔
    text = head ++ tail ∧ next <+: tail ∧
      ∀ other rest, text = other ++ rest → next <+: rest → head.length ≤ other.length := by
  constructor
  · intro h
    obtain ⟨piece, rfl, rfl, hnext, hfirst⟩ := cutBefore_spec h
    exact ⟨rfl, hnext, hfirst⟩
  · rintro ⟨rfl, hnext, hfirst⟩
    obtain ⟨⟨first, found⟩, hcut⟩ := Option.isSome_iff_exists.mp
      (isSome_cutBefore [] (hnext.isInfix.trans (List.suffix_append head tail).isInfix))
    obtain ⟨_, rfl, htext, hfound, hleast⟩ := cutBefore_spec hcut
    have hlength : head.length = first.length :=
      Nat.le_antisymm (hfirst _ _ htext hfound) (hleast _ _ rfl hnext)
    obtain ⟨rfl, rfl⟩ := List.append_inj htext hlength
    exact hcut

section capture

variable {captured : List (TypeId × String)} {u : TypeId}

theorem capture_text_iff : capture (.text a :: rest) text = some captured ↔
    ∃ tail, text = a.toList ++ tail ∧ capture rest tail = some captured := by
  simp only [capture, Option.bind_eq_bind, Option.bind_eq_some_iff, after?_eq_some_iff]

theorem capture_before_iff : capture (.hole t :: .text a :: rest) text = some captured ↔
    ∃ head tail later, cutBefore a.toList [] text = some (head, tail) ∧
      capture (.text a :: rest) tail = some later ∧ captured = (t, String.ofList head) :: later := by
  rw [capture]
  simp only [Option.bind_eq_bind, Option.bind_eq_some_iff, Prod.exists, Option.pure_def,
    Option.some.injEq, eq_comm (a := captured), ← exists_and_left]

theorem capture_holes_iff : capture (.hole t :: .hole u :: rest) text = some captured ↔
    ∃ c tail later, text = c :: tail ∧ capture (.hole u :: rest) tail = some later ∧
      captured = (t, String.ofList [c]) :: later := by
  cases text with
  | nil => simp [capture]
  | cons c tail =>
      rw [capture]
      simp [Option.bind_eq_some_iff, eq_comm (a := captured)]

theorem isSome_capture_text : (capture (.text a :: rest) text).isSome ↔
    ∃ tail, text = a.toList ++ tail ∧ (capture rest tail).isSome := by
  simp only [Option.isSome_iff_exists, capture_text_iff]
  exact ⟨fun ⟨later, tail, htext, h⟩ => ⟨tail, htext, later, h⟩,
    fun ⟨tail, htext, later, h⟩ => ⟨later, tail, htext, h⟩⟩

theorem isSome_capture_before : (capture (.hole t :: .text a :: rest) text).isSome ↔
    ∃ head tail, cutBefore a.toList [] text = some (head, tail) ∧
      (capture (.text a :: rest) tail).isSome := by
  simp only [Option.isSome_iff_exists, capture_before_iff]
  exact ⟨fun ⟨_, head, tail, later, hcut, h, _⟩ => ⟨head, tail, hcut, later, h⟩,
    fun ⟨head, tail, hcut, later, h⟩ => ⟨_, head, tail, later, hcut, h, rfl⟩⟩

theorem isSome_capture_holes : (capture (.hole t :: .hole u :: rest) text).isSome ↔
    ∃ c tail, text = c :: tail ∧ (capture (.hole u :: rest) tail).isSome := by
  simp only [Option.isSome_iff_exists, capture_holes_iff]
  exact ⟨fun ⟨_, c, tail, later, htext, h, _⟩ => ⟨c, tail, htext, later, h⟩,
    fun ⟨c, tail, htext, later, h⟩ => ⟨_, c, tail, later, htext, h, rfl⟩⟩

/-- Every hole stands for any piece. -/
abbrev Open : TypeId → List Char → Prop := fun _ _ => True

/-- What is captured from a text puts it together again. -/
theorem spells_of_capture (h : (capture spans text).isSome) : Spells Open spans text := by
  induction spans generalizing text with
  | nil =>
      rw [Spells.nil_iff]
      cases text with
      | nil => rfl
      | cons _ _ => simp [capture] at h
  | cons span rest ih =>
      cases span with
      | text a =>
          obtain ⟨tail, rfl, htail⟩ := isSome_capture_text.mp h
          exact .text (ih htail)
      | hole t =>
          match rest with
          | [] =>
              rw [Spells.hole_iff]
              exact ⟨text, [], by simp, trivial, .nil⟩
          | .text a :: rest =>
              obtain ⟨head, tail, hcut, htail⟩ := isSome_capture_before.mp h
              obtain ⟨piece, -, rfl, -⟩ := cutBefore_spec hcut
              exact .hole trivial (ih htail)
          | .hole u :: rest =>
              obtain ⟨c, tail, rfl, htail⟩ := isSome_capture_holes.mp h
              rw [Spells.hole_iff]
              exact ⟨[c], tail, rfl, trivial, ih htail⟩

/-- Holes and texts take turns. -/
def Alternates (spans : List Span) : Prop := spans.IsChain fun a b => a.isText = !b.isText

/-- If the spans close with a text, then it does not occur in the text before its end. -/
def ClosesLate (spans : List Span) (text : List Char) : Prop :=
  ∀ a, spans.getLast? = some (.text a) → ∀ start stop, text = start ++ a.toList ++ stop → stop = []

theorem ClosesLate.of_cons {span : Span} (h : ClosesLate (span :: rest) (head ++ tail)) :
    ClosesLate rest tail := by
  intro a ha start stop htail
  apply h a _ (head ++ start) stop (by simp [htail])
  rw [List.getLast?_cons, ha]
  rfl

/-- What a longer text adds goes into the hole that comes next. -/
theorem Spells.extend (h : Spells Open rest tail) (halternates : Alternates (.text a :: rest))
    (hcloses : ClosesLate (.text a :: rest) (a.toList ++ (head ++ tail))) :
    Spells Open rest (head ++ tail) := by
  match rest with
  | [] =>
      rw [Spells.nil_iff]
      exact hcloses a rfl [] (head ++ tail) (by simp)
  | .text b :: rest => simp [Alternates, Span.isText] at halternates
  | .hole t :: rest =>
      obtain ⟨piece, tail, rfl, -, h⟩ := Spells.hole_iff.mp h
      rw [← List.append_assoc]
      exact .hole trivial h

/-- A text that the pattern describes is captured. -/
theorem capture_of_spells (halternates : Alternates spans) (hcloses : ClosesLate spans text)
    (h : Spells Open spans text) : (capture spans text).isSome := by
  induction spans generalizing text with
  | nil => simp [capture, Spells.nil_iff.mp h]
  | cons span rest ih =>
      have hrest : Alternates rest := halternates.tail
      cases span with
      | text a =>
          obtain ⟨tail, rfl, htail⟩ := Spells.text_iff.mp h
          exact isSome_capture_text.mpr ⟨tail, rfl, ih hrest hcloses.of_cons htail⟩
      | hole t =>
          match rest with
          | [] => simp [capture]
          | .hole u :: rest => simp [Alternates, Span.isText] at halternates
          | .text a :: rest =>
              obtain ⟨piece, _, rfl, -, h⟩ := Spells.hole_iff.mp h
              obtain ⟨tail, rfl, htail⟩ := Spells.text_iff.mp h
              have hinfix : a.toList <:+: piece ++ (a.toList ++ tail) :=
                (List.prefix_append a.toList tail).isInfix.trans
                  (List.suffix_append piece _).isInfix
              obtain ⟨⟨head, found⟩, hcut⟩ := Option.isSome_iff_exists.mp
                (isSome_cutBefore [] hinfix)
              obtain ⟨first, -, htext, ⟨skipped, rfl⟩, hfirst⟩ := cutBefore_spec hcut
              -- the first occurrence is no later than the one that the description uses
              have hle := hfirst piece _ rfl (List.prefix_append _ _)
              obtain ⟨more, rfl⟩ : ∃ more, skipped = more ++ tail := by
                have hlength := congrArg List.length htext
                simp only [List.length_append] at hlength
                have hsuffix : tail <:+ first ++ (a.toList ++ skipped) := by
                  rw [← htext, ← List.append_assoc]
                  exact List.suffix_append _ _
                obtain ⟨more, hmore⟩ := List.suffix_of_suffix_length_le hsuffix
                  ((List.suffix_append a.toList skipped).trans (List.suffix_append first _))
                  (by omega)
                exact ⟨more, hmore.symm⟩
              have hcloses : ClosesLate (.text a :: rest) (a.toList ++ (more ++ tail)) := by
                rw [htext] at hcloses
                exact hcloses.of_cons
              exact isSome_capture_before.mpr ⟨head, _, hcut,
                ih hrest hcloses (.text (htail.extend hrest hcloses))⟩

end capture

end TypeResolution.Template
