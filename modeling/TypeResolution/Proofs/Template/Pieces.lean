import TypeResolution.Proofs.Template.Matching

/-!
A text in pieces, one for each span of a template. The matcher says whether there are such pieces
that the holes accept, and the scan of a pattern finds the ones that it describes: they spell the
text, and how much of it goes into a hole depends on nothing but what comes after the hole.
-/

namespace TypeResolution.Template

abbrev Cut : Type := List (Span × String)

namespace Cut

def spans (cut : Cut) : List Span := cut.map Prod.fst

def spelled (cut : Cut) : List Char := cut.flatMap fun part => part.2.toList

def held (cut : Cut) : List (TypeId × String) :=
  cut.filterMap fun
    | (.hole t, piece) => some (t, piece)
    | (.text _, _) => none

def Fits (takes : TypeId → List Char → Prop) (cut : Cut) : Prop :=
  ∀ part ∈ cut, match part.1 with
    | .text a => part.2 = a
    | .hole t => takes t part.2.toList

end Cut

/-- What a hole takes of the text that remains: all of it at the end of the pattern, as little as
possible before a text, and one character before another hole. -/
def Share (piece remaining : List Char) : List Span → Prop
  | [] => piece = remaining
  | .text a :: _ => ∀ other rest, remaining = other ++ rest → a.toList <+: rest →
      piece.length ≤ other.length
  | .hole _ :: _ => piece.length = 1

/-- The pieces of the holes are those of a scan. -/
def Cut.Scanned (cut : Cut) : Prop :=
  ∀ t piece after, (.hole t, piece) :: after <:+ cut →
    Share piece.toList (piece.toList ++ Cut.spelled after) (Cut.spans after)

variable {takes : TypeId → List Char → Prop} {pattern rest : List Span} {span : Span} {t u : TypeId}
  {a piece : String} {text head tail next : List Char} {captured : List (TypeId × String)}
  {cut : Cut} {s : Store}

namespace Cut

@[simp] theorem spans_nil : spans [] = [] := rfl

@[simp] theorem spans_cons : spans ((span, piece) :: cut) = span :: spans cut := rfl

@[simp] theorem spelled_nil : spelled [] = [] := rfl

@[simp] theorem spelled_cons : spelled ((span, piece) :: cut) = piece.toList ++ spelled cut := rfl

@[simp] theorem held_nil : held [] = [] := rfl

@[simp] theorem held_text : held ((.text a, piece) :: cut) = held cut := rfl

@[simp] theorem held_hole : held ((.hole t, piece) :: cut) = (t, piece) :: held cut := rfl

@[simp] theorem fits_nil : Fits takes [] := by simp [Fits]

@[simp] theorem fits_text : Fits takes ((.text a, piece) :: cut) ↔ piece = a ∧ Fits takes cut := by
  simp [Fits]

@[simp] theorem fits_hole :
    Fits takes ((.hole t, piece) :: cut) ↔ takes t piece.toList ∧ Fits takes cut := by
  simp [Fits]

@[simp] theorem scanned_nil : Scanned [] := by simp [Scanned]

@[simp] theorem scanned_text : Scanned ((.text a, piece) :: cut) ↔ Scanned cut := by
  simp [Scanned, List.suffix_cons_iff]

@[simp] theorem scanned_hole : Scanned ((.hole t, piece) :: cut) ↔
    Share piece.toList (piece.toList ++ spelled cut) (spans cut) ∧ Scanned cut := by
  constructor
  · intro h
    exact ⟨h t piece cut List.suffix_rfl,
      fun u other after hafter => h u other after (List.suffix_cons_iff.mpr (.inr hafter))⟩
  · rintro ⟨hshare, h⟩ u other after hafter
    obtain heq | hafter := List.suffix_cons_iff.mp hafter
    · cases heq
      exact hshare
    · exact h u other after hafter

end Cut

/-- To describe a text is to cut it into pieces that fit. -/
theorem spells_iff_cut : Spells takes pattern text ↔
    ∃ cut : Cut, cut.spans = pattern ∧ cut.spelled = text ∧ cut.Fits takes := by
  constructor
  · intro h
    induction h with
    | nil => exact ⟨[], rfl, rfl, Cut.fits_nil⟩
    | @text a rest tail _ ih =>
        obtain ⟨cut, rfl, rfl, hfits⟩ := ih
        exact ⟨(.text a, a) :: cut, rfl, rfl, Cut.fits_text.mpr ⟨rfl, hfits⟩⟩
    | @hole t piece tail rest hpiece _ ih =>
        obtain ⟨cut, rfl, rfl, hfits⟩ := ih
        exact ⟨(.hole t, String.ofList piece) :: cut, rfl, by simp,
          Cut.fits_hole.mpr ⟨by simpa using hpiece, hfits⟩⟩
  · rintro ⟨cut, rfl, rfl, hfits⟩
    induction cut with
    | nil => exact .nil
    | cons part cut ih =>
        obtain ⟨span, piece⟩ := part
        cases span with
        | text a =>
            obtain ⟨rfl, hrest⟩ := Cut.fits_text.mp hfits
            exact .text (ih hrest)
        | hole t =>
            obtain ⟨hpiece, hrest⟩ := Cut.fits_hole.mp hfits
            exact .hole hpiece (ih hrest)

/-- A template describes a text exactly when the text is in pieces, one for each span, such that
the piece of a text is this text and a hole accepts its piece. -/
theorem describes_iff_cut {text : String} : describes s pattern text = true ↔
    ∃ cut : Cut, cut.spans = pattern ∧ cut.spelled = text.toList ∧
      cut.Fits fun t piece => holeAccepts s piece.reverse t = true :=
  matchSpans_iff.trans spells_iff_cut

theorem exists_cut_of_capture (h : capture pattern text = some captured) :
    ∃ cut : Cut, cut.spans = pattern ∧ cut.spelled = text ∧ cut.Fits Open ∧ cut.Scanned ∧
      cut.held = captured := by
  induction pattern generalizing text captured with
  | nil =>
      cases text with
      | nil =>
          cases h
          exact ⟨[], rfl, rfl, Cut.fits_nil, Cut.scanned_nil, rfl⟩
      | cons _ _ => simp [capture] at h
  | cons span rest ih =>
      cases span with
      | text a =>
          obtain ⟨tail, rfl, htail⟩ := capture_text_iff.mp h
          obtain ⟨cut, rfl, rfl, hfits, hscanned, rfl⟩ := ih htail
          exact ⟨(.text a, a) :: cut, rfl, rfl, by simpa using hfits, by simpa using hscanned, rfl⟩
      | hole t =>
          cases rest with
          | nil =>
              cases h
              exact ⟨[(.hole t, String.ofList text)], rfl, by simp, by simp [Open], by simp [Share],
                rfl⟩
          | cons second rest =>
              cases second with
              | text a =>
                  obtain ⟨head, tail, later, hcut, hlater, rfl⟩ := capture_before_iff.mp h
                  obtain ⟨rfl, -, hfirst⟩ := cutBefore_eq_some_iff.mp hcut
                  obtain ⟨cut, hspans, rfl, hfits, hscanned, rfl⟩ := ih hlater
                  exact ⟨(.hole t, String.ofList head) :: cut, by simp [hspans], by simp,
                    by simpa using hfits, by simpa [hspans, Share] using ⟨hfirst, hscanned⟩, rfl⟩
              | hole u =>
                  obtain ⟨c, tail, later, rfl, hlater, rfl⟩ := capture_holes_iff.mp h
                  obtain ⟨cut, hspans, rfl, hfits, hscanned, rfl⟩ := ih hlater
                  exact ⟨(.hole t, String.ofList [c]) :: cut, by simp [hspans], by simp,
                    by simpa using hfits, by simpa [hspans, Share] using hscanned, rfl⟩

theorem Cut.Scanned.capture (h : cut.Scanned) (hfits : cut.Fits Open) :
    Template.capture cut.spans cut.spelled = some cut.held := by
  induction cut with
  | nil => rfl
  | cons part cut ih =>
      obtain ⟨span, piece⟩ := part
      cases span with
      | text a =>
          obtain ⟨rfl, hrest⟩ := fits_text.mp hfits
          exact capture_text_iff.mpr ⟨_, rfl, ih (scanned_text.mp h) hrest⟩
      | hole t =>
          obtain ⟨hshare, hscanned⟩ := scanned_hole.mp h
          obtain ⟨-, hrest⟩ := fits_hole.mp hfits
          have hlater := ih hscanned hrest
          cases cut with
          | nil => simp [Template.capture]
          | cons second cut =>
              obtain ⟨span, other⟩ := second
              cases span with
              | text a =>
                  obtain ⟨rfl, -⟩ := fits_text.mp hrest
                  apply capture_before_iff.mpr
                  refine ⟨piece.toList, _, _, ?_, hlater, by simp⟩
                  exact cutBefore_eq_some_iff.mpr ⟨rfl, List.prefix_append _ _, hshare⟩
              | hole u =>
                  obtain ⟨c, hc⟩ := List.length_eq_one_iff.mp hshare
                  apply capture_holes_iff.mpr
                  exact ⟨c, _, _, by simp [hc], hlater, by simp [← hc]⟩

/-- Something is captured exactly when the text is in pieces, one for each span, such that the piece
of a text is this text and each hole has its share of what remained; the pieces of the holes are
what is captured. -/
theorem capture_eq_some_iff : capture pattern text = some captured ↔
    ∃ cut : Cut, cut.spans = pattern ∧ cut.spelled = text ∧ cut.Fits Open ∧ cut.Scanned ∧
      cut.held = captured := by
  constructor
  · exact exists_cut_of_capture
  · rintro ⟨cut, rfl, rfl, hfits, hscanned, rfl⟩
    exact hscanned.capture hfits

example : capture [.hole ⟨0⟩, .text "aa", .hole ⟨1⟩, .hole ⟨2⟩] "xaaab".toList =
    some [(⟨0⟩, "x"), (⟨1⟩, "a"), (⟨2⟩, "b")] := by
  decide

end TypeResolution.Template
