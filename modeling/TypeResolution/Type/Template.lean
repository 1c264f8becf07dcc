import TypeResolution.Number.Numeral
import TypeResolution.Number.Text
import TypeResolution.Type.Store

/-!
Template types and texts: which texts a hole can take, whether a text is one that a template
describes, and what each hole of a pattern captures from a text.
-/

namespace TypeResolution.Template

def boolText (b : Bool) : String := if b then "true" else "false"

def literalTextsAt (s : Store) : Nat → TypeId → Option (List String)
  | 0, _ => none
  | fuel + 1, t =>
      match s.node t with
      | .intrinsic .boolean => some ["false", "true"]
      | .intrinsic .null => some ["null"]
      | .intrinsic .undefined => some ["undefined"]
      | .literal (.string text) => some [text]
      | .literal (.number value) => some [value.toText]
      | .literal (.boolean b) => some [boolText b]
      | .union members => (members.mapM (literalTextsAt s fuel)).map (·.flatten)
      | _ => none

/-- The texts that a hole can take, when they are finitely many. -/
def literalTexts (s : Store) (t : TypeId) : Option (List String) :=
  literalTextsAt s (t.index + 1) t

def holeAcceptsAt (s : Store) : Nat → List Char → TypeId → Bool
  | 0, _, _ => false
  | fuel + 1, before, t =>
      match s.node t with
      | .intrinsic .string | .intrinsic .any => true
      | .intrinsic .number => !before.isEmpty && Number.isSpelled before.reverse
      | .intrinsic .boolean =>
          before.reverse = "true".toList || before.reverse = "false".toList
      | .literal (.string text) => before.reverse = text.toList
      | .union members => members.any (holeAcceptsAt s fuel before)
      | _ => false

/-- Whether a hole takes a piece of text, which is given backwards. -/
def holeAccepts (s : Store) (before : List Char) (t : TypeId) : Bool :=
  holeAcceptsAt s (t.index + 1) before t

/-- Whether some cut of the text has the property; what stands before the cut is backwards. -/
def anyCut (p : List Char → List Char → Bool) (before : List Char) : List Char → Bool
  | [] => p before []
  | c :: rest => p before (c :: rest) || anyCut p (c :: before) rest

/-- What follows `start` in a text that starts with it. -/
def after? : List Char → List Char → Option (List Char)
  | [], text => some text
  | _ :: _, [] => none
  | a :: start, c :: text => if a = c then after? start text else none

theorem after?_eq_some_iff : ∀ {start text rest : List Char},
    after? start text = some rest ↔ text = start ++ rest := by
  intro start
  induction start with
  | nil => intro text rest; simp [after?]
  | cons a start ih =>
      intro text rest
      cases text with
      | nil => simp [after?]
      | cons c text =>
          by_cases h : a = c
          · subst h; simp [after?, ih]
          · simp [after?, h, Ne.symm h]

/-- Whether the text can be cut into one piece for each span. -/
def matchSpans (accepts : List Char → TypeId → Bool) : List Span → List Char → Bool
  | [], text => text.isEmpty
  | .text a :: rest, text =>
      match after? a.toList text with
      | some text => matchSpans accepts rest text
      | none => false
  | .hole t :: rest, text =>
      anyCut (fun before text => accepts before t && matchSpans accepts rest text) [] text

/-- Whether a template describes the text. -/
def describes (s : Store) (spans : List Span) (text : String) : Bool :=
  matchSpans (holeAccepts s) spans text.toList

/-- Cuts a text before the first occurrence of another. -/
def cutBefore (next : List Char) (before : List Char) : List Char → Option (List Char × List Char)
  | [] => if next.isEmpty then some (before.reverse, []) else none
  | c :: rest =>
      if next.isPrefixOf (c :: rest) then some (before.reverse, c :: rest)
      else cutBefore next (c :: before) rest

/-- What the holes of a pattern capture. A hole before a text takes all up to the first occurrence
of that text, a hole before another hole takes one character, and a last hole takes the rest. -/
def capture : List Span → List Char → Option (List (TypeId × String))
  | [], text => if text.isEmpty then some [] else none
  | .text a :: rest, text => do
      let text ← after? a.toList text
      capture rest text
  | [.hole t], text => some [(t, String.ofList text)]
  | .hole t :: .text a :: rest, text => do
      let (head, tail) ← cutBefore a.toList [] text
      let captured ← capture (.text a :: rest) tail
      return (t, String.ofList head) :: captured
  | .hole t :: .hole u :: rest, text =>
      match text with
      | [] => none
      | c :: tail => do
          let captured ← capture (.hole u :: rest) tail
          return (t, String.ofList [c]) :: captured

end TypeResolution.Template
