import TypeResolution.Text.CaseTable

/-!
Full case maps of texts. A capital sigma at the end of a word has a lower case of its own: it is
final when a cased character stands before it and none after it, case-ignorable ones apart.
-/

namespace TypeResolution.Text

def inRanges (ranges : List (Nat × Nat)) (c : Char) : Bool :=
  ranges.any fun r => r.1 ≤ c.toNat && c.toNat ≤ r.2

def isCased (c : Char) : Bool := inRanges casedRanges c

def isCaseIgnorable (c : Char) : Bool := inRanges caseIgnorableRanges c

/-- The image of one character under a case map given by ranges and sequences. -/
def mapCase (ranges : List CaseRange) (sequences : List (Nat × List Nat)) (c : Char) : List Char :=
  match ranges.find? (·.holds c.toNat) with
  | some r => [Char.ofNat (r.image c.toNat)]
  | none =>
      match sequences.lookup c.toNat with
      | some codes => codes.map Char.ofNat
      | none => [c]

def upperChar (c : Char) : List Char := mapCase upperRanges upperSequences c

def lowerChar (c : Char) : List Char := mapCase lowerRanges lowerSequences c

def capitalSigma : Char := 'Σ'

/-- Whether the next character that is not case-ignorable is cased. -/
def casedNext : List Char → Bool
  | [] => false
  | c :: rest => if isCaseIgnorable c then casedNext rest else isCased c

/-- Lower case of the rest of a text; `before` is what has been read, the latest first. -/
def lowerFrom (before : List Char) : List Char → List Char
  | [] => []
  | c :: rest =>
      (if c = capitalSigma then
        [if casedNext before && !casedNext rest then 'ς' else 'σ']
      else lowerChar c) ++ lowerFrom (c :: before) rest

def toUpper (text : String) : String :=
  String.ofList (text.toList.flatMap upperChar)

def toLower (text : String) : String :=
  String.ofList (lowerFrom [] text.toList)

/-- Maps the first character only. -/
def mapFirst (f : Char → List Char) (text : String) : String :=
  match text.toList with
  | [] => ""
  | c :: rest => String.ofList (f c ++ rest)

def capitalize (text : String) : String := mapFirst upperChar text

def uncapitalize (text : String) : String := mapFirst lowerChar text

end TypeResolution.Text
