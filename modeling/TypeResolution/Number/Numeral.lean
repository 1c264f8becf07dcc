import TypeResolution.Text.Blank

/-!
Which texts spell a number: an optional sign, then a decimal with an optional point and exponent,
or the name of an infinity or of no number at all, in any letter case.
-/

namespace TypeResolution.Number

def isDigit (c : Char) : Bool := c.isDigit

/-- An optional sign is passed over. -/
def dropSign : List Char → List Char
  | '+' :: rest => rest
  | '-' :: rest => rest
  | cs => cs

/-- Nothing, or an exponent with at least one digit. -/
def isExponent : List Char → Bool
  | [] => true
  | c :: rest =>
      (c = 'e' || c = 'E') && !(dropSign rest).isEmpty && (dropSign rest).all isDigit

/-- Digits with at most one point, at least one digit in all, then an exponent. -/
def isDecimal (cs : List Char) : Bool :=
  let whole := cs.takeWhile isDigit
  match cs.dropWhile isDigit with
  | '.' :: rest =>
      !(whole.isEmpty && (rest.takeWhile isDigit).isEmpty) && isExponent (rest.dropWhile isDigit)
  | rest => !whole.isEmpty && isExponent rest

def specialNames : List String := ["inf", "infinity", "nan"]

def isNumeral (cs : List Char) : Bool :=
  let body := dropSign cs
  isDecimal body || specialNames.contains (String.ofList (body.map Char.toLower))

/-- Whether a piece of text spells a number, blanks around it apart. -/
def isSpelled (piece : List Char) : Bool := isNumeral (Text.trim piece)

end TypeResolution.Number
