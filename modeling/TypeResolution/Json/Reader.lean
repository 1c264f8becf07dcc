import TypeResolution.Json.Numeral

/-!
Reading JSON text. Every reader takes a start off the text and gives what is left; texts and
numbers that are well formed but no values are kept as such.
-/

namespace TypeResolution.Json.Reader

def isSpace (c : Char) : Bool := c = ' ' || c = '\n' || c = '\t' || c = '\r'

def skipSpace (cs : List Char) : List Char := cs.dropWhile isSpace

def hexDigit? (c : Char) : Option Nat :=
  if c.isDigit then some (c.toNat - '0'.toNat)
  else if 'a' ≤ c && c ≤ 'f' then some (c.toNat - 'a'.toNat + 10)
  else if 'A' ≤ c && c ≤ 'F' then some (c.toNat - 'A'.toNat + 10)
  else none

/-- Four hexadecimal digits. -/
def unit? : List Char → Option (Nat × List Char)
  | a :: b :: c :: d :: rest => do
      let a ← hexDigit? a
      let b ← hexDigit? b
      let c ← hexDigit? c
      let d ← hexDigit? d
      return (4096 * a + 256 * b + 16 * c + d, rest)
  | _ => none

def isHighUnit (n : Nat) : Bool := 0xd800 ≤ n && n < 0xdc00

def isLowUnit (n : Nat) : Bool := 0xdc00 ≤ n && n < 0xe000

def simpleEscape? : Char → Option Char
  | '"' => some '"'
  | '\\' => some '\\'
  | '/' => some '/'
  | 'b' => some '\x08'
  | 'f' => some '\x0c'
  | 'n' => some '\n'
  | 'r' => some '\r'
  | 't' => some '\t'
  | _ => none

/-- The character of an escaped unit, together with the next one if they are a pair; none stands
for half of a pair. -/
def pairUnits (n : Nat) (rest : List Char) : Option (Option Char × List Char) :=
  if isHighUnit n then
    match rest with
    | '\\' :: 'u' :: more => do
        let (m, after) ← unit? more
        if isLowUnit m then
          return (some (Char.ofNat (0x10000 + (n - 0xd800) * 0x400 + (m - 0xdc00))), after)
        else
          return (none, rest)
    | _ => some (none, rest)
  else if isLowUnit n then some (none, rest)
  else some (some (Char.ofNat n), rest)

/-- The rest of a text after its opening quote; `done` is what has been read, backwards. -/
def textFrom : Nat → Option (List Char) → List Char → Option (JsonText × List Char)
  | 0, _, _ => none
  | _ + 1, _, [] => none
  | fuel + 1, done, c :: rest =>
      if c = '"' then some (done.map fun cs => String.ofList cs.reverse, rest)
      else if c = '\\' then
        match rest with
        | 'u' :: more => do
            let (n, after) ← unit? more
            let (ch, after) ← pairUnits n after
            textFrom fuel (do return (← ch) :: (← done)) after
        | e :: more => do
            let ch ← simpleEscape? e
            textFrom fuel (done.map (ch :: ·)) more
        | [] => none
      else if c.toNat < 0x20 then none
      else textFrom fuel (done.map (c :: ·)) rest

def text (cs : List Char) : Option (JsonText × List Char) :=
  textFrom (cs.length + 1) (some []) cs

/-- Digits without a superfluous zero in front. -/
def whole? (cs : List Char) : Option (List Char × List Char) :=
  match cs with
  | '0' :: rest => if rest.head?.any Char.isDigit then none else some (['0'], rest)
  | _ =>
      let ds := cs.takeWhile Char.isDigit
      if ds.isEmpty then none else some (ds, cs.dropWhile Char.isDigit)

/-- A point with at least one digit, or nothing. -/
def fraction? : List Char → Option (List Char × List Char)
  | '.' :: rest =>
      let ds := rest.takeWhile Char.isDigit
      if ds.isEmpty then none else some (ds, rest.dropWhile Char.isDigit)
  | cs => some ([], cs)

/-- An exponent with at least one digit, or nothing. -/
def exponent? : List Char → Option (Option (Bool × List Char) × List Char)
  | c :: rest =>
      if c = 'e' || c = 'E' then
        let (below, rest) := match rest with
          | '+' :: more => (false, more)
          | '-' :: more => (true, more)
          | _ => (false, rest)
        let ds := rest.takeWhile Char.isDigit
        if ds.isEmpty then none else some (some (below, ds), rest.dropWhile Char.isDigit)
      else some (none, c :: rest)
  | [] => some (none, [])

def number (cs : List Char) : Option (JsonNumber × List Char) := do
  let (negative, cs) := match cs with
    | '-' :: rest => (true, rest)
    | _ => (false, cs)
  let (whole, cs) ← whole? cs
  let (fraction, cs) ← fraction? cs
  let (exponent, cs) ← exponent? cs
  return (Numeral.value ⟨negative, whole, fraction, exponent⟩, cs)

/-- A fixed word. -/
def word? (w : String) (value : Json) (cs : List Char) : Option (Json × List Char) :=
  if w.toList.isPrefixOf cs then some (value, cs.drop w.length) else none

mutual

/-- A value; what stands before it has been skipped. -/
def value : Nat → List Char → Option (Json × List Char)
  | 0, _ => none
  | _ + 1, [] => none
  | fuel + 1, c :: rest =>
      match c with
      | '"' => do
          let (t, rest) ← text rest
          return (.string t, rest)
      | '[' =>
          match skipSpace rest with
          | ']' :: rest => some (.array [], rest)
          | cs => items fuel [] cs
      | '{' =>
          match skipSpace rest with
          | '}' :: rest => some (.object [], rest)
          | cs => entries fuel [] cs
      | 'n' => word? "null" .null (c :: rest)
      | 't' => word? "true" (.bool true) (c :: rest)
      | 'f' => word? "false" (.bool false) (c :: rest)
      | _ => do
          let (n, rest) ← number (c :: rest)
          return (.number n, rest)

/-- At least one item, then the end of the array. -/
def items : Nat → List Json → List Char → Option (Json × List Char)
  | 0, _, _ => none
  | fuel + 1, done, cs => do
      let (v, rest) ← value fuel cs
      match skipSpace rest with
      | ',' :: rest => items fuel (v :: done) (skipSpace rest)
      | ']' :: rest => some (.array (v :: done).reverse, rest)
      | _ => none

/-- At least one entry, then the end of the object. -/
def entries : Nat → List (JsonText × Json) → List Char → Option (Json × List Char)
  | 0, _, _ => none
  | fuel + 1, done, cs =>
      match cs with
      | '"' :: rest => do
          let (key, rest) ← text rest
          match skipSpace rest with
          | ':' :: rest => do
              let (v, rest) ← value fuel (skipSpace rest)
              match skipSpace rest with
              | ',' :: rest => entries fuel ((key, v) :: done) (skipSpace rest)
              | '}' :: rest => some (.object ((key, v) :: done).reverse, rest)
              | _ => none
          | _ => none
      | _ => none

end

end Reader

/-- Reads a whole text. A value takes at least one character, and at most two calls nest for each
character, so the text's length bounds the recursion. -/
def ofText? (s : String) : Option Json := do
  let cs := s.toList
  let (v, rest) ← Reader.value (2 * cs.length + 2) (Reader.skipSpace cs)
  if (Reader.skipSpace rest).isEmpty then some v else none

end TypeResolution.Json
