/-!
Replacing every occurrence of a text. Occurrences are found from left to right and do not
overlap; the inserted text is not searched.
-/

namespace TypeResolution.Text

/-- `skip` characters of the current occurrence are still to be passed over. -/
def replaceFrom (old new : List Char) : Nat → List Char → List Char
  | _, [] => []
  | skip + 1, _ :: rest => replaceFrom old new skip rest
  | 0, c :: rest =>
      if old.isPrefixOf (c :: rest) then
        new ++ replaceFrom old new (old.length - 1) rest
      else
        c :: replaceFrom old new 0 rest

/-- Replaces each occurrence of the non-empty text `old`. -/
def replaceAll (old new text : String) : String :=
  String.ofList (replaceFrom old.toList new.toList 0 text.toList)

end TypeResolution.Text
