/-!
A table of names. Equal texts have one number, and the empty text has number zero.
-/

namespace TypeResolution

/-- The texts in the order of their numbers. -/
structure NameTable where
  texts : List String
  deriving DecidableEq, Repr

namespace NameTable

def empty : NameTable := ⟨[""]⟩

def size (t : NameTable) : Nat := t.texts.length

/-- Holds nothing but the empty text. -/
def isEmpty (t : NameTable) : Bool := t.size ≤ 1

/-- The number of a text, which is added unless it is known. -/
def insert (t : NameTable) (text : String) : Nat × NameTable :=
  match t.texts.idxOf? text with
  | some i => (i, t)
  | none => (t.size, ⟨t.texts ++ [text]⟩)

def get? (t : NameTable) (i : Nat) : Option String := t.texts[i]?

/-- Names that show up in nearly every session. -/
def familiar : List String :=
  ["id", "name", "value", "kind", "type", "tag", "key", "length", "next", "data", "Array",
    "Uppercase", "Lowercase", "Capitalize", "Uncapitalize"]

def withFamiliar (t : NameTable) : NameTable :=
  familiar.foldl (fun t text => (t.insert text).2) t

theorem get?_insert (t : NameTable) (text : String) :
    (t.insert text).2.get? (t.insert text).1 = some text := by
  unfold insert
  split
  · rename_i i h
    simp only [get?]
    obtain ⟨hi, he, _⟩ := List.findIdx?_eq_some_iff_getElem.1 h
    simp only [beq_iff_eq] at he
    rw [List.getElem?_eq_getElem hi, he]
  · simp [get?, size]

end NameTable

end TypeResolution
