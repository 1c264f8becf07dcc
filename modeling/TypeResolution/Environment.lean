import TypeResolution.Type.Node

/-!
Aliases in scope. A name has one alias; a later one takes the place of an earlier one.
-/

namespace TypeResolution

/-- A named type with parameters. -/
structure Alias where
  name : String
  params : List TypeParam
  body : TypeId
  origin : Option SourceTag
  deriving DecidableEq, Repr

structure Environment where
  aliases : List Alias
  deriving DecidableEq, Repr

namespace Environment

def empty : Environment := ⟨[]⟩

def size (e : Environment) : Nat := e.aliases.length

def get? (e : Environment) (name : String) : Option Alias :=
  e.aliases.find? (·.name = name)

def insertInto (a : Alias) : List Alias → List Alias
  | [] => [a]
  | b :: rest => if a.name = b.name then a :: rest else b :: insertInto a rest

def insert (e : Environment) (a : Alias) : Environment := ⟨insertInto a e.aliases⟩

/-- An alias without a source tag. -/
def define (e : Environment) (name : String) (params : List TypeParam) (body : TypeId) :
    Environment :=
  e.insert ⟨name, params, body, none⟩

theorem find?_insertInto (a : Alias) (name : String) :
    ∀ l : List Alias, (insertInto a l).find? (·.name = name) =
      if a.name = name then some a else l.find? (·.name = name) := by
  intro l
  induction l with
  | nil => by_cases h : a.name = name <;> simp [insertInto, h]
  | cons b rest ih =>
      unfold insertInto
      by_cases hb : a.name = b.name
      · by_cases h : b.name = name <;> simp [hb, h, List.find?]
      · simp only [hb, if_false]
        by_cases h : b.name = name
        · have ha : a.name ≠ name := fun ha => hb (ha.trans h.symm)
          simp [List.find?, h, ha]
        · simp [List.find?, h, ih]

theorem get?_insert (e : Environment) (a : Alias) (name : String) :
    (e.insert a).get? name = if a.name = name then some a else e.get? name :=
  find?_insertInto a name e.aliases

end Environment

end TypeResolution
