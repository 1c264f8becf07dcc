import TypeResolution.Type.Node

/-!
The store of types. Making a node that is already there gives its id, so two types are equal
exactly when their ids are. Beside the nodes stand the source tags of types and fields; they are
no part of a type.
-/

namespace TypeResolution

/-- What a source tag can be recorded for. -/
inductive Place where
  | type (type : TypeId)
  | field (object : TypeId) (name : String)
  deriving DecidableEq, Hashable, Repr

structure Store where
  numbers : Numbering
  /-- The node of each id. -/
  nodes : Array Node
  /-- The id of each node, which is looked up by its identity. -/
  ids : Std.HashMap Node TypeId
  origins : Std.HashMap Place SourceTag

namespace Store

/-- Adds a node that is not there yet. -/
def push : Store → Node → Store
  | ⟨numbers, nodes, ids, origins⟩, n =>
      let t : TypeId := ⟨nodes.size⟩
      ⟨numbers, nodes.push n, ids.insert n.identity t, origins⟩

/-- Holds the fixed types only. The types that are made get the given numbers. -/
def fresh (numbers : Numbering) : Store :=
  Node.fixed.foldl push ⟨numbers, #[], {}, {}⟩

/-- Holds the fixed types only. The types that are made are numbered in turn. -/
def empty : Store := fresh .byAge

instance : Inhabited Store := ⟨empty⟩

def size (s : Store) : Nat := s.nodes.size

/-- How many types the store has beyond the fixed ones. -/
def made (s : Store) : Nat := s.size - TypeId.fixedCount

/-- The node of an id; an id that the store does not know names the error type. -/
def node (s : Store) (t : TypeId) : Node := s.nodes.getD t.index .error

/-- The id of a node, which is added unless it is known. -/
def intern (s : Store) (n : Node) : TypeId × Store :=
  match s.ids[n.identity]? with
  | some t => (t, s)
  | none =>
      let t := ⟨s.nodes.size⟩
      (t, s.push n)

def origin? (s : Store) (p : Place) : Option SourceTag := s.origins[p]?

/-- The types stand in the order of their numbers, each once. -/
abbrev InOrder (s : Store) (ts : List TypeId) : Prop := ts.Pairwise (TypeId.Before s.numbers)

theorem InOrder.congr {s s' : Store} {ts : List TypeId} (h : s.InOrder ts)
    (hnumbers : s'.numbers = s.numbers) : s'.InOrder ts := by
  rw [InOrder, hnumbers]
  exact h

/-- The first tag recorded for a place stays. -/
def recordOrigin : Store → Place → SourceTag → Store
  | ⟨numbers, nodes, ids, origins⟩, p, tag => ⟨numbers, nodes, ids, origins.insertIfNew p tag⟩

/-- Gives the tags of the named fields of `source` to the same fields of `target`. -/
def copyFieldOrigins (s : Store) (source target : TypeId) (names : List String) : Store :=
  if source = target then s
  else names.foldl
    (fun s name =>
      match s.origin? (.field source name) with
      | some tag => s.recordOrigin (.field target name) tag
      | none => s) s

end Store

/-- Computations that may add types to the store. -/
abbrev Build := StateM Store

namespace Build

def intern (n : Node) : Build TypeId := fun s => s.intern n

def node (t : TypeId) : Build Node := fun s => (s.node t, s)

def origin? (p : Place) : Build (Option SourceTag) := fun s => (s.origin? p, s)

def recordOrigin (p : Place) (tag : SourceTag) : Build Unit := fun s => ((), s.recordOrigin p tag)

def copyFieldOrigins (source target : TypeId) (names : List String) : Build Unit :=
  fun s => ((), s.copyFieldOrigins source target names)

def stringLiteral (text : String) : Build TypeId := intern (.literal (.string text))

def numberLiteral (value : Number) : Build TypeId := intern (.literal (.number value.canonical))

def literal : Literal → Build TypeId
  | .string text => stringLiteral text
  | .number value => numberLiteral value
  | .boolean value => pure (.ofBool value)

/-- The members in the order of their numbers, each once. -/
def inOrder (members : List TypeId) : Build (List TypeId) := fun s =>
  (TypeId.sortUnique s.numbers members, s)

/-- The type of members that are in order: the only member, or a node of them. -/
def ofMembers (none : TypeId) (node : List TypeId → Node) : List TypeId → Build TypeId
  | [] => pure none
  | [t] => pure t
  | ts => intern (node ts)

/-- A union of the members as they are, up to order and repetition. -/
def rawUnion (members : List TypeId) : Build TypeId := do
  ofMembers .never .union (← inOrder members)

/-- An intersection of the members as they are, up to order and repetition. -/
def rawIntersection (members : List TypeId) : Build TypeId := do
  ofMembers .unknown .intersection (← inOrder members)

def object (shape : ObjectShape) : Build TypeId := intern (.object shape)

def function (params : List TypeId) (result : TypeId) : Build TypeId :=
  intern (.function ⟨params, result⟩)

def array (element : TypeId) : Build TypeId := intern (.array element)

def param (info : TypeParam) : Build TypeId := intern (.param info)

def reference (name : String) (args : List TypeId) : Build TypeId := intern (.reference name args)

def conditional (c : Conditional) : Build TypeId := intern (.conditional c)

def mapped (m : Mapped) : Build TypeId := intern (.mapped m)

def indexAccess (object key : TypeId) : Build TypeId := intern (.indexAccess object key)

def stringMap (kind : StringMap) (arg : TypeId) : Build TypeId := intern (.stringMap kind arg)

/-- Puts a span before others: an empty text is dropped and two texts in a row are joined. -/
def consSpan : Span → List Span → List Span
  | .text a, .text b :: rest => .text (a ++ b) :: rest
  | .text a, rest => if a.isEmpty then rest else .text a :: rest
  | .hole t, rest => .hole t :: rest

def joinSpans (spans : List Span) : List Span := spans.foldr consSpan []

/-- A template of the spans; without a hole it is a string literal. -/
def template (spans : List Span) : Build TypeId :=
  match joinSpans spans with
  | [] => stringLiteral ""
  | [.text text] => stringLiteral text
  | spans => intern (.template spans)

end Build

end TypeResolution
