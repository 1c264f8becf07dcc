import Std.Data.HashMap
import TypeResolution.Number.Basic
import TypeResolution.Source
import TypeResolution.Text.Case

/-!
Types as nodes of a table. A node names its components by their ids. Twelve nodes have fixed ids; all
other nodes get a number when they are made, from their hash among other things, and the members of
unions and intersections stand in the order of these numbers. Here an id is the position at which a
node was made, and the numbers are any numbers.
-/

namespace TypeResolution

/-- Names a type of a store. -/
structure TypeId where
  index : Nat
  deriving DecidableEq, Hashable, Repr, Inhabited

/-- The number of each type, by the position at which it is made. All numbers differ. -/
structure Numbering where
  toFun : Nat → Nat
  injective {i j : Nat} : toFun i = toFun j → i = j

namespace Numbering

instance : CoeFun Numbering fun _ => Nat → Nat := ⟨toFun⟩

/-- Types are numbered in the order in which they are made. -/
def byAge : Numbering := ⟨id, id⟩

end Numbering

namespace TypeId

/-- Stands in where no type can be given. -/
def error : TypeId := ⟨0⟩
def never : TypeId := ⟨1⟩
def unknown : TypeId := ⟨2⟩
def any : TypeId := ⟨3⟩
def void : TypeId := ⟨4⟩
def undefined : TypeId := ⟨5⟩
def null : TypeId := ⟨6⟩
def boolean : TypeId := ⟨7⟩
def number : TypeId := ⟨8⟩
def string : TypeId := ⟨9⟩
def trueLiteral : TypeId := ⟨10⟩
def falseLiteral : TypeId := ⟨11⟩

def ofBool (b : Bool) : TypeId := if b then trueLiteral else falseLiteral

/-- How many ids are fixed. -/
def fixedCount : Nat := 12

def isFixed (t : TypeId) : Bool := t.index < fixedCount

def isAnyOrUnknown (t : TypeId) : Bool := t = any || t = unknown

def isNullish (t : TypeId) : Bool := t = null || t = undefined || t = void

/-- Fixed ids are less than all numbers. -/
def rank (numbers : Numbering) (t : TypeId) : Nat :=
  if t.isFixed then t.index else fixedCount + numbers t.index

/-- The order of types as members. -/
def Before (numbers : Numbering) (a b : TypeId) : Prop := a.rank numbers < b.rank numbers

instance (numbers : Numbering) (a b : TypeId) : Decidable (Before numbers a b) :=
  inferInstanceAs (Decidable (_ < _))

/-- Puts a type into a list that is in order. -/
def insertSorted (numbers : Numbering) (t : TypeId) : List TypeId → List TypeId
  | [] => [t]
  | u :: rest =>
      if Before numbers t u then t :: u :: rest
      else if t = u then u :: rest
      else u :: insertSorted numbers t rest

/-- The types of a list in order, each once. -/
def sortUnique (numbers : Numbering) (ts : List TypeId) : List TypeId :=
  ts.foldr (insertSorted numbers) []

section order

variable {numbers : Numbering} {a b c t : TypeId} {l ts : List TypeId}

theorem rank_injective (h : a.rank numbers = b.rank numbers) : a = b := by
  obtain ⟨i⟩ := a
  obtain ⟨j⟩ := b
  simp only [rank, isFixed, decide_eq_true_eq] at h
  split at h <;> split at h
  · exact congrArg mk h
  · omega
  · omega
  · exact congrArg mk (numbers.injective (Nat.add_left_cancel h))

theorem Before.irrefl : ¬Before numbers a a := Nat.lt_irrefl _

theorem Before.ne (h : Before numbers a b) : a ≠ b := fun he => irrefl (he ▸ h)

theorem Before.trans (h : Before numbers a b) (h' : Before numbers b c) : Before numbers a c :=
  Nat.lt_trans h h'

theorem Before.asymm (h : Before numbers a b) : ¬Before numbers b a := Nat.lt_asymm h

theorem before_of_not_before (h : ¬Before numbers a b) (hne : a ≠ b) : Before numbers b a :=
  Nat.lt_of_le_of_ne (Nat.le_of_not_lt h) fun he => hne (rank_injective he.symm)

theorem before_of_isFixed (ha : a.isFixed) (hb : b.isFixed = false) : Before numbers a b := by
  have hlt : a.index < fixedCount := by simpa [isFixed] using ha
  have hrank : a.rank numbers = a.index := if_pos ha
  have hrank' : b.rank numbers = fixedCount + numbers b.index := if_neg (by simp [hb])
  change _ < _
  omega

theorem before_fixed_iff (ha : a.isFixed) (hb : b.isFixed) :
    Before numbers a b ↔ a.index < b.index := by
  rw [Before, rank, rank, if_pos ha, if_pos hb]

theorem mem_insertSorted : a ∈ insertSorted numbers t l ↔ a = t ∨ a ∈ l := by
  induction l with
  | nil => simp [insertSorted]
  | cons u rest ih =>
      unfold insertSorted
      split
      · simp
      · split
        · rename_i h; subst h; simp
        · simp only [List.mem_cons, ih]
          constructor
          · rintro (h | h | h) <;> simp [h]
          · rintro (h | h | h) <;> simp [h]

theorem mem_sortUnique : a ∈ sortUnique numbers ts ↔ a ∈ ts := by
  induction ts with
  | nil => simp [sortUnique]
  | cons t rest ih =>
      simp only [sortUnique, List.foldr_cons, List.mem_cons] at ih ⊢
      rw [mem_insertSorted, ih]

theorem sorted_insertSorted (t : TypeId) (h : l.Pairwise (Before numbers)) :
    (insertSorted numbers t l).Pairwise (Before numbers) := by
  induction l with
  | nil => simp [insertSorted]
  | cons u rest ih =>
      obtain ⟨hu, hrest⟩ := List.pairwise_cons.mp h
      unfold insertSorted
      split
      · rename_i hlt
        refine List.pairwise_cons.mpr ⟨fun v hv => ?_, h⟩
        rcases List.mem_cons.mp hv with rfl | hv
        · exact hlt
        · exact hlt.trans (hu v hv)
      · split
        · exact h
        · rename_i hlt hne
          refine List.pairwise_cons.mpr ⟨fun v hv => ?_, ih hrest⟩
          rcases mem_insertSorted.mp hv with rfl | hv
          · exact before_of_not_before hlt hne
          · exact hu v hv

theorem sorted_sortUnique (ts : List TypeId) : (sortUnique numbers ts).Pairwise (Before numbers) := by
  induction ts with
  | nil => exact .nil
  | cons t rest ih => exact sorted_insertSorted t ih

theorem nodup_sortUnique (ts : List TypeId) : (sortUnique numbers ts).Nodup := by
  have hsorted : (sortUnique numbers ts).Pairwise (Before numbers) := sorted_sortUnique ts
  exact hsorted.imp Before.ne

end order

end TypeId

/-- Primitive and special types. -/
inductive Intrinsic where
  | never
  | unknown
  | any
  | void
  | undefined
  | null
  | boolean
  | number
  | string
  deriving DecidableEq, Hashable, Repr

namespace Intrinsic

def typeId : Intrinsic → TypeId
  | .never => .never
  | .unknown => .unknown
  | .any => .any
  | .void => .void
  | .undefined => .undefined
  | .null => .null
  | .boolean => .boolean
  | .number => .number
  | .string => .string

def name : Intrinsic → String
  | .never => "never"
  | .unknown => "unknown"
  | .any => "any"
  | .void => "void"
  | .undefined => "undefined"
  | .null => "null"
  | .boolean => "boolean"
  | .number => "number"
  | .string => "string"

end Intrinsic

/-- The one value of a literal type. -/
inductive Literal where
  | string (text : String)
  | number (value : Number)
  | boolean (value : Bool)
  deriving DecidableEq, Hashable, Repr

namespace Literal

/-- The primitive that a literal widens to. -/
def primitive : Literal → TypeId
  | .string _ => .string
  | .number _ => .number
  | .boolean _ => .boolean

def isFalsy : Literal → Bool
  | .string s => s.isEmpty
  | .number n => n.isZero || n.isNaN
  | .boolean b => !b

end Literal

/-- A field of an object type. -/
structure Field where
  name : String
  type : TypeId
  optional : Bool
  readonly : Bool
  deriving DecidableEq, Hashable, Repr

/-- The fields of an object type in the order they are shown, and the type that an index signature
gives to every string key. -/
structure ObjectShape where
  fields : List Field
  stringIndex : Option TypeId
  deriving DecidableEq, Hashable, Repr

namespace ObjectShape

def find? (s : ObjectShape) (name : String) : Option Field :=
  s.fields.find? (·.name = name)

/-- The same shape with its fields ordered by name. -/
def sorted (s : ObjectShape) : ObjectShape :=
  { s with fields := s.fields.mergeSort fun a b => decide (a.name ≤ b.name) }

def isEmpty (s : ObjectShape) : Bool :=
  s.fields.isEmpty && s.stringIndex.isNone

end ObjectShape

structure FunctionShape where
  params : List TypeId
  result : TypeId
  deriving DecidableEq, Hashable, Repr

/-- A generic that has no type yet. -/
structure TypeParam where
  name : String
  constraint : Option TypeId
  default : Option TypeId
  /-- Literal types are kept when this parameter is inferred. -/
  isConst : Bool
  deriving DecidableEq, Hashable, Repr

def TypeParam.named (name : String) : TypeParam := ⟨name, none, none, false⟩

/-- A choice between two types: whether `check` fits `pattern`. -/
structure Conditional where
  check : TypeId
  pattern : TypeId
  /-- Names that the pattern introduces. -/
  infer : List String
  whenTrue : TypeId
  whenFalse : TypeId
  distributive : Bool
  deriving DecidableEq, Hashable, Repr

/-- What a mapped type does to a flag of its fields. -/
inductive Modifier where
  | add
  | remove
  deriving DecidableEq, Hashable, Repr

def Modifier.apply (m : Option Modifier) (current : Bool) : Bool :=
  match m with
  | some .add => true
  | some .remove => false
  | none => current

/-- An object type made from the keys of another one. -/
structure Mapped where
  /-- The name bound to each key in the parts below. -/
  keyParam : String
  source : TypeId
  /-- Keys for which this evaluates to `never` are dropped. -/
  keyFilter : Option TypeId
  template : TypeId
  /-- The new name of a key. -/
  nameType : Option TypeId
  optional : Option Modifier
  readonly : Option Modifier
  deriving DecidableEq, Hashable, Repr

/-- A part of a template type. -/
inductive Span where
  | text (text : String)
  | hole (type : TypeId)
  deriving DecidableEq, Hashable, Repr

/-- Text transforms on string literal types. -/
inductive StringMap where
  | uppercase
  | lowercase
  | capitalize
  | uncapitalize
  deriving DecidableEq, Hashable, Repr

namespace StringMap

def name : StringMap → String
  | .uppercase => "Uppercase"
  | .lowercase => "Lowercase"
  | .capitalize => "Capitalize"
  | .uncapitalize => "Uncapitalize"

def apply : StringMap → String → String
  | .uppercase => Text.toUpper
  | .lowercase => Text.toLower
  | .capitalize => Text.capitalize
  | .uncapitalize => Text.uncapitalize

end StringMap

/-- What a type is made of. -/
inductive Node where
  | error
  | intrinsic (kind : Intrinsic)
  | literal (value : Literal)
  | object (shape : ObjectShape)
  | union (members : List TypeId)
  | intersection (members : List TypeId)
  | param (info : TypeParam)
  | conditional (cond : Conditional)
  | mapped (map : Mapped)
  | function (shape : FunctionShape)
  | array (element : TypeId)
  | reference (name : String) (args : List TypeId)
  | indexAccess (object key : TypeId)
  | template (spans : List Span)
  | stringMap (kind : StringMap) (arg : TypeId)
  deriving DecidableEq, Hashable, Repr, Inhabited

namespace Node

/-- Nodes that mean something only after evaluation. -/
def isMeta : Node → Bool
  | .reference .. | .conditional _ | .mapped _ | .indexAccess .. | .template _ | .stringMap .. => true
  | _ => false

/-- Nodes that are put in brackets inside a list or before an array suffix. -/
def isCompound : Node → Bool
  | .union _ | .intersection _ | .function _ => true
  | _ => false

/-- What tells types apart: the order of fields is left out. -/
def identity : Node → Node
  | .object shape => .object shape.sorted
  | n => n

/-- The nodes with fixed ids, in the order of their ids. -/
def fixed : List Node :=
  [.error, .intrinsic .never, .intrinsic .unknown, .intrinsic .any, .intrinsic .void,
    .intrinsic .undefined, .intrinsic .null, .intrinsic .boolean, .intrinsic .number,
    .intrinsic .string, .literal (.boolean true), .literal (.boolean false)]

/-- The ids that a node names. -/
def components : Node → List TypeId
  | .error | .intrinsic _ | .literal _ => []
  | .object shape => shape.fields.map (·.type) ++ shape.stringIndex.toList
  | .union members | .intersection members => members
  | .param info => info.constraint.toList ++ info.default.toList
  | .conditional c => [c.check, c.pattern, c.whenTrue, c.whenFalse]
  | .mapped m => m.source :: m.keyFilter.toList ++ m.template :: m.nameType.toList
  | .function shape => shape.params ++ [shape.result]
  | .array element => [element]
  | .reference _ args => args
  | .indexAccess obj key => [obj, key]
  | .template spans => spans.filterMap fun
      | .text _ => none
      | .hole t => some t
  | .stringMap _ arg => [arg]

end Node

end TypeResolution
