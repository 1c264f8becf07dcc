import TypeResolution.Evaluation.Conditional

/-!
Mapped types. Each field of the source gives one field, in the order of the source; its key is
bound while the filter, the new name and the type are evaluated. When two keys get one name, the
later one wins and the first keeps its position.
-/

namespace TypeResolution.Eval

/-- A field of the result and the key of the source that it came from. -/
structure MappedField where
  field : Field
  key : String
  deriving DecidableEq, Repr

/-- Puts a field in the place of the one with its name, or last. -/
def putMapped (new : MappedField) : List MappedField → List MappedField
  | [] => [new]
  | old :: rest =>
      if old.field.name = new.field.name then new :: rest else old :: putMapped new rest

def reportCollision (source : TypeId) (first second target : String) : Eval Unit := do
  let s ← getThe Store
  let d := (Diagnostic.of .keyRemapCollision [first, second, target]).withLocation
    (s.origin? (.field source second))
  match s.origin? (.field source first) with
  | some tag => report (d.withRelated (some tag) ("'" ++ first ++ "' is declared here."))
  | none => report d

/-- The name that a key gets; none drops the key. -/
def mappedName (inner : TypeId → Eval TypeId) (m : Mapped) (σ : Substitution) (key : String) :
    Eval (Option String) := do
  match m.nameType with
  | none => return some key
  | some t =>
      let instantiated ← Build.instantiate σ t
      let renamed ← inner instantiated
      if renamed = .never then
        return none
      return some (((← getThe Store).stringLiteral? renamed).getD key)

def keeps (inner : TypeId → Eval TypeId) (m : Mapped) (σ : Substitution) : Eval Bool := do
  match m.keyFilter with
  | none => return true
  | some t =>
      let instantiated ← Build.instantiate σ t
      return (← inner instantiated) ≠ .never

/-- Maps one field of the source; none drops it. -/
def mapField (inner : TypeId → Eval TypeId) (m : Mapped) (f : Field) :
    Eval (Option MappedField) := do
  poll
  let key ← Build.stringLiteral f.name
  let σ := Substitution.empty.insert m.keyParam key
  unless ← keeps inner m σ do
    return none
  match ← mappedName inner m σ f.name with
  | none => return none
  | some name =>
      let instantiated ← Build.instantiate σ m.template
      let type ← inner instantiated
      return some ⟨⟨name, type, Modifier.apply m.optional f.optional,
        Modifier.apply m.readonly f.readonly⟩, f.name⟩

def mapFields (inner : TypeId → Eval TypeId) (m : Mapped) (source : TypeId) :
    List Field → List MappedField → Eval (List MappedField)
  | [], done => return done
  | f :: rest, done => do
      match ← mapField inner m f with
      | none => mapFields inner m source rest done
      | some new =>
          if let some old := done.find? (·.field.name = new.field.name) then
            reportCollision source old.key new.key new.field.name
          mapFields inner m source rest (putMapped new done)

/-- Maps all fields and, unless keys are renamed, the index signature. -/
def mapObject (inner : TypeId → Eval TypeId) (m : Mapped) (source : TypeId)
    (shape : ObjectShape) : Eval TypeId := do
  let fields ← mapFields inner m source shape.fields []
  let index ←
    if shape.stringIndex.isSome && m.nameType.isNone then do
      let instantiated ← Build.instantiate (Substitution.empty.insert m.keyParam .string) m.template
      pure (some (← inner instantiated))
    else pure none
  let result ← Build.object ⟨fields.map (·.field), index⟩
  fields.forM fun f => do
    if let some tag ← Build.origin? (.field source f.key) then
      Build.recordOrigin (.field result f.field.name) tag
  return result

def mapped (inner : TypeId → Eval TypeId) (m : Mapped) : Eval TypeId := do
  let source ← inner m.source
  match ← Build.node source with
  | .union members => perMember inner (fun t => Build.mapped { m with source := t }) members
  | .object shape => mapObject inner m source shape
  | .intrinsic _ | .literal _ | .array _ | .function _ | .error => return source
  | _ => Build.mapped { m with source := source }

end TypeResolution.Eval
