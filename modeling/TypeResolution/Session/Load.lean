import TypeResolution.Session.Vocabulary

/-!
Loading session configurations and workspaces. Limits must not be zero and module names must
differ; errors tell the file, if there is one, and then the cause.
-/

namespace TypeResolution

/-- What is loaded. -/
inductive LoadKind where
  | config
  | workspace
  deriving DecidableEq, Repr

def LoadKind.name : LoadKind → String
  | .config => "session config"
  | .workspace => "workspace"

/-- Why loading failed. -/
inductive LoadCause where
  | malformed (kind : LoadKind)
  | zeroEvaluationDepth
  | zeroSubtypeDepth
  | zeroIterations
  | repeatedModule (name : String)
  deriving DecidableEq, Repr

def LoadCause.message : LoadCause → String
  | .malformed kind => "failed to parse " ++ kind.name ++ " JSON"
  | .zeroEvaluationDepth => "resolution.maxEvaluationDepth must be at least 1"
  | .zeroSubtypeDepth => "resolution.maxSubtypeDepth must be at least 1"
  | .zeroIterations => "resolution.maxIterations must be at least 1"
  | .repeatedModule name => "module '" ++ name ++ "' is declared more than once"

/-- A failure to load a file. -/
inductive FileError where
  | unreadable (kind : LoadKind) (path : String)
  | invalid (kind : LoadKind) (path : String) (cause : LoadCause)
  deriving DecidableEq, Repr

/-- The messages from the outside in. -/
def FileError.messages : FileError → List String
  | .unreadable kind path => ["failed to read " ++ kind.name ++ ": " ++ path]
  | .invalid kind path cause => ["failed to load " ++ kind.name ++ ": " ++ path, cause.message]

def SessionConfig.validate (c : SessionConfig) : Except LoadCause Unit :=
  if c.resolution.maxEvaluationDepth = 0 then .error .zeroEvaluationDepth
  else if c.resolution.maxSubtypeDepth = 0 then .error .zeroSubtypeDepth
  else if c.resolution.maxIterations = 0 then .error .zeroIterations
  else .ok ()

def SessionConfig.ofText (s : String) : Except LoadCause SessionConfig := do
  match decodeText? SessionConfig.decode s with
  | none => throw (.malformed .config)
  | some c =>
      c.validate
      return c

/-- The first name that occurs a second time. -/
def repeated? : List String → List String → Option String
  | [], _ => none
  | name :: rest, seen => if seen.contains name then some name else repeated? rest (name :: seen)

def Workspace.ofText (s : String) : Except LoadCause Workspace := do
  match decodeText? Workspace.decode s with
  | none => throw (.malformed .workspace)
  | some w =>
      w.config.validate
      match repeated? (w.modules.map (·.name)) [] with
      | some name => throw (.repeatedModule name)
      | none => return w

/-- Loads from the contents of a file; none if it cannot be read. -/
def loadFile {α : Type} (kind : LoadKind) (ofText : String → Except LoadCause α) (path : String)
    (contents : Option String) : Except FileError α :=
  match contents with
  | none => .error (.unreadable kind path)
  | some s => (ofText s).mapError (.invalid kind path)

def SessionConfig.ofFile (path : String) (contents : Option String) :
    Except FileError SessionConfig :=
  loadFile .config SessionConfig.ofText path contents

def Workspace.ofFile (path : String) (contents : Option String) : Except FileError Workspace :=
  loadFile .workspace Workspace.ofText path contents

end TypeResolution
