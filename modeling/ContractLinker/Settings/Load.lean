import ContractLinker.Files
import ContractLinker.Settings.Config

namespace ContractLinker

inductive ConfigError where
  | missing (path : String)
  | unreadable (path : String) (cause : FileError)
  | malformed (path : String)
  deriving DecidableEq, Repr

def ConfigError.message : ConfigError → String
  | .missing path => s!"Config file {path} does not exist"
  | .unreadable path cause => s!"Failed to read {path}: {cause.message}"
  | .malformed path => s!"Failed to parse {path}"

namespace Config

variable {m : Type → Type} [Monad m] [Files m]

def find : m (Option String) := do
  let dirs := Path.ancestors (← Files.workingDir)
  Files.firstPresent (dirs.flatMap fun dir => fileNames.map (Path.within dir))

def readFrom (path : String) : m (Except ConfigError Config) := do
  if !(← Files.isPresent path) then return .error (.missing path)
  match ← Files.readText path with
  | .error e => return .error (.unreadable path e)
  | .ok text =>
    match ofText? text with
    | some config => return .ok config
    | none => return .error (.malformed path)

/-- The settings of a given file, or of the nearest one; without any, the standard ones. -/
def load (given : Option String) : m (Except ConfigError Config) := do
  match given with
  | some path => readFrom path
  | none =>
    match ← find with
    | some path => readFrom path
    | none => return .ok {}

end Config
end ContractLinker
