import ContractLinker.Assembly.Error
import ContractLinker.Json.Fault

namespace ContractLinker

inductive FileError where
  | notFound
  | isADirectory
  | notADirectory
  | alreadyExists
  | nameTooLong
  /-- The path holds a NUL character. -/
  | nulInPath
  | notText
  | storageFull
  | other (message : String)
  deriving DecidableEq, Repr

def FileError.message : FileError → String
  | .notFound => "no such file or directory"
  | .isADirectory => "is a directory"
  | .notADirectory => "not a directory"
  | .alreadyExists => "file exists"
  | .nameTooLong => "file name too long"
  | .nulInPath => "file name contains a NUL character"
  | .notText => "not valid UTF-8"
  | .storageFull => "no space left on device"
  | .other message => message

inductive Cause where
  | text (message : String)
  | codec (cause : CodecError)
  | compile (cause : CompileError)
  | json (cause : Json.Fault)
  | file (cause : FileError)
  deriving DecidableEq, Repr

/-- Causes, the outermost first. -/
structure Failure where
  chain : List Cause
  deriving DecidableEq, Repr

namespace Failure

def of (cause : Cause) : Failure := ⟨[cause]⟩

def within (context : String) (f : Failure) : Failure := ⟨.text context :: f.chain⟩

end Failure

def orFail (cause : ε → Cause) : Except ε α → Except Failure α
  | .ok a => .ok a
  | .error e => .error (.of (cause e))

def withContext (context : String) : Except Failure α → Except Failure α
  | .ok a => .ok a
  | .error f => .error (f.within context)

end ContractLinker
