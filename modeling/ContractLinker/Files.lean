import ContractLinker.Bytes.Utf8
import ContractLinker.Failure
import ContractLinker.Outcome
import ContractLinker.Path

namespace ContractLinker

class Files (m : Type → Type) where
  read : String → m (Except FileError Bytes)
  /-- Makes or empties the file, and then stores the content. -/
  write : String → Bytes → m (Except FileError Unit)
  makeDir : String → m (Except FileError Unit)
  workingDir : m String

namespace Files

variable {m : Type → Type} [Monad m] [Files m]

def isDir (path : String) : m Bool := do
  match ← read path with
  | .error .isADirectory => return true
  | _ => return false

def isPresent (path : String) : m Bool := do
  match ← read path with
  | .ok _ | .error .isADirectory => return true
  | .error _ => return false

def firstPresent : List String → m (Option String)
  | [] => return none
  | path :: paths => do if ← isPresent path then return some path else firstPresent paths

def readText (path : String) : m (Except FileError String) := do
  match ← read path with
  | .error e => return .error e
  | .ok bytes =>
    match Utf8.decode bytes with
    | .ok text => return .ok text
    | .error _ => return .error .notText

/-- Makes a directory, which may be there already. -/
def ensureDir (path : String) : m (Except FileError Unit) := do
  match ← makeDir path with
  | .ok () => return .ok ()
  | .error e => if ← isDir path then return .ok () else return .error e

/-- Makes the first of some nested directories, and those around it where they are missing. -/
def ensureDirs : List String → m (Except FileError Unit)
  | [] => return .ok ()
  | dir :: outer => do
    match ← ensureDir dir with
    | .error .notFound =>
      match ← ensureDirs outer with
      | .ok () => ensureDir dir
      | .error e => return .error e
    | result => return result

end Files
end ContractLinker
