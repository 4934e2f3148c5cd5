import ContractLinker.Command.Line

namespace ContractLinker

/-- The file errors that commands tell apart have these system codes, which come with either
sign. -/
def FileError.ofCode (code : UInt32) (message : String) : FileError :=
  let code := min code (-code)
  if code = 2 then .notFound
  else if code = 17 then .alreadyExists
  else if code = 20 then .notADirectory
  else if code = 21 then .isADirectory
  else if code = 28 then .storageFull
  else if code = 36 then .nameTooLong
  else .other message

def FileError.ofSystem (e : IO.Error) : FileError :=
  match e with
  | .alreadyExists _ code _ | .noFileOrDirectory _ code _ | .inappropriateType _ code _
  | .resourceExhausted _ code _ | .permissionDenied _ code _ | .invalidArgument _ code _
  | .noSuchThing _ code _ => .ofCode code (toString e)
  | .otherError code _ | .resourceBusy code _ | .unsupportedOperation code _
  | .illegalOperation code _ => .ofCode code (toString e)
  | e => .other (toString e)

def tryFiles (path : String) (action : IO α) : IO (Except FileError α) := do
  if path.contains '\x00' then return .error .nulInPath
  try
    return .ok (← action)
  catch e =>
    return .error (.ofSystem e)

instance : Files IO where
  read path := tryFiles path do return (← IO.FS.readBinFile path).toList
  write path content := tryFiles path (IO.FS.writeBinFile path ⟨content.toArray⟩)
  makeDir path := tryFiles path (IO.FS.createDir path)
  workingDir := return toString (← IO.currentDir)

end ContractLinker

def main (args : List String) : IO UInt32 := do
  let exit ← ContractLinker.CommandLine.run args
  IO.print exit.output
  IO.eprint exit.complaint
  return exit.code.toUInt32
