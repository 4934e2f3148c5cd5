import ContractLinker.Command.Arguments

namespace ContractLinker

def Cause.message : Cause → String
  | .text message => message
  | .codec cause => cause.message
  | .compile cause => cause.message
  | .json .incomplete => "the text ends inside a value"
  | .json .malformed => "the text is not valid JSON"
  | .json (.mismatch note) => note.getD "a value is not of the form its place asks for"
  | .file cause => cause.message

def Failure.message (f : Failure) : String := ": ".intercalate (f.chain.map Cause.message)

structure Exit where
  code : UInt8
  output : String := ""
  complaint : String := ""
  deriving DecidableEq, Repr

namespace CommandLine

def usage : String :=
  s!"Usage: {programName} [-v] [--config PATH] <COMMAND>\n\n" ++
    "Commands:\n" ++
    "  build PROGRAM [-o OUTPUT] [--no-optimize]\n" ++
    "  optimize INPUT [--manifest MANIFEST] [-o OUTPUT]\n" ++
    "  inspect INPUT\n"

variable {m : Type → Type} [Monad m] [Files m]

/-- Settings are read before any command starts. -/
def runInvocation (i : Invocation) : m Exit := do
  match ← Config.load i.config with
  | .error e => return { code := 1, complaint := s!"Error: {e.message}\n" }
  | .ok config =>
    match ← (i.command.run config).run with
    | .error f => return { code := 1, complaint := s!"Error: {f.message}\n" }
    | .ok output => return { code := 0, output }

def run (args : List String) : m Exit := do
  match Arguments.parse args with
  | .ok i => runInvocation i
  | .error .badUsage => return { code := 2, complaint := usage }
  | .error .help => return { code := 0, output := usage }
  | .error .version => return { code := 0, output := s!"{programName} {programVersion}\n" }

end CommandLine
end ContractLinker
