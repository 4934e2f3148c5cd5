import ContractLinker.Executable.Listing
import ContractLinker.Executable.Optimize
import ContractLinker.Program.Lower
import ContractLinker.Settings.Load

namespace ContractLinker

structure BuildOptions where
  program : String
  /-- Path of the results, without their endings. -/
  output : Option String := none
  optimize : Bool := true
  deriving DecidableEq, Repr

structure OptimizeOptions where
  input : String
  /-- Its methods are kept, and their offsets are moved. -/
  manifest : Option String := none
  /-- The input is overwritten where none is given. -/
  output : Option String := none
  deriving DecidableEq, Repr

inductive Command where
  | build (options : BuildOptions)
  | optimize (options : OptimizeOptions)
  | inspect (input : String)
  deriving DecidableEq, Repr

structure Package where
  executable : Executable
  manifest : Manifest

namespace Package

def entries (p : Package) : List Nat := p.manifest.abi.methods.map (·.offset)

def optimize (p : Package) : Except CompileError Package := do
  let optimized ← p.executable.optimize p.entries
  let (result, manifest) := optimized.remap p.manifest
  result
  return ⟨optimized.executable, manifest⟩

/-- Links a program, with dead code removed or not. -/
def ofProgram (config : Config) (removeDead : Bool) (program : Program) :
    Except Failure Package := do
  let compilation ← program.lower
  orFail .compile do
    let contract ← { compilation with source := config.source }.compile
    let package : Package := ⟨← contract.executable config.compilerId, contract.manifest⟩
    if removeDead then package.optimize else return package

end Package

namespace Command

variable {m : Type → Type} [Monad m] [Files m]

/-- A file operation whose failure is told with what it was for. -/
def attempt (purpose : String) (action : m (Except FileError α)) : ExceptT Failure m α := do
  match ← action with
  | .ok a => return a
  | .error e => throw ((Failure.of (.file e)).within purpose)

def read (path : String) : ExceptT Failure m Bytes :=
  attempt s!"Failed to read {path}" (Files.read path)

def readText (path : String) : ExceptT Failure m String :=
  attempt s!"Failed to read {path}" (Files.readText path)

def write (path : String) (content : Bytes) : ExceptT Failure m Unit :=
  attempt s!"Failed to write {path}" (Files.write path content)

/-- Makes the directory that a file is to stand in. -/
def makeRoom (path : String) : ExceptT Failure m Unit := do
  match Path.parent? path with
  | none | some "" => return ()
  | some dir => attempt s!"Failed to create {dir}" (Files.ensureDirs (Path.ancestors dir))

def readExecutable (path : String) : ExceptT Failure m Executable := do
  let bytes ← read path
  withContext s!"Invalid executable {path}" (orFail .codec (Executable.ofBytes bytes))

def readManifest (path : String) : ExceptT Failure m Manifest := do
  let text ← readText path
  withContext s!"Failed to parse {path}" (orFail .json (Manifest.ofText text))

def readProgram (path : String) : ExceptT Failure m Program := do
  let text ← readText path
  withContext s!"Failed to parse {path}" (orFail .json (Program.ofText text))

def writeManifest (path : String) (manifest : Manifest) : ExceptT Failure m Unit :=
  write path (Utf8.encode manifest.toText)

/-- Nothing is written unless the whole program links. -/
def buildProgram (config : Config) (o : BuildOptions) : ExceptT Failure m String := do
  let base := o.output.getD (Path.withoutExtension o.program)
  let executablePath := base ++ ".nef"
  let manifestPath := base ++ ".manifest.json"
  let program ← readProgram o.program
  let package ← Package.ofProgram config (config.deadCode && o.optimize) program
  makeRoom executablePath
  write executablePath (← orFail .codec package.executable.toBytes)
  writeManifest manifestPath package.manifest
  let size := package.executable.script.length
  let checksum := package.executable.checksumText
  return s!"Built {executablePath} ({size} bytes, checksum {checksum})\nWrote {manifestPath}\n"

/-- Both results are made before the first is written. -/
def optimizeExecutable (o : OptimizeOptions) : ExceptT Failure m String := do
  let executable ← readExecutable o.input
  let manifest ← o.manifest.mapM readManifest
  let entries := match manifest with
    | some manifest => manifest.abi.methods.map (·.offset)
    | none => []
  let optimized ← orFail .compile (executable.optimize entries)
  let bytes ← orFail .codec optimized.executable.toBytes
  let manifest ← manifest.mapM fun manifest => do
    let ((), moved) ← orFail .compile (optimized.remap manifest).onSuccess
    return moved
  write (o.output.getD o.input) bytes
  match o.manifest, manifest with
  | some path, some manifest => writeManifest path manifest
  | _, _ => pure ()
  let before := executable.script.length
  let after := optimized.executable.script.length
  return s!"Removed {optimized.removed} instructions: {before} -> {after} bytes\n"

def inspectExecutable (path : String) : ExceptT Failure m String := do
  let executable ← readExecutable path
  orFail .codec executable.listing

def run (config : Config) : Command → ExceptT Failure m String
  | .build options => buildProgram config options
  | .optimize options => optimizeExecutable options
  | .inspect input => inspectExecutable input

end Command
end ContractLinker
