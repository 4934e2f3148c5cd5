import ContractLinker.Settings.Toml

namespace ContractLinker

def programName : String := "sablec"

def programVersion : String := "0.1.0"

structure Config where
  compilerId : String := programName ++ " " ++ programVersion
  source : String := ""
  deadCode : Bool := true
  deriving DecidableEq, Repr

namespace Config

/-- Names of settings files, the one that goes first first. -/
def fileNames : List String := ["sable.toml", ".sablerc.toml"]

/-- What a section gives for its settings, which have these names. An array gives them in this
order; a section that is missing or a date gives none. -/
def section? (name : String) (settings : List String) (top : Toml.Entries) :
    Option Toml.Entries :=
  match Toml.find? name top with
  | none | some .date => some []
  | some (.inline entries) | some (.table _ entries) => some entries
  | some (.array items) => some (settings.zip items)
  | some _ => none

def string? (name default : String) (entries : Toml.Entries) : Option String :=
  match Toml.find? name entries with
  | none => some default
  | some (.string s) => some s
  | some _ => none

def bool? (name : String) (default : Bool) (entries : Toml.Entries) : Option Bool :=
  match Toml.find? name entries with
  | none => some default
  | some (.boolean b) => some b
  | some _ => none

/-- Tables and keys that are not known are passed over. -/
def ofText? (text : String) : Option Config := do
  let top ← Toml.parse text
  let standard : Config := {}
  let compiler ← section? "compiler" ["id", "source"] top
  let optimizer ← section? "optimizer" ["dead_code"] top
  return {
    compilerId := ← string? "id" standard.compilerId compiler
    source := ← string? "source" standard.source compiler
    deadCode := ← bool? "dead_code" standard.deadCode optimizer }

end Config
end ContractLinker
