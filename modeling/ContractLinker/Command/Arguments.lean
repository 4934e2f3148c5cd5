import ContractLinker.Command

namespace ContractLinker

structure Invocation where
  command : Command
  config : Option String := none
  verbose : Bool := false
  deriving DecidableEq, Repr

/-- Why a command line starts no command. -/
inductive Refusal where
  | badUsage
  | help
  | version
  deriving DecidableEq, Repr

namespace Arguments

/-- Where an argument stands: in front of the command, or behind one. -/
inductive Position where
  | front
  | build
  | optimize
  | inspect
  deriving DecidableEq, Repr

def Position.ofCommand? : String → Option Position
  | "build" => some .build
  | "optimize" => some .optimize
  | "inspect" => some .inspect
  | _ => none

inductive Setting where
  | config
  | output
  | manifest
  deriving DecidableEq, Repr

inductive Switch where
  | verbose
  | noOptimize
  deriving DecidableEq, Repr

inductive Spec where
  | switch (which : Switch)
  | setting (which : Setting)
  | help
  | version
  deriving DecidableEq, Repr

namespace Position

def long? : Position → String → Option Spec
  | _, "verbose" => some (.switch .verbose)
  | _, "config" => some (.setting .config)
  | _, "help" => some .help
  | .front, "version" => some .version
  | .build, "output" => some (.setting .output)
  | .build, "no-optimize" => some (.switch .noOptimize)
  | .optimize, "output" => some (.setting .output)
  | .optimize, "manifest" => some (.setting .manifest)
  | _, _ => none

def short? : Position → Char → Option Spec
  | _, 'v' => some (.switch .verbose)
  | _, 'h' => some .help
  | .front, 'V' => some .version
  | .build, 'o' => some (.setting .output)
  | .optimize, 'o' => some (.setting .output)
  | _, _ => none

end Position

/-- What was given on one side of the command, each option at most once. Behind the command wins. -/
structure Given where
  switches : List Switch := []
  settings : List (Setting × String) := []
  file : Option String := none
  deriving DecidableEq, Repr

namespace Given

def setting? (g : Given) (s : Setting) : Option String :=
  (g.settings.find? (·.1 = s)).map (·.2)

def turnOn (g : Given) (s : Switch) : Except Refusal Given :=
  if g.switches.contains s then .error .badUsage else .ok { g with switches := s :: g.switches }

def assign (g : Given) (s : Setting) (value : String) : Except Refusal Given :=
  if value = "" ∨ (g.setting? s).isSome then .error .badUsage
  else .ok { g with settings := (s, value) :: g.settings }

def addFile (g : Given) (path : String) : Except Refusal Given :=
  if path = "" ∨ g.file.isSome then .error .badUsage else .ok { g with file := some path }

end Given

/-- A dash alone is a value. -/
def looksLikeOption (arg : String) : Bool :=
  match arg.toList with
  | '-' :: _ :: _ => true
  | _ => false

/-- Short options behind one dash. The last may be a setting that waits for the next argument. -/
def shorts (position : Position) (g : Given) :
    List Char → Except Refusal (Given × Option Setting)
  | [] => .ok (g, none)
  | c :: cs =>
    match position.short? c with
    | none => .error .badUsage
    | some .help => .error .help
    | some .version => .error .version
    | some (.switch s) => do shorts position (← g.turnOn s) cs
    | some (.setting s) =>
      match cs with
      | [] => .ok (g, some s)
      | '=' :: value => do return (← g.assign s (String.ofList value), none)
      | value => do return (← g.assign s (String.ofList value), none)

def long (position : Position) (g : Given) (cs : List Char) :
    Except Refusal (Given × Option Setting) :=
  let (name, rest) := cs.span (· ≠ '=')
  match position.long? (String.ofList name), rest with
  | some (.setting s), [] => .ok (g, some s)
  | some (.setting s), _ :: value => do return (← g.assign s (String.ofList value), none)
  | some (.switch s), [] => do return (← g.turnOn s, none)
  | some .help, [] => .error .help
  | some .version, [] => .error .version
  | _, _ => .error .badUsage

def option (position : Position) (g : Given) (arg : String) :
    Except Refusal (Given × Option Setting) :=
  match arg.toList with
  | '-' :: '-' :: cs => long position g cs
  | '-' :: cs => shorts position g cs
  | _ => .error .badUsage

def supply (g : Given) (s : Setting) (arg : String) : Except Refusal Given :=
  if looksLikeOption arg then .error .badUsage else g.assign s arg

/-- Arguments behind a command; behind `--` they are files whatever they look like. -/
def behind (position : Position) (g : Given) : Option Setting → List String → Except Refusal Given
  | none, [] => .ok g
  | some _, [] => .error .badUsage
  | some s, arg :: args => do behind position (← supply g s arg) none args
  | none, arg :: args =>
    if arg = "--" then args.foldlM Given.addFile g
    else if looksLikeOption arg then do
      let (g, waiting) ← option position g arg
      behind position g waiting args
    else do behind position (← g.addFile arg) none args

def commandOf (position : Position) (g : Given) : Except Refusal Command :=
  match position, g.file with
  | .build, some program =>
    .ok (.build {
      program
      output := g.setting? .output
      optimize := !g.switches.contains .noOptimize })
  | .optimize, some input =>
    .ok (.optimize { input, manifest := g.setting? .manifest, output := g.setting? .output })
  | .inspect, some input => .ok (.inspect input)
  | _, _ => .error .badUsage

/-- `help` may be followed by one command. -/
def asksForHelp (name : String) (args : List String) : Bool :=
  name = "help" &&
    match args with
    | [] => true
    | [topic] => topic = "help" || (Position.ofCommand? topic).isSome
    | _ => false

def startCommand (front : Given) (name : String) (args : List String) :
    Except Refusal Invocation := do
  match Position.ofCommand? name with
  | none => throw (if asksForHelp name args then .help else .badUsage)
  | some position =>
    let g ← behind position {} none args
    return {
      command := ← commandOf position g
      config := g.setting? .config <|> front.setting? .config
      verbose := g.switches.contains .verbose || front.switches.contains .verbose }

/-- Arguments up to the command, and on from there. -/
def front (g : Given) : Option Setting → List String → Except Refusal Invocation
  | _, [] => .error .badUsage
  | some s, arg :: args => do front (← supply g s arg) none args
  | none, arg :: args =>
    if arg = "--" then .error .badUsage
    else if looksLikeOption arg then do
      let (g, waiting) ← option .front g arg
      front g waiting args
    else startCommand g arg args

def parse (args : List String) : Except Refusal Invocation := front {} none args

end Arguments
end ContractLinker
