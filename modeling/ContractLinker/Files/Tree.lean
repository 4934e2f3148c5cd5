import ContractLinker.Files

namespace ContractLinker

inductive FileNode where
  | directory
  | file (content : Bytes)
  deriving DecidableEq, Repr

def FileNode.size : FileNode → Nat
  | .directory => 0
  | .file content => content.length

/-- Names on the way down from the root. -/
abbrev Location := List String

structure FileTree where
  nodes : List (Location × FileNode) := []
  workingDir : Location := []
  /-- Bytes that all files together may hold, if there is a limit. -/
  capacity : Option Nat := none
  deriving DecidableEq, Repr

namespace FileTree

def node? (t : FileTree) (loc : Location) : Option FileNode :=
  if loc = [] then some .directory else (t.nodes.find? (·.1 = loc)).map (·.2)

def setNode (t : FileTree) (loc : Location) (node : FileNode) : FileTree :=
  { t with nodes := (loc, node) :: t.nodes.filter (·.1 ≠ loc) }

def nameLimit : Nat := 255

def pathLimit : Nat := 4095

/-- What a directory has under a name. -/
def lookUp (t : FileTree) (dir : Location) (name : String) : Except FileError (Option FileNode) :=
  if nameLimit < name.utf8ByteSize then .error .nameTooLong else .ok (t.node? (dir ++ [name]))

/-- Follows names down from a directory; all of them have to be directories. -/
def descend (t : FileTree) (dir : Location) : List String → Except FileError Location
  | [] => .ok dir
  | name :: names =>
    if name = "." then descend t dir names
    else if name = ".." then descend t dir.dropLast names
    else
      match t.lookUp dir name with
      | .error e => .error e
      | .ok none => .error .notFound
      | .ok (some (.file _)) => .error .notADirectory
      | .ok (some .directory) => descend t (dir ++ [name]) names

/-- Where a path leads: a name in a directory, or a directory without naming it. A slash behind a
name asks for a directory. -/
inductive Place where
  | entry (dir : Location) (name : String) (asDirectory : Bool)
  | itself (dir : Location)
  deriving DecidableEq, Repr

def locate (t : FileTree) (path : String) : Except FileError Place := do
  if path.contains '\x00' then throw .nulInPath
  if pathLimit < path.utf8ByteSize then throw .nameTooLong
  let ps := Path.pieces path.toList
  let start := if Path.isAbsolute path then [] else t.workingDir
  let names := (ps.filter (!·.isEmpty)).map String.ofList
  if path = "" then throw .notFound
  match names.getLast? with
  | none => return .itself start
  | some last =>
    if last = "." ∨ last = ".." then return .itself (← t.descend start names)
    else
      let dir ← t.descend start names.dropLast
      return .entry dir last (ps.getLast? = some [])

def read (t : FileTree) (path : String) : Except FileError Bytes := do
  match ← t.locate path with
  | .itself _ => throw .isADirectory
  | .entry dir name asDirectory =>
    match ← t.lookUp dir name with
    | none => throw .notFound
    | some .directory => throw .isADirectory
    | some (.file content) => if asDirectory then throw .notADirectory else return content

/-- Where writing to a path makes or finds a file. -/
def fileLocation (t : FileTree) (path : String) : Except FileError Location := do
  match ← t.locate path with
  | .itself _ => throw .isADirectory
  | .entry dir name asDirectory =>
    if asDirectory then throw .isADirectory
    if (← t.lookUp dir name) = some .directory then throw .isADirectory
    return dir ++ [name]

def used (t : FileTree) : Nat := t.nodes.foldl (fun total entry => total + entry.2.size) 0

def fitting (t : FileTree) (content : Bytes) : Bytes :=
  match t.capacity with
  | none => content
  | some limit => content.take (limit - t.used)

/-- The file is emptied before the first byte is stored; a write that runs out of room leaves the
bytes up to there. -/
def write (t : FileTree) (path : String) (content : Bytes) : Outcome FileError FileTree Unit :=
  match t.fileLocation path with
  | .error e => (.error e, t)
  | .ok loc =>
    let emptied := t.setNode loc (.file [])
    let stored := emptied.fitting content
    let result := if stored.length = content.length then .ok () else .error .storageFull
    (result, emptied.setNode loc (.file stored))

def makeDir (t : FileTree) (path : String) : Outcome FileError FileTree Unit :=
  match t.locate path with
  | .error e => (.error e, t)
  | .ok (.itself _) => (.error .alreadyExists, t)
  | .ok (.entry dir name _) =>
    match t.lookUp dir name with
    | .error e => (.error e, t)
    | .ok (some _) => (.error .alreadyExists, t)
    | .ok none => (.ok (), t.setNode (dir ++ [name]) .directory)

/-- Files that are not in `old` with the same content. -/
def changedSince (t old : FileTree) : List (String × Bytes) :=
  t.nodes.filterMap fun (loc, node) =>
    match node with
    | .directory => none
    | .file content =>
      if old.node? loc = some node then none else some ("/".intercalate loc, content)

instance : Files (StateM FileTree) where
  read path := return (← get).read path
  write path content := modifyGet fun t => t.write path content
  makeDir path := modifyGet fun t => t.makeDir path
  workingDir := return "/" ++ "/".intercalate (← get).workingDir

end FileTree
end ContractLinker
