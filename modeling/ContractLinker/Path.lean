namespace ContractLinker.Path

abbrev Piece := List Char

def pieces : List Char → List Piece
  | [] => [[]]
  | c :: cs =>
    if c = '/' then [] :: pieces cs
    else
      match pieces cs with
      | [] => [[c]]
      | p :: ps => (c :: p) :: ps

def join (ps : List Piece) : String := String.ofList (['/'].intercalate ps)

/-- Drops pieces that name nothing from the end of a path, which is given back to front. -/
def trim : List Piece → List Piece
  | [] => []
  | p :: before =>
    if p.isEmpty || (p = ['.'] && !before.isEmpty) then trim before else p :: before

def backward (path : String) : List Piece := trim (pieces path.toList).reverse

def isAbsolute (path : String) : Bool := path.toList.head? = some '/'

/-- The path without its last piece; empty for a single piece, and `none` for the root. -/
def parent? (path : String) : Option String :=
  match backward path with
  | [] => none
  | _ :: before =>
    match trim before with
    | [] => some (if isAbsolute path then "/" else "")
    | up => some (join up.reverse)

def ancestorsOf : Nat → String → List String
  | 0, _ => []
  | fuel + 1, path =>
    match parent? path with
    | none => [path]
    | some up => path :: ancestorsOf fuel up

/-- The path, its parent, the parent of that and so on; the empty path is left out. -/
def ancestors (path : String) : List String :=
  (ancestorsOf (path.length + 1) path).filter (· ≠ "")

/-- A file name around its last dot; a dot in front does not count. -/
def splitDot (name : Piece) : Option (Piece × Piece) :=
  match name.reverse.span (· ≠ '.') with
  | (after, _ :: c :: before) => some ((c :: before).reverse, after.reverse)
  | _ => none

def stem (name : Piece) : Piece :=
  match splitDot name with
  | some (before, _) => before
  | none => name

def isFileName (p : Piece) : Bool := p ≠ ['.'] && p ≠ ['.', '.']

def withoutDot (path : String) : String :=
  match backward path with
  | p :: before => if isFileName p then join (stem p :: before).reverse else path
  | [] => path

/-- The path without the extension of its file name. The extension goes first and its dot after it,
so nothing more happens to a path that then ends in `..`. -/
def withoutExtension (path : String) : String :=
  match backward path with
  | p :: _ =>
    match isFileName p, splitDot p with
    | true, some (_, extension) =>
      withoutDot (String.ofList (path.toList.take (path.length - extension.length)))
    | _, _ => withoutDot path
  | [] => path

def within (dir name : String) : String :=
  if dir.toList.getLast? = some '/' then dir ++ name else dir ++ "/" ++ name

end ContractLinker.Path
