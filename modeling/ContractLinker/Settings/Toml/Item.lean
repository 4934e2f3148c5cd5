namespace ContractLinker.Toml

/-- How a table came to be: by a header of its own, by the header of a table inside it, or by a
dotted key. -/
inductive Origin where
  | header
  | implied
  | dotted
  deriving DecidableEq, Repr

inductive Item where
  | string (value : String)
  | integer (value : Int)
  | float
  | boolean (value : Bool)
  | date
  | array (items : List Item)
  | inline (entries : List (String × Item))
  | table (origin : Origin) (entries : List (String × Item))
  | tables (latest : List (String × Item)) (earlier : List (List (String × Item)))

abbrev Entries := List (String × Item)

def find? (key : String) (entries : Entries) : Option Item :=
  (entries.find? (·.1 = key)).map (·.2)

def replace (key : String) (item : Item) : Entries → Entries
  | [] => [(key, item)]
  | (k, old) :: rest => if k = key then (key, item) :: rest else (k, old) :: replace key item rest

/-- Adds a value under a dotted key. It may go into tables that dotted keys have made, and on
through implied ones and the latest of several, but not into a table with a header, and never over
another value. -/
def put (key : String) (value : Item) : List String → Entries → Option Entries
  | [], entries => if (find? key entries).isSome then none else some (entries ++ [(key, value)])
  | p :: path, entries =>
    match find? p entries with
    | none => do return entries ++ [(p, .table .dotted (← put key value path []))]
    | some (.table .dotted inner) => do
      return replace p (.table .dotted (← put key value path inner)) entries
    | some (.table .implied inner) =>
      if path.isEmpty then none
      else do return replace p (.table .implied (← put key value path inner)) entries
    | some (.tables latest earlier) =>
      if path.isEmpty then none
      else do return replace p (.tables (← put key value path latest) earlier) entries
    | some _ => none

/-- Changes the table at a path. Tables that are missing on the way are implied. -/
def within (change : Entries → Option Entries) : List String → Entries → Option Entries
  | [], entries => change entries
  | p :: path, entries =>
    match find? p entries with
    | none => do return entries ++ [(p, .table .implied (← within change path []))]
    | some (.table origin inner) => do
      return replace p (.table origin (← within change path inner)) entries
    | some (.tables latest earlier) => do
      return replace p (.tables (← within change path latest) earlier) entries
    | some _ => none

def openTable (key : String) (entries : Entries) : Option Entries :=
  match find? key entries with
  | none => some (entries ++ [(key, .table .header [])])
  | some (.table .implied inner) => some (replace key (.table .header inner) entries)
  | some _ => none

def appendTable (key : String) (entries : Entries) : Option Entries :=
  match find? key entries with
  | none => some (entries ++ [(key, .tables [] [])])
  | some (.tables latest earlier) => some (replace key (.tables [] (latest :: earlier)) entries)
  | some _ => none

end ContractLinker.Toml
