namespace ContractLinker

inductive NameSet where
  | all
  | only (names : List String)
  deriving DecidableEq, Repr

namespace NameSet

def wildcard : String := "*"

def allows (set : NameSet) (name : String) : Bool :=
  match set with
  | .all => true
  | .only names => names.contains name

/-- Adds a name at the end, unless it is there. -/
def insert (set : NameSet) (name : String) : NameSet :=
  if name = wildcard then .all
  else
    match set with
    | .all => .all
    | .only names => if names.contains name then .only names else .only (names ++ [name])

end NameSet
end ContractLinker
