import ContractLinker.Manifest.NameSet

namespace ContractLinker

/-- Methods that may be called on a contract, which is named by its hash, a group key or `*`. -/
structure Permission where
  contract : String
  methods : NameSet
  deriving DecidableEq, Repr

/-- One permission per contract, in the order in which the contracts were first named. -/
structure Permissions where
  entries : List Permission := []
  deriving DecidableEq, Repr

namespace Permissions

def insertAll (methods : List String) (p : Permission) : Permission :=
  { p with methods := methods.foldl NameSet.insert p.methods }

def addTo (contract : String) (methods : List String) : List Permission → List Permission
  | [] => [insertAll methods ⟨contract, .only []⟩]
  | p :: rest =>
    if p.contract = contract then insertAll methods p :: rest
    else p :: addTo contract methods rest

/-- Allows each of `methods` on `contract`, which is listed even if there are none. -/
def addAll (ps : Permissions) (contract : String) (methods : List String) : Permissions :=
  ⟨addTo contract methods ps.entries⟩

def add (ps : Permissions) (contract method : String) : Permissions :=
  ps.addAll contract [method]

end Permissions
end ContractLinker
