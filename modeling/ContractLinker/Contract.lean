import ContractLinker.Executable
import ContractLinker.Manifest
import ContractLinker.Assembly.Error

namespace ContractLinker

structure Contract where
  name : String
  source : String
  script : Bytes
  tokens : List Token
  standards : List String
  abi : Abi
  permissions : List Permission
  extra : List (String × Json)

namespace Contract

def methodOffset? (c : Contract) (name : String) : Option Nat :=
  (c.abi.methods.find? (·.name = name)).map (·.offset)

def executable (c : Contract) (compiler : String) : Except CompileError Executable :=
  CompileError.lift (Executable.build compiler c.source c.tokens c.script)

def manifest (c : Contract) : Manifest where
  name := c.name
  standards := c.standards
  abi := c.abi
  permissions := c.permissions
  extra := c.extra

end Contract
end ContractLinker
