import ContractLinker.Json.Value
import ContractLinker.Manifest.Permission

namespace ContractLinker

inductive ParameterType where
  | any
  | boolean
  | integer
  | byteArray
  | string
  | hash160
  | hash256
  | publicKey
  | signature
  | array
  | map
  | interopInterface
  | void
  deriving DecidableEq, Repr

namespace ParameterType

def name : ParameterType → String
  | .any => "Any"
  | .boolean => "Boolean"
  | .integer => "Integer"
  | .byteArray => "ByteArray"
  | .string => "String"
  | .hash160 => "Hash160"
  | .hash256 => "Hash256"
  | .publicKey => "PublicKey"
  | .signature => "Signature"
  | .array => "Array"
  | .map => "Map"
  | .interopInterface => "InteropInterface"
  | .void => "Void"

def all : List ParameterType :=
  [.any, .boolean, .integer, .byteArray, .string, .hash160, .hash256, .publicKey, .signature,
    .array, .map, .interopInterface, .void]

def ofName? (text : String) : Option ParameterType := all.find? (·.name = text)

theorem ofName?_name (t : ParameterType) : ofName? t.name = some t := by cases t <;> decide

end ParameterType

structure Parameter where
  name : String
  kind : ParameterType
  deriving DecidableEq, Repr

structure AbiMethod where
  name : String
  offset : Nat
  safe : Bool
  returnType : ParameterType
  parameters : List Parameter
  deriving DecidableEq, Repr

structure AbiEvent where
  name : String
  parameters : List Parameter
  deriving DecidableEq, Repr

structure Abi where
  methods : List AbiMethod := []
  events : List AbiEvent := []
  deriving DecidableEq, Repr

structure Group where
  publicKey : String
  signature : String
  deriving DecidableEq, Repr

structure Manifest where
  name : String
  groups : List Group := []
  standards : List String := []
  abi : Abi := {}
  permissions : List Permission := []
  trusts : NameSet := .only []
  /-- Vendor metadata, sorted by name. -/
  extra : List (String × Json) := []

namespace Manifest

instance : BEq Manifest where
  beq a b :=
    a.name == b.name && a.groups == b.groups && a.standards == b.standards && a.abi == b.abi &&
      a.permissions == b.permissions && a.trusts == b.trusts && Json.beqMembers a.extra b.extra

def method? (m : Manifest) (name : String) : Option AbiMethod :=
  m.abi.methods.find? (·.name = name)

end Manifest
end ContractLinker
