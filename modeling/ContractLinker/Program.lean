import ContractLinker.Json.Decode
import ContractLinker.Manifest.Format
import ContractLinker.Token.Format

namespace ContractLinker

open Json (Decode)
open Json.Decode (field optionalField record)

/-- One instruction; at most one of operand, token and static field may be given. -/
structure InstructionDef where
  opcode : String
  label : Option String := none
  operand : Option String := none
  target : Option String := none
  target2 : Option String := none
  token : Option Token := none
  staticField : Option String := none

/-- What the interface says of a public method; without a name it has the method's. -/
structure ExportDef where
  name : Option String := none
  safe : Bool := false
  parameters : List Parameter := []
  returnType : ParameterType := .void

structure MethodDef where
  name : String
  exported : Option ExportDef := none
  body : List InstructionDef := []

structure Program where
  name : String
  standards : List String := []
  methods : List MethodDef := []
  events : List AbiEvent := []
  permissions : List Permission := []
  extra : List (String × Json) := []

namespace InstructionDef

def decode : Decode InstructionDef :=
  record { opcode := "" } [
    optionalField "label" (.optional .string) fun d label => { d with label },
    field "opcode" .string fun d opcode => { d with opcode },
    optionalField "operand" (.optional .string) fun d operand => { d with operand },
    optionalField "target" (.optional .string) fun d target => { d with target },
    optionalField "target2" (.optional .string) fun d target2 => { d with target2 },
    optionalField "token" (.optional Token.decode) fun d token => { d with token },
    optionalField "static" (.optional .string) fun d staticField => { d with staticField }]

end InstructionDef

namespace ExportDef

def decode : Decode ExportDef :=
  record {} [
    optionalField "name" (.optional .string) fun e name => { e with name },
    optionalField "safe" .bool fun e safe => { e with safe },
    optionalField "parameters" (.list Parameter.decode) fun e parameters => { e with parameters },
    optionalField "returntype" ParameterType.decode fun e returnType => { e with returnType }]

end ExportDef

namespace MethodDef

def decode : Decode MethodDef :=
  record { name := "" } [
    field "name" .string fun m name => { m with name },
    optionalField "export" (.optional ExportDef.decode) fun m exported => { m with exported },
    field "body" (.list InstructionDef.decode) fun m body => { m with body }]

end MethodDef

namespace Program

def decode : Decode Program :=
  record { name := "" } [
    field "name" .string fun p name => { p with name },
    optionalField "supportedstandards" (.list .string) fun p standards => { p with standards },
    field "methods" (.list MethodDef.decode) fun p methods => { p with methods },
    optionalField "events" (.list AbiEvent.decode) fun p events => { p with events },
    optionalField "permissions" (.list Permission.decode) fun p permissions =>
      { p with permissions },
    optionalField "extra" .members fun p extra => { p with extra }]

def ofText (text : String) : Except Json.Fault Program := decode.ofText text

end Program
end ContractLinker
