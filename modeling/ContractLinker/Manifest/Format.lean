import ContractLinker.Json.Decode
import ContractLinker.Manifest

namespace ContractLinker

open Json (Decode)
open Json.Decode (field optionalField record)

def Json.nat (n : Nat) : Json := .number (.int n)

def Json.string? : Json → Option String
  | .string s => some s
  | _ => none

def Json.strings (names : List String) : Json := .array (names.map .string)

namespace NameSet

def json : NameSet → Json
  | .all => .string wildcard
  | .only names => Json.strings names

def decode (what : String) : Decode NameSet := fun depth doc => do
  match ← doc.keep depth with
  | .string s =>
    if s = wildcard then return .all
    else throw (.mismatch (some s!"expected \"*\" or a list of {what}, got \"{s}\""))
  | .array items =>
    match items.mapM Json.string? with
    | some names => return .only names
    | none => throw (.mismatch none)
  | _ => throw (.mismatch none)

end NameSet

def ParameterType.decode : Decode ParameterType := Json.Decode.oneOf ParameterType.ofName?

namespace Parameter

def json (p : Parameter) : Json :=
  .object [("name", .string p.name), ("type", .string p.kind.name)]

def decode : Decode Parameter :=
  record ⟨"", .any⟩ [
    field "name" .string fun p name => { p with name },
    field "type" ParameterType.decode fun p kind => { p with kind }]

end Parameter

def Json.parameters (ps : List Parameter) : Json := .array (ps.map Parameter.json)

namespace AbiMethod

def json (m : AbiMethod) : Json :=
  .object [("name", .string m.name), ("offset", .nat m.offset), ("safe", .bool m.safe),
    ("returntype", .string m.returnType.name), ("parameters", .parameters m.parameters)]

def decode : Decode AbiMethod :=
  record ⟨"", 0, false, .any, []⟩ [
    field "name" .string fun m name => { m with name },
    field "offset" (.nat 0xFFFFFFFF) fun m offset => { m with offset },
    field "safe" .bool fun m safe => { m with safe },
    field "returntype" ParameterType.decode fun m returnType => { m with returnType },
    field "parameters" (.list Parameter.decode) fun m parameters => { m with parameters }]

end AbiMethod

namespace AbiEvent

def json (e : AbiEvent) : Json :=
  .object [("name", .string e.name), ("parameters", .parameters e.parameters)]

def decode : Decode AbiEvent :=
  record ⟨"", []⟩ [
    field "name" .string fun e name => { e with name },
    field "parameters" (.list Parameter.decode) fun e parameters => { e with parameters }]

end AbiEvent

namespace Abi

def json (abi : Abi) : Json :=
  .object [("methods", .array (abi.methods.map AbiMethod.json)),
    ("events", .array (abi.events.map AbiEvent.json))]

def decode : Decode Abi :=
  record {} [
    field "methods" (.list AbiMethod.decode) fun abi methods => { abi with methods },
    field "events" (.list AbiEvent.decode) fun abi events => { abi with events }]

end Abi

namespace Group

def json (g : Group) : Json :=
  .object [("pubkey", .string g.publicKey), ("signature", .string g.signature)]

def decode : Decode Group :=
  record ⟨"", ""⟩ [
    field "pubkey" .string fun g publicKey => { g with publicKey },
    field "signature" .string fun g signature => { g with signature }]

end Group

namespace Permission

def json (p : Permission) : Json :=
  .object [("contract", .string p.contract), ("methods", p.methods.json)]

def decode : Decode Permission :=
  record ⟨"", .all⟩ [
    field "contract" .string fun p contract => { p with contract },
    field "methods" (NameSet.decode "methods") fun p methods => { p with methods }]

end Permission

namespace Manifest

def json (m : Manifest) : Json :=
  .object [
    ("name", .string m.name),
    ("groups", .array (m.groups.map Group.json)),
    ("supportedstandards", .strings m.standards),
    ("abi", m.abi.json),
    ("permissions", .array (m.permissions.map Permission.json)),
    ("trusts", m.trusts.json),
    ("extra", .object m.extra)]

/-- Metadata that is `null` reads as none at all. -/
def decode : Decode Manifest :=
  record { name := "" } [
    field "name" .string fun m name => { m with name },
    field "groups" (.list Group.decode) fun m groups => { m with groups },
    field "supportedstandards" (.list .string) fun m standards => { m with standards },
    field "abi" Abi.decode fun m abi => { m with abi },
    field "permissions" (.list Permission.decode) fun m permissions => { m with permissions },
    field "trusts" (NameSet.decode "contracts") fun m trusts => { m with trusts },
    field "extra" (.optional .members) fun m extra => { m with extra := extra.getD [] }]

def toText (m : Manifest) : String := m.json.pretty

def ofText (text : String) : Except Json.Fault Manifest := decode.ofText text

end Manifest
end ContractLinker
