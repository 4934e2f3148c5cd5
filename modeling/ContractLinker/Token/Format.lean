import ContractLinker.Json.Decode
import ContractLinker.Token

namespace ContractLinker

open Json (Decode)
open Json.Decode (field record)

def Json.orMismatch (result : Except CodecError α) : Except Json.Fault α :=
  match result with
  | .ok a => .ok a
  | .error e => .error (.mismatch (some e.message))

def Hash160.decode : Decode Hash160 := fun depth doc => do
  Json.orMismatch (Hash160.ofText (← Decode.string depth doc))

def CallFlags.decode : Decode CallFlags := fun depth doc => do
  Json.orMismatch (CallFlags.ofBits (UInt8.ofNat (← Decode.nat 255 depth doc)))

namespace Token

def decode : Decode Token :=
  record ⟨.ofBytes [], "", 0, false, {}⟩ [
    field "hash" Hash160.decode fun t hash => { t with hash },
    field "method" .string fun t method => { t with method },
    field "parameters_count" (.nat 65535) fun t n => { t with parameterCount := UInt16.ofNat n },
    field "has_return_value" .bool fun t returnsValue => { t with returnsValue },
    field "call_flags" CallFlags.decode fun t callFlags => { t with callFlags }]

end Token
end ContractLinker
