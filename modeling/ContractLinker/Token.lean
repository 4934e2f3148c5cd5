import ContractLinker.Codec.Cursor
import ContractLinker.Hash160
import ContractLinker.Token.CallFlags

namespace ContractLinker

structure Token where
  hash : Hash160
  method : String
  parameterCount : UInt16
  returnsValue : Bool
  callFlags : CallFlags
  deriving DecidableEq, Hashable

namespace Token

def maxMethodName : Nat := 32

def validate (t : Token) : Except CodecError Unit :=
  let size := (Utf8.encode t.method).length
  if size > maxMethodName then .error (.invalidFormat (.tokenNameLength t.method size))
  else if t.method.toList.head? = some '_' then
    .error (.invalidFormat (.tokenNamePrivate t.method))
  else .ok ()

def fields (t : Token) : Bytes :=
  t.hash.bytes ++ VarInt.encodeBytes (Utf8.encode t.method) ++
    Bytes.ofNatLE 2 t.parameterCount.toNat ++ [if t.returnsValue then 1 else 0, t.callFlags.bits]

def encode (t : Token) : Except CodecError Bytes := do
  t.validate
  return t.fields

def readHash : Read Hash160 := return Hash160.ofBytes (← Read.bytes 20)

def readBool : Read Bool := do
  let byte ← Read.byte
  if byte = 0 then return false
  else if byte = 1 then return true
  else Read.refuse (.tokenBoolean byte)

def read : Read Token := do
  let hash ← readHash
  let method ← Read.varText maxMethodName
  let parameterCount ← Read.natLE 2
  let returnsValue ← readBool
  let flagBits ← Read.byte
  let unchecked : Token := ⟨hash, method, UInt16.ofNat parameterCount, returnsValue, {}⟩
  match unchecked.validate with
  | .error e => throw e
  | .ok () =>
    match CallFlags.ofBits flagBits with
    | .error e => throw e
    | .ok callFlags => return { unchecked with callFlags }

def text (t : Token) : String :=
  let returns := if t.returnsValue then ", returns" else ""
  let flags := Hex.upper 1 t.callFlags.bits.toNat
  s!"{t.hash.text}::{t.method}({t.parameterCount.toNat} args{returns}) flags=0x{flags}"

end Token
end ContractLinker
