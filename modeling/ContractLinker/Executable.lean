import ContractLinker.Bytes.Sha256
import ContractLinker.Script
import ContractLinker.Token

namespace ContractLinker

structure Executable where
  compiler : String
  source : String
  tokens : List Token
  script : Bytes
  checksum : UInt32
  deriving DecidableEq

namespace Executable

def magic : UInt32 := 0x3346454E

def compilerField : Nat := 64

def maxSource : Nat := 256

def maxTokens : Nat := 128

def maxScript : Nat := 512 * 1024

/-- First four bytes of the twice hashed body. -/
def checksumOf (body : Bytes) : UInt32 :=
  UInt32.ofNat (Bytes.toNatLE ((Sha256.digest (Sha256.digest body)).take 4))

def checkSizes (compiler source : Bytes) (tokens : Nat) (script : Bytes) :
    Except FormatError Unit :=
  if compiler.length > compilerField then .error (.compilerLength compiler.length)
  else if source.length > maxSource then .error (.sourceLength source.length)
  else if tokens > maxTokens then .error (.tokenCount tokens)
  else if script.isEmpty ∨ script.length > maxScript then .error (.scriptLength script.length)
  else .ok ()

def body (x : Executable) : Except CodecError Bytes := do
  let compiler := Utf8.encode x.compiler
  let source := Utf8.encode x.source
  match checkSizes compiler source x.tokens.length x.script with
  | .error cause => throw (.invalidFormat cause)
  | .ok () =>
    let tokens ← x.tokens.mapM Token.encode
    return Bytes.ofNatLE 4 magic.toNat ++ Bytes.resize compilerField compiler ++
      VarInt.encodeBytes source ++ [0] ++ VarInt.encode x.tokens.length ++ tokens.flatten ++
      [0, 0] ++ VarInt.encodeBytes x.script

def computeChecksum (x : Executable) : Except CodecError UInt32 := do
  return checksumOf (← x.body)

def updateChecksum (x : Executable) : Outcome CodecError Executable Unit :=
  match x.computeChecksum with
  | .error e => (.error e, x)
  | .ok checksum => (.ok (), { x with checksum })

def build (compiler source : String) (tokens : List Token) (script : Bytes) :
    Except CodecError Executable := do
  let (result, x) := updateChecksum ⟨compiler, source, tokens, script, 0⟩
  result
  return x

def toBytes (x : Executable) : Except CodecError Bytes := do
  return (← x.body) ++ Bytes.ofNatLE 4 x.checksum.toNat

/-- Text in front of the zeros that fill the field. -/
def readCompiler : Read String := do
  let raw ← Read.bytes compilerField
  let name := raw.takeWhile (· ≠ 0)
  if (raw.dropWhile (· ≠ 0)).any (· ≠ 0) then Read.refuse .compilerPadding
  else
    match Utf8.decode name with
    | .ok text => pure text
    | .error cause => Read.refuse (.compilerText cause)

def readTokens : Nat → Read (List Token)
  | 0 => pure []
  | n + 1 => do
    let token ← Token.read
    let more ← readTokens n
    return token :: more

def readBody : Read (String × String × List Token × Bytes) := do
  let found ← Read.natLE 4
  if found ≠ magic.toNat then throw (.invalidMagic (UInt32.ofNat found))
  let compiler ← readCompiler
  let source ← Read.varText maxSource
  if (← Read.byte) ≠ 0 then Read.refuse .reservedByte
  let count ← Read.varInt maxTokens
  let tokens ← readTokens count
  if (← Read.natLE 2) ≠ 0 then Read.refuse .reservedField
  let script ← Read.varBytes maxScript
  if script.isEmpty then Read.refuse .scriptEmpty
  return (compiler, source, tokens, script)

def readFrom (data : Bytes) : Read Executable := do
  let (compiler, source, tokens, script) ← readBody
  let bodyLength := (← get).position
  let stored := UInt32.ofNat (← Read.natLE 4)
  let rest := (← get).rest
  if !rest.isEmpty then Read.refuse (.trailingBytes rest.length)
  let computed := checksumOf (data.take bodyLength)
  if stored ≠ computed then throw (.checksumMismatch stored computed)
  return ⟨compiler, source, tokens, script, stored⟩

def ofBytes (data : Bytes) : Except CodecError Executable :=
  match readFrom data (.start data) with
  | .ok x _ => .ok x
  | .error e _ => .error e

def instructions (x : Executable) : Except CodecError (List Instruction) :=
  Script.instructionsOf x.script

end Executable
end ContractLinker
