import ContractLinker.Bytes.Hex
import ContractLinker.Bytes.Utf8
import ContractLinker.Opcode

namespace ContractLinker

/-- Rules of the encoded forms beyond their lengths. -/
inductive FormatError where
  | varIntLimit (value max : Nat)
  | textField (cause : Utf8.Error)
  | hash160 (text : String) (cause : Hex.Error)
  | callFlags (bits : UInt8)
  | tokenNameLength (name : String) (size : Nat)
  | tokenNamePrivate (name : String)
  | tokenBoolean (byte : UInt8)
  | compilerLength (size : Nat)
  | compilerPadding
  | compilerText (cause : Utf8.Error)
  | sourceLength (size : Nat)
  | tokenCount (count : Nat)
  | scriptLength (size : Nat)
  | scriptEmpty
  | reservedByte
  | reservedField
  | trailingBytes (count : Nat)
  deriving DecidableEq, Repr

def FormatError.message : FormatError → String
  | .varIntLimit value max => s!"var-int {value} exceeds limit {max}"
  | .textField cause => s!"invalid UTF-8 string: {cause.message}"
  | .hash160 text cause => s!"invalid hash160 '{text}': {cause.message}"
  | .callFlags bits => s!"invalid call flags 0x{Hex.upper 2 bits.toNat}"
  | .tokenNameLength name size => s!"token method '{name}' is {size} bytes, limit is 32"
  | .tokenNamePrivate name => s!"token method '{name}' must not start with '_'"
  | .tokenBoolean byte => s!"invalid boolean byte 0x{Hex.upper 2 byte.toNat} in token"
  | .compilerLength size => s!"compiler identifier is {size} bytes, limit is 64"
  | .compilerPadding => "compiler field is not zero padded"
  | .compilerText cause => s!"compiler field: {cause.message}"
  | .sourceLength size => s!"source is {size} bytes, limit is 256"
  | .tokenCount count => s!"{count} method tokens, limit is 128"
  | .scriptLength size => s!"script length {size} outside 1..=524288"
  | .scriptEmpty => "script is empty"
  | .reservedByte => "reserved byte must be zero"
  | .reservedField => "reserved field must be zero"
  | .trailingBytes count => s!"{count} trailing bytes after checksum"

inductive CodecError where
  | invalidOpcode (byte : UInt8) (offset : Nat)
  | unexpectedEnd (offset needed : Nat)
  | operandSize (opcode : Opcode) (expected actual : Nat)
  | operandTooLong (opcode : Opcode) (width : LengthWidth) (size : Nat)
  | noAddress (opcode : Opcode) (offset : Nat)
  | addressIndex (opcode : Opcode) (count index : Nat)
  | addressRange (opcode : Opcode) (width : Nat) (value : Int)
  | invalidMagic (magic : UInt32)
  | invalidFormat (cause : FormatError)
  | checksumMismatch (stored computed : UInt32)
  deriving DecidableEq, Repr

def CodecError.message : CodecError → String
  | .invalidOpcode byte offset =>
    s!"Invalid opcode 0x{Hex.upper 2 byte.toNat} at offset {offset}"
  | .unexpectedEnd offset needed =>
    s!"Unexpected end of data at offset {offset}: needed {needed} more bytes"
  | .operandSize opcode expected actual =>
    s!"{opcode.mnemonic} takes a {expected}-byte operand, got {actual}"
  | .operandTooLong opcode width size =>
    s!"{opcode.mnemonic} operand of {size} bytes does not fit a {width.bytes}-byte length prefix"
  | .noAddress opcode offset =>
    s!"{opcode.mnemonic} at offset {offset} has no address operand"
  | .addressIndex opcode count index =>
    s!"{opcode.mnemonic} has {count} address slots, index {index} requested"
  | .addressRange opcode width value =>
    s!"{opcode.mnemonic} cannot encode address {value} in {width} bytes"
  | .invalidMagic magic => s!"Invalid magic: 0x{Hex.upper 8 magic.toNat}"
  | .invalidFormat cause => s!"Invalid format: {cause.message}"
  | .checksumMismatch stored computed =>
    let (stored, computed) := (Hex.upper 8 stored.toNat, Hex.upper 8 computed.toNat)
    s!"Checksum mismatch: stored 0x{stored}, computed 0x{computed}"

end ContractLinker
