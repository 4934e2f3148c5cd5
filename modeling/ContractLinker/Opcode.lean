import ContractLinker.Opcode.Framing

namespace ContractLinker

inductive Opcode where
  | pushInt8 | pushInt16 | pushInt32 | pushInt64 | pushInt128 | pushInt256 | pushT | pushF | pushA
  | pushNull | pushData1 | pushData2 | pushData4 | pushM1 | push0 | push1 | push2 | push3 | push4
  | push5 | push6 | push7 | push8 | push9 | push10 | push11 | push12 | push13 | push14 | push15
  | push16 | nop | jmp | jmpL | jmpIf | jmpIfL | jmpIfNot | jmpIfNotL | jmpEq | jmpEqL | jmpNe
  | jmpNeL | jmpGt | jmpGtL | jmpGe | jmpGeL | jmpLt | jmpLtL | jmpLe | jmpLeL | call | callL
  | callA | callT | abort | assert | throw | tryScope | tryScopeL | endTry | endTryL | endFinally
  | ret | syscall | depth | drop | nip | xDrop | clear | dup | over | pick | tuck | swap | rot
  | roll | reverse3 | reverse4 | reverseN | initSSlot | initSlot | ldSFld0 | ldSFld1 | ldSFld2
  | ldSFld3 | ldSFld4 | ldSFld5 | ldSFld6 | ldSFld | stSFld0 | stSFld1 | stSFld2 | stSFld3
  | stSFld4 | stSFld5 | stSFld6 | stSFld | ldLoc0 | ldLoc1 | ldLoc2 | ldLoc3 | ldLoc4 | ldLoc5
  | ldLoc6 | ldLoc | stLoc0 | stLoc1 | stLoc2 | stLoc3 | stLoc4 | stLoc5 | stLoc6 | stLoc | ldArg0
  | ldArg1 | ldArg2 | ldArg3 | ldArg4 | ldArg5 | ldArg6 | ldArg | stArg0 | stArg1 | stArg2 | stArg3
  | stArg4 | stArg5 | stArg6 | stArg | newBuffer | memCpy | cat | subStr | left | right | invert
  | and | or | xor | equal | notEqual | sign | abs | negate | inc | dec | add | sub | mul | div
  | mod | pow | sqrt | modMul | modPow | shl | shr | not | boolAnd | boolOr | nz | numEqual
  | numNotEqual | lt | le | gt | ge | min | max | within | packMap | packStruct | pack | unpack
  | newArray0 | newArray | newArrayT | newStruct0 | newStruct | newMap | size | hasKey | keys
  | values | pickItem | append | setItem | reverseItems | remove | clearItems | popItem | isNull
  | isType | convert | abortMsg | assertMsg
  deriving DecidableEq, Repr

namespace Opcode

def all : List Opcode := [
  .pushInt8, .pushInt16, .pushInt32, .pushInt64, .pushInt128, .pushInt256, .pushT, .pushF, .pushA,
  .pushNull, .pushData1, .pushData2, .pushData4, .pushM1, .push0, .push1, .push2, .push3, .push4,
  .push5, .push6, .push7, .push8, .push9, .push10, .push11, .push12, .push13, .push14, .push15,
  .push16, .nop, .jmp, .jmpL, .jmpIf, .jmpIfL, .jmpIfNot, .jmpIfNotL, .jmpEq, .jmpEqL, .jmpNe,
  .jmpNeL, .jmpGt, .jmpGtL, .jmpGe, .jmpGeL, .jmpLt, .jmpLtL, .jmpLe, .jmpLeL, .call, .callL,
  .callA, .callT, .abort, .assert, .throw, .tryScope, .tryScopeL, .endTry, .endTryL, .endFinally,
  .ret, .syscall, .depth, .drop, .nip, .xDrop, .clear, .dup, .over, .pick, .tuck, .swap, .rot,
  .roll, .reverse3, .reverse4, .reverseN, .initSSlot, .initSlot, .ldSFld0, .ldSFld1, .ldSFld2,
  .ldSFld3, .ldSFld4, .ldSFld5, .ldSFld6, .ldSFld, .stSFld0, .stSFld1, .stSFld2, .stSFld3,
  .stSFld4, .stSFld5, .stSFld6, .stSFld, .ldLoc0, .ldLoc1, .ldLoc2, .ldLoc3, .ldLoc4, .ldLoc5,
  .ldLoc6, .ldLoc, .stLoc0, .stLoc1, .stLoc2, .stLoc3, .stLoc4, .stLoc5, .stLoc6, .stLoc, .ldArg0,
  .ldArg1, .ldArg2, .ldArg3, .ldArg4, .ldArg5, .ldArg6, .ldArg, .stArg0, .stArg1, .stArg2,
  .stArg3, .stArg4, .stArg5, .stArg6, .stArg, .newBuffer, .memCpy, .cat, .subStr, .left, .right,
  .invert, .and, .or, .xor, .equal, .notEqual, .sign, .abs, .negate, .inc, .dec, .add, .sub, .mul,
  .div, .mod, .pow, .sqrt, .modMul, .modPow, .shl, .shr, .not, .boolAnd, .boolOr, .nz, .numEqual,
  .numNotEqual, .lt, .le, .gt, .ge, .min, .max, .within, .packMap, .packStruct, .pack, .unpack,
  .newArray0, .newArray, .newArrayT, .newStruct0, .newStruct, .newMap, .size, .hasKey, .keys,
  .values, .pickItem, .append, .setItem, .reverseItems, .remove, .clearItems, .popItem, .isNull,
  .isType, .convert, .abortMsg, .assertMsg]

structure Row where
  byte : UInt8
  mnemonic : String
  jsonName : String
  framing : Framing

def row : Opcode → Row
  | .pushInt8 => ⟨0x00, "PUSHINT8", "PushInt8", .fixed 1⟩
  | .pushInt16 => ⟨0x01, "PUSHINT16", "PushInt16", .fixed 2⟩
  | .pushInt32 => ⟨0x02, "PUSHINT32", "PushInt32", .fixed 4⟩
  | .pushInt64 => ⟨0x03, "PUSHINT64", "PushInt64", .fixed 8⟩
  | .pushInt128 => ⟨0x04, "PUSHINT128", "PushInt128", .fixed 16⟩
  | .pushInt256 => ⟨0x05, "PUSHINT256", "PushInt256", .fixed 32⟩
  | .pushT => ⟨0x08, "PUSHT", "PushT", .fixed 0⟩
  | .pushF => ⟨0x09, "PUSHF", "PushF", .fixed 0⟩
  | .pushA => ⟨0x0A, "PUSHA", "PushA", .fixed 4⟩
  | .pushNull => ⟨0x0B, "PUSHNULL", "PushNull", .fixed 0⟩
  | .pushData1 => ⟨0x0C, "PUSHDATA1", "PushData1", .counted .one⟩
  | .pushData2 => ⟨0x0D, "PUSHDATA2", "PushData2", .counted .two⟩
  | .pushData4 => ⟨0x0E, "PUSHDATA4", "PushData4", .counted .four⟩
  | .pushM1 => ⟨0x0F, "PUSHM1", "PushM1", .fixed 0⟩
  | .push0 => ⟨0x10, "PUSH0", "Push0", .fixed 0⟩
  | .push1 => ⟨0x11, "PUSH1", "Push1", .fixed 0⟩
  | .push2 => ⟨0x12, "PUSH2", "Push2", .fixed 0⟩
  | .push3 => ⟨0x13, "PUSH3", "Push3", .fixed 0⟩
  | .push4 => ⟨0x14, "PUSH4", "Push4", .fixed 0⟩
  | .push5 => ⟨0x15, "PUSH5", "Push5", .fixed 0⟩
  | .push6 => ⟨0x16, "PUSH6", "Push6", .fixed 0⟩
  | .push7 => ⟨0x17, "PUSH7", "Push7", .fixed 0⟩
  | .push8 => ⟨0x18, "PUSH8", "Push8", .fixed 0⟩
  | .push9 => ⟨0x19, "PUSH9", "Push9", .fixed 0⟩
  | .push10 => ⟨0x1A, "PUSH10", "Push10", .fixed 0⟩
  | .push11 => ⟨0x1B, "PUSH11", "Push11", .fixed 0⟩
  | .push12 => ⟨0x1C, "PUSH12", "Push12", .fixed 0⟩
  | .push13 => ⟨0x1D, "PUSH13", "Push13", .fixed 0⟩
  | .push14 => ⟨0x1E, "PUSH14", "Push14", .fixed 0⟩
  | .push15 => ⟨0x1F, "PUSH15", "Push15", .fixed 0⟩
  | .push16 => ⟨0x20, "PUSH16", "Push16", .fixed 0⟩
  | .nop => ⟨0x21, "NOP", "Nop", .fixed 0⟩
  | .jmp => ⟨0x22, "JMP", "Jmp", .fixed 1⟩
  | .jmpL => ⟨0x23, "JMP_L", "JmpL", .fixed 4⟩
  | .jmpIf => ⟨0x24, "JMPIF", "JmpIf", .fixed 1⟩
  | .jmpIfL => ⟨0x25, "JMPIF_L", "JmpIfL", .fixed 4⟩
  | .jmpIfNot => ⟨0x26, "JMPIFNOT", "JmpIfNot", .fixed 1⟩
  | .jmpIfNotL => ⟨0x27, "JMPIFNOT_L", "JmpIfNotL", .fixed 4⟩
  | .jmpEq => ⟨0x28, "JMPEQ", "JmpEq", .fixed 1⟩
  | .jmpEqL => ⟨0x29, "JMPEQ_L", "JmpEqL", .fixed 4⟩
  | .jmpNe => ⟨0x2A, "JMPNE", "JmpNe", .fixed 1⟩
  | .jmpNeL => ⟨0x2B, "JMPNE_L", "JmpNeL", .fixed 4⟩
  | .jmpGt => ⟨0x2C, "JMPGT", "JmpGt", .fixed 1⟩
  | .jmpGtL => ⟨0x2D, "JMPGT_L", "JmpGtL", .fixed 4⟩
  | .jmpGe => ⟨0x2E, "JMPGE", "JmpGe", .fixed 1⟩
  | .jmpGeL => ⟨0x2F, "JMPGE_L", "JmpGeL", .fixed 4⟩
  | .jmpLt => ⟨0x30, "JMPLT", "JmpLt", .fixed 1⟩
  | .jmpLtL => ⟨0x31, "JMPLT_L", "JmpLtL", .fixed 4⟩
  | .jmpLe => ⟨0x32, "JMPLE", "JmpLe", .fixed 1⟩
  | .jmpLeL => ⟨0x33, "JMPLE_L", "JmpLeL", .fixed 4⟩
  | .call => ⟨0x34, "CALL", "Call", .fixed 1⟩
  | .callL => ⟨0x35, "CALL_L", "CallL", .fixed 4⟩
  | .callA => ⟨0x36, "CALLA", "CallA", .fixed 0⟩
  | .callT => ⟨0x37, "CALLT", "CallT", .fixed 2⟩
  | .abort => ⟨0x38, "ABORT", "Abort", .fixed 0⟩
  | .assert => ⟨0x39, "ASSERT", "Assert", .fixed 0⟩
  | .throw => ⟨0x3A, "THROW", "Throw", .fixed 0⟩
  | .tryScope => ⟨0x3B, "TRY", "Try", .fixed 2⟩
  | .tryScopeL => ⟨0x3C, "TRY_L", "TryL", .fixed 8⟩
  | .endTry => ⟨0x3D, "ENDTRY", "EndTry", .fixed 1⟩
  | .endTryL => ⟨0x3E, "ENDTRY_L", "EndTryL", .fixed 4⟩
  | .endFinally => ⟨0x3F, "ENDFINALLY", "EndFinally", .fixed 0⟩
  | .ret => ⟨0x40, "RET", "Ret", .fixed 0⟩
  | .syscall => ⟨0x41, "SYSCALL", "Syscall", .fixed 4⟩
  | .depth => ⟨0x43, "DEPTH", "Depth", .fixed 0⟩
  | .drop => ⟨0x45, "DROP", "Drop", .fixed 0⟩
  | .nip => ⟨0x46, "NIP", "Nip", .fixed 0⟩
  | .xDrop => ⟨0x48, "XDROP", "XDrop", .fixed 0⟩
  | .clear => ⟨0x49, "CLEAR", "Clear", .fixed 0⟩
  | .dup => ⟨0x4A, "DUP", "Dup", .fixed 0⟩
  | .over => ⟨0x4B, "OVER", "Over", .fixed 0⟩
  | .pick => ⟨0x4D, "PICK", "Pick", .fixed 0⟩
  | .tuck => ⟨0x4E, "TUCK", "Tuck", .fixed 0⟩
  | .swap => ⟨0x50, "SWAP", "Swap", .fixed 0⟩
  | .rot => ⟨0x51, "ROT", "Rot", .fixed 0⟩
  | .roll => ⟨0x52, "ROLL", "Roll", .fixed 0⟩
  | .reverse3 => ⟨0x53, "REVERSE3", "Reverse3", .fixed 0⟩
  | .reverse4 => ⟨0x54, "REVERSE4", "Reverse4", .fixed 0⟩
  | .reverseN => ⟨0x55, "REVERSEN", "ReverseN", .fixed 0⟩
  | .initSSlot => ⟨0x56, "INITSSLOT", "InitSSlot", .fixed 1⟩
  | .initSlot => ⟨0x57, "INITSLOT", "InitSlot", .fixed 2⟩
  | .ldSFld0 => ⟨0x58, "LDSFLD0", "LdSFld0", .fixed 0⟩
  | .ldSFld1 => ⟨0x59, "LDSFLD1", "LdSFld1", .fixed 0⟩
  | .ldSFld2 => ⟨0x5A, "LDSFLD2", "LdSFld2", .fixed 0⟩
  | .ldSFld3 => ⟨0x5B, "LDSFLD3", "LdSFld3", .fixed 0⟩
  | .ldSFld4 => ⟨0x5C, "LDSFLD4", "LdSFld4", .fixed 0⟩
  | .ldSFld5 => ⟨0x5D, "LDSFLD5", "LdSFld5", .fixed 0⟩
  | .ldSFld6 => ⟨0x5E, "LDSFLD6", "LdSFld6", .fixed 0⟩
  | .ldSFld => ⟨0x5F, "LDSFLD", "LdSFld", .fixed 1⟩
  | .stSFld0 => ⟨0x60, "STSFLD0", "StSFld0", .fixed 0⟩
  | .stSFld1 => ⟨0x61, "STSFLD1", "StSFld1", .fixed 0⟩
  | .stSFld2 => ⟨0x62, "STSFLD2", "StSFld2", .fixed 0⟩
  | .stSFld3 => ⟨0x63, "STSFLD3", "StSFld3", .fixed 0⟩
  | .stSFld4 => ⟨0x64, "STSFLD4", "StSFld4", .fixed 0⟩
  | .stSFld5 => ⟨0x65, "STSFLD5", "StSFld5", .fixed 0⟩
  | .stSFld6 => ⟨0x66, "STSFLD6", "StSFld6", .fixed 0⟩
  | .stSFld => ⟨0x67, "STSFLD", "StSFld", .fixed 1⟩
  | .ldLoc0 => ⟨0x68, "LDLOC0", "LdLoc0", .fixed 0⟩
  | .ldLoc1 => ⟨0x69, "LDLOC1", "LdLoc1", .fixed 0⟩
  | .ldLoc2 => ⟨0x6A, "LDLOC2", "LdLoc2", .fixed 0⟩
  | .ldLoc3 => ⟨0x6B, "LDLOC3", "LdLoc3", .fixed 0⟩
  | .ldLoc4 => ⟨0x6C, "LDLOC4", "LdLoc4", .fixed 0⟩
  | .ldLoc5 => ⟨0x6D, "LDLOC5", "LdLoc5", .fixed 0⟩
  | .ldLoc6 => ⟨0x6E, "LDLOC6", "LdLoc6", .fixed 0⟩
  | .ldLoc => ⟨0x6F, "LDLOC", "LdLoc", .fixed 1⟩
  | .stLoc0 => ⟨0x70, "STLOC0", "StLoc0", .fixed 0⟩
  | .stLoc1 => ⟨0x71, "STLOC1", "StLoc1", .fixed 0⟩
  | .stLoc2 => ⟨0x72, "STLOC2", "StLoc2", .fixed 0⟩
  | .stLoc3 => ⟨0x73, "STLOC3", "StLoc3", .fixed 0⟩
  | .stLoc4 => ⟨0x74, "STLOC4", "StLoc4", .fixed 0⟩
  | .stLoc5 => ⟨0x75, "STLOC5", "StLoc5", .fixed 0⟩
  | .stLoc6 => ⟨0x76, "STLOC6", "StLoc6", .fixed 0⟩
  | .stLoc => ⟨0x77, "STLOC", "StLoc", .fixed 1⟩
  | .ldArg0 => ⟨0x78, "LDARG0", "LdArg0", .fixed 0⟩
  | .ldArg1 => ⟨0x79, "LDARG1", "LdArg1", .fixed 0⟩
  | .ldArg2 => ⟨0x7A, "LDARG2", "LdArg2", .fixed 0⟩
  | .ldArg3 => ⟨0x7B, "LDARG3", "LdArg3", .fixed 0⟩
  | .ldArg4 => ⟨0x7C, "LDARG4", "LdArg4", .fixed 0⟩
  | .ldArg5 => ⟨0x7D, "LDARG5", "LdArg5", .fixed 0⟩
  | .ldArg6 => ⟨0x7E, "LDARG6", "LdArg6", .fixed 0⟩
  | .ldArg => ⟨0x7F, "LDARG", "LdArg", .fixed 1⟩
  | .stArg0 => ⟨0x80, "STARG0", "StArg0", .fixed 0⟩
  | .stArg1 => ⟨0x81, "STARG1", "StArg1", .fixed 0⟩
  | .stArg2 => ⟨0x82, "STARG2", "StArg2", .fixed 0⟩
  | .stArg3 => ⟨0x83, "STARG3", "StArg3", .fixed 0⟩
  | .stArg4 => ⟨0x84, "STARG4", "StArg4", .fixed 0⟩
  | .stArg5 => ⟨0x85, "STARG5", "StArg5", .fixed 0⟩
  | .stArg6 => ⟨0x86, "STARG6", "StArg6", .fixed 0⟩
  | .stArg => ⟨0x87, "STARG", "StArg", .fixed 1⟩
  | .newBuffer => ⟨0x88, "NEWBUFFER", "NewBuffer", .fixed 0⟩
  | .memCpy => ⟨0x89, "MEMCPY", "MemCpy", .fixed 0⟩
  | .cat => ⟨0x8B, "CAT", "Cat", .fixed 0⟩
  | .subStr => ⟨0x8C, "SUBSTR", "SubStr", .fixed 0⟩
  | .left => ⟨0x8D, "LEFT", "Left", .fixed 0⟩
  | .right => ⟨0x8E, "RIGHT", "Right", .fixed 0⟩
  | .invert => ⟨0x90, "INVERT", "Invert", .fixed 0⟩
  | .and => ⟨0x91, "AND", "And", .fixed 0⟩
  | .or => ⟨0x92, "OR", "Or", .fixed 0⟩
  | .xor => ⟨0x93, "XOR", "Xor", .fixed 0⟩
  | .equal => ⟨0x97, "EQUAL", "Equal", .fixed 0⟩
  | .notEqual => ⟨0x98, "NOTEQUAL", "NotEqual", .fixed 0⟩
  | .sign => ⟨0x99, "SIGN", "Sign", .fixed 0⟩
  | .abs => ⟨0x9A, "ABS", "Abs", .fixed 0⟩
  | .negate => ⟨0x9B, "NEGATE", "Negate", .fixed 0⟩
  | .inc => ⟨0x9C, "INC", "Inc", .fixed 0⟩
  | .dec => ⟨0x9D, "DEC", "Dec", .fixed 0⟩
  | .add => ⟨0x9E, "ADD", "Add", .fixed 0⟩
  | .sub => ⟨0x9F, "SUB", "Sub", .fixed 0⟩
  | .mul => ⟨0xA0, "MUL", "Mul", .fixed 0⟩
  | .div => ⟨0xA1, "DIV", "Div", .fixed 0⟩
  | .mod => ⟨0xA2, "MOD", "Mod", .fixed 0⟩
  | .pow => ⟨0xA3, "POW", "Pow", .fixed 0⟩
  | .sqrt => ⟨0xA4, "SQRT", "Sqrt", .fixed 0⟩
  | .modMul => ⟨0xA5, "MODMUL", "ModMul", .fixed 0⟩
  | .modPow => ⟨0xA6, "MODPOW", "ModPow", .fixed 0⟩
  | .shl => ⟨0xA8, "SHL", "Shl", .fixed 0⟩
  | .shr => ⟨0xA9, "SHR", "Shr", .fixed 0⟩
  | .not => ⟨0xAA, "NOT", "Not", .fixed 0⟩
  | .boolAnd => ⟨0xAB, "BOOLAND", "BoolAnd", .fixed 0⟩
  | .boolOr => ⟨0xAC, "BOOLOR", "BoolOr", .fixed 0⟩
  | .nz => ⟨0xB1, "NZ", "Nz", .fixed 0⟩
  | .numEqual => ⟨0xB3, "NUMEQUAL", "NumEqual", .fixed 0⟩
  | .numNotEqual => ⟨0xB4, "NUMNOTEQUAL", "NumNotEqual", .fixed 0⟩
  | .lt => ⟨0xB5, "LT", "Lt", .fixed 0⟩
  | .le => ⟨0xB6, "LE", "Le", .fixed 0⟩
  | .gt => ⟨0xB7, "GT", "Gt", .fixed 0⟩
  | .ge => ⟨0xB8, "GE", "Ge", .fixed 0⟩
  | .min => ⟨0xB9, "MIN", "Min", .fixed 0⟩
  | .max => ⟨0xBA, "MAX", "Max", .fixed 0⟩
  | .within => ⟨0xBB, "WITHIN", "Within", .fixed 0⟩
  | .packMap => ⟨0xBE, "PACKMAP", "PackMap", .fixed 0⟩
  | .packStruct => ⟨0xBF, "PACKSTRUCT", "PackStruct", .fixed 0⟩
  | .pack => ⟨0xC0, "PACK", "Pack", .fixed 0⟩
  | .unpack => ⟨0xC1, "UNPACK", "Unpack", .fixed 0⟩
  | .newArray0 => ⟨0xC2, "NEWARRAY0", "NewArray0", .fixed 0⟩
  | .newArray => ⟨0xC3, "NEWARRAY", "NewArray", .fixed 0⟩
  | .newArrayT => ⟨0xC4, "NEWARRAY_T", "NewArrayT", .fixed 1⟩
  | .newStruct0 => ⟨0xC5, "NEWSTRUCT0", "NewStruct0", .fixed 0⟩
  | .newStruct => ⟨0xC6, "NEWSTRUCT", "NewStruct", .fixed 0⟩
  | .newMap => ⟨0xC8, "NEWMAP", "NewMap", .fixed 0⟩
  | .size => ⟨0xCA, "SIZE", "Size", .fixed 0⟩
  | .hasKey => ⟨0xCB, "HASKEY", "HasKey", .fixed 0⟩
  | .keys => ⟨0xCC, "KEYS", "Keys", .fixed 0⟩
  | .values => ⟨0xCD, "VALUES", "Values", .fixed 0⟩
  | .pickItem => ⟨0xCE, "PICKITEM", "PickItem", .fixed 0⟩
  | .append => ⟨0xCF, "APPEND", "Append", .fixed 0⟩
  | .setItem => ⟨0xD0, "SETITEM", "SetItem", .fixed 0⟩
  | .reverseItems => ⟨0xD1, "REVERSEITEMS", "ReverseItems", .fixed 0⟩
  | .remove => ⟨0xD2, "REMOVE", "Remove", .fixed 0⟩
  | .clearItems => ⟨0xD3, "CLEARITEMS", "ClearItems", .fixed 0⟩
  | .popItem => ⟨0xD4, "POPITEM", "PopItem", .fixed 0⟩
  | .isNull => ⟨0xD8, "ISNULL", "IsNull", .fixed 0⟩
  | .isType => ⟨0xD9, "ISTYPE", "IsType", .fixed 1⟩
  | .convert => ⟨0xDB, "CONVERT", "Convert", .fixed 1⟩
  | .abortMsg => ⟨0xE0, "ABORTMSG", "AbortMsg", .fixed 0⟩
  | .assertMsg => ⟨0xE1, "ASSERTMSG", "AssertMsg", .fixed 0⟩

def byte (op : Opcode) : UInt8 := op.row.byte

def mnemonic (op : Opcode) : String := op.row.mnemonic

def jsonName (op : Opcode) : String := op.row.jsonName

def framing (op : Opcode) : Framing := op.row.framing

def ofByte? (b : UInt8) : Option Opcode :=
  match b.toNat with
  | 0x00 => some .pushInt8
  | 0x01 => some .pushInt16
  | 0x02 => some .pushInt32
  | 0x03 => some .pushInt64
  | 0x04 => some .pushInt128
  | 0x05 => some .pushInt256
  | 0x08 => some .pushT
  | 0x09 => some .pushF
  | 0x0A => some .pushA
  | 0x0B => some .pushNull
  | 0x0C => some .pushData1
  | 0x0D => some .pushData2
  | 0x0E => some .pushData4
  | 0x0F => some .pushM1
  | 0x10 => some .push0
  | 0x11 => some .push1
  | 0x12 => some .push2
  | 0x13 => some .push3
  | 0x14 => some .push4
  | 0x15 => some .push5
  | 0x16 => some .push6
  | 0x17 => some .push7
  | 0x18 => some .push8
  | 0x19 => some .push9
  | 0x1A => some .push10
  | 0x1B => some .push11
  | 0x1C => some .push12
  | 0x1D => some .push13
  | 0x1E => some .push14
  | 0x1F => some .push15
  | 0x20 => some .push16
  | 0x21 => some .nop
  | 0x22 => some .jmp
  | 0x23 => some .jmpL
  | 0x24 => some .jmpIf
  | 0x25 => some .jmpIfL
  | 0x26 => some .jmpIfNot
  | 0x27 => some .jmpIfNotL
  | 0x28 => some .jmpEq
  | 0x29 => some .jmpEqL
  | 0x2A => some .jmpNe
  | 0x2B => some .jmpNeL
  | 0x2C => some .jmpGt
  | 0x2D => some .jmpGtL
  | 0x2E => some .jmpGe
  | 0x2F => some .jmpGeL
  | 0x30 => some .jmpLt
  | 0x31 => some .jmpLtL
  | 0x32 => some .jmpLe
  | 0x33 => some .jmpLeL
  | 0x34 => some .call
  | 0x35 => some .callL
  | 0x36 => some .callA
  | 0x37 => some .callT
  | 0x38 => some .abort
  | 0x39 => some .assert
  | 0x3A => some .throw
  | 0x3B => some .tryScope
  | 0x3C => some .tryScopeL
  | 0x3D => some .endTry
  | 0x3E => some .endTryL
  | 0x3F => some .endFinally
  | 0x40 => some .ret
  | 0x41 => some .syscall
  | 0x43 => some .depth
  | 0x45 => some .drop
  | 0x46 => some .nip
  | 0x48 => some .xDrop
  | 0x49 => some .clear
  | 0x4A => some .dup
  | 0x4B => some .over
  | 0x4D => some .pick
  | 0x4E => some .tuck
  | 0x50 => some .swap
  | 0x51 => some .rot
  | 0x52 => some .roll
  | 0x53 => some .reverse3
  | 0x54 => some .reverse4
  | 0x55 => some .reverseN
  | 0x56 => some .initSSlot
  | 0x57 => some .initSlot
  | 0x58 => some .ldSFld0
  | 0x59 => some .ldSFld1
  | 0x5A => some .ldSFld2
  | 0x5B => some .ldSFld3
  | 0x5C => some .ldSFld4
  | 0x5D => some .ldSFld5
  | 0x5E => some .ldSFld6
  | 0x5F => some .ldSFld
  | 0x60 => some .stSFld0
  | 0x61 => some .stSFld1
  | 0x62 => some .stSFld2
  | 0x63 => some .stSFld3
  | 0x64 => some .stSFld4
  | 0x65 => some .stSFld5
  | 0x66 => some .stSFld6
  | 0x67 => some .stSFld
  | 0x68 => some .ldLoc0
  | 0x69 => some .ldLoc1
  | 0x6A => some .ldLoc2
  | 0x6B => some .ldLoc3
  | 0x6C => some .ldLoc4
  | 0x6D => some .ldLoc5
  | 0x6E => some .ldLoc6
  | 0x6F => some .ldLoc
  | 0x70 => some .stLoc0
  | 0x71 => some .stLoc1
  | 0x72 => some .stLoc2
  | 0x73 => some .stLoc3
  | 0x74 => some .stLoc4
  | 0x75 => some .stLoc5
  | 0x76 => some .stLoc6
  | 0x77 => some .stLoc
  | 0x78 => some .ldArg0
  | 0x79 => some .ldArg1
  | 0x7A => some .ldArg2
  | 0x7B => some .ldArg3
  | 0x7C => some .ldArg4
  | 0x7D => some .ldArg5
  | 0x7E => some .ldArg6
  | 0x7F => some .ldArg
  | 0x80 => some .stArg0
  | 0x81 => some .stArg1
  | 0x82 => some .stArg2
  | 0x83 => some .stArg3
  | 0x84 => some .stArg4
  | 0x85 => some .stArg5
  | 0x86 => some .stArg6
  | 0x87 => some .stArg
  | 0x88 => some .newBuffer
  | 0x89 => some .memCpy
  | 0x8B => some .cat
  | 0x8C => some .subStr
  | 0x8D => some .left
  | 0x8E => some .right
  | 0x90 => some .invert
  | 0x91 => some .and
  | 0x92 => some .or
  | 0x93 => some .xor
  | 0x97 => some .equal
  | 0x98 => some .notEqual
  | 0x99 => some .sign
  | 0x9A => some .abs
  | 0x9B => some .negate
  | 0x9C => some .inc
  | 0x9D => some .dec
  | 0x9E => some .add
  | 0x9F => some .sub
  | 0xA0 => some .mul
  | 0xA1 => some .div
  | 0xA2 => some .mod
  | 0xA3 => some .pow
  | 0xA4 => some .sqrt
  | 0xA5 => some .modMul
  | 0xA6 => some .modPow
  | 0xA8 => some .shl
  | 0xA9 => some .shr
  | 0xAA => some .not
  | 0xAB => some .boolAnd
  | 0xAC => some .boolOr
  | 0xB1 => some .nz
  | 0xB3 => some .numEqual
  | 0xB4 => some .numNotEqual
  | 0xB5 => some .lt
  | 0xB6 => some .le
  | 0xB7 => some .gt
  | 0xB8 => some .ge
  | 0xB9 => some .min
  | 0xBA => some .max
  | 0xBB => some .within
  | 0xBE => some .packMap
  | 0xBF => some .packStruct
  | 0xC0 => some .pack
  | 0xC1 => some .unpack
  | 0xC2 => some .newArray0
  | 0xC3 => some .newArray
  | 0xC4 => some .newArrayT
  | 0xC5 => some .newStruct0
  | 0xC6 => some .newStruct
  | 0xC8 => some .newMap
  | 0xCA => some .size
  | 0xCB => some .hasKey
  | 0xCC => some .keys
  | 0xCD => some .values
  | 0xCE => some .pickItem
  | 0xCF => some .append
  | 0xD0 => some .setItem
  | 0xD1 => some .reverseItems
  | 0xD2 => some .remove
  | 0xD3 => some .clearItems
  | 0xD4 => some .popItem
  | 0xD8 => some .isNull
  | 0xD9 => some .isType
  | 0xDB => some .convert
  | 0xE0 => some .abortMsg
  | 0xE1 => some .assertMsg
  | _ => none

/-- Looks a mnemonic up without regard to the case of its ASCII letters. -/
def ofMnemonic? (text : String) : Option Opcode :=
  let upper := text.map Char.toUpper
  all.find? (·.mnemonic == upper)

def ofJsonName? (text : String) : Option Opcode := all.find? (·.jsonName == text)

/-- `none` for opcodes whose operand holds no address. -/
def addressClass : Opcode → Option AddressClass
  | .jmp | .jmpIf | .jmpIfNot | .jmpEq | .jmpNe | .jmpGt | .jmpGe | .jmpLt | .jmpLe | .call
  | .endTry => some .short
  | .jmpL | .jmpIfL | .jmpIfNotL | .jmpEqL | .jmpNeL | .jmpGtL | .jmpGeL | .jmpLtL | .jmpLeL
  | .callL | .endTryL | .pushA => some .long
  | .tryScope => some .shortDual
  | .tryScopeL => some .longDual
  | _ => none

/-- Control never goes on to the instruction behind it. -/
def isTerminator : Opcode → Bool
  | .jmp | .jmpL | .ret | .throw | .abort | .abortMsg => true
  | _ => false

theorem mem_all (op : Opcode) : op ∈ all := by
  have h : all[op.ctorIdx]? = some op := by cases op <;> rfl
  exact List.mem_of_getElem? h

theorem ofByte?_byte (op : Opcode) : ofByte? op.byte = some op := by
  have h : ∀ op ∈ all, ofByte? op.byte = some op := by decide +kernel
  exact h op (mem_all op)

theorem byte_of_ofByte? {b : UInt8} {op : Opcode} (h : ofByte? b = some op) : op.byte = b := by
  have all_bytes : ∀ n : Fin 256, ∀ op ∈ ofByte? (UInt8.ofNat n), op.byte = UInt8.ofNat n := by
    decide +kernel
  simpa using all_bytes ⟨b.toNat, b.toNat_lt⟩ op (by simpa using h)

theorem framing_of_addressClass {op : Opcode} {cls : AddressClass}
    (h : op.addressClass = some cls) :
    op.framing = .fixed (cls.width * cls.count) := by
  cases op <;> cases h <;> rfl

end Opcode
end ContractLinker
