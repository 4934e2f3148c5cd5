import ContractLinker.Bisect
import ContractLinker.Assembly.Arena
import ContractLinker.Assembly.Error
import ContractLinker.Assembly.Link
import ContractLinker.Assembly.Unlinked
import ContractLinker.Bytes
import ContractLinker.Bytes.Hex
import ContractLinker.Bytes.Sha256
import ContractLinker.Bytes.Utf8
import ContractLinker.Codec.Cursor
import ContractLinker.Codec.Error
import ContractLinker.Command
import ContractLinker.Command.Arguments
import ContractLinker.Command.Line
import ContractLinker.Contract
import ContractLinker.Contract.Compilation
import ContractLinker.Contract.StaticSlots
import ContractLinker.Executable
import ContractLinker.Executable.Listing
import ContractLinker.Executable.Optimize
import ContractLinker.Failure
import ContractLinker.Files
import ContractLinker.Files.Tree
import ContractLinker.Hash160
import ContractLinker.Instruction
import ContractLinker.Json.Binary64
import ContractLinker.Json.Decode
import ContractLinker.Json.Doc
import ContractLinker.Json.Fault
import ContractLinker.Json.Lexeme
import ContractLinker.Json.Number
import ContractLinker.Json.Text
import ContractLinker.Json.Value
import ContractLinker.Main
import ContractLinker.Manifest
import ContractLinker.Manifest.Format
import ContractLinker.Manifest.NameSet
import ContractLinker.Manifest.Permission
import ContractLinker.Opcode
import ContractLinker.Opcode.Framing
import ContractLinker.Outcome
import ContractLinker.Path
import ContractLinker.Program
import ContractLinker.Program.Lower
import ContractLinker.Script
import ContractLinker.Script.DeadCode
import ContractLinker.Script.Layout
import ContractLinker.Script.Reachability
import ContractLinker.Settings.Config
import ContractLinker.Settings.Load
import ContractLinker.Settings.Toml
import ContractLinker.Settings.Toml.Item
import ContractLinker.Settings.Toml.Word
import ContractLinker.Token
import ContractLinker.Token.CallFlags
import ContractLinker.Token.Format
import ContractLinker.Token.Table
import ContractLinker.Proofs.Addresses
import ContractLinker.Proofs.Container
import ContractLinker.Proofs.ControlFlow
import ContractLinker.Proofs.DeadCode
import ContractLinker.Proofs.Fields
import ContractLinker.Proofs.Linking
import ContractLinker.Proofs.LittleEndian
import ContractLinker.Proofs.Lists
import ContractLinker.Proofs.HexDigits
import ContractLinker.Proofs.Reachability
import ContractLinker.Proofs.Reading
import ContractLinker.Proofs.Relayout
import ContractLinker.Proofs.ScriptCodec
import ContractLinker.Proofs.Spelling
import ContractLinker.Proofs.Utf8
import ContractLinker.Proofs.Marking
import ContractLinker.Proofs.Compaction
import ContractLinker.Proofs.Idempotence
import ContractLinker.Proofs.Compiling
import ContractLinker.Proofs.Lowering
import ContractLinker.Proofs.Binding
import ContractLinker.Proofs.Translation
import ContractLinker.Proofs.Optimizing
import ContractLinker.Proofs.Editing
import ContractLinker.Proofs.MethodLayout
import ContractLinker.Proofs.Interning
import ContractLinker.Proofs.Sessions
import ContractLinker.Proofs.Permissions
import ContractLinker.Proofs.References
import ContractLinker.Proofs.Relinking
import ContractLinker.Proofs.Shapes
import ContractLinker.Proofs.Entries
import ContractLinker.Proofs.Initializer
import ContractLinker.Proofs.Diagnosis
import ContractLinker.Proofs.Reloading
import ContractLinker.Proofs.CommandSteps
import ContractLinker.Proofs.FileLaws
import ContractLinker.Proofs.FileTrees
import ContractLinker.Proofs.Products
import ContractLinker.Proofs.JsonWords
import ContractLinker.Proofs.JsonDocuments
import ContractLinker.Proofs.Decoding
import ContractLinker.Proofs.ManifestText
import ContractLinker.Proofs.LiveCode
import ContractLinker.Proofs.Retargeting
import ContractLinker.Proofs.Refusals
import ContractLinker.Proofs.SlotCapacity
import ContractLinker.Proofs.Delimiting
import ContractLinker.Proofs.Truncation
import ContractLinker.Proofs.LinkDefects
import ContractLinker.Proofs.LinkErrors
import ContractLinker.Proofs.Merging
import ContractLinker.Proofs.FirstUse
import ContractLinker.Proofs.TokenNumbers
import ContractLinker.Proofs.SlotNumbers
import ContractLinker.Proofs.Constants
import ContractLinker.Proofs.Disassembly
import ContractLinker.Proofs.AddressLaws
import ContractLinker.Proofs.CursorSafety
import ContractLinker.Proofs.NumberForms
import ContractLinker.Proofs.Identifiers
