import Std.Data.HashSet
import ContractLinker.Assembly.Arena
import ContractLinker.Script

namespace ContractLinker

structure Linker where
  arena : Arena
  placed : Std.HashSet InstructionId := ∅

abbrev Link := EStateM CompileError Linker

namespace Link

def fetch (id : InstructionId) : Link Unlinked := do
  match (← get).arena.get id with
  | .ok ins => pure ins
  | .error e => throw e

def store (id : InstructionId) (ins : Unlinked) : Link Unit :=
  modify fun s => { s with arena := s.arena.set id ins }

def place (id : InstructionId) : Link Unit :=
  modify fun s => { s with placed := s.placed.insert id }

/-- First pass, from byte `cursor` on; gives the length of the script. -/
def assignOffsets (cursor : Nat) : List InstructionId → Link Nat
  | [] => pure cursor
  | id :: order => do
    let ins ← fetch id
    if (← get).placed.contains id then throw (.duplicatePlacement id ins.opcode)
    place id
    if cursor ≥ Bytes.bound 4 then throw (.scriptTooLarge cursor)
    store id { ins with offset := some cursor }
    assignOffsets (cursor + ins.size) order

/-- Offset of a target that this link has placed. -/
def targetOffset (id : InstructionId) (opcode : Opcode) (target : InstructionId) : Link Nat := do
  let ins ← fetch target
  match ins.offset, (← get).placed.contains target with
  | some offset, true => pure offset
  | _, _ => throw (.danglingTarget id opcode target)

def ofCodec (result : Except CodecError α) : Link α :=
  match result with
  | .ok a => pure a
  | .error e => throw (.codec e)

/-- Writes the slots from `index` on; one without a target is written as zero. -/
def writeSlots (id : InstructionId) (origin width index : Nat) (ins : Instruction) :
    List (Option InstructionId) → Link Instruction
  | [] => pure ins
  | slot :: slots => do
    let displacement : Int ← match slot with
      | some target => do pure ((← targetOffset id ins.opcode target) - origin : Int)
      | none => pure 0
    if ¬ Bytes.FitsSigned width displacement then
      throw (.displacementRange id ins.opcode origin displacement)
    let (result, ins) := ins.writeAddress index displacement
    ofCodec result
    writeSlots id origin width (index + 1) ins slots

/-- The instruction with the displacements of its targets, which is also stored. -/
def resolveBranch (id : InstructionId) (ins : Unlinked) : Link Unlinked := do
  let some cls := ins.opcode.addressClass | return ins
  let some origin := ins.offset | throw (.internal (.missingOffset id ins.opcode))
  let slots := ins.targets.slots
  if slots.isEmpty then throw (.internal (.missingSlots id ins.opcode))
  if slots.all Option.isNone then throw (.unboundBranch id ins.opcode)
  let concrete ← ofCodec (Instruction.new ins.opcode ins.operand)
  let written ← writeSlots id origin cls.width 0 concrete slots
  let resolved := { ins with operand := written.operand }
  store id resolved
  return resolved

/-- Second pass; gives the encoded instructions, last one first. -/
def encodeAll (done : List Bytes) : List InstructionId → Link (List Bytes)
  | [] => pure done
  | id :: order => do
    let ins ← resolveBranch id (← fetch id)
    let concrete ← ofCodec (Instruction.new ins.opcode ins.operand)
    encodeAll (concrete.encode :: done) order

def run (order : List InstructionId) : Link Bytes := do
  let length ← assignOffsets 0 order
  let chunks ← encodeAll [] order
  let script := chunks.reverse.flatten
  if script.length ≠ length then throw (.internal (.scriptLength script.length length))
  return script

end Link

/-- Links `order` into a script. Every id may occur once, and every target has to be among them.
A link that fails keeps what it has written into the arena. -/
def Arena.link (arena : Arena) (order : List InstructionId) : Outcome CompileError Arena Bytes :=
  match Link.run order { arena } with
  | .ok script s => (.ok script, s.arena)
  | .error e s => (.error e, s.arena)

end ContractLinker
