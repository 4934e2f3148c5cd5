import Std.Data.HashMap
import ContractLinker.Assembly.Error
import ContractLinker.Script

namespace ContractLinker

structure OffsetMap where
  entries : List (Nat × Nat)
  index : Std.HashMap Nat Nat

namespace OffsetMap

def ofEntries (entries : List (Nat × Nat)) : OffsetMap := ⟨entries, .ofList entries⟩

def get? (m : OffsetMap) (offset : Nat) : Option Nat := m.index[offset]?

end OffsetMap

namespace Script

/-- Old and new offsets when the first instruction comes to stand at `cursor`, and the end. -/
def positions (cursor : Nat) (done : List (Nat × Nat)) :
    List Instruction → List (Nat × Nat) × Nat
  | [] => (done.reverse, cursor)
  | ins :: rest => positions (cursor + ins.size) ((ins.offset, cursor) :: done) rest

/-- Where everything goes; the end of the old script goes to the end of the new one. -/
structure Move where
  map : OffsetMap
  oldLength : Nat
  newLength : Nat

namespace Move

def target? (m : Move) (target : Int) : Option Nat :=
  if target < 0 then none
  else if target.toNat = m.oldLength then some m.newLength
  else m.map.get? target.toNat

/-- Moves the addresses from slot `index` on; a fault keeps those already moved. -/
def retarget (m : Move) (origin : Nat) (index : Nat) (ins : Instruction) :
    List Int → Outcome CompileError Instruction Unit
  | [] => (.ok (), ins)
  | target :: targets =>
    match m.target? target with
    | none => (.error (.invalidAddress ins.offset target), ins)
    | some new =>
      let displacement : Int := new - origin
      if ¬ Bytes.FitsSigned 4 displacement then (.error (.scriptTooLarge m.newLength), ins)
      else
        match ins.writeAddress index displacement with
        | (.error e, ins) => (.error (.codec e), ins)
        | (.ok (), ins) => retarget m origin (index + 1) ins targets

def apply (m : Move) (ins : Instruction) : Outcome CompileError Instruction Unit :=
  let origin := (m.map.get? ins.offset).getD 0
  match m.retarget origin 0 ins ins.targets with
  | (.ok (), moved) => (.ok (), { moved with offset := origin })
  | failed => failed

def applyAll (m : Move) (done : List Instruction) :
    List Instruction → Outcome CompileError (List Instruction) Unit
  | [] => (.ok (), done.reverse)
  | ins :: rest =>
    match m.apply ins with
    | (.ok (), moved) => applyAll m (moved :: done) rest
    | (.error e, moved) => (.error e, done.reverse ++ moved :: rest)

end Move

def compaction (script : Script) : Move :=
  let (entries, newLength) := positions 0 [] script.instructions
  ⟨.ofEntries entries, script.byteLength, newLength⟩

/-- Each address has to point at an instruction that is left or at the end. A fault keeps the
instructions already moved. -/
def relayout (script : Script) : Outcome CompileError Script OffsetMap :=
  let move := script.compaction
  match move.applyAll [] script.instructions with
  | (.ok (), instructions) => (.ok move.map, ⟨instructions, move.newLength⟩)
  | (.error e, instructions) => (.error e, { script with instructions })

end Script
end ContractLinker
