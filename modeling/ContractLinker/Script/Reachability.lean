import Std.Data.HashSet
import ContractLinker.Bisect
import ContractLinker.Script

namespace ContractLinker

/-- What a walk sees of an instruction. Offsets are signed, as targets are. -/
structure Waypoint where
  offset : Int
  targets : List Int
  opcode : Opcode

def Instruction.waypoint (ins : Instruction) : Waypoint := ⟨ins.signedOffset, ins.targets, ins.opcode⟩

/-- Marked offsets, and those of them where a walk has still to start, the latest first. -/
structure Marks where
  touched : Std.HashSet Int := ∅
  pending : List Int := []

namespace Marks

/-- Marks an offset and plans a walk from it, unless it is marked. -/
def reach (m : Marks) (offset : Int) : Marks :=
  if m.touched.contains offset then m
  else ⟨m.touched.insert offset, offset :: m.pending⟩

def visit (m : Marks) (w : Waypoint) : Marks :=
  w.targets.foldl reach { m with touched := m.touched.insert w.offset }

/-- One step of a walk, which is marking or not. A `NOP` is passed over. Behind an instruction that
never falls through nothing is marked until the walk comes to an offset that is marked already. -/
def step (walk : Bool × Marks) (w : Waypoint) : Bool × Marks :=
  if walk.1 then (!w.opcode.isTerminator, if w.opcode = .nop then walk.2 else walk.2.visit w)
  else if w.opcode.isTerminator || !walk.2.touched.contains w.offset then walk
  else (true, walk.2)

def firstFrom (code : Array Waypoint) (start : Int) : Nat :=
  let before (i : Nat) : Bool :=
    match code[i]? with
    | some w => w.offset < start
    | none => false
  Bisect.count before code.size

/-- A walk over everything from offset `start` on. -/
def walk (code : Array Waypoint) (start : Int) (m : Marks) : Marks :=
  (code.foldl step (true, m) (firstFrom code start)).2

def drain (code : Array Waypoint) : Nat → Marks → Std.HashSet Int
  | 0, m => m.touched
  | fuel + 1, m =>
    match m.pending with
    | [] => m.touched
    | start :: pending => drain code fuel (walk code start { m with pending })

end Marks

/-- Walks that can ever be planned: one from offset 0, one for each entry point and one for each
address. -/
def walkBound (entries : List Nat) (instructions : List Instruction) : Nat :=
  instructions.foldl (fun n ins => n + ins.addressCount) (1 + entries.length)

/-- Offsets reached from offset 0 and from the entry points, which count as reached themselves. -/
def reachable (entries : List Nat) (instructions : List Instruction) : Std.HashSet Int :=
  let start : Marks :=
    entries.foldl (fun m (entry : Nat) => m.reach (Instruction.signed64 entry)) { pending := [0] }
  start.drain (instructions.map Instruction.waypoint).toArray (walkBound entries instructions)

end ContractLinker
