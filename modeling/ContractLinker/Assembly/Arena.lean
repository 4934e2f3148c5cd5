import ContractLinker.Assembly.Unlinked

namespace ContractLinker

structure Arena where
  cells : Array Unlinked := #[]
  deriving DecidableEq, Repr

namespace Arena

def size (arena : Arena) : Nat := arena.cells.size

def alloc (arena : Arena) (ins : Unlinked) : InstructionId × Arena :=
  (arena.size, ⟨arena.cells.push ins⟩)

def get (arena : Arena) (id : InstructionId) : Except CompileError Unlinked :=
  match arena.cells[id]? with
  | some ins => .ok ins
  | none => .error (.unknownInstruction id)

def set (arena : Arena) (id : InstructionId) (ins : Unlinked) : Arena :=
  ⟨arena.cells.setIfInBounds id ins⟩

/-- Changes one instruction, and keeps what a change that fails leaves of it. -/
def modify (arena : Arena) (id : InstructionId)
    (change : Unlinked → Outcome CompileError Unlinked Unit) : Outcome CompileError Arena Unit :=
  match arena.get id with
  | .error e => (.error e, arena)
  | .ok ins =>
    let (result, changed) := change ins
    (result, arena.set id changed)

end Arena
end ContractLinker
