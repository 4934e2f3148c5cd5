import ContractLinker.Script.Layout
import ContractLinker.Script.Reachability

namespace ContractLinker.Script

def live (entries : List Nat) (instructions : List Instruction) : List Instruction :=
  let touched := reachable entries instructions
  instructions.filter fun ins => touched.contains ins.signedOffset

def eliminateDead (script : Script) (entries : List Nat) : Outcome CompileError Script OffsetMap :=
  relayout { script with instructions := live entries script.instructions }

end ContractLinker.Script
