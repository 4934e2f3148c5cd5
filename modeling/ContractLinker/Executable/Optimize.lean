import ContractLinker.Executable
import ContractLinker.Manifest
import ContractLinker.Script.DeadCode

namespace ContractLinker

/-- The new executable, where each instruction that is left went, and how many are gone. -/
structure Optimized where
  executable : Executable
  offsets : OffsetMap
  removed : Nat

namespace Executable

/-- Keeps what offset 0 and the entry points reach. Compiler, source and tokens carry over. -/
def optimize (x : Executable) (entries : List Nat) : Except CompileError Optimized := do
  let script ← CompileError.lift (Script.decode x.script)
  let (result, optimized) := script.eliminateDead entries
  let offsets ← result
  let executable ← CompileError.lift (build x.compiler x.source x.tokens optimized.encode)
  let removed := script.instructions.length - optimized.instructions.length
  return { executable, offsets, removed }

end Executable

namespace Optimized

def newOffset (o : Optimized) (m : AbiMethod) : Except CompileError Nat :=
  match o.offsets.get? m.offset with
  | some offset => .ok (offset % Bytes.bound 4)
  | none => .error (.internal (.lostMethod m.name m.offset))

/-- Moves the methods to their new offsets, all of which are known before the first is moved. -/
def remap (o : Optimized) (m : Manifest) : Outcome CompileError Manifest Unit :=
  match m.abi.methods.mapM o.newOffset with
  | .error e => (.error e, m)
  | .ok offsets =>
    let methods := m.abi.methods.zipWith (fun method offset => { method with offset }) offsets
    (.ok (), { m with abi := { m.abi with methods } })

end Optimized
end ContractLinker
