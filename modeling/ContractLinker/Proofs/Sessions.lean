import ContractLinker.Contract.Compilation
import ContractLinker.Proofs.Compiling

namespace ContractLinker

inductive Operation where
  | setSource (source : String)
  | defineMethod (name : String)
  | alloc (ins : Unlinked)
  | push (method : MethodId) (ins : Unlinked)
  | place (method : MethodId) (id : InstructionId)
  | modify (id : InstructionId) (change : Unlinked → Outcome CompileError Unlinked Unit)
  | exportMethod (method : ExportedMethod)
  | exportEvent (event : AbiEvent)
  | addPermission (contract : String) (methods : List String)
  | addStandard (standard : String)
  | setExtra (key : String) (value : Json)
  | addToken (token : Token)
  | addStatic (name : String)
  | emitInitializer

namespace Compilation

theorem addToken_code (c : Compilation) (token : Token) :
    (c.addToken token).2.methods = c.methods ∧ (c.addToken token).2.exports = c.exports ∧
      (c.addToken token).2.events = c.events := by
  unfold addToken
  cases token.validate with
  | error e => exact ⟨rfl, rfl, rfl⟩
  | ok => rcases c.tokens.intern token with ⟨_ | _, tokens⟩ <;> exact ⟨rfl, rfl, rfl⟩

def perform (c : Compilation) : Operation → Compilation
  | .setSource source => { c with source }
  | .defineMethod name => (c.defineMethod name).2
  | .alloc ins => (c.alloc ins).2
  | .push method ins => (c.push method ins).2
  | .place method id => (c.place method id).2
  | .modify id change => (c.modifyInstruction id change).2
  | .exportMethod method => c.exportMethod method
  | .exportEvent event => c.exportEvent event
  | .addPermission contract methods => c.addPermission contract methods
  | .addStandard standard => c.addStandard standard
  | .setExtra key value => c.setExtra key value
  | .addToken token => (c.addToken token).2
  | .addStatic name => (c.addStatic name).2
  | .emitInitializer => c.emitInitializer.2

def performAll (c : Compilation) (ops : List Operation) : Compilation := ops.foldl perform c

/-- The compilation that a sequence of operations leads to. -/
def session (name : String) (ops : List Operation) : Compilation := performAll { name } ops

/-- Some operation of the sequence is met by a compilation of which `P` holds. -/
def Happens (P : Compilation → Operation → Prop) (c : Compilation) (ops : List Operation) : Prop :=
  ∃ before op behind, ops = before ++ op :: behind ∧ P (c.performAll before) op

theorem happens_nil {P : Compilation → Operation → Prop} {c : Compilation} : ¬ Happens P c [] := by
  rintro ⟨before, op, behind, heq, -⟩
  cases before <;> cases heq

theorem happens_cons {P : Compilation → Operation → Prop} {c : Compilation} {op : Operation}
    {ops : List Operation} : Happens P c (op :: ops) ↔ P c op ∨ Happens P (c.perform op) ops := by
  constructor
  · rintro ⟨before, other, behind, heq, h⟩
    cases before with
    | nil =>
      cases heq
      exact .inl h
    | cons first before =>
      cases heq
      exact .inr ⟨before, other, behind, rfl, h⟩
  · rintro (h | ⟨before, other, behind, rfl, h⟩)
    · exact ⟨[], op, ops, rfl, h⟩
    · exact ⟨op :: before, other, behind, rfl, h⟩

end Compilation
end ContractLinker
