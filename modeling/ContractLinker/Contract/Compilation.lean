import ContractLinker.Assembly.Link
import ContractLinker.Contract
import ContractLinker.Contract.StaticSlots
import ContractLinker.Token.Table

namespace ContractLinker

/-- Number of a method body, in the order of definition; unbounded, as the indices of instructions
are. -/
abbrev MethodId := Nat

structure MethodBody where
  name : String
  instructions : Array InstructionId := #[]
  deriving DecidableEq, Repr

def MethodBody.append (body : MethodBody) (id : InstructionId) : MethodBody :=
  { body with instructions := body.instructions.push id }

structure ExportedMethod where
  method : MethodId
  name : String
  safe : Bool := false
  parameters : List Parameter := []
  returnType : ParameterType := .void
  deriving DecidableEq, Repr

structure Compilation where
  name : String
  source : String := ""
  standards : List String := []
  exports : Array ExportedMethod := #[]
  events : Array AbiEvent := #[]
  permissions : Permissions := {}
  extra : List (String × Json) := []
  tokens : TokenTable := {}
  statics : StaticSlots := {}
  arena : Arena := {}
  methods : Array MethodBody := #[]

namespace Compilation

/-- The body that sizes the static storage. -/
def initializerName : String := "_initialize"

def method? (c : Compilation) (name : String) : Option MethodId :=
  c.methods.findIdx? (·.name = name)

def method (c : Compilation) (name : String) : Except CompileError MethodId :=
  match c.method? name with
  | some id => .ok id
  | none => .error (.unknownMethod name)

/-- A new body, or the one that has the name already. -/
def defineMethod (c : Compilation) (name : String) : MethodId × Compilation :=
  match c.method? name with
  | some id => (id, c)
  | none => (c.methods.size, { c with methods := c.methods.push { name } })

def alloc (c : Compilation) (ins : Unlinked) : InstructionId × Compilation :=
  let (id, arena) := c.arena.alloc ins
  (id, { c with arena })

/-- Puts an instruction at the end of a body. -/
def place (c : Compilation) (method : MethodId) (id : InstructionId) :
    Outcome CompileError Compilation Unit :=
  match c.arena.get id with
  | .error e => (.error e, c)
  | .ok _ =>
    if method < c.methods.size then
      (.ok (), { c with methods := c.methods.modify method (·.append id) })
    else (.error (.internal (.undefinedMethod method)), c)

/-- Allocates and places; an instruction that cannot be placed stays allocated. -/
def push (c : Compilation) (method : MethodId) (ins : Unlinked) :
    Outcome CompileError Compilation InstructionId :=
  let (id, c) := c.alloc ins
  let (result, c) := c.place method id
  (result.map fun _ => id, c)

/-- Changes an instruction, for instance to bind its target. -/
def modifyInstruction (c : Compilation) (id : InstructionId)
    (change : Unlinked → Outcome CompileError Unlinked Unit) :
    Outcome CompileError Compilation Unit :=
  let (result, arena) := c.arena.modify id change
  (result, { c with arena })

def body? (c : Compilation) (method : MethodId) : Option (List InstructionId) :=
  (c.methods[method]?).map (·.instructions.toList)

def exportMethod (c : Compilation) (method : ExportedMethod) : Compilation :=
  { c with exports := c.exports.push method }

def exportEvent (c : Compilation) (event : AbiEvent) : Compilation :=
  { c with events := c.events.push event }

def addPermission (c : Compilation) (contract : String) (methods : List String) : Compilation :=
  { c with permissions := c.permissions.addAll contract methods }

def addStandard (c : Compilation) (standard : String) : Compilation :=
  if c.standards.contains standard then c else { c with standards := c.standards ++ [standard] }

def setExtra (c : Compilation) (key : String) (value : Json) : Compilation :=
  { c with extra := Json.insertMember key value c.extra }

/-- The number of a token; its first use also permits the call. -/
def addToken (c : Compilation) (token : Token) : Outcome CompileError Compilation Nat :=
  match token.validate with
  | .error e => (.error (.codec e), c)
  | .ok () =>
    match c.tokens.intern token with
    | (.error e, tokens) => (.error e, { c with tokens })
    | (.ok (i, added), tokens) =>
      let permissions :=
        if added then c.permissions.add token.hash.text token.method else c.permissions
      (.ok i, { c with tokens, permissions })

def addStatic (c : Compilation) (name : String) : Outcome CompileError Compilation Nat :=
  let (slot, statics) := c.statics.allocate name
  (slot, { c with statics })

def defineInitializer (c : Compilation) (count : UInt8) :
    Outcome CompileError Compilation (Option MethodId) :=
  let (method, c) := c.defineMethod initializerName
  match Unlinked.withOperand .initSSlot [count] with
  | .error e => (.error e, c)
  | .ok size =>
    match c.push method size with
    | (.error e, c) => (.error e, c)
    | (.ok _, c) =>
      match c.push method (.new .ret) with
      | (.error e, c) => (.error e, c)
      | (.ok _, c) => (.ok (some method), c.exportMethod { method, name := initializerName })

/-- Emits and exports the initializer, unless there are no static fields or there is a body of that
name already. -/
def emitInitializer (c : Compilation) : Outcome CompileError Compilation (Option MethodId) :=
  let count := c.statics.keys.length
  if count = 0 then (.ok none, c)
  else
    match c.method? initializerName with
    | some id => (.ok (some id), c)
    | none =>
      if count > 255 then (.error (.staticSlotOverflow s!"{count} static fields"), c)
      else c.defineInitializer (UInt8.ofNat count)

/-- All bodies one after the other, and the first instruction of each. -/
def placement (done entries : List InstructionId) :
    List MethodBody → Except CompileError (List InstructionId × List InstructionId)
  | [] => .ok (done.reverse, entries.reverse)
  | body :: bodies =>
    match body.instructions.toList with
    | [] => .error (.emptyMethod body.name)
    | first :: rest => placement (rest.reverse ++ first :: done) (first :: entries) bodies

def abiMethod (arena : Arena) (entries : Array InstructionId) (e : ExportedMethod) :
    Except CompileError AbiMethod := do
  match entries[e.method]? with
  | none => throw (.unknownMethod e.name)
  | some entry =>
    match (← arena.get entry).offset with
    | none => throw (.internal (.notLinked entry))
    | some offset => return ⟨e.name, offset, e.safe, e.returnType, e.parameters⟩

/-- Links the bodies in the order of their definition. -/
def compile (c : Compilation) : Except CompileError Contract := do
  let (order, entries) ← placement [] [] c.methods.toList
  let (linked, arena) := c.arena.link order
  let script ← linked
  let methods ← c.exports.toList.mapM (abiMethod arena entries.toArray)
  return {
    name := c.name
    source := c.source
    script
    tokens := c.tokens.toList
    standards := c.standards
    abi := ⟨methods, c.events.toList⟩
    permissions := c.permissions.entries
    extra := c.extra }

end Compilation
end ContractLinker
