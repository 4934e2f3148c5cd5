import ContractLinker.Codec.Error

namespace ContractLinker

structure CallFlags where
  readStates : Bool := false
  writeStates : Bool := false
  allowCall : Bool := false
  allowNotify : Bool := false
  deriving DecidableEq, Hashable, Repr

namespace CallFlags

def bits (f : CallFlags) : UInt8 :=
  (if f.readStates then 1 else 0) + (if f.writeStates then 2 else 0) +
    (if f.allowCall then 4 else 0) + (if f.allowNotify then 8 else 0)

def ofBits? (b : UInt8) : Option CallFlags :=
  if b < 16 then some ⟨b &&& 1 ≠ 0, b &&& 2 ≠ 0, b &&& 4 ≠ 0, b &&& 8 ≠ 0⟩ else none

def ofBits (b : UInt8) : Except CodecError CallFlags :=
  match ofBits? b with
  | some flags => .ok flags
  | none => .error (.invalidFormat (.callFlags b))

def contains (f g : CallFlags) : Bool :=
  (!g.readStates || f.readStates) && (!g.writeStates || f.writeStates) &&
    (!g.allowCall || f.allowCall) && (!g.allowNotify || f.allowNotify)

def union (f g : CallFlags) : CallFlags :=
  ⟨f.readStates || g.readStates, f.writeStates || g.writeStates, f.allowCall || g.allowCall,
    f.allowNotify || g.allowNotify⟩

theorem ofBits?_bits (f : CallFlags) : ofBits? f.bits = some f := by
  rcases f with ⟨_ | _, _ | _, _ | _, _ | _⟩ <;> rfl

end CallFlags
end ContractLinker
