import ContractLinker.Assembly.Error
import ContractLinker.Outcome

namespace ContractLinker

structure StaticSlots where
  keys : List String := []
  deriving DecidableEq, Repr

namespace StaticSlots

def capacity : Nat := 256

def get? (slots : StaticSlots) (key : String) : Option Nat := slots.keys.idxOf? key

/-- The number of `key`, which is the next free one when the key is new. -/
def allocate (slots : StaticSlots) (key : String) : Outcome CompileError StaticSlots Nat :=
  match slots.get? key with
  | some i => (.ok i, slots)
  | none =>
    let next := slots.keys.length
    if next < capacity then (.ok next, ⟨slots.keys ++ [key]⟩)
    else (.error (.staticSlotOverflow key), slots)

def entries (slots : StaticSlots) : List (String × Nat) := slots.keys.zipIdx

end StaticSlots
end ContractLinker
