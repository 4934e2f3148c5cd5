namespace ContractLinker

abbrev Bytes := List UInt8

namespace Bytes

/-- The `width` lowest bytes of `n`, lowest first. -/
def ofNatLE : (width n : Nat) → Bytes
  | 0, _ => []
  | width + 1, n => UInt8.ofNat n :: ofNatLE width (n / 256)

def toNatLE : Bytes → Nat
  | [] => 0
  | b :: rest => b.toNat + 256 * toNatLE rest

/-- How many numbers `width` bytes tell apart. -/
def bound : (width : Nat) → Nat
  | 0 => 1
  | width + 1 => 256 * bound width

def ofIntLE (width : Nat) (value : Int) : Bytes :=
  ofNatLE width (value % bound width).toNat

def toIntLE (bytes : Bytes) : Int :=
  Int.bmod (toNatLE bytes) (bound bytes.length)

/-- `value` has a two's complement form in `width` bytes. -/
abbrev FitsSigned (width : Nat) (value : Int) : Prop :=
  -(bound width / 2 : Nat) ≤ value ∧ value < (bound width / 2 : Nat)

/-- Cut off or filled up with zeros to exactly `size` bytes. -/
def resize (size : Nat) (bytes : Bytes) : Bytes :=
  bytes.take size ++ List.replicate (size - bytes.length) 0

/-- The bytes `patch` written over `bytes` from position `start` on. -/
def overwrite (bytes : Bytes) (start : Nat) (patch : Bytes) : Bytes :=
  bytes.take start ++ patch ++ bytes.drop (start + patch.length)

theorem length_ofNatLE (width n : Nat) : (ofNatLE width n).length = width := by
  induction width generalizing n with
  | zero => rfl
  | succ width ih => simp [ofNatLE, ih]

theorem toNatLE_ofNatLE (width n : Nat) : toNatLE (ofNatLE width n) = n % bound width := by
  induction width generalizing n with
  | zero => simp [ofNatLE, toNatLE, bound, Nat.mod_one]
  | succ width ih =>
    have hb : (UInt8.ofNat n).toNat = n % 256 := UInt8.toNat_ofNat'
    simp only [ofNatLE, toNatLE, ih, bound, hb]
    exact (Nat.mod_mul).symm

theorem toNatLE_lt (bytes : Bytes) : toNatLE bytes < bound bytes.length := by
  induction bytes with
  | nil => simp [toNatLE, bound]
  | cons b rest ih =>
    have hb : b.toNat < 256 := b.toNat_lt
    simp only [toNatLE, List.length_cons, bound]
    omega

theorem length_resize (size : Nat) (bytes : Bytes) : (resize size bytes).length = size := by
  simp only [resize, List.length_append, List.length_take, List.length_replicate]
  omega

end Bytes
end ContractLinker
