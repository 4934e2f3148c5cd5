import ContractLinker.Proofs.Reading
import ContractLinker.Proofs.Utf8

namespace ContractLinker

namespace Read

def payload (first : UInt8) : Read Nat :=
  if first = 0xFD then natLE 2
  else if first = 0xFE then natLE 4
  else if first = 0xFF then natLE 8
  else pure first.toNat

theorem varInt_eq (max : Nat) :
    varInt max = (do
      let value ← payload (← byte)
      if value > max then refuse (.varIntLimit value max) else pure value) := by
  unfold varInt payload
  congr 1
  funext first
  split
  · rfl
  · split
    · rfl
    · split <;> rfl

end Read

/-- At any place, `read` takes exactly `bytes` and gives `a`. -/
def Reads {α : Type} (read : Read α) (bytes : Bytes) (a : α) : Prop :=
  ∀ position rest, read ⟨position, bytes ++ rest⟩ = .ok a ⟨position + bytes.length, rest⟩

namespace Reads

variable {α β : Type} {m : Read α} {f : α → Read β} {data more : Bytes} {a : α} {b : β}

theorem pure : Reads (pure a) [] a := fun _ _ => rfl

theorem bind (h : Reads m data a) (hf : Reads (f a) more b) :
    Reads (m >>= f) (data ++ more) b := by
  intro position rest
  rw [List.append_assoc, bind_of_ok (h position _), hf, List.length_append, Nat.add_assoc]

theorem map (h : Reads m data a) (hf : Reads (f a) [] b) : Reads (m >>= f) data b := by
  have hboth := h.bind hf
  rwa [List.append_nil] at hboth

theorem bytes {size : Nat} (h : data.length = size) : Reads (Read.bytes size) data data := by
  intro position rest
  exact Read.bytes_eq_ok_iff.2 ⟨rfl, h, by rw [h]⟩

theorem natLE {width n : Nat} (h : n < Bytes.bound width) :
    Reads (Read.natLE width) (Bytes.ofNatLE width n) n := by
  intro position rest
  exact Read.natLE_eq_ok_iff.2 ⟨rfl, h, by rw [Bytes.length_ofNatLE]⟩

theorem byte {b : UInt8} : Reads Read.byte [b] b := by
  intro position rest
  exact Read.byte_eq_ok_iff.2 ⟨rfl, rfl⟩

theorem varInt {value max : Nat} (hmax : value ≤ max) (hvalue : value < Bytes.bound 8) :
    Reads (Read.varInt max) (VarInt.encode value) value := by
  have hlimit : Reads (if value > max then Read.refuse (.varIntLimit value max)
      else Pure.pure value) [] value := by
    rw [if_neg (by omega)]
    exact .pure
  -- The forms differ only in the first byte and in what it says about the rest.
  have hmarked (first : UInt8) (tail : Bytes) (htail : Reads (Read.payload first) tail value) :
      Reads (Read.varInt max) (first :: tail) value := by
    rw [Read.varInt_eq]
    exact byte.bind (htail.map hlimit)
  unfold VarInt.encode
  split
  · refine hmarked (UInt8.ofNat value) [] ?_
    have hbyte : (UInt8.ofNat value).toNat = value :=
      UInt8.toNat_ofNat_of_lt (show value < 256 by omega)
    unfold Read.payload
    simp only [← UInt8.toNat_inj, hbyte, UInt8.reduceToNat]
    rw [if_neg (by omega), if_neg (by omega), if_neg (by omega)]
    exact .pure
  · split
    · exact hmarked 0xFD _ (natLE (show value < 0x10000 by omega))
    · split
      · exact hmarked 0xFE _ (natLE (show value < 0x100000000 by omega))
      · exact hmarked 0xFF _ (natLE hvalue)

theorem varBytes {max : Nat} (hmax : data.length ≤ max) (hvalue : data.length < Bytes.bound 8) :
    Reads (Read.varBytes max) (VarInt.encodeBytes data) data :=
  (varInt hmax hvalue).bind (.bytes rfl)

theorem varText {text : String} {max : Nat} (hmax : (Utf8.encode text).length ≤ max)
    (hvalue : (Utf8.encode text).length < Bytes.bound 8) :
    Reads (Read.varText max) (VarInt.encodeBytes (Utf8.encode text)) text := by
  refine (varBytes hmax hvalue).map ?_
  rw [Utf8.decode_eq_ok_iff.2 rfl]
  exact .pure

end Reads
end ContractLinker
