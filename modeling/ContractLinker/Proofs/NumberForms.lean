import ContractLinker.Proofs.CursorSafety
import ContractLinker.Proofs.Spelling

namespace ContractLinker

namespace Read

variable {c c' : Cursor} {max value : Nat}

def number : Read Nat := byte >>= payload

theorem varInt_eq_number (max : Nat) :
    varInt max = number >>= fun value =>
      if value > max then refuse (.varIntLimit value max) else pure value := by
  funext c
  rw [varInt_eq, number]
  simp only [bind_apply]
  cases byte c <;> rfl

/-- Any limit that lets a number pass shows how it is read. -/
theorem number_of_varInt (h : varInt max c = .ok value c') : number c = .ok value c' := by
  rw [varInt_eq_number] at h
  obtain ⟨found, t, hfound, hlimit⟩ := bind_eq_ok_iff.1 h
  split_ifs at hlimit
  · cases hlimit
  · cases hlimit
    exact hfound

/-- The limit is looked at when the number has been read. -/
theorem varInt_of_number (max : Nat) (h : number c = .ok value c') :
    varInt max c = if value ≤ max then .ok value c'
      else .error (.invalidFormat (.varIntLimit value max)) c' := by
  rw [varInt_eq_number, bind_of_ok h]
  by_cases hmax : value ≤ max
  · rw [if_neg (by omega), if_pos hmax]
    rfl
  · rw [if_pos (by omega), if_neg hmax]
    rfl

end Read

namespace VarInt

theorem number_encode {value : Nat} (hvalue : value < Bytes.bound 8) (before behind : Bytes) :
    Read.number (.into (before ++ encode value ++ behind) before.length) =
      .ok value (.into (before ++ encode value ++ behind) (before.length + size value)) := by
  have hread := Reads.varInt (Nat.le_refl value) hvalue before.length behind
  have hstart : Cursor.into (before ++ encode value ++ behind) before.length =
      ⟨before.length, encode value ++ behind⟩ := by
    rw [Cursor.into, List.append_assoc, List.drop_left]
  have hstop : Cursor.into (before ++ encode value ++ behind) (before.length + size value) =
      ⟨before.length + size value, behind⟩ := by
    rw [Cursor.into, ← length_encode, ← List.length_append, List.drop_left]
  rw [hstart, hstop, ← length_encode]
  exact Read.number_of_varInt hread

/-- A number that is written anywhere in some data takes `size` bytes there and is read back from
them; if it is over the limit it is refused, and the cursor stands behind it all the same. Whatever
is read as a number is no shorter than that, and it is what would have been written if it is as
short. -/
theorem varInt_framing (value max : UInt64) (before behind : Bytes) :
    let data := before ++ encode value.toNat ++ behind
    (encode value.toNat).length = size value.toNat ∧
    (Read.varInt max.toNat (.into data before.length) =
      if value ≤ max then .ok value.toNat (.into data (before.length + size value.toNat))
      else .error (.invalidFormat (.varIntLimit value.toNat max.toNat))
        (.into data (before.length + size value.toNat))) ∧
    ∀ limit c c', Read.varInt limit c = .ok value.toNat c' → ∃ form, c.rest = form ++ c'.rest ∧
      c'.position = c.position + form.length ∧ size value.toNat ≤ form.length ∧
      (form.length = size value.toNat → form = encode value.toNat) := by
  have hvalue : value.toNat < Bytes.bound 8 := value.toNat_lt
  refine ⟨length_encode _, ?_, ?_⟩
  · rw [Read.varInt_of_number _ (number_encode hvalue before behind)]
    rfl
  · intro limit c c' hread
    obtain ⟨form, ⟨hform, -⟩, hrest, hposition⟩ := Takes.varInt c value.toNat c' hread
    have hshortest := hform.length_encode_le
    rw [length_encode] at hshortest
    refine ⟨form, hrest, hposition, hshortest, ?_⟩
    intro hlength
    by_contra hne
    have hlonger := hform.length_encode_lt hne
    rw [length_encode] at hlonger
    omega

/-- 300 is written in three bytes and refused by a limit of 256; read from a form of five bytes, it
is not as short as it could be. -/
theorem varInt_framing_three_hundred :
    (Read.varInt 256 (.into [7, 0xFD, 0x2C, 1, 9] 1) =
      .error (.invalidFormat (.varIntLimit 300 256)) (.into [7, 0xFD, 0x2C, 1, 9] 4)) ∧
    Read.varInt 512 ⟨0, [0xFE, 0x2C, 1, 0, 0, 9]⟩ = .ok 300 ⟨5, [9]⟩ ∧
    ∃ form, [0xFE, 0x2C, 1, 0, 0, 9] = form ++ [9] ∧ size 300 ≤ form.length ∧
      (form.length = size 300 → form = encode 300) := by
  obtain ⟨-, hrefused, hforms⟩ := varInt_framing 300 256 [7] [9]
  have hlong : Read.varInt 512 ⟨0, [0xFE, 0x2C, 1, 0, 0, 9]⟩ = .ok 300 ⟨5, [9]⟩ := rfl
  obtain ⟨form, hform, -, hshortest⟩ := hforms 512 _ _ hlong
  exact ⟨hrefused, hlong, form, hform, hshortest⟩

end VarInt
end ContractLinker
