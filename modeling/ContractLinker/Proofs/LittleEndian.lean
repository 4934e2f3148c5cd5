import ContractLinker.Bytes

namespace ContractLinker.Bytes

theorem bound_pos (width : Nat) : 0 < bound width := by
  induction width with
  | zero => exact Nat.one_pos
  | succ width ih => exact Nat.mul_pos (by decide) ih

theorem bound_mono {width width' : Nat} (h : width ≤ width') : bound width ≤ bound width' := by
  induction h with
  | refl => exact Nat.le_refl _
  | step _ ih =>
    simp only [bound]
    omega

theorem fitsSigned_mono {width width' : Nat} {value : Int} (h : width ≤ width')
    (hfits : FitsSigned width value) : FitsSigned width' value := by
  have hbound := bound_mono h
  have hlow := hfits.1
  have hhigh := hfits.2
  constructor <;> omega

theorem toNatLE_ofNatLE_of_lt {width n : Nat} (h : n < bound width) :
    toNatLE (ofNatLE width n) = n := by
  rw [toNatLE_ofNatLE, Nat.mod_eq_of_lt h]

theorem ofNatLE_toNatLE (bytes : Bytes) : ofNatLE bytes.length (toNatLE bytes) = bytes := by
  induction bytes with
  | nil => rfl
  | cons b rest ih =>
    have hb : b.toNat < 256 := b.toNat_lt
    have hlow : UInt8.ofNat (b.toNat + 256 * toNatLE rest) = b := by
      apply UInt8.toNat_inj.1
      rw [UInt8.toNat_ofNat']
      omega
    have hhigh : (b.toNat + 256 * toNatLE rest) / 256 = toNatLE rest := by omega
    simp only [List.length_cons, toNatLE, ofNatLE, hlow, hhigh, ih]

theorem length_ofIntLE (width : Nat) (value : Int) : (ofIntLE width value).length = width :=
  length_ofNatLE width _

theorem bound_succ_even (width : Nat) : bound (width + 1) = 2 * (bound (width + 1) / 2) := by
  simp only [bound]
  omega

theorem toIntLE_ofIntLE {width : Nat} {value : Int} (h : FitsSigned width value) :
    toIntLE (ofIntLE width value) = value := by
  have hpos := bound_pos width
  have hnonneg : 0 ≤ value % (bound width : Int) := Int.emod_nonneg _ (by omega)
  have hlt : value % (bound width : Int) < bound width := Int.emod_lt_of_pos _ (by omega)
  rw [toIntLE, length_ofIntLE, ofIntLE, toNatLE_ofNatLE_of_lt (by omega),
    Int.toNat_of_nonneg hnonneg, Int.emod_bmod]
  apply Int.bmod_eq_of_le_mul_two <;> omega

theorem fitsSigned_toIntLE {bytes : Bytes} (h : bytes ≠ []) :
    FitsSigned bytes.length (toIntLE bytes) := by
  obtain ⟨b, rest, rfl⟩ := List.exists_cons_of_ne_nil h
  have hpos := bound_pos (b :: rest).length
  have heven : bound (b :: rest).length = _ := bound_succ_even rest.length
  have hlow := Int.le_bmod (x := toNatLE (b :: rest)) hpos
  have hhigh := Int.bmod_lt (x := toNatLE (b :: rest)) hpos
  simp only [FitsSigned, toIntLE]
  omega

theorem ofIntLE_toIntLE (bytes : Bytes) : ofIntLE bytes.length (toIntLE bytes) = bytes := by
  have hlt := toNatLE_lt bytes
  have hword : toIntLE bytes % (bound bytes.length : Int) = toNatLE bytes := by
    rw [toIntLE, Int.bmod_emod]
    exact Int.emod_eq_of_lt (by omega) (by omega)
  rw [ofIntLE, hword, Int.toNat_natCast, ofNatLE_toNatLE]

section Overwrite

variable {bytes patch : Bytes} {start : Nat}

theorem length_overwrite (h : start + patch.length ≤ bytes.length) :
    (overwrite bytes start patch).length = bytes.length := by
  simp only [overwrite, List.length_append, List.length_take, List.length_drop]
  omega

theorem drop_take_overwrite (h : start ≤ bytes.length) :
    ((overwrite bytes start patch).drop start).take patch.length = patch := by
  have hlen : (bytes.take start).length = start := List.length_take_of_le h
  rw [overwrite, List.append_assoc, List.drop_left' hlen, List.take_left]

theorem drop_take_overwrite_before {position size : Nat} (h : start ≤ bytes.length)
    (hbefore : position + size ≤ start) :
    ((overwrite bytes start patch).drop position).take size =
      (bytes.drop position).take size := by
  have hlen : (bytes.take start).length = start := List.length_take_of_le h
  have htake : (overwrite bytes start patch).take start = bytes.take start := by
    rw [overwrite, List.append_assoc, List.take_left' hlen]
  -- Both sides only see what stands in front of the patch.
  have hsplit (l : Bytes) : (l.drop position).take size =
      ((l.take start).drop position).take size := by
    rw [List.drop_take, List.take_take]
    congr 1
    omega
  rw [hsplit, htake, ← hsplit]

theorem drop_overwrite_after {position : Nat} (h : start ≤ bytes.length)
    (hafter : start + patch.length ≤ position) :
    (overwrite bytes start patch).drop position = bytes.drop position := by
  have hlen : (bytes.take start ++ patch).length = start + patch.length := by
    rw [List.length_append, List.length_take_of_le h]
  obtain ⟨k, rfl⟩ := Nat.exists_eq_add_of_le hafter
  rw [overwrite, List.drop_append, ← hlen, List.drop_eq_nil_of_le (by omega), List.nil_append,
    List.drop_drop]
  congr 1
  omega

theorem overwrite_self {size : Nat} (h : start + size ≤ bytes.length) :
    overwrite bytes start ((bytes.drop start).take size) = bytes := by
  have hlen : ((bytes.drop start).take size).length = size := by
    rw [List.length_take, List.length_drop]
    omega
  rw [overwrite, hlen, ← List.drop_drop, List.append_assoc, List.take_append_drop,
    List.take_append_drop]

end Overwrite

end ContractLinker.Bytes
