import ContractLinker.Proofs.ScriptCodec

namespace ContractLinker.Instruction

variable {ins patched : Instruction} {cls : AddressClass} {index : Nat} {value d : Int}

theorem length_operand_of_addressClass (hframed : ins.WellFramed)
    (hcls : ins.opcode.addressClass = some cls) :
    ins.operand.length = cls.width * cls.count :=
  (checkOperand_fixed (Opcode.framing_of_addressClass hcls)).1 hframed

theorem addressSlot_eq_ok_iff :
    ins.addressSlot index = .ok cls ↔ ins.opcode.addressClass = some cls ∧ index < cls.count := by
  unfold addressSlot
  cases h : ins.opcode.addressClass with
  | none => simp
  | some found =>
    simp only [Option.some.injEq]
    split
    · rename_i hlt
      simp only [Except.ok.injEq]
      exact ⟨fun heq => ⟨heq, heq ▸ hlt⟩, fun hand => hand.1⟩
    · rename_i hlt
      simp only [reduceCtorEq, false_iff, not_and]
      exact fun heq => heq ▸ hlt

theorem readAddress_eq_ok_iff :
    ins.readAddress index = .ok d ↔
      ∃ cls, ins.opcode.addressClass = some cls ∧ index < cls.count ∧
        displacement ins.operand cls.width index = d := by
  unfold readAddress
  cases h : ins.addressSlot index with
  | error e =>
    simp only [bind, Except.bind, reduceCtorEq, false_iff, not_exists, not_and]
    intro cls hcls hlt
    rw [addressSlot_eq_ok_iff.2 ⟨hcls, hlt⟩] at h
    cases h
  | ok cls =>
    obtain ⟨hcls, hlt⟩ := addressSlot_eq_ok_iff.1 h
    simp [bind, Except.bind, pure, Except.pure, hcls, hlt]

theorem exists_readAddress {other : Instruction} (hop : other.opcode = ins.opcode)
    (h : ins.readAddress index = .ok d) : ∃ d', other.readAddress index = .ok d' := by
  obtain ⟨cls, hcls, hlt, -⟩ := readAddress_eq_ok_iff.1 h
  rw [← hop] at hcls
  exact ⟨_, readAddress_eq_ok_iff.2 ⟨cls, hcls, hlt, rfl⟩⟩

theorem writeAddress_eq_ok_iff :
    ins.writeAddress index value = (.ok (), patched) ↔
      ∃ cls, ins.opcode.addressClass = some cls ∧ index < cls.count ∧
        Bytes.FitsSigned cls.width value ∧ patched = { ins with
          operand := Bytes.overwrite ins.operand (index * cls.width)
            (Bytes.ofIntLE cls.width value) } := by
  unfold writeAddress
  cases h : ins.addressSlot index with
  | error e =>
    simp only [Prod.mk.injEq, reduceCtorEq, false_and, false_iff, not_exists, not_and]
    intro cls hcls hlt
    rw [addressSlot_eq_ok_iff.2 ⟨hcls, hlt⟩] at h
    cases h
  | ok cls =>
    obtain ⟨hcls, hlt⟩ := addressSlot_eq_ok_iff.1 h
    simp only [hcls, Option.some.injEq, exists_eq_left', hlt, true_and]
    split
    · rename_i hfits
      simp only [Prod.mk.injEq, true_and]
      exact ⟨fun heq => ⟨hfits, heq.symm⟩, fun hand => hand.2.symm⟩
    · rename_i hfits
      simp [hfits]

theorem writeAddress_of_error {e : CodecError}
    (h : ins.writeAddress index value = (.error e, patched)) : patched = ins := by
  unfold writeAddress at h
  split at h
  · exact (Prod.mk.inj h).2.symm
  · split at h
    · cases h
    · exact (Prod.mk.inj h).2.symm

theorem slot_end_le (hlen : ins.operand.length = cls.width * cls.count) (hlt : index < cls.count) :
    index * cls.width + cls.width ≤ ins.operand.length := by
  rw [hlen, ← Nat.succ_mul, Nat.mul_comm]
  exact Nat.mul_le_mul_left _ hlt

theorem length_slot (hlen : ins.operand.length = cls.width * cls.count) (hlt : index < cls.count) :
    ((ins.operand.drop (index * cls.width)).take cls.width).length = cls.width := by
  have hend := slot_end_le hlen hlt
  rw [List.length_take, List.length_drop]
  omega

theorem fitsSigned_displacement (hframed : ins.WellFramed)
    (hcls : ins.opcode.addressClass = some cls) (hlt : index < cls.count) :
    Bytes.FitsSigned cls.width (displacement ins.operand cls.width index) := by
  have hlen := length_slot (length_operand_of_addressClass hframed hcls) hlt
  have hne : (ins.operand.drop (index * cls.width)).take cls.width ≠ [] := by
    intro hnil
    rw [hnil] at hlen
    cases cls <;> cases hlen
  have hfits := Bytes.fitsSigned_toIntLE hne
  rwa [hlen] at hfits

theorem width_le_four (cls : AddressClass) : cls.width ≤ 4 := by
  cases cls <;> decide

theorem fitsSigned_four (h : Bytes.FitsSigned cls.width d) : Bytes.FitsSigned 4 d :=
  Bytes.fitsSigned_mono (width_le_four cls) h

theorem fitsSigned_readAddress (h : ins.readAddress index = .ok d) : Bytes.FitsSigned 4 d := by
  obtain ⟨cls, -, -, rfl⟩ := readAddress_eq_ok_iff.1 h
  have hlen : ((ins.operand.drop (index * cls.width)).take cls.width).length ≤ 4 :=
    Nat.le_trans (List.length_take_le _ _) (width_le_four cls)
  unfold displacement
  generalize (ins.operand.drop (index * cls.width)).take cls.width = slot at hlen ⊢
  by_cases hnil : slot = []
  · rw [hnil]
    decide
  · exact Bytes.fitsSigned_mono hlen (Bytes.fitsSigned_toIntLE hnil)

theorem writeAddress_self (hframed : ins.WellFramed) (h : ins.readAddress index = .ok d) :
    ins.writeAddress index d = (.ok (), ins) := by
  obtain ⟨cls, hcls, hlt, rfl⟩ := readAddress_eq_ok_iff.1 h
  have hlen := length_operand_of_addressClass hframed hcls
  have hword : Bytes.ofIntLE cls.width (displacement ins.operand cls.width index) =
      (ins.operand.drop (index * cls.width)).take cls.width := by
    have hslot := Bytes.ofIntLE_toIntLE ((ins.operand.drop (index * cls.width)).take cls.width)
    rwa [length_slot hlen hlt] at hslot
  apply writeAddress_eq_ok_iff.2
  refine ⟨cls, hcls, hlt, fitsSigned_displacement hframed hcls hlt, ?_⟩
  rw [hword, Bytes.overwrite_self (slot_end_le hlen hlt)]

section Write

variable (hframed : ins.WellFramed) (h : ins.writeAddress index value = (.ok (), patched))
include h

theorem writeAddress_opcode : patched.opcode = ins.opcode := by
  obtain ⟨cls, -, -, -, rfl⟩ := writeAddress_eq_ok_iff.1 h
  rfl

theorem writeAddress_offset : patched.offset = ins.offset := by
  obtain ⟨cls, -, -, -, rfl⟩ := writeAddress_eq_ok_iff.1 h
  rfl

include hframed

theorem writeAddress_length : patched.operand.length = ins.operand.length := by
  obtain ⟨cls, hcls, hlt, -, rfl⟩ := writeAddress_eq_ok_iff.1 h
  have hend := slot_end_le (length_operand_of_addressClass hframed hcls) hlt
  apply Bytes.length_overwrite
  rwa [Bytes.length_ofIntLE]

theorem writeAddress_wellFramed : patched.WellFramed := by
  obtain ⟨cls, hcls, -⟩ := writeAddress_eq_ok_iff.1 h
  have hop := writeAddress_opcode h
  have hlen := length_operand_of_addressClass hframed hcls
  apply (checkOperand_fixed (Opcode.framing_of_addressClass (hop ▸ hcls))).2
  rw [writeAddress_length hframed h, hlen]

theorem readAddress_writeAddress : patched.readAddress index = .ok value := by
  obtain ⟨cls, hcls, hlt, hfits, rfl⟩ := writeAddress_eq_ok_iff.1 h
  have hend := slot_end_le (length_operand_of_addressClass hframed hcls) hlt
  refine readAddress_eq_ok_iff.2 ⟨cls, hcls, hlt, ?_⟩
  have hslot : ((Bytes.overwrite ins.operand (index * cls.width)
      (Bytes.ofIntLE cls.width value)).drop (index * cls.width)).take
        (Bytes.ofIntLE cls.width value).length = Bytes.ofIntLE cls.width value :=
    Bytes.drop_take_overwrite (by omega)
  rw [Bytes.length_ofIntLE] at hslot
  simp only [displacement, hslot, Bytes.toIntLE_ofIntLE hfits]

theorem readAddress_writeAddress_of_ne {other : Nat} (hne : other ≠ index) :
    patched.readAddress other = ins.readAddress other := by
  obtain ⟨cls, hcls, hlt, hfits, rfl⟩ := writeAddress_eq_ok_iff.1 h
  have hend := slot_end_le (length_operand_of_addressClass hframed hcls) hlt
  have hslot : (((Bytes.overwrite ins.operand (index * cls.width)
      (Bytes.ofIntLE cls.width value)).drop (other * cls.width)).take cls.width) =
      (ins.operand.drop (other * cls.width)).take cls.width := by
    -- Slots do not overlap: the other one ends before this one starts, or the other way round.
    rcases Nat.lt_or_gt_of_ne hne with hlow | hhigh
    · apply Bytes.drop_take_overwrite_before (by omega)
      rw [← Nat.succ_mul]
      exact Nat.mul_le_mul_right _ hlow
    · rw [Bytes.drop_overwrite_after (by omega)]
      rw [Bytes.length_ofIntLE, ← Nat.succ_mul]
      exact Nat.mul_le_mul_right _ hhigh
  simp only [readAddress, addressSlot, hcls]
  split
  · simp only [bind, Except.bind, displacement, hslot]
  · rfl

end Write

/-- `moved` is `ins` with the displacements `ds` written into its slots from `index` on. -/
structure Rewrites (index : Nat) (ds : List Int) (ins moved : Instruction) : Prop where
  opcode : moved.opcode = ins.opcode
  offset : moved.offset = ins.offset
  length : moved.operand.length = ins.operand.length
  framed : moved.WellFramed
  before : ∀ i < index, moved.readAddress i = ins.readAddress i
  address : ∀ i d, ds[i]? = some d → moved.readAddress (index + i) = .ok d

theorem Rewrites.nil (hframed : ins.WellFramed) : Rewrites index [] ins ins :=
  ⟨rfl, rfl, rfl, hframed, fun _ _ => rfl, nofun⟩

theorem Rewrites.cons {moved : Instruction} {ds : List Int} (hframed : ins.WellFramed)
    (h : ins.writeAddress index d = (.ok (), patched))
    (hrest : Rewrites (index + 1) ds patched moved) : Rewrites index (d :: ds) ins moved := by
  refine ⟨?_, ?_, ?_, hrest.framed, ?_, ?_⟩
  · rw [hrest.opcode, writeAddress_opcode h]
  · rw [hrest.offset, writeAddress_offset h]
  · rw [hrest.length, writeAddress_length hframed h]
  · intro i hi
    rw [hrest.before i (by omega), readAddress_writeAddress_of_ne hframed h (by omega)]
  · intro i value hvalue
    cases i with
    | zero =>
      cases hvalue
      -- The later slots leave the one just written alone.
      rw [Nat.add_zero, hrest.before index (by omega), readAddress_writeAddress hframed h]
    | succ i =>
      have hread := hrest.address i value hvalue
      rwa [Nat.add_right_comm, Nat.add_assoc] at hread

theorem getElem?_displacements :
    ins.displacements[index]? = some d ↔ ins.readAddress index = .ok d := by
  simp only [displacements, List.getElem?_map, readAddress_eq_ok_iff, addressCount, addressSize]
  cases hcls : ins.opcode.addressClass with
  | none => simp
  | some cls =>
    by_cases hlt : index < cls.count
    · simp [hlt]
    · simp [hlt]

theorem getElem?_targets {t : Int} :
    ins.targets[index]? = some t ↔
      ∃ d, ins.readAddress index = .ok d ∧ t = signed64 (ins.offset + d) := by
  simp only [targets, List.getElem?_map, Option.map_eq_some_iff, getElem?_displacements,
    @eq_comm _ t]

theorem signed64_of_lt {n : Nat} (h : n < Bytes.bound 8 / 2) : signed64 n = n := by
  have hbound : Bytes.bound 8 = 18446744073709551616 := rfl
  unfold signed64
  rw [hbound] at h ⊢
  apply Int.bmod_eq_of_le_mul_two <;> omega

/-- A place near the 64-bit range that stands for a place in the script did not wrap around. -/
theorem eq_of_signed64_eq {n old : Nat} {d : Int} (hn : n < Bytes.bound 8 / 2)
    (hd : Bytes.FitsSigned 4 d) (h : signed64 (n + d) = old) : n + d = old := by
  have hbound : Bytes.bound 8 = 18446744073709551616 := rfl
  have hbound4 : Bytes.bound 4 = 4294967296 := rfl
  unfold signed64 at h
  simp only [Bytes.FitsSigned, hbound4] at hd
  rw [hbound] at h hn
  obtain ⟨hlow, hhigh, k, hk⟩ := (Int.bmod_eq_iff (by decide)).1 h
  omega

end ContractLinker.Instruction
