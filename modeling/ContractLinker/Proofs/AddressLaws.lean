import Mathlib
import ContractLinker.Proofs.Addresses

namespace ContractLinker.Instruction

variable {ins : Instruction} {cls : AddressClass} {index : Nat} {value d : Int}

theorem addressSize_of_class (h : ins.opcode.addressClass = some cls) :
    ins.addressSize = cls.width := by
  rw [addressSize, h]

theorem lt_addressCount_iff :
    index < ins.addressCount ↔ ∃ cls, ins.opcode.addressClass = some cls ∧ index < cls.count := by
  unfold addressCount
  cases ins.opcode.addressClass with
  | none => simp
  | some cls => simp

theorem exists_readAddress_iff :
    (∃ d, ins.readAddress index = .ok d) ↔ index < ins.addressCount := by
  rw [lt_addressCount_iff]
  constructor
  · rintro ⟨d, hread⟩
    obtain ⟨cls, hcls, hlt, -⟩ := readAddress_eq_ok_iff.1 hread
    exact ⟨cls, hcls, hlt⟩
  · rintro ⟨cls, hcls, hlt⟩
    exact ⟨_, readAddress_eq_ok_iff.2 ⟨cls, hcls, hlt, rfl⟩⟩

/-- A write succeeds exactly when there is such a slot and it is wide enough. -/
theorem exists_writeAddress_iff :
    (∃ patched, ins.writeAddress index value = (.ok (), patched)) ↔
      index < ins.addressCount ∧ Bytes.FitsSigned ins.addressSize value := by
  rw [lt_addressCount_iff]
  constructor
  · rintro ⟨patched, hwrite⟩
    obtain ⟨cls, hcls, hlt, hfits, -⟩ := writeAddress_eq_ok_iff.1 hwrite
    rw [addressSize_of_class hcls]
    exact ⟨⟨cls, hcls, hlt⟩, hfits⟩
  · rintro ⟨⟨cls, hcls, hlt⟩, hfits⟩
    rw [addressSize_of_class hcls] at hfits
    exact ⟨_, writeAddress_eq_ok_iff.2 ⟨cls, hcls, hlt, hfits, rfl⟩⟩

theorem slots_inside (hframed : ins.WellFramed) (h : index < ins.addressCount) :
    index * ins.addressSize + ins.addressSize ≤ ins.operand.length := by
  obtain ⟨cls, hcls, hlt⟩ := lt_addressCount_iff.1 h
  rw [addressSize_of_class hcls]
  exact slot_end_le (length_operand_of_addressClass hframed hcls) hlt

theorem length_targets : ins.targets.length = ins.addressCount := by
  simp [targets, displacements]

theorem readAddress_bounds (h : ins.readAddress index = .ok d) : -2 ^ 31 ≤ d ∧ d < 2 ^ 31 := by
  have hbound : Bytes.bound 4 = 4294967296 := rfl
  have hfits := fitsSigned_readAddress h
  rw [Bytes.FitsSigned, hbound] at hfits
  omega

/-- A word stands for all numbers that differ from it by whole rounds. -/
theorem signed64_of_round {n word k : Int} (hlow : -2 ^ 63 ≤ word) (hhigh : word < 2 ^ 63)
    (hround : word - n = 2 ^ 64 * k) : signed64 n = word := by
  have hbound : Bytes.bound 8 = 18446744073709551616 := rfl
  unfold signed64
  rw [hbound]
  exact (Int.bmod_eq_iff (by decide)).2 ⟨by omega, by omega, k, by omega⟩

theorem target_of_low (h : ins.readAddress index = .ok d) (hsum : (ins.offset : Int) + d < 2 ^ 63) :
    ins.targets[index]? = some (ins.offset + d) := by
  have hd := readAddress_bounds h
  have hword : signed64 (ins.offset + d) = ins.offset + d :=
    signed64_of_round (k := 0) (by omega) hsum (by omega)
  exact getElem?_targets.2 ⟨d, h, hword.symm⟩

theorem target_of_high (h : ins.readAddress index = .ok d) (hoffset : ins.offset < 2 ^ 64)
    (hsum : 2 ^ 63 ≤ (ins.offset : Int) + d) :
    ins.targets[index]? = some (ins.offset + d - 2 ^ 64) := by
  have hd := readAddress_bounds h
  have hword : signed64 (ins.offset + d) = ins.offset + d - 2 ^ 64 :=
    signed64_of_round (k := -1) (by omega) (by omega) (by omega)
  exact getElem?_targets.2 ⟨d, h, hword.symm⟩

/-- The laws of the slots of an instruction whose operand has the size that its opcode asks for. All
slots lie inside the operand. A write takes place exactly when the slot is there and wide enough,
and then it changes what this slot reads as and nothing else; a write that is refused changes
nothing, and neither does writing back what was read. There is one target for each slot, where the
address points; only the targets of offsets from `2 ^ 63` on are given as the negative words that
such offsets are counted as. -/
theorem address_laws (hchecked : checkOperand ins.opcode ins.operand = .ok ()) :
    (∀ index, ((∃ d, ins.readAddress index = .ok d) ↔ index < ins.addressCount) ∧
      (index < ins.addressCount →
        index * ins.addressSize + ins.addressSize ≤ ins.operand.length)) ∧
    (∀ index value, (∃ patched, ins.writeAddress index value = (.ok (), patched)) ↔
      index < ins.addressCount ∧ Bytes.FitsSigned ins.addressSize value) ∧
    (∀ index value patched, ins.writeAddress index value = (.ok (), patched) →
      patched.readAddress index = .ok value ∧
      (∀ other, other ≠ index → patched.readAddress other = ins.readAddress other) ∧
      patched.opcode = ins.opcode ∧ patched.offset = ins.offset ∧
      patched.operand.length = ins.operand.length) ∧
    (∀ index d, ins.readAddress index = .ok d → ins.writeAddress index d = (.ok (), ins)) ∧
    (∀ index value e left, ins.writeAddress index value = (.error e, left) → left = ins) ∧
    ins.targets.length = ins.addressCount ∧
    ∀ index d, ins.readAddress index = .ok d →
      (ins.offset < 2 ^ 63 → (ins.offset : Int) + d < 2 ^ 63 →
        ins.targets[index]? = some (ins.offset + d)) ∧
      (2 ^ 63 ≤ ins.offset → ins.offset < 2 ^ 64 → 2 ^ 63 ≤ (ins.offset : Int) + d →
        ins.targets[index]? = some (ins.offset + d - 2 ^ 64)) := by
  refine ⟨fun index => ⟨exists_readAddress_iff, slots_inside hchecked⟩,
    fun index value => exists_writeAddress_iff, ?_, fun index d => writeAddress_self hchecked,
    fun index value e left => writeAddress_of_error, length_targets, ?_⟩
  · intro index value patched hwrite
    refine ⟨readAddress_writeAddress hchecked hwrite, ?_, writeAddress_opcode hwrite,
      writeAddress_offset hwrite, writeAddress_length hchecked hwrite⟩
    intro other hne
    exact readAddress_writeAddress_of_ne hchecked hwrite hne
  · intro index d hread
    refine ⟨fun _ hsum => target_of_low hread hsum, ?_⟩
    intro _ hoffset hsum
    exact target_of_high hread hoffset hsum

/-- The second address of a scope at the last offset below `2 ^ 63` becomes -2 and cannot become
200; the first one leads back to where it points. -/
theorem address_laws_scope :
    checkOperand .tryScope [0x80, 5] = .ok () ∧
    (∃ patched, writeAddress ⟨.tryScope, [0x80, 5], 2 ^ 63 - 1⟩ 1 (-2) = (.ok (), patched) ∧
      patched.readAddress 1 = .ok (-2) ∧ patched.readAddress 0 = .ok (-128)) ∧
    (¬ ∃ patched, writeAddress ⟨.tryScope, [0x80, 5], 2 ^ 63 - 1⟩ 1 200 = (.ok (), patched)) ∧
    (targets ⟨.tryScope, [0x80, 5], 2 ^ 63 - 1⟩)[0]? = some (2 ^ 63 - 129) := by
  have hchecked : checkOperand .tryScope [0x80, 5] = .ok () := rfl
  obtain ⟨-, hsucceeds, hwrite, -, -, -, htarget⟩ :=
    @address_laws ⟨.tryScope, [0x80, 5], 2 ^ 63 - 1⟩ hchecked
  have hslot : displacement [0x80, 5] 1 0 = -128 := by decide
  have hfirst (offset : Nat) : readAddress ⟨.tryScope, [0x80, 5], offset⟩ 0 = .ok (-128) :=
    readAddress_eq_ok_iff.2 ⟨.shortDual, rfl, by decide, hslot⟩
  refine ⟨hchecked, ?_, ?_, ?_⟩
  · obtain ⟨patched, hpatched⟩ := (hsucceeds 1 (-2)).2 ⟨by decide, by decide⟩
    obtain ⟨hself, hothers, -⟩ := hwrite 1 (-2) patched hpatched
    exact ⟨patched, hpatched, hself, (hothers 0 (by decide)).trans (hfirst _)⟩
  · rw [hsucceeds]
    rintro ⟨-, hfits⟩
    exact absurd hfits (by decide)
  · have hplace := (htarget 0 (-128) (hfirst _)).1 (by norm_num) (by norm_num)
    rw [hplace]
    norm_num

/-- At offset `2 ^ 63` an address that leads on gives a target below zero. -/
theorem target_ne_place : ∃ (ins : Instruction) (index : Nat) (d : Int),
    checkOperand ins.opcode ins.operand = .ok () ∧ ins.offset < 2 ^ 64 ∧
    ins.readAddress index = .ok d ∧ ins.targets[index]? ≠ some (ins.offset + d) := by
  have hslot : displacement [0, 0x7F] 1 1 = 127 := by decide
  have hread (offset : Nat) : readAddress ⟨.tryScope, [0, 0x7F], offset⟩ 1 = .ok 127 :=
    readAddress_eq_ok_iff.2 ⟨.shortDual, rfl, by decide, hslot⟩
  refine ⟨⟨.tryScope, [0, 0x7F], 2 ^ 63⟩, 1, 127, rfl, by norm_num, hread _, ?_⟩
  rw [target_of_high (hread _) (by norm_num) (by norm_num)]
  norm_num

end ContractLinker.Instruction
