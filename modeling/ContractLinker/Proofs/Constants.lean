import Mathlib.Tactic.IntervalCases
import ContractLinker.Assembly.Unlinked
import ContractLinker.Proofs.Editing

namespace ContractLinker

theorem Bytes.lt_of_fitsSigned {width width' : Nat} {value : Int} (h : ¬ FitsSigned width value)
    (hfits : FitsSigned width' value) : width < width' := by
  by_contra hle
  exact h (fitsSigned_mono (Nat.le_of_not_lt hle) hfits)

namespace Opcode

def constant? : Opcode → Option Int
  | .pushM1 => some (-1)
  | .push0 => some 0
  | .push1 => some 1
  | .push2 => some 2
  | .push3 => some 3
  | .push4 => some 4
  | .push5 => some 5
  | .push6 => some 6
  | .push7 => some 7
  | .push8 => some 8
  | .push9 => some 9
  | .push10 => some 10
  | .push11 => some 11
  | .push12 => some 12
  | .push13 => some 13
  | .push14 => some 14
  | .push15 => some 15
  | .push16 => some 16
  | _ => none

def intWidth? : Opcode → Option Nat
  | .pushInt8 => some 1
  | .pushInt16 => some 2
  | .pushInt32 => some 4
  | .pushInt64 => some 8
  | _ => none

theorem constant?_bounds {op : Opcode} {value : Int} (h : op.constant? = some value) :
    -1 ≤ value ∧ value ≤ 16 := by
  cases op <;> cases h <;> decide

theorem framing_of_intWidth? {op : Opcode} {width : Nat} (h : op.intWidth? = some width) :
    op.framing = .fixed width := by
  cases op <;> cases h <;> rfl

theorem intWidth?_cases {op : Opcode} {width : Nat} (h : op.intWidth? = some width) :
    width = 1 ∨ width = 2 ∨ width = 4 ∨ width = 8 := by
  cases op <;> cases h <;> decide

end Opcode

namespace Instruction

/-- The integer that an instruction pushes. -/
def pushedInt? (ins : Instruction) : Option Int :=
  match ins.opcode.intWidth? with
  | some _ => some (Bytes.toIntLE ins.operand)
  | none => ins.opcode.constant?

/-- The byte string that an instruction pushes. -/
def pushedData? (ins : Instruction) : Option Bytes :=
  match ins.opcode with
  | .pushData1 | .pushData2 | .pushData4 => some ins.operand
  | _ => none

/-- The instruction pushes the constant, and none that does so is shorter. -/
structure Shortest {β : Type} (pushed? : Instruction → Option β) (value : β) (ins : Instruction) :
    Prop where
  framed : ins.WellFramed
  pushes : pushed? ins = some value
  le : ∀ other : Instruction, other.WellFramed → pushed? other = some value →
    ins.encode.length ≤ other.encode.length

/-- A pushed integer is small, or it fits into the operand that it stands in. -/
theorem fitsSigned_of_pushedInt? {ins : Instruction} {value : Int} (hframed : ins.WellFramed)
    (h : ins.pushedInt? = some value) (hlarge : value < -1 ∨ 16 < value) :
    ∃ width, ins.opcode.intWidth? = some width ∧ ins.size = 1 + width ∧
      Bytes.FitsSigned width value := by
  unfold pushedInt? at h
  cases hwidth : ins.opcode.intWidth? with
  | none =>
    rw [hwidth] at h
    have hbounds := Opcode.constant?_bounds h
    omega
  | some width =>
    rw [hwidth] at h
    have hframing := Opcode.framing_of_intWidth? hwidth
    have hlength := (checkOperand_fixed hframing).1 hframed
    have hpos := Opcode.intWidth?_cases hwidth
    have hsome : ins.operand ≠ [] := by
      intro hnil
      rw [hnil, List.length_nil] at hlength
      omega
    refine ⟨width, rfl, ?_, ?_⟩
    · rw [size, hframing, hlength]
      rfl
    · rw [← Option.some.inj h, ← hlength]
      exact Bytes.fitsSigned_toIntLE hsome

theorem pushedData?_eq_some {ins : Instruction} {data : Bytes} (h : ins.pushedData? = some data) :
    ∃ width, ins.opcode.framing = .counted width ∧ ins.operand = data := by
  obtain ⟨opcode, operand, offset⟩ := ins
  cases opcode <;> cases h <;> exact ⟨_, rfl, rfl⟩

end Instruction

namespace Unlinked

open Instruction

def bare (ins : Unlinked) : Instruction := ⟨ins.opcode, ins.operand, 0⟩

theorem pushInt_small {value : Int} (hlow : -1 ≤ value) (hhigh : value ≤ 16) :
    (pushInt value).bare.WellFramed ∧ (pushInt value).bare.pushedInt? = some value ∧
      (pushInt value).bare.size = 1 := by
  interval_cases value <;> exact ⟨rfl, rfl, rfl⟩

/-- A larger integer stands in the narrowest operand that it fits into. -/
theorem pushInt_large {value : Int} (hlarge : value < -1 ∨ 16 < value)
    (hfits : Bytes.FitsSigned 8 value) :
    ∃ opcode width, pushInt value = ⟨opcode, Bytes.ofIntLE width value, .none, none⟩ ∧
      opcode.intWidth? = some width ∧ Bytes.FitsSigned width value ∧
      ∀ narrow, narrow = 1 ∨ narrow = 2 ∨ narrow = 4 ∨ narrow = 8 →
        Bytes.FitsSigned narrow value → width ≤ narrow := by
  have hminus : ¬ value = -1 := by omega
  have hsmall : ¬ (0 ≤ value ∧ value ≤ 16) := by omega
  unfold pushInt
  rw [if_neg hminus, if_neg hsmall]
  -- A width is tried only where the narrower ones have failed.
  by_cases h1 : Bytes.FitsSigned 1 value
  · exact ⟨.pushInt8, 1, if_pos h1, rfl, h1, fun narrow hwidth _ => by omega⟩
  by_cases h2 : Bytes.FitsSigned 2 value
  · refine ⟨.pushInt16, 2, (if_neg h1).trans (if_pos h2), rfl, h2, fun narrow hwidth hnarrow => ?_⟩
    have hlt := Bytes.lt_of_fitsSigned h1 hnarrow
    omega
  by_cases h4 : Bytes.FitsSigned 4 value
  · refine ⟨.pushInt32, 4, (if_neg h1).trans ((if_neg h2).trans (if_pos h4)), rfl, h4,
      fun narrow hwidth hnarrow => ?_⟩
    have hlt := Bytes.lt_of_fitsSigned h2 hnarrow
    omega
  · refine ⟨.pushInt64, 8, (if_neg h1).trans ((if_neg h2).trans (if_neg h4)), rfl, hfits,
      fun narrow hwidth hnarrow => ?_⟩
    have hlt := Bytes.lt_of_fitsSigned h4 hnarrow
    omega

theorem pushInt_shortest {value : Int} (hfits : Bytes.FitsSigned 8 value) :
    Shortest pushedInt? value (pushInt value).bare := by
  by_cases hsmall : -1 ≤ value ∧ value ≤ 16
  · obtain ⟨hframed, hpushes, hsize⟩ := pushInt_small hsmall.1 hsmall.2
    refine ⟨hframed, hpushes, fun other _ _ => ?_⟩
    rw [length_encode, length_encode, hsize]
    exact other.size_pos
  · have hlarge : value < -1 ∨ 16 < value := by omega
    obtain ⟨opcode, width, hpush, hwidth, hheld, hnarrowest⟩ := pushInt_large hlarge hfits
    have hframing := Opcode.framing_of_intWidth? hwidth
    rw [hpush]
    refine ⟨?_, ?_, fun other hframed hpushes => ?_⟩
    · exact (checkOperand_fixed hframing).2 (Bytes.length_ofIntLE width value)
    · simp only [bare, pushedInt?, hwidth, Bytes.toIntLE_ofIntLE hheld]
    · obtain ⟨narrow, hnarrow, hsize, hfits'⟩ := fitsSigned_of_pushedInt? hframed hpushes hlarge
      have hle := hnarrowest narrow (Opcode.intWidth?_cases hnarrow) hfits'
      rw [length_encode, length_encode, hsize, Instruction.size, bare, hframing,
        Bytes.length_ofIntLE, Framing.lengthBytes]
      omega

theorem withOperand_counted {opcode : Opcode} {width : LengthWidth} {data : Bytes}
    (hframing : opcode.framing = .counted width) (hclass : opcode.addressClass = none)
    (hlt : data.length < Bytes.bound width.bytes) :
    withOperand opcode data = .ok ⟨opcode, data, .none, none⟩ := by
  have hcheck := (checkOperand_counted hframing).2 hlt
  simp only [withOperand, setOperand, new, setOpcode, Targets.reshape, hframing, hclass, hcheck]
  rfl

theorem pushData_eq {data : Bytes} (h : data.length < 2 ^ 32) :
    ∃ opcode width, pushData data = .ok ⟨opcode, data, .none, none⟩ ∧
      opcode.framing = .counted width ∧ pushedData? ⟨opcode, data, 0⟩ = some data ∧
      data.length < Bytes.bound width.bytes ∧
      ∀ narrow : LengthWidth,
        data.length < Bytes.bound narrow.bytes → width.bytes ≤ narrow.bytes := by
  unfold pushData
  by_cases h1 : data.length ≤ 0xFF
  · have hlt : data.length < Bytes.bound 1 := Nat.lt_succ_of_le h1
    refine ⟨.pushData1, .one, ?_, rfl, rfl, hlt, ?_⟩
    · simp only [if_pos h1]
      exact withOperand_counted rfl rfl hlt
    · intro narrow _
      cases narrow <;> decide
  · by_cases h2 : data.length ≤ 0xFFFF
    · have hlt : data.length < Bytes.bound 2 := Nat.lt_succ_of_le h2
      refine ⟨.pushData2, .two, ?_, rfl, rfl, hlt, ?_⟩
      · simp only [if_neg h1, if_pos h2]
        exact withOperand_counted rfl rfl hlt
      · intro narrow hnarrow
        cases narrow with
        | one => exact absurd (Nat.le_of_lt_succ hnarrow) h1
        | two => decide
        | four => decide
    · refine ⟨.pushData4, .four, ?_, rfl, rfl, h, ?_⟩
      · simp only [if_neg h1, if_neg h2]
        exact withOperand_counted rfl rfl h
      · intro narrow hnarrow
        cases narrow with
        | one => exact absurd (Nat.le_of_lt_succ hnarrow) h1
        | two => exact absurd (Nat.le_of_lt_succ hnarrow) h2
        | four => decide

/-- Every integer of 64 bits and every byte string whose size fits into 32 bits is pushed exactly,
by an instruction that reads back and that is the shortest for its constant. -/
theorem push_shortest :
    (∀ value : Int64, ∃ ins,
      Instruction.new (pushInt value.toInt).opcode (pushInt value.toInt).operand = .ok ins ∧
        ins.encode.length = (pushInt value.toInt).size ∧ ins.ReadsBack ∧
        Shortest pushedInt? value.toInt ins) ∧
    ∀ data : Bytes, data.length < 2 ^ 32 → ∃ pushed ins, pushData data = .ok pushed ∧
      Instruction.new pushed.opcode pushed.operand = .ok ins ∧ ins.operand = data ∧
        ins.encode.length = pushed.size ∧ ins.ReadsBack ∧ Shortest pushedData? data ins := by
  constructor
  · intro value
    have hfits : Bytes.FitsSigned 8 value.toInt := ⟨value.le_toInt, value.toInt_lt⟩
    have hshortest := pushInt_shortest hfits
    exact ⟨_, new_eq_ok_iff.2 ⟨rfl, hshortest.framed⟩, length_encode _,
      readsBack_iff.2 hshortest.framed, hshortest⟩
  · intro data hlt
    obtain ⟨opcode, width, hpush, hframing, hpushes, hheld, hnarrowest⟩ := pushData_eq hlt
    have hframed : WellFramed ⟨opcode, data, 0⟩ := (checkOperand_counted hframing).2 hheld
    refine ⟨_, _, hpush, new_eq_ok_iff.2 ⟨rfl, hframed⟩, rfl, length_encode _,
      readsBack_iff.2 hframed, hframed, hpushes, fun other hother hpushes' => ?_⟩
    obtain ⟨narrow, hframing', rfl⟩ := pushedData?_eq_some hpushes'
    have hle := hnarrowest narrow ((checkOperand_counted hframing').1 hother)
    rw [length_encode, length_encode, Instruction.size, Instruction.size, hframing, hframing']
    simp only [Framing.lengthBytes]
    omega

/-- The first integer below the range of one byte, and the first size above it. -/
theorem push_shortest_two_bytes :
    (∃ ins, Instruction.new .pushInt16 [0x7F, 0xFF] = .ok ins ∧ ins.ReadsBack ∧
      Shortest pushedInt? (-129) ins) ∧
    ∃ ins, pushData (List.replicate 256 7) = .ok ⟨.pushData2, List.replicate 256 7, .none, none⟩ ∧
      Instruction.new .pushData2 (List.replicate 256 7) = .ok ins ∧ ins.ReadsBack ∧
      Shortest pushedData? (List.replicate 256 7) ins := by
  have hlength : (List.replicate 256 7 : Bytes).length = 256 := List.length_replicate
  constructor
  · have hvalue : Int64.toInt (-129) = -129 := by decide
    obtain ⟨ins, hnew, -, hreads, hshortest⟩ := push_shortest.1 (-129)
    rw [hvalue] at hnew hshortest
    exact ⟨ins, hnew, hreads, hshortest⟩
  · have hpush : pushData (List.replicate 256 7) =
        .ok ⟨.pushData2, List.replicate 256 7, .none, none⟩ := by
      simp only [pushData, hlength]
      exact withOperand_counted rfl rfl (hlength.trans_lt (by decide))
    obtain ⟨pushed, ins, hpushed, hnew, -, -, hreads, hshortest⟩ :=
      push_shortest.2 (List.replicate 256 7) (hlength.trans_lt (by decide))
    rw [hpush] at hpushed
    cases hpushed
    exact ⟨ins, hpush, hnew, hreads, hshortest⟩

end Unlinked
end ContractLinker
