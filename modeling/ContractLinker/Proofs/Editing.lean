import ContractLinker.Proofs.Addresses

namespace ContractLinker

theorem Opcode.fixed_le {op : Opcode} {size : Nat} (h : op.framing = .fixed size) :
    size ≤ 32 := by
  cases op <;> cases h <;> decide

namespace Instruction

inductive Edit where
  | move (offset : Nat)
  | setOpcode (opcode : Opcode)
  | writeAddress (index : Nat) (value : Int)
  deriving DecidableEq, Repr

/-- What one change leaves, done or refused. -/
def edit (ins : Instruction) : Edit → Instruction
  | .move offset => { ins with offset }
  | .setOpcode opcode => ins.setOpcode opcode
  | .writeAddress index value => (ins.writeAddress index value).2

def editAll (ins : Instruction) (edits : List Edit) : Instruction := edits.foldl edit ins

/-- An instruction as it is first met: its operand was checked, or it was read from a script. -/
inductive Made : Instruction → Prop
  | new {opcode : Opcode} {operand : Bytes} {ins : Instruction}
      (h : Instruction.new opcode operand = .ok ins) : Made ins
  | read {c c' : Cursor} {ins : Instruction} (h : Instruction.read c = .ok (some ins) c') : Made ins

/-- The change goes from one counted opcode to another that cannot count as far as the operand is
long. -/
def Edit.Overfills (ins : Instruction) : Edit → Prop
  | .setOpcode opcode => ins.opcode.framing.isCounted = true ∧
      ∃ width, opcode.framing = .counted width ∧ width.limit < ins.operand.length
  | _ => False

/-- No change in the list overfills the instruction that it is made to. -/
def Spares (ins : Instruction) : List Edit → Prop
  | [] => True
  | e :: edits => ¬ e.Overfills ins ∧ Spares (ins.edit e) edits

/-- The encoding reads back, wherever it stands and whatever follows it. -/
def ReadsBack (ins : Instruction) : Prop :=
  ∀ position rest, read ⟨position, ins.encode ++ rest⟩ =
    .ok (some { ins with offset := position }) ⟨position + ins.size, rest⟩

variable {ins : Instruction} {e : Edit}

theorem Made.wellFramed (h : ins.Made) : ins.WellFramed := by
  cases h with
  | new h => exact (new_eq_ok_iff.1 h).2
  | read h => exact (read_eq_some_iff.1 h).1

theorem readsBack_iff : ins.ReadsBack ↔ ins.WellFramed := by
  constructor
  · intro h
    exact (read_eq_some_iff.1 (h 0 [])).1
  · intro h position rest
    exact read_eq_some_iff.2 ⟨h, rfl, rfl, rfl⟩

/-- An operand of fixed size has that size. All edits keep this. -/
def Sized (ins : Instruction) : Prop :=
  ∀ size, ins.opcode.framing = .fixed size → ins.operand.length = size

theorem Sized.wellFramed {size : Nat} (h : ins.Sized) (hfixed : ins.opcode.framing = .fixed size) :
    ins.WellFramed :=
  (checkOperand_fixed hfixed).2 (h size hfixed)

theorem WellFramed.sized (h : ins.WellFramed) : ins.Sized := by
  intro size hfixed
  exact (checkOperand_fixed hfixed).1 h

theorem wellFramed_of_counted {width : LengthWidth} (hcounted : ins.opcode.framing = .counted width) :
    ins.WellFramed ↔ ins.operand.length ≤ width.limit := by
  have hpos := Bytes.bound_pos width.bytes
  rw [WellFramed, checkOperand_counted hcounted]
  unfold LengthWidth.limit
  omega

theorem setOpcode_opcode (opcode : Opcode) : (ins.setOpcode opcode).opcode = opcode := by
  unfold setOpcode
  split <;> rfl

theorem sized_setOpcode (opcode : Opcode) : (ins.setOpcode opcode).Sized := by
  intro size hfixed
  rw [setOpcode_opcode] at hfixed
  simp only [setOpcode, hfixed]
  exact Bytes.length_resize size ins.operand

theorem operand_setOpcode {opcode : Opcode} {width : LengthWidth}
    (h : opcode.framing = .counted width) : (ins.setOpcode opcode).operand = ins.operand := by
  simp only [setOpcode, h]

theorem wellFramed_of_writeAddress {patched : Instruction} {index : Nat} {value : Int}
    (hsized : ins.Sized) (h : ins.writeAddress index value = (.ok (), patched)) :
    patched.WellFramed := by
  obtain ⟨cls, hcls, -⟩ := writeAddress_eq_ok_iff.1 h
  exact writeAddress_wellFramed (hsized.wellFramed (Opcode.framing_of_addressClass hcls)) h

theorem edit_writeAddress (index : Nat) (value : Int) :
    ins.edit (.writeAddress index value) = ins ∨
      ins.writeAddress index value = (.ok (), ins.edit (.writeAddress index value)) := by
  simp only [edit]
  cases h : ins.writeAddress index value with
  | mk result patched =>
    cases result with
    | error e => exact .inl (writeAddress_of_error h)
    | ok _ => exact .inr rfl

theorem sized_edit (h : ins.Sized) (e : Edit) : (ins.edit e).Sized := by
  cases e with
  | move offset => exact h
  | setOpcode opcode => exact sized_setOpcode opcode
  | writeAddress index value =>
    rcases edit_writeAddress index value with hsame | hwrite
    · rw [hsame]
      exact h
    · exact (wellFramed_of_writeAddress h hwrite).sized

theorem sized_editAll (h : ins.Sized) (edits : List Edit) : (ins.editAll edits).Sized := by
  induction edits generalizing ins with
  | nil => exact h
  | cons e edits ih => exact ih (sized_edit h e)

/-- The slots of a sized instruction lie inside its operand. -/
theorem Sized.slot_end_le {index : Nat} {cls : AddressClass} (h : ins.Sized)
    (hslot : ins.addressSlot index = .ok cls) :
    index * cls.width + cls.width ≤ ins.operand.length := by
  obtain ⟨hcls, hlt⟩ := addressSlot_eq_ok_iff.1 hslot
  exact Instruction.slot_end_le (h _ (Opcode.framing_of_addressClass hcls)) hlt

theorem wellFramed_setOpcode_iff {opcode : Opcode} (h : ins.WellFramed) :
    (ins.setOpcode opcode).WellFramed ↔ ¬ (Edit.setOpcode opcode).Overfills ins := by
  cases hnew : opcode.framing with
  | fixed size =>
    have hframed : (ins.setOpcode opcode).WellFramed :=
      (sized_setOpcode opcode).wellFramed ((congrArg _ (setOpcode_opcode opcode)).trans hnew)
    refine iff_of_true hframed ?_
    simp [Edit.Overfills, hnew]
  | counted width =>
    have hcounted : (ins.setOpcode opcode).opcode.framing = .counted width := by
      rw [setOpcode_opcode, hnew]
    rw [wellFramed_of_counted hcounted, operand_setOpcode hnew]
    cases hold : ins.opcode.framing with
    | fixed size =>
      -- Fixed operands are short enough for every length.
      have hsize := h.sized size hold
      have hle := Opcode.fixed_le hold
      have hlimit : 32 ≤ width.limit := by cases width <;> decide
      have hfits : ins.operand.length ≤ width.limit := by omega
      simp [Edit.Overfills, hold, Framing.isCounted, hfits]
    | counted old => simp [Edit.Overfills, hold, hnew, Framing.isCounted]

/-- Of all changes to an instruction that is well framed, only overfilling it undoes that. -/
theorem wellFramed_edit_iff (h : ins.WellFramed) : (ins.edit e).WellFramed ↔ ¬ e.Overfills ins := by
  cases e with
  | move offset => exact iff_of_true h id
  | setOpcode opcode => exact wellFramed_setOpcode_iff h
  | writeAddress index value =>
    refine iff_of_true ?_ id
    rcases edit_writeAddress index value with hsame | hwrite
    · rw [hsame]
      exact h
    · exact writeAddress_wellFramed h hwrite

theorem wellFramed_editAll {edits : List Edit} (h : ins.WellFramed) (hspares : ins.Spares edits) :
    (ins.editAll edits).WellFramed := by
  induction edits generalizing ins with
  | nil => exact h
  | cons e edits ih => exact ih ((wellFramed_edit_iff h).2 hspares.1) hspares.2

/-- After any changes all address slots lie inside the operand. If none of the changes overfills the
instruction, its operand still has the size that the opcode asks for, and its encoding reads back;
the first change that does overfill it ends both. -/
theorem framing_editAll (hmade : ins.Made) (edits : List Edit) :
    (∀ index cls, (ins.editAll edits).addressSlot index = .ok cls →
      index * cls.width + cls.width ≤ (ins.editAll edits).operand.length) ∧
    (ins.Spares edits → checkOperand (ins.editAll edits).opcode (ins.editAll edits).operand = .ok () ∧
      (ins.editAll edits).ReadsBack) ∧
    ∀ e : Edit, ins.Spares edits → e.Overfills (ins.editAll edits) →
      checkOperand (ins.editAll (edits ++ [e])).opcode (ins.editAll (edits ++ [e])).operand ≠ .ok () ∧
        ¬ (ins.editAll (edits ++ [e])).ReadsBack := by
  refine ⟨?_, ?_, ?_⟩
  · intro index cls hslot
    exact (sized_editAll hmade.wellFramed.sized edits).slot_end_le hslot
  · intro hspares
    have hframed := wellFramed_editAll hmade.wellFramed hspares
    exact ⟨hframed, readsBack_iff.2 hframed⟩
  · intro e hspares hover
    have hlast : ins.editAll (edits ++ [e]) = (ins.editAll edits).edit e := List.foldl_append
    have hframed := wellFramed_editAll hmade.wellFramed hspares
    have hlost : ¬ (ins.editAll (edits ++ [e])).WellFramed := by
      rw [hlast, wellFramed_edit_iff hframed]
      exact not_not_intro hover
    exact ⟨hlost, fun hback => hlost (readsBack_iff.1 hback)⟩

/-- A jump that becomes data with two bytes of length and then with one, with a write in between that
is refused. -/
theorem framing_editAll_jump_to_data :
    Made ⟨.jmp, [7], 0⟩ ∧ Spares ⟨.jmp, [7], 0⟩ [.setOpcode .jmpL, .writeAddress 0 (-2),
      .writeAddress 1 6, .setOpcode .pushData2, .move 5, .setOpcode .pushData1] ∧
    checkOperand .pushData1 [0xFE, 0xFF, 0xFF, 0xFF] = .ok () ∧
    ReadsBack ⟨.pushData1, [0xFE, 0xFF, 0xFF, 0xFF], 5⟩ := by
  have hmade : Made ⟨.jmp, [7], 0⟩ := .new (show new .jmp [7] = .ok _ from rfl)
  have hspares : Spares ⟨.jmp, [7], 0⟩ [.setOpcode .jmpL, .writeAddress 0 (-2),
      .writeAddress 1 6, .setOpcode .pushData2, .move 5, .setOpcode .pushData1] := by
    refine ⟨?_, id, id, ?_, id, ?_, trivial⟩
    · rintro ⟨⟨⟩, -⟩
    · rintro ⟨⟨⟩, -⟩
    · rintro ⟨-, width, ⟨⟩, hlt⟩
      exact absurd hlt (by decide)
  have hframing := (framing_editAll hmade _).2.1 hspares
  exact ⟨hmade, hspares, hframing⟩

/-- One byte of length cannot count 256 bytes of data. It is written as 0, and what is read back has
no data at all. -/
theorem setOpcode_overfills_pushData :
    ∃ ins, new .pushData2 (List.replicate 256 0) = .ok ins ∧
      checkOperand (ins.editAll [.setOpcode .pushData1]).opcode
        (ins.editAll [.setOpcode .pushData1]).operand ≠ .ok () ∧
      read ⟨0, (ins.editAll [.setOpcode .pushData1]).encode⟩ =
        .ok (some ⟨.pushData1, [], 0⟩) ⟨2, List.replicate 256 0⟩ := by
  let data : Instruction := ⟨.pushData2, List.replicate 256 0, 0⟩
  have hnarrowed : data.editAll [.setOpcode .pushData1] = ⟨.pushData1, List.replicate 256 0, 0⟩ := rfl
  have hlength : (List.replicate 256 (0 : UInt8)).length = 256 := List.length_replicate
  have hnew : new .pushData2 (List.replicate 256 0) = .ok data := by
    refine new_eq_ok_iff.2 ⟨rfl, (checkOperand_counted rfl).2 ?_⟩
    rw [hlength]
    decide
  have hover : (Edit.setOpcode .pushData1).Overfills data := by
    refine ⟨rfl, .one, rfl, ?_⟩
    rw [hlength]
    decide
  have hencode : encode ⟨.pushData1, List.replicate 256 0, 0⟩ =
      encode ⟨.pushData1, [], 0⟩ ++ List.replicate 256 0 := by
    rw [encode_eq, hlength]
    rfl
  have hlost : ¬ (data.editAll [.setOpcode .pushData1]).WellFramed := by
    change ¬ (data.edit (.setOpcode .pushData1)).WellFramed
    rw [wellFramed_edit_iff (Made.new hnew).wellFramed]
    exact not_not_intro hover
  refine ⟨data, hnew, hlost, ?_⟩
  rw [hnarrowed, hencode]
  exact read_eq_some_iff.2 ⟨rfl, rfl, rfl, rfl⟩

end Instruction
end ContractLinker
