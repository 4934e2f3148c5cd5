import ContractLinker.Proofs.Delimiting
import ContractLinker.Proofs.ScriptCodec

namespace ContractLinker

namespace Instruction

theorem delimited_readOperand (start : Nat) (opcode : Opcode) :
    Delimited (readOperand start opcode) := by
  have hlength : Delimited (readLength opcode) := by
    unfold readLength
    cases opcode.framing with
    | fixed size => exact .pure
    | counted width => exact .natLE
  exact hlength.bind fun _ => Delimited.bytes.bind fun _ => .pure

theorem read_starves {ins : Instruction} {short missing : Bytes} (hframed : ins.WellFramed)
    (hcut : ins.encode = short ++ missing) (hshort : short ≠ []) (hmissing : missing ≠ [])
    (position : Nat) : ∃ offset needed c,
      read ⟨position, short⟩ = .error (.unexpectedEnd offset needed) c ∧
        offset ≤ position + short.length ∧ 0 < needed ∧ needed ≤ missing.length := by
  cases short with
  | nil => exact absurd rfl hshort
  | cons byte short =>
    rw [encode_eq, List.cons_append, List.cons.injEq] at hcut
    obtain ⟨rfl, hbehind⟩ := hcut
    -- The opcode byte is still there; what is missing belongs to the length or the operand.
    have hreads : Reads (readOperand position ins.opcode)
        (Bytes.ofNatLE ins.opcode.framing.lengthBytes ins.operand.length ++ ins.operand)
        (some ⟨ins.opcode, ins.operand, position⟩) := by
      intro start rest
      apply readOperand_eq_ok_iff.2
      refine ⟨ins.operand, rfl, hframed, rfl, ?_⟩
      rw [List.length_append, Bytes.length_ofNatLE, Nat.add_assoc]
    obtain ⟨offset, needed, c, hread, hoffset, hneeded⟩ :=
      (delimited_readOperand position ins.opcode).starves hreads (position + 1) short missing
        hbehind hmissing
    refine ⟨offset, needed, c, ?_, ?_, hneeded⟩
    · rw [read_cons rfl, Opcode.ofByte?_byte]
      exact hread
    · rw [List.length_cons]
      omega

end Instruction

namespace Script

variable {code before behind done : List Instruction} {position k : Nat}

theorem encodeAll_append (a b : List Instruction) :
    encodeAll (a ++ b) = encodeAll a ++ encodeAll b :=
  List.flatMap_append

theorem length_le_extent (code : List Instruction) : code.length ≤ extent code := by
  induction code with
  | nil => exact Nat.le_refl _
  | cons ins rest ih =>
    have hsize := ins.size_pos
    simp only [List.length_cons, extent]
    omega

/-- Whole instructions are decoded, whatever follows them. -/
theorem decodeFrom_append {fuel : Nat} {tail : Bytes} (hframed : ∀ ins ∈ before, ins.WellFramed)
    (hlaid : LaidOut position before) :
    decodeFrom (before.length + fuel) ⟨position, encodeAll before ++ tail⟩ done =
      decodeFrom fuel ⟨position + extent before, tail⟩ (before.reverse ++ done) := by
  -- One unit of fuel is spent on each whole instruction.
  induction before generalizing position done with
  | nil =>
    rw [List.length_nil, Nat.zero_add]
    rfl
  | cons ins rest ih =>
    rw [List.forall_mem_cons] at hframed
    have hread : Instruction.read ⟨position, encodeAll (ins :: rest) ++ tail⟩ =
        .ok (some ins) ⟨position + ins.size, encodeAll rest ++ tail⟩ := by
      apply Instruction.read_eq_some_iff.2
      exact ⟨hframed.1, hlaid.1, List.append_assoc _ _ _, rfl⟩
    rw [List.length_cons, Nat.add_right_comm, decodeFrom, hread]
    dsimp only
    rw [ih hframed.2 hlaid.2, extent, Nat.add_assoc, List.reverse_cons, List.append_assoc]
    rfl

theorem exists_cut (code : List Instruction) (hk : k ≤ extent code) :
    (∃ before behind, code = before ++ behind ∧ extent before = k) ∨
      ∃ before ins behind, code = before ++ ins :: behind ∧ extent before < k ∧
        k < extent before + ins.size := by
  induction code generalizing k with
  | nil => exact .inl ⟨[], [], rfl, (Nat.le_zero.1 hk).symm⟩
  | cons ins rest ih =>
    simp only [extent] at hk
    by_cases hzero : k = 0
    · exact .inl ⟨[], ins :: rest, rfl, hzero.symm⟩
    · by_cases hinside : k < ins.size
      · refine .inr ⟨[], ins, rest, rfl, ?_, ?_⟩ <;> simp only [extent] <;> omega
      · rcases ih (show k - ins.size ≤ extent rest by omega) with
          ⟨before, behind, rfl, hextent⟩ | ⟨before, last, behind, rfl, hbefore, hbehind⟩
        · refine .inl ⟨ins :: before, behind, rfl, ?_⟩
          simp only [extent]
          omega
        · refine .inr ⟨ins :: before, last, behind, rfl, ?_, ?_⟩ <;> simp only [extent] <;> omega

theorem LaidOut.filter_end_le (h : LaidOut 0 (before ++ behind)) (hk : extent before = k) :
    (before ++ behind).filter (fun ins => ins.offset + ins.size ≤ k) = before := by
  rw [laidOut_append, Nat.zero_add, hk] at h
  have hfront : before.filter (fun ins => ins.offset + ins.size ≤ k) = before := by
    apply List.filter_eq_self.2
    intro ins hmem
    have hbounds := h.1.bounds hmem
    exact decide_eq_true (by omega)
  have hback : behind.filter (fun ins => ins.offset + ins.size ≤ k) = [] := by
    apply List.filter_eq_nil_iff.2
    intro ins hmem
    have hbounds := h.2.bounds hmem
    have hsize := ins.size_pos
    rw [decide_eq_true_iff]
    omega
  rw [List.filter_append, hfront, hback, List.append_nil]

theorem LaidOut.not_inside {ins other : Instruction} (h : LaidOut 0 (before ++ ins :: behind))
    (hmem : other ∈ before ++ ins :: behind) (hlow : extent before < other.offset) :
    extent before + ins.size ≤ other.offset := by
  rw [laidOut_append, Nat.zero_add] at h
  rcases List.mem_append.1 hmem with hfront | hrest
  · have hbounds := h.1.bounds hfront
    omega
  · rcases List.mem_cons.1 hrest with rfl | hback
    · have hoffset := h.2.1
      omega
    · exact (h.2.2.bounds hback).1

theorem instructionsOf_part {ins : Instruction} {short missing : Bytes}
    (hframed : ∀ other ∈ before, other.WellFramed) (hlast : ins.WellFramed)
    (hlaid : LaidOut 0 before) (hcut : ins.encode = short ++ missing) (hshort : short ≠ [])
    (hmissing : missing ≠ []) : ∃ offset needed,
      instructionsOf (encodeAll before ++ short) = .error (.unexpectedEnd offset needed) ∧
        offset ≤ extent before + short.length ∧ 0 < needed ∧ needed ≤ missing.length := by
  obtain ⟨offset, needed, c, hread, hbounds⟩ :=
    Instruction.read_starves hlast hcut hshort hmissing (extent before)
  refine ⟨offset, needed, ?_, hbounds⟩
  -- There is fuel left behind the whole instructions, since none is shorter than a byte.
  obtain ⟨fuel, hfuel⟩ :
      ∃ fuel, (encodeAll before ++ short).length = before.length + (fuel + 1) := by
    have hle := length_le_extent before
    have hpos := List.length_pos_iff.2 hshort
    rw [List.length_append, length_encodeAll]
    exact ⟨extent before + short.length - before.length - 1, by omega⟩
  rw [instructionsOf, hfuel, Cursor.start, decodeFrom_append hframed hlaid, Nat.zero_add,
    decodeFrom, hread]

theorem take_encodeAll (hk : extent before = k) :
    (encodeAll (before ++ behind)).take k = encodeAll before := by
  rw [encodeAll_append, ← hk, ← length_encodeAll, List.take_left]

theorem take_encodeAll_inside {ins : Instruction} (hlow : extent before < k)
    (hhigh : k < extent before + ins.size) :
    (encodeAll (before ++ ins :: behind)).take k =
      encodeAll before ++ ins.encode.take (k - extent before) := by
  have hsize := ins.length_encode
  have hwhole : (encodeAll before).length ≤ k := by
    rw [length_encodeAll]
    omega
  rw [encodeAll_append, List.take_append, List.take_of_length_le hwhole, length_encodeAll]
  congr 1
  rw [encodeAll, List.flatMap_cons, List.take_append_of_le_length (by omega)]

/-- A cut inside an instruction is noticed there. -/
theorem instructionsOf_take_inside {ins : Instruction} (hlaid : LaidOut 0 (before ++ ins :: behind))
    (hframed : ∀ other ∈ before ++ ins :: behind, other.WellFramed) (hlow : extent before < k)
    (hhigh : k < extent before + ins.size) : ∃ offset needed,
      instructionsOf ((encodeAll (before ++ ins :: behind)).take k) =
        .error (.unexpectedEnd offset needed) ∧
      offset ≤ k ∧ 0 < needed ∧ k + needed ≤ extent (before ++ ins :: behind) := by
  have hsize := ins.length_encode
  have hshort : ins.encode.take (k - extent before) ≠ [] := by
    rw [← List.length_pos_iff, List.length_take]
    omega
  have hmissing : ins.encode.drop (k - extent before) ≠ [] := by
    rw [← List.length_pos_iff, List.length_drop]
    omega
  have hfront : ∀ other ∈ before, other.WellFramed := fun other hmem =>
    hframed other (List.mem_append_left _ hmem)
  have hlast : ins.WellFramed := hframed ins (List.mem_append_right _ List.mem_cons_self)
  obtain ⟨offset, needed, herror, hoffset, hpos, hneeded⟩ := instructionsOf_part hfront hlast
    (laidOut_append.1 hlaid).1 (List.take_append_drop _ _).symm hshort hmissing
  rw [List.length_take] at hoffset
  rw [List.length_drop] at hneeded
  rw [take_encodeAll_inside hlow hhigh, extent_append, extent]
  exact ⟨offset, needed, herror, by omega, hpos, by omega⟩

/-- Of a script that is cut off, the decoder gives the instructions that are still whole, provided
that the cut falls between two instructions, at the start or at the end. Anywhere else it asks for
the bytes that are missing. -/
theorem instructionsOf_take {bytes : Bytes} (h : instructionsOf bytes = .ok code)
    (hk : k ≤ bytes.length) :
    ((∃ found, instructionsOf (bytes.take k) = .ok found) ↔
      k = 0 ∨ (∃ ins ∈ code, ins.offset = k) ∨ k = bytes.length) ∧
    (∀ found, instructionsOf (bytes.take k) = .ok found →
      found = code.filter fun ins => ins.offset + ins.size ≤ k) ∧
    ∀ e, instructionsOf (bytes.take k) = .error e →
      ∃ offset needed, e = .unexpectedEnd offset needed ∧
        offset ≤ k ∧ 0 < needed ∧ k + needed ≤ bytes.length := by
  obtain ⟨rfl, hlaid, hframed⟩ := instructionsOf_eq_ok_iff.1 h
  rw [length_encodeAll] at hk ⊢
  rcases exists_cut code hk with ⟨before, behind, rfl, hextent⟩ |
    ⟨before, ins, behind, rfl, hlow, hhigh⟩
  · -- The cut falls between two instructions.
    have hdecode : instructionsOf (encodeAll before) = .ok before := by
      apply instructionsOf_eq_ok_iff.2
      refine ⟨rfl, (laidOut_append.1 hlaid).1, ?_⟩
      exact fun ins hmem => hframed ins (List.mem_append_left _ hmem)
    rw [take_encodeAll hextent, hdecode, hlaid.filter_end_le hextent]
    refine ⟨⟨fun _ => .inr ?_, fun _ => ⟨before, rfl⟩⟩, by simp [eq_comm], by simp⟩
    cases behind with
    | nil =>
      right
      rw [List.append_nil, hextent]
    | cons next behind =>
      left
      have hoffset := (laidOut_append.1 hlaid).2.1
      exact ⟨next, List.mem_append_right _ List.mem_cons_self, by omega⟩
  · -- The cut falls into `ins`.
    obtain ⟨offset, needed, herror, hbounds⟩ := instructionsOf_take_inside hlaid hframed hlow hhigh
    rw [herror]
    refine ⟨⟨by simp, ?_⟩, by simp, ?_⟩
    · rw [extent_append, extent]
      rintro (hzero | ⟨other, hmem, hoffset⟩ | hend)
      · omega
      · have houtside := hlaid.not_inside hmem (by omega)
        omega
      · omega
    · intro e he
      cases he
      exact ⟨offset, needed, rfl, hbounds⟩

/-- A push of two bytes that is cut behind its length or inside its data, and whole. -/
theorem instructionsOf_take_pushData :
    (∃ offset needed, instructionsOf [0x21, 0x0C, 2] = .error (.unexpectedEnd offset needed)) ∧
    (∃ offset needed, instructionsOf [0x21, 0x0C, 2, 0x40] =
      .error (.unexpectedEnd offset needed)) ∧
    ∃ found, instructionsOf [0x21, 0x0C, 2, 0x40, 8] = .ok found := by
  have h : instructionsOf [0x21, 0x0C, 2, 0x40, 8, 0x40] =
      .ok [⟨.nop, [], 0⟩, ⟨.pushData1, [0x40, 8], 1⟩, ⟨.ret, [], 5⟩] := rfl
  have hfails (k : Nat) (hk : k ≤ 6) (hinside : ¬ (k = 0 ∨ (∃ ins ∈ [⟨.nop, [], 0⟩,
      ⟨.pushData1, [0x40, 8], 1⟩, (⟨.ret, [], 5⟩ : Instruction)], ins.offset = k) ∨ k = 6)) :
      ∃ offset needed, instructionsOf ([0x21, 0x0C, 2, 0x40, 8, 0x40].take k) =
        .error (.unexpectedEnd offset needed) := by
    obtain ⟨hiff, -, herrors⟩ := instructionsOf_take h hk
    cases hdecode : instructionsOf ([0x21, 0x0C, 2, 0x40, 8, 0x40].take k) with
    | ok found => exact absurd (hiff.1 ⟨found, hdecode⟩) hinside
    | error e =>
      obtain ⟨offset, needed, rfl, -⟩ := herrors e hdecode
      exact ⟨offset, needed, rfl⟩
  refine ⟨hfails 3 (by decide) (by decide), hfails 4 (by decide) (by decide), ?_⟩
  exact (instructionsOf_take h (show 5 ≤ 6 by decide)).1.2 (by decide)

end Script
end ContractLinker
