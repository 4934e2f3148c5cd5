import ContractLinker.Proofs.Reading
import ContractLinker.Script

namespace ContractLinker

namespace Instruction

abbrev WellFramed (ins : Instruction) : Prop := checkOperand ins.opcode ins.operand = .ok ()

theorem checkOperand_fixed {opcode : Opcode} {operand : Bytes} {size : Nat}
    (h : opcode.framing = .fixed size) :
    checkOperand opcode operand = .ok () ↔ operand.length = size := by
  simp only [checkOperand, h]
  split <;> simp_all

theorem checkOperand_counted {opcode : Opcode} {operand : Bytes} {width : LengthWidth}
    (h : opcode.framing = .counted width) :
    checkOperand opcode operand = .ok () ↔ operand.length < Bytes.bound width.bytes := by
  have hpos := Bytes.bound_pos width.bytes
  have hlimit : operand.length ≤ width.limit ↔ operand.length < Bytes.bound width.bytes := by
    unfold LengthWidth.limit
    omega
  simp only [checkOperand, h]
  split <;> simp_all

theorem new_eq_ok_iff {opcode : Opcode} {operand : Bytes} {ins : Instruction} :
    new opcode operand = .ok ins ↔ ins = ⟨opcode, operand, 0⟩ ∧ ins.WellFramed := by
  unfold new
  cases h : checkOperand opcode operand with
  | error e =>
    simp only [bind, Except.bind, reduceCtorEq, false_iff, not_and]
    intro heq
    rw [heq, WellFramed, h]
    nofun
  | ok =>
    simp only [bind, Except.bind, pure, Except.pure, Except.ok.injEq]
    constructor
    · intro heq
      exact ⟨heq.symm, heq ▸ h⟩
    · intro hand
      exact hand.1.symm

theorem size_pos (ins : Instruction) : 0 < ins.size := by
  unfold size
  omega

theorem length_encode (ins : Instruction) : ins.encode.length = ins.size := by
  unfold encode size
  split <;> rename_i h <;> simp [h, Framing.lengthBytes, Bytes.length_ofNatLE] <;> omega

theorem encode_eq (ins : Instruction) :
    ins.encode = ins.opcode.byte ::
      (Bytes.ofNatLE ins.opcode.framing.lengthBytes ins.operand.length ++ ins.operand) := by
  unfold encode
  split <;> rename_i h <;> rw [h] <;> rfl

section Read

variable {c c' : Cursor} {ins : Instruction}

def readLength (opcode : Opcode) : Read Nat :=
  match opcode.framing with
  | .fixed size => pure size
  | .counted width => Read.natLE width.bytes

def readOperand (start : Nat) (opcode : Opcode) : Read (Option Instruction) := do
  let operand ← Read.bytes (← readLength opcode)
  return some ⟨opcode, operand, start⟩

theorem readLength_eq_ok_iff {opcode : Opcode} {n : Nat} :
    readLength opcode c = .ok n c' ↔
      c.rest = Bytes.ofNatLE opcode.framing.lengthBytes n ++ c'.rest ∧
      (∀ operand : Bytes, operand.length = n → checkOperand opcode operand = .ok ()) ∧
      c'.position = c.position + opcode.framing.lengthBytes := by
  unfold readLength
  cases h : opcode.framing with
  | fixed size =>
    simp only [Framing.lengthBytes, Bytes.ofNatLE, List.nil_append, Nat.add_zero,
      checkOperand_fixed h]
    constructor
    · rintro ⟨⟩
      exact ⟨rfl, fun _ => id, rfl⟩
    · rintro ⟨hrest, hcheck, hpos⟩
      -- Any operand of this length shows that the length is the fixed one.
      have hn : n = size := by simpa using hcheck (List.replicate n 0) (by simp)
      obtain ⟨position, rest⟩ := c
      obtain ⟨position', rest'⟩ := c'
      cases hrest
      cases hpos
      rw [hn]
      rfl
  | counted width =>
    simp only [Framing.lengthBytes, Read.natLE_eq_ok_iff, checkOperand_counted h]
    constructor
    · rintro ⟨hrest, hn, hpos⟩
      exact ⟨hrest, fun operand hlen => hlen ▸ hn, hpos⟩
    · rintro ⟨hrest, hcheck, hpos⟩
      exact ⟨hrest, by simpa using hcheck (List.replicate n 0) (by simp), hpos⟩

theorem readOperand_eq_ok_iff {start : Nat} {opcode : Opcode} {found : Option Instruction} :
    readOperand start opcode c = .ok found c' ↔
      ∃ operand, found = some ⟨opcode, operand, start⟩ ∧ checkOperand opcode operand = .ok () ∧
        c.rest = Bytes.ofNatLE opcode.framing.lengthBytes operand.length ++ operand ++ c'.rest ∧
        c'.position = c.position + opcode.framing.lengthBytes + operand.length := by
  unfold readOperand
  constructor
  · intro h
    obtain ⟨n, t, hn, h⟩ := bind_eq_ok_iff.1 h
    obtain ⟨operand, u, hoperand, h⟩ := bind_eq_ok_iff.1 h
    cases h
    obtain ⟨hrest, hcheck, hpos⟩ := readLength_eq_ok_iff.1 hn
    obtain ⟨hrest', rfl, hpos'⟩ := Read.bytes_eq_ok_iff.1 hoperand
    exact ⟨operand, rfl, hcheck operand rfl, by rw [hrest, hrest', List.append_assoc], by omega⟩
  · rintro ⟨operand, rfl, hcheck, hrest, hpos⟩
    have hlength : readLength opcode c = .ok operand.length
        ⟨c.position + opcode.framing.lengthBytes, operand ++ c'.rest⟩ := by
      refine readLength_eq_ok_iff.2 ⟨by rw [hrest, List.append_assoc], ?_, rfl⟩
      intro other hother
      -- Only the size of an operand is checked.
      simpa only [checkOperand, hother] using hcheck
    rw [bind_of_ok hlength, bind_of_ok (Read.bytes_eq_ok_iff.2 ⟨rfl, rfl, hpos⟩)]
    rfl

theorem read_of_rest_nil (h : c.rest = []) : read c = .ok none c := by
  unfold read
  rw [bind_of_ok get_apply]
  simp [h]

theorem read_cons {byte : UInt8} {rest : Bytes} (h : c.rest = byte :: rest) :
    read c = match Opcode.ofByte? byte with
      | none => .error (.invalidOpcode byte c.position) ⟨c.position + 1, rest⟩
      | some opcode => readOperand c.position opcode ⟨c.position + 1, rest⟩ := by
  have hbyte : Read.byte c = .ok byte ⟨c.position + 1, rest⟩ :=
    Read.byte_eq_ok_iff.2 ⟨h, rfl⟩
  unfold read
  rw [bind_of_ok get_apply]
  simp only [h, List.isEmpty_cons, Bool.false_eq_true, if_false]
  rw [bind_of_ok hbyte]
  cases Opcode.ofByte? byte with
  | none => rfl
  | some opcode =>
    simp only [readOperand, readLength]
    cases opcode.framing <;> rfl

theorem read_eq_none_iff : read c = .ok none c' ↔ c.rest = [] ∧ c' = c := by
  constructor
  · intro h
    cases hrest : c.rest with
    | nil =>
      rw [read_of_rest_nil hrest] at h
      cases h
      exact ⟨rfl, rfl⟩
    | cons byte rest =>
      rw [read_cons hrest] at h
      cases hop : Opcode.ofByte? byte with
      | none => simp [hop] at h
      | some opcode =>
        simp only [hop] at h
        obtain ⟨operand, hnone, -⟩ := readOperand_eq_ok_iff.1 h
        cases hnone
  · rintro ⟨hrest, rfl⟩
    exact read_of_rest_nil hrest

/-- An instruction is read exactly where its encoding stands. -/
theorem read_eq_some_iff :
    read c = .ok (some ins) c' ↔
      ins.WellFramed ∧ ins.offset = c.position ∧ c.rest = ins.encode ++ c'.rest ∧
        c'.position = c.position + ins.size := by
  rw [encode_eq]
  constructor
  · intro h
    cases hrest : c.rest with
    | nil =>
      rw [read_of_rest_nil hrest] at h
      cases h
    | cons byte rest =>
      rw [read_cons hrest] at h
      -- An opcode is told by its byte.
      cases hop : Opcode.ofByte? byte with
      | none => simp [hop] at h
      | some opcode =>
        simp only [hop] at h
        obtain ⟨operand, hins, hcheck, hrest', hpos⟩ := readOperand_eq_ok_iff.1 h
        cases hins
        refine ⟨hcheck, rfl, ?_, ?_⟩
        · rw [Opcode.byte_of_ofByte? hop, List.cons_append]
          exact congrArg _ hrest'
        · simp only [size, hpos]
          omega
  · rintro ⟨hframed, hoffset, hrest, hpos⟩
    rw [read_cons hrest, Opcode.ofByte?_byte]
    refine readOperand_eq_ok_iff.2 ⟨ins.operand, by rw [← hoffset], hframed, rfl, ?_⟩
    simp only [hpos, size]
    omega

end Read

end Instruction

namespace Script

def extent : List Instruction → Nat
  | [] => 0
  | ins :: rest => ins.size + extent rest

/-- The instructions stand one behind the other from `start` on. -/
def LaidOut (start : Nat) : List Instruction → Prop
  | [] => True
  | ins :: rest => ins.offset = start ∧ LaidOut (start + ins.size) rest

/-- The same instructions, one behind the other from `start` on. -/
def restamp (start : Nat) : List Instruction → List Instruction
  | [] => []
  | ins :: rest => { ins with offset := start } :: restamp (start + ins.size) rest

theorem extent_append (a b : List Instruction) : extent (a ++ b) = extent a + extent b := by
  induction a with
  | nil => simp [extent]
  | cons ins rest ih => simp only [List.cons_append, extent, ih, Nat.add_assoc]

theorem length_encodeAll (instructions : List Instruction) :
    (encodeAll instructions).length = extent instructions := by
  induction instructions with
  | nil => rfl
  | cons ins rest ih =>
    simp only [encodeAll, List.flatMap_cons, List.length_append, Instruction.length_encode,
      extent] at ih ⊢
    rw [ih]

theorem laidOut_append {start : Nat} {a b : List Instruction} :
    LaidOut start (a ++ b) ↔ LaidOut start a ∧ LaidOut (start + extent a) b := by
  induction a generalizing start with
  | nil => simp [LaidOut, extent]
  | cons ins rest ih => simp only [List.cons_append, LaidOut, extent, ih, Nat.add_assoc, and_assoc]

theorem LaidOut.offset_getElem {start : Nat} {instructions : List Instruction}
    (h : LaidOut start instructions) {k : Nat} (hk : k < instructions.length) :
    instructions[k].offset = start + extent (instructions.take k) := by
  have hsplit : instructions = instructions.take k ++ instructions[k] :: instructions.drop (k + 1) := by
    rw [← List.drop_eq_getElem_cons hk, List.take_append_drop]
  rw [hsplit, laidOut_append] at h
  exact h.2.1

theorem extent_take_succ {instructions : List Instruction} {k : Nat} (hk : k < instructions.length) :
    extent (instructions.take (k + 1)) = extent (instructions.take k) + instructions[k].size := by
  rw [List.take_succ_eq_append_getElem hk, extent_append]
  rfl

theorem extent_eq_zero {instructions : List Instruction} (h : extent instructions = 0) :
    instructions = [] := by
  cases instructions with
  | nil => rfl
  | cons ins rest =>
    have := ins.size_pos
    simp only [extent] at h
    omega

theorem LaidOut.bounds {start : Nat} {instructions : List Instruction}
    (h : LaidOut start instructions) {ins : Instruction} (hmem : ins ∈ instructions) :
    start ≤ ins.offset ∧ ins.offset + ins.size ≤ start + extent instructions := by
  obtain ⟨before, behind, rfl⟩ := List.append_of_mem hmem
  rw [laidOut_append] at h
  have hoffset := h.2.1
  simp only [extent_append, extent]
  omega

theorem LaidOut.pairwise {start : Nat} {instructions : List Instruction}
    (h : LaidOut start instructions) : instructions.Pairwise fun a b => a.offset < b.offset := by
  induction instructions generalizing start with
  | nil => exact .nil
  | cons ins rest ih =>
    refine List.pairwise_cons.2 ⟨fun b hb => ?_, ih h.2⟩
    have hbounds := h.2.bounds hb
    have hsize := ins.size_pos
    have hoffset := h.1
    omega

theorem LaidOut.head_of_offset {start : Nat} {before behind : List Instruction}
    (h : LaidOut start (before ++ behind)) {ins : Instruction} (hmem : ins ∈ before ++ behind)
    (hoffset : ins.offset = start + extent before) : ∃ rest, behind = ins :: rest := by
  rw [laidOut_append] at h
  rcases List.mem_append.1 hmem with hbefore | hbehind
  · have hbounds := h.1.bounds hbefore
    have hsize := ins.size_pos
    omega
  · obtain ⟨gap, rest, rfl⟩ := List.append_of_mem hbehind
    have hgap := (laidOut_append.1 h.2).2.1
    cases extent_eq_zero (show extent gap = 0 by omega)
    exact ⟨rest, rfl⟩

theorem LaidOut.eq_of_offset {start : Nat} {instructions : List Instruction}
    (h : LaidOut start instructions) {a b : Instruction} (ha : a ∈ instructions)
    (hb : b ∈ instructions) (hoffset : a.offset = b.offset) : a = b := by
  obtain ⟨before, behind, rfl⟩ := List.append_of_mem ha
  have hstart := (laidOut_append.1 h).2.1
  obtain ⟨rest, hrest⟩ := h.head_of_offset hb (by omega)
  cases hrest
  rfl

theorem laidOut_restamp (start : Nat) (instructions : List Instruction) :
    LaidOut start (restamp start instructions) := by
  induction instructions generalizing start with
  | nil => trivial
  | cons ins rest ih => exact ⟨rfl, ih _⟩

theorem encodeAll_restamp (start : Nat) (instructions : List Instruction) :
    encodeAll (restamp start instructions) = encodeAll instructions := by
  induction instructions generalizing start with
  | nil => rfl
  | cons ins rest ih =>
    have hhead : Instruction.encode { ins with offset := start } = ins.encode := rfl
    simp only [encodeAll, restamp, List.flatMap_cons, hhead] at ih ⊢
    rw [ih]

theorem wellFramed_restamp {start : Nat} {instructions : List Instruction}
    (h : ∀ ins ∈ instructions, ins.WellFramed) :
    ∀ ins ∈ restamp start instructions, ins.WellFramed := by
  induction instructions generalizing start with
  | nil => simp [restamp]
  | cons ins rest ih =>
    rw [List.forall_mem_cons] at h
    exact List.forall_mem_cons.2 ⟨h.1, ih h.2⟩

theorem length_restamp (start : Nat) (instructions : List Instruction) :
    (restamp start instructions).length = instructions.length := by
  induction instructions generalizing start with
  | nil => rfl
  | cons ins rest ih => simp only [restamp, List.length_cons, ih]

theorem getElem?_restamp (start : Nat) (instructions : List Instruction) (k : Nat) :
    (restamp start instructions)[k]? = instructions[k]?.map fun ins =>
      { ins with offset := start + extent (instructions.take k) } := by
  induction instructions generalizing start k with
  | nil => rfl
  | cons ins rest ih =>
    cases k with
    | zero => rfl
    | succ k =>
      simp only [restamp, List.getElem?_cons_succ, ih, List.take_succ_cons, extent, Nat.add_assoc]

theorem decodeFrom_encodeAll {instructions : List Instruction} {fuel position : Nat}
    {done : List Instruction} (hframed : ∀ ins ∈ instructions, ins.WellFramed)
    (hlaid : LaidOut position instructions) (hfuel : extent instructions ≤ fuel) :
    decodeFrom fuel ⟨position, encodeAll instructions⟩ done = .ok (done.reverse ++ instructions) := by
  induction instructions generalizing fuel position done with
  | nil =>
    have hread := Instruction.read_of_rest_nil (c := ⟨position, encodeAll []⟩) rfl
    cases fuel <;> simp [decodeFrom, hread]
  | cons ins rest ih =>
    rw [List.forall_mem_cons] at hframed
    have hsize := ins.size_pos
    -- Every instruction takes a byte at least, so the fuel is never used up early.
    obtain ⟨fuel, rfl⟩ : ∃ k, fuel = k + 1 := ⟨fuel - 1, by simp only [extent] at hfuel; omega⟩
    have hread : Instruction.read ⟨position, encodeAll (ins :: rest)⟩ =
        .ok (some ins) ⟨position + ins.size, encodeAll rest⟩ :=
      Instruction.read_eq_some_iff.2 ⟨hframed.1, hlaid.1, rfl, rfl⟩
    have hrest : extent rest ≤ fuel := by
      simp only [extent] at hfuel
      omega
    simp only [decodeFrom, hread, ih hframed.2 hlaid.2 hrest]
    simp

theorem decodeFrom_ok {fuel : Nat} {c : Cursor} {done result : List Instruction}
    (hfuel : c.rest.length ≤ fuel) (h : decodeFrom fuel c done = .ok result) :
    ∃ ahead, result = done.reverse ++ ahead ∧ encodeAll ahead = c.rest ∧
      LaidOut c.position ahead ∧ ∀ ins ∈ ahead, ins.WellFramed := by
  induction fuel generalizing c done with
  | zero =>
    have hrest : c.rest = [] := List.length_eq_zero_iff.1 (by omega)
    cases h
    exact ⟨[], by simp, hrest.symm, trivial, by simp⟩
  | succ fuel ih =>
    unfold decodeFrom at h
    split at h
    · cases h
    · rename_i t hread
      obtain ⟨hrest, rfl⟩ := Instruction.read_eq_none_iff.1 hread
      cases h
      exact ⟨[], by simp, hrest.symm, trivial, by simp⟩
    · rename_i ins t hread
      obtain ⟨hframed, hoffset, hrest, hpos⟩ := Instruction.read_eq_some_iff.1 hread
      -- Every instruction takes at least one byte, so the fuel lasts as long as the bytes do.
      have hlen : t.rest.length ≤ fuel := by
        have := ins.size_pos
        rw [hrest, List.length_append, Instruction.length_encode] at hfuel
        omega
      obtain ⟨ahead, rfl, hbytes, hlaid, hall⟩ := ih hlen h
      refine ⟨ins :: ahead, by simp, ?_, ⟨hoffset, hpos ▸ hlaid⟩,
        List.forall_mem_cons.2 ⟨hframed, hall⟩⟩
      rw [hrest, ← hbytes]
      rfl

/-- A byte string decodes to exactly those instructions that it encodes, counted from offset 0. -/
theorem instructionsOf_eq_ok_iff {bytes : Bytes} {instructions : List Instruction} :
    instructionsOf bytes = .ok instructions ↔
      encodeAll instructions = bytes ∧ LaidOut 0 instructions ∧
        ∀ ins ∈ instructions, ins.WellFramed := by
  constructor
  · intro h
    obtain ⟨ahead, rfl, hbytes, hlaid, hframed⟩ := decodeFrom_ok (c := .start bytes) (Nat.le_refl _) h
    exact ⟨hbytes, hlaid, hframed⟩
  · rintro ⟨rfl, hlaid, hframed⟩
    exact decodeFrom_encodeAll hframed hlaid (Nat.le_of_eq (length_encodeAll _).symm)

theorem instructionsOf_encodeAll {instructions : List Instruction}
    (hframed : ∀ ins ∈ instructions, ins.WellFramed) :
    instructionsOf (encodeAll instructions) = .ok (restamp 0 instructions) :=
  instructionsOf_eq_ok_iff.2
    ⟨encodeAll_restamp 0 _, laidOut_restamp 0 _, wellFramed_restamp hframed⟩

/-- The codec is a bijection between the byte strings that decode and the lists of well-framed
instructions, up to their offsets, which decoding counts from 0 on. -/
theorem codec_bijective :
    (∀ bytes instructions, instructionsOf bytes = .ok instructions →
      encodeAll instructions = bytes ∧
      (∀ ins, instructions.head? = some ins → ins.offset = 0) ∧
      (∀ i ins next, instructions[i]? = some ins → instructions[i + 1]? = some next →
        next.offset = ins.offset + ins.size) ∧
      (∀ ins, instructions.getLast? = some ins → ins.offset + ins.size = bytes.length) ∧
      ∀ ins ∈ instructions, Instruction.checkOperand ins.opcode ins.operand = .ok ()) ∧
    ∀ instructions : List Instruction,
      (∀ ins ∈ instructions, Instruction.checkOperand ins.opcode ins.operand = .ok ()) →
      instructionsOf (encodeAll instructions) = .ok (restamp 0 instructions) := by
  constructor
  · intro bytes instructions h
    obtain ⟨rfl, hlaid, hframed⟩ := instructionsOf_eq_ok_iff.1 h
    refine ⟨rfl, ?_, ?_, ?_, hframed⟩
    · intro ins hhead
      cases instructions with
      | nil => cases hhead
      | cons first rest =>
        cases hhead
        exact hlaid.1
    · intro i ins next hi hnext
      obtain ⟨hlt, rfl⟩ := List.getElem?_eq_some_iff.1 hi
      obtain ⟨hlt', rfl⟩ := List.getElem?_eq_some_iff.1 hnext
      rw [hlaid.offset_getElem hlt, hlaid.offset_getElem hlt', extent_take_succ hlt]
      omega
    · intro ins hlast
      obtain ⟨init, rfl⟩ := List.getLast?_eq_some_iff.1 hlast
      rw [laidOut_append] at hlaid
      rw [length_encodeAll, extent_append, hlaid.2.1, Nat.zero_add]
      rfl
  · intro instructions hframed
    exact instructionsOf_encodeAll hframed

theorem codec_bijective_pushData_ret :
    (instructionsOf [0x0C, 2, 7, 8, 0x40] = .ok [⟨.pushData1, [7, 8], 0⟩, ⟨.ret, [], 4⟩] ∧
      encodeAll [⟨.pushData1, [7, 8], 0⟩, ⟨.ret, [], 4⟩] = [0x0C, 2, 7, 8, 0x40]) ∧
    instructionsOf (encodeAll [⟨.pushData1, [7, 8], 9⟩, ⟨.ret, [], 9⟩]) =
      .ok (restamp 0 [⟨.pushData1, [7, 8], 9⟩, ⟨.ret, [], 9⟩]) := by
  have h : instructionsOf [0x0C, 2, 7, 8, 0x40] = .ok [⟨.pushData1, [7, 8], 0⟩, ⟨.ret, [], 4⟩] := rfl
  refine ⟨⟨h, (codec_bijective.1 _ _ h).1⟩, codec_bijective.2 _ ?_⟩
  exact List.forall_mem_cons.2 ⟨rfl, List.forall_mem_singleton.2 rfl⟩

theorem decode_eq_ok_iff {bytes : Bytes} {script : Script} :
    decode bytes = .ok script ↔
      instructionsOf bytes = .ok script.instructions ∧ script.byteLength = bytes.length := by
  obtain ⟨instructions, byteLength⟩ := script
  unfold decode
  cases h : instructionsOf bytes with
  | error e => simp [bind, Except.bind]
  | ok found =>
    simp only [bind, Except.bind, pure, Except.pure, Except.ok.injEq, Script.mk.injEq]
    exact and_congr_right fun _ => eq_comm

end Script
end ContractLinker
