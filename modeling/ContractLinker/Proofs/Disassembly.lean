import Mathlib.Data.List.Nodup
import Std.Data.String.ToNat
import ContractLinker.Executable.Listing
import ContractLinker.Proofs.Addresses
import ContractLinker.Proofs.HexDigits
import ContractLinker.Proofs.JsonWords

namespace ContractLinker

/-- A word ends at the first separator, or with the text. -/
theorem word_inj {sep : Char} {a a' t t' : List Char} (ha : sep ∉ a) (ha' : sep ∉ a')
    (ht : ∀ c ∈ t.head?, c = sep) (ht' : ∀ c ∈ t'.head?, c = sep) (h : a ++ t = a' ++ t') :
    a = a' ∧ t = t' := by
  -- A word cannot go on where the other one ends, as a separator would be part of it.
  induction a generalizing a' with
  | nil =>
    cases a' with
    | nil => exact ⟨rfl, h⟩
    | cons c a' =>
      have hc : c = sep := ht c (by rw [← List.nil_append t, h]; rfl)
      exact absurd (hc ▸ List.mem_cons_self) ha'
  | cons c a ih =>
    cases a' with
    | nil =>
      have hc : c = sep := ht' c (by rw [← List.nil_append t', ← h]; rfl)
      exact absurd (hc ▸ List.mem_cons_self) ha
    | cons c' a' =>
      obtain ⟨rfl, hrest⟩ := List.cons.inj h
      obtain ⟨rfl, rfl⟩ := ih (fun hmem => ha (List.mem_cons_of_mem c hmem))
        (fun hmem => ha' (List.mem_cons_of_mem c hmem)) hrest
      exact ⟨rfl, rfl⟩

namespace Opcode

theorem mnemonic_injective : Function.Injective mnemonic := by
  -- Names are compared as numbers, which is cheaper than as texts.
  have hnodup : (all.map fun op => Bytes.toNatLE op.mnemonic.toByteArray.data.toList).Nodup := by
    decide +kernel
  intro op op' h
  apply List.inj_on_of_nodup_map hnodup (mem_all op) (mem_all op')
  rw [h]

theorem space_notMem_mnemonic (op : Opcode) : ' ' ∉ op.mnemonic.toList := by
  have hbytes : ∀ op ∈ all, 32 ∉ op.mnemonic.toByteArray.data.toList := by decide +kernel
  intro hmem
  apply hbytes op (mem_all op)
  rw [← String.utf8Encode_toList, List.utf8Encode, List.data_toByteArray]
  exact List.mem_flatMap.2 ⟨' ', hmem, by decide⟩

end Opcode

namespace Instruction

theorem toList_signed (d : Int) :
    (signed d).toList = (if d < 0 then '-' else '+') :: Nat.toDigits 10 d.natAbs := by
  have htext := Json.Lexeme.toList_toString d
  unfold signed
  split_ifs at htext ⊢ with hneg
  · exact htext
  · exact String.toList_append.trans (congrArg ('+' :: ·) htext)

theorem space_notMem_signed (d : Int) : ' ' ∉ (signed d).toList := by
  rw [toList_signed, List.mem_cons]
  rintro (hsign | hdigit)
  · split_ifs at hsign <;> exact absurd hsign (by decide)
  · have hspace := Nat.isDigit_of_mem_toDigits (by decide) (by decide) hdigit
    exact absurd hspace (by decide)

theorem signed_injective : Function.Injective signed := by
  intro d d' h
  have hlist := congrArg String.toList h
  rw [toList_signed, toList_signed, List.cons.injEq] at hlist
  have habs : d.natAbs = d'.natAbs := by
    apply Nat.repr_injective
    rw [← String.toList_inj, Nat.toList_repr, Nat.toList_repr]
    exact hlist.2
  have hsign := hlist.1
  by_cases hneg : d < 0
  · by_cases hneg' : d' < 0
    · omega
    · rw [if_pos hneg, if_neg hneg'] at hsign
      exact absurd hsign (by decide)
  · by_cases hneg' : d' < 0
    · rw [if_neg hneg, if_pos hneg'] at hsign
      exact absurd hsign (by decide)
    · omega

def addressText (offset : Nat) (d : Int) : List Char :=
  ' ' :: (signed d).toList ++ ' ' :: '(' :: '-' :: '>' :: ' ' ::
    (offsetText (offset + d)).toList ++ [')']

theorem separable_addressText (offset : Nat) : Separable (addressText offset) := by
  intro d d' r s h
  simp only [addressText, List.cons_append, List.append_assoc, List.cons.injEq, true_and] at h
  obtain ⟨hsigned, hrest⟩ := word_inj (space_notMem_signed d) (space_notMem_signed d')
    (by simp) (by simp) h
  have hd := signed_injective (String.toList_inj.1 hsigned)
  subst hd
  simp only [List.cons.injEq, true_and, List.append_cancel_left_eq, List.nil_append] at hrest
  exact ⟨rfl, hrest⟩

theorem flatMap_addressText_injective (offset : Nat) :
    Function.Injective fun ds : List Int => ds.flatMap (addressText offset) :=
  (separable_addressText offset).flatMap_injective fun _ => List.cons_ne_nil _ _

/-- What a line shows behind the mnemonic. -/
def operandText (ins : Instruction) : List Char :=
  if ins.addressCount > 0 then ins.displacements.flatMap (addressText ins.offset)
  else if ins.operand.isEmpty then []
  else ' ' :: ins.operand.flatMap Hex.pair

theorem toString_string (s : String) : toString s = s := rfl

theorem toList_foldl_address (offset : Nat) (ds : List Int) (line : String) :
    (ds.foldl (fun line d => s!"{line} {signed d} (-> {offsetText (offset + d)})") line).toList =
      line.toList ++ ds.flatMap (addressText offset) := by
  induction ds generalizing line with
  | nil => simp
  | cons d ds ih =>
    rw [List.foldl_cons, ih]
    simp [addressText, toString_string]

theorem toList_text (ins : Instruction) :
    ins.text.toList = (offsetText ins.offset).toList ++ ':' :: ' ' ::
      (ins.opcode.mnemonic.toList ++ ins.operandText) := by
  unfold text operandText
  split_ifs with haddress hempty
  · rw [toList_foldl_address]
    simp [toString_string]
  · simp [toString_string]
  · simp [Hex.encode, toString_string]

theorem head?_operandText (ins : Instruction) : ∀ c ∈ ins.operandText.head?, c = ' ' := by
  unfold operandText
  split_ifs with haddress hempty
  · cases ins.displacements with
    | nil => simp
    | cons d ds => simp [addressText]
  · simp
  · simp

theorem flatMap_slots (operand : Bytes) (width n : Nat) :
    (List.range n).flatMap (fun i => (operand.drop (i * width)).take width) =
      operand.take (n * width) := by
  induction n with
  | zero => simp
  | succ n ih =>
    rw [List.range_succ, List.flatMap_append, ih, List.flatMap_singleton, Nat.succ_mul,
      ← List.take_add]

variable {ins ins' : Instruction}

theorem operand_eq_flatMap {cls : AddressClass} (hframed : ins.WellFramed)
    (hcls : ins.opcode.addressClass = some cls) :
    ins.operand = ins.displacements.flatMap (Bytes.ofIntLE cls.width) := by
  have hlength := length_operand_of_addressClass hframed hcls
  have hslot : ∀ i ∈ List.range cls.count,
      Bytes.ofIntLE cls.width (displacement ins.operand cls.width i) =
        (ins.operand.drop (i * cls.width)).take cls.width := by
    intro i hi
    have hword := Bytes.ofIntLE_toIntLE ((ins.operand.drop (i * cls.width)).take cls.width)
    rwa [length_slot hlength (List.mem_range.1 hi)] at hword
  rw [displacements, addressCount, addressSize, hcls, List.flatMap_map, List.flatMap_congr hslot,
    flatMap_slots, Nat.mul_comm, ← hlength, List.take_length]

theorem operand_eq_of_operandText_eq (hframed : ins.WellFramed) (hframed' : ins'.WellFramed)
    (hopcode : ins.opcode = ins'.opcode) (hoffset : ins.offset = ins'.offset)
    (h : ins.operandText = ins'.operandText) : ins.operand = ins'.operand := by
  unfold operandText at h
  cases hcls : ins.opcode.addressClass with
  | some cls =>
    have hcls' : ins'.opcode.addressClass = some cls := hopcode ▸ hcls
    have hcount : 0 < cls.count := by cases cls <;> decide
    have hsome : ins.addressCount > 0 := by rwa [addressCount, hcls]
    have hsome' : ins'.addressCount > 0 := by rwa [addressCount, hcls']
    rw [if_pos hsome, if_pos hsome', hoffset] at h
    rw [operand_eq_flatMap hframed hcls, operand_eq_flatMap hframed' hcls',
      flatMap_addressText_injective _ h]
  | none =>
    have hnone : ¬ ins.addressCount > 0 := by rw [addressCount, hcls]; decide
    have hnone' : ¬ ins'.addressCount > 0 := by rw [addressCount, ← hopcode, hcls]; decide
    rw [if_neg hnone, if_neg hnone'] at h
    cases hoperand : ins.operand <;> cases hoperand' : ins'.operand
    · rfl
    · simp [hoperand, hoperand'] at h
    · simp [hoperand, hoperand'] at h
    · rw [hoperand, hoperand'] at h
      exact Hex.flatMap_pair_injective (List.cons.inj h).2

/-- A line of disassembly determines its instruction. -/
theorem eq_of_text_eq (hframed : ins.WellFramed) (hframed' : ins'.WellFramed)
    (hoffset : ins.offset = ins'.offset) (h : ins.text = ins'.text) : ins = ins' := by
  have hlist := congrArg String.toList h
  rw [toList_text, toList_text, hoffset, List.append_cancel_left_eq, List.cons.injEq,
    List.cons.injEq] at hlist
  obtain ⟨hname, htext⟩ := word_inj (Opcode.space_notMem_mnemonic _)
    (Opcode.space_notMem_mnemonic _) (head?_operandText ins) (head?_operandText ins') hlist.2.2
  have hopcode := Opcode.mnemonic_injective (String.toList_inj.1 hname)
  have hoperand := operand_eq_of_operandText_eq hframed hframed' hopcode hoffset htext
  cases ins
  cases ins'
  rw [mk.injEq]
  exact ⟨hopcode, hoperand, hoffset⟩

end Instruction

namespace Script

/-- The lines that show the instructions of a script. -/
def disassembly (code : List Instruction) : List String := code.map fun ins => s!"  {ins.text}"

theorem eq_of_disassembly_eq {start : Nat} {code code' : List Instruction}
    (hlaid : LaidOut start code) (hlaid' : LaidOut start code')
    (hframed : ∀ ins ∈ code, ins.WellFramed) (hframed' : ∀ ins ∈ code', ins.WellFramed)
    (h : disassembly code = disassembly code') : code = code' := by
  -- Lines that are equal so far put the next instructions at the same offset.
  induction code generalizing start code' with
  | nil => exact (List.map_eq_nil_iff.1 h.symm).symm
  | cons ins code ih =>
    cases code' with
    | nil => exact absurd h (List.cons_ne_nil _ _)
    | cons ins' code' =>
      rw [List.forall_mem_cons] at hframed hframed'
      obtain ⟨hline, hlines⟩ := List.cons.inj h
      have htext : ins.text = ins'.text := (String.append_right_inj _).1 hline
      have hins := Instruction.eq_of_text_eq hframed.1 hframed'.1
        (hlaid.1.trans hlaid'.1.symm) htext
      subst hins
      rw [ih hlaid.2 hlaid'.2 hframed.2 hframed'.2 hlines]

/-- The listing of an executable ends with the disassembly of its script, and two scripts have the
same disassembly only if they are the same. -/
theorem disassembly_eq_iff :
    (∀ (x : Executable) (code : List Instruction), instructionsOf x.script = .ok code →
      x.listing = .ok ((x.headerLines ++ x.tokenLines ++
        "" :: "Disassembly:" :: disassembly code).foldl (fun out line => out ++ line ++ "\n") "")) ∧
    ∀ (bytes bytes' : Bytes) (code code' : List Instruction),
      instructionsOf bytes = .ok code → instructionsOf bytes' = .ok code' →
        (disassembly code = disassembly code' ↔ bytes = bytes') := by
  constructor
  · intro x code h
    simp only [Executable.listing, Executable.instructions, h]
    rfl
  · intro bytes bytes' code code' h h'
    obtain ⟨rfl, hlaid, hframed⟩ := instructionsOf_eq_ok_iff.1 h
    obtain ⟨rfl, hlaid', hframed'⟩ := instructionsOf_eq_ok_iff.1 h'
    constructor
    · intro hlines
      rw [eq_of_disassembly_eq hlaid hlaid' hframed hframed' hlines]
    · intro hbytes
      rw [hbytes, h'] at h
      rw [Except.ok.inj h]

/-- The same byte pushed behind a length of one byte and of two. -/
theorem disassembly_eq_iff_pushData :
    instructionsOf [0x0C, 1, 7] = .ok [⟨.pushData1, [7], 0⟩] ∧
      instructionsOf [0x0D, 1, 0, 7] = .ok [⟨.pushData2, [7], 0⟩] ∧
      disassembly [⟨.pushData1, [7], 0⟩] ≠ disassembly [⟨.pushData2, [7], 0⟩] := by
  have hone : instructionsOf [0x0C, 1, 7] = .ok [⟨.pushData1, [7], 0⟩] := rfl
  have htwo : instructionsOf [0x0D, 1, 0, 7] = .ok [⟨.pushData2, [7], 0⟩] := rfl
  refine ⟨hone, htwo, ?_⟩
  rw [Ne, disassembly_eq_iff.2 _ _ _ _ hone htwo]
  decide

end Script
end ContractLinker
