import ContractLinker.Proofs.DeadCode

namespace ContractLinker.Script

/-- The two have the same sign, and the second is no further from zero. -/
def Shrinks (d d' : Int) : Prop := 0 ≤ d' ∧ d' ≤ d ∨ d ≤ d' ∧ d' ≤ 0

theorem Shrinks.fits {width : Nat} {d d' : Int} (h : Shrinks d d')
    (hfits : Bytes.FitsSigned width d) : Bytes.FitsSigned width d' := by
  unfold Shrinks at h
  have hlow := hfits.1
  have hhigh := hfits.2
  constructor <;> omega

theorem extent_filter_le (keep : Instruction → Bool) (code : List Instruction) :
    extent (code.filter keep) ≤ extent code := by
  induction code with
  | nil => exact Nat.le_refl _
  | cons ins rest ih =>
    rw [List.filter_cons]
    split <;> simp only [extent] <;> omega

/-- Of two places in one list the first stays first, and what lies between them only loses. -/
theorem extent_filter_shrinks (keep : Instruction → Bool)
    {before behind before' behind' : List Instruction}
    (h : before ++ behind = before' ++ behind') :
    Shrinks ((extent before' : Int) - extent before)
      ((extent (before'.filter keep) : Int) - extent (before.filter keep)) := by
  have hprefix (a between : List Instruction) :
      extent (a ++ between) = extent a + extent between ∧
      extent ((a ++ between).filter keep) =
        extent (a.filter keep) + extent (between.filter keep) := by
    rw [List.filter_append]
    exact ⟨extent_append _ _, extent_append _ _⟩
  unfold Shrinks
  rcases List.append_eq_append_iff.1 h with ⟨between, hlater, -⟩ | ⟨between, hearlier, -⟩
  · have hsum := hprefix before between
    have hle := extent_filter_le keep between
    rw [hlater]
    omega
  · have hsum := hprefix before' between
    have hle := extent_filter_le keep between
    rw [hearlier]
    omega

/-- Marked places come no further apart and do not change their order. -/
theorem Eliminated.Anchored.shrinks {entries : List Nat} {script : Script} {a a' b b' : Nat}
    (ha : Anchored entries script a a') (hb : Anchored entries script b b') :
    Shrinks ((b : Int) - a) ((b' : Int) - a') := by
  obtain ⟨before, behind, hsplit, -, rfl, rfl⟩ := ha
  obtain ⟨before', behind', hsplit', -, rfl, rfl⟩ := hb
  exact extent_filter_shrinks (keeps entries script) (hsplit.symm.trans hsplit')

/-- Every address of the instruction points at an instruction of the script or at its end. -/
def Lands (script : Script) (ins : Instruction) : Prop :=
  ∀ index d, ins.readAddress index = .ok d → ∃ old : Nat, (ins.offset : Int) + d = old ∧
    (old = script.byteLength ∨ ∃ target ∈ script.instructions, target.offset = old)

namespace Move

variable {m : Move} {ins : Instruction} {cls : AddressClass}

theorem target?_natCast (m : Move) (old : Nat) :
    m.target? old = if old = m.oldLength then some m.newLength else m.map.get? old := by
  have hnonneg : ¬ (old : Int) < 0 := by omega
  rw [target?, if_neg hnonneg, Int.toNat_natCast]

/-- The layout has no place for this target. -/
def misses (m : Move) (target : Int) : Bool := (m.target? target).isNone

/-- Where there is room for what is written, the first target that the layout has no place for is
what comes of moving the addresses. -/
theorem retarget_outcome {origin index : Nat} {targets : List Int}
    (hcls : ins.opcode.addressClass = some cls)
    (h : ∀ i t, targets[i]? = some t → index + i < cls.count ∧
      ∀ new : Nat, m.target? t = some new → Bytes.FitsSigned cls.width (new - origin)) :
    (m.retarget origin index ins targets).1 =
      (targets.find? m.misses).elim (.ok ()) fun t => .error (.invalidAddress ins.offset t) := by
  induction targets generalizing index ins with
  | nil => rfl
  | cons target targets ih =>
    obtain ⟨hlt, hfits⟩ := h 0 target rfl
    rw [Nat.add_zero] at hlt
    cases hnew : m.target? target with
    | none =>
      have hmiss : m.misses target = true := by simp [misses, hnew]
      rw [List.find?_cons_of_pos hmiss]
      simp only [retarget, hnew]
      rfl
    | some new =>
      have hfound : ¬ m.misses target = true := by simp [misses, hnew]
      have hroom := hfits new hnew
      have hwrite := Instruction.writeAddress_eq_ok_iff.2 ⟨cls, hcls, hlt, hroom, rfl⟩
      -- The displacement is checked twice, for four bytes and then for the slot.
      have hfour : ¬¬ Bytes.FitsSigned 4 ((new : Int) - origin) :=
        not_not.2 (Instruction.fitsSigned_four hroom)
      rw [List.find?_cons_of_neg hfound]
      simp only [retarget, hnew, if_neg hfour, hwrite]
      rw [ih]
      · rw [Instruction.writeAddress_opcode hwrite, hcls]
      · intro i t ht
        have hnext := h (i + 1) t ht
        rwa [show index + (i + 1) = index + 1 + i by omega] at hnext

theorem apply_outcome (hframed : ins.WellFramed)
    (h : ∀ index d (new : Nat), ins.readAddress index = .ok d →
      m.target? (Instruction.signed64 (ins.offset + d)) = some new →
        Shrinks d (new - ((m.map.get? ins.offset).getD 0 : Nat))) :
    (m.apply ins).1 = (ins.targets.find? m.misses).elim (.ok ()) fun t =>
      .error (.invalidAddress ins.offset t) := by
  have hretarget : (m.retarget ((m.map.get? ins.offset).getD 0) 0 ins ins.targets).1 =
      (ins.targets.find? m.misses).elim (.ok ()) fun t => .error (.invalidAddress ins.offset t) := by
    cases hcls : ins.opcode.addressClass with
    | none =>
      have hnone : ins.targets = [] := by
        simp [Instruction.targets, Instruction.displacements, Instruction.addressCount, hcls]
      rw [hnone]
      rfl
    | some cls =>
      apply retarget_outcome hcls
      intro i t ht
      obtain ⟨d, hread, rfl⟩ := Instruction.getElem?_targets.1 ht
      obtain ⟨found, hfound, hlt, rfl⟩ := Instruction.readAddress_eq_ok_iff.1 hread
      rw [hcls] at hfound
      cases hfound
      refine ⟨by omega, fun new hnew => ?_⟩
      exact (h i _ new hread hnew).fits (Instruction.fitsSigned_displacement hframed hcls hlt)
  rw [← hretarget]
  cases hmoved : m.retarget ((m.map.get? ins.offset).getD 0) 0 ins ins.targets with
  | mk outcome moved => cases outcome <;> simp only [apply, hmoved]

def words (code : List Instruction) : List (Nat × Int) :=
  code.flatMap fun ins => ins.targets.map fun t => (ins.offset, t)

theorem applyAll_outcome {done code : List Instruction}
    (h : ∀ ins ∈ code, (m.apply ins).1 = (ins.targets.find? m.misses).elim (.ok ()) fun t =>
      .error (.invalidAddress ins.offset t)) :
    (m.applyAll done code).1 = ((words code).find? fun a => m.misses a.2).elim (.ok ()) fun a =>
      .error (.invalidAddress a.1 a.2) := by
  induction code generalizing done with
  | nil => rfl
  | cons ins rest ih =>
    rw [List.forall_mem_cons] at h
    obtain ⟨hins, hrest⟩ := h
    have hfind : (ins.targets.map fun t => (ins.offset, t)).find? (fun a => m.misses a.2) =
        (ins.targets.find? m.misses).map fun t => (ins.offset, t) :=
      List.find?_map
    rw [words, List.flatMap_cons, List.find?_append, hfind]
    rcases hmoved : m.apply ins with ⟨outcome, moved⟩
    rw [hmoved] at hins
    simp only [applyAll, hmoved]
    -- The first instruction with a miss ends the run.
    cases hmiss : ins.targets.find? m.misses with
    | none =>
      rw [hmiss] at hins
      cases hins
      exact ih hrest
    | some t =>
      rw [hmiss] at hins
      cases hins
      rfl

/-- Addresses that already point where the layout wants them are left alone. -/
theorem retarget_self {origin index : Nat} {targets : List Int} (hframed : ins.WellFramed)
    (h : ∀ i t, targets[i]? = some t → ∃ new : Nat, m.target? t = some new ∧
      ins.readAddress (index + i) = .ok (new - origin : Int)) :
    m.retarget origin index ins targets = (.ok (), ins) := by
  induction targets generalizing index with
  | nil => rfl
  | cons target targets ih =>
    obtain ⟨new, hnew, hread⟩ := h 0 target rfl
    rw [Nat.add_zero] at hread
    have hwrite := Instruction.writeAddress_self hframed hread
    have hfour : ¬¬ Bytes.FitsSigned 4 ((new : Int) - origin) :=
      not_not.2 (Instruction.fitsSigned_readAddress hread)
    simp only [retarget, hnew, if_neg hfour, hwrite]
    apply ih
    intro i t ht
    have hnext := h (i + 1) t ht
    rwa [show index + (i + 1) = index + 1 + i by omega] at hnext

theorem applyAll_self {done instructions : List Instruction}
    (h : ∀ ins ∈ instructions, m.apply ins = (.ok (), ins)) :
    m.applyAll done instructions = (.ok (), done.reverse ++ instructions) := by
  induction instructions generalizing done with
  | nil => simp [applyAll]
  | cons ins rest ih =>
    rw [List.forall_mem_cons] at h
    simp only [applyAll, h.1, ih h.2, List.reverse_cons, List.append_assoc, List.singleton_append]

end Move

theorem relayout_fst (script : Script) : script.relayout.1 =
    (script.compaction.applyAll [] script.instructions).1.map fun _ => script.compaction.map := by
  rcases hall : script.compaction.applyAll [] script.instructions with ⟨outcome, instructions⟩
  simp only [relayout, hall]
  cases outcome <;> rfl

namespace Decoded

open Eliminated

variable {entries : List Nat} {script : Script} (h : Decoded script)
include h

theorem decode_encode : decode script.encode = .ok script := by
  apply decode_eq_ok_iff.2
  refine ⟨instructionsOf_eq_ok_iff.2 ⟨rfl, h.laidOut, h.framed⟩, ?_⟩
  rw [h.byteLength, encode, length_encodeAll]

/-- What a kept instruction points at is kept. -/
theorem keeps_target {ins target : Instruction} {index : Nat} {d : Int}
    (hmem : ins ∈ script.instructions) (hkeep : keeps entries script ins = true)
    (hread : ins.readAddress index = .ok d) (htarget : (ins.offset : Int) + d = target.offset) :
    keeps entries script target = true := by
  obtain ⟨before, behind, hsplit⟩ := List.append_of_mem hmem
  have hswept := swept_of_mem_reachable h.pairwise_signed hsplit
    (Std.HashSet.mem_iff_contains.2 hkeep)
  rcases hswept.1 with hnop | ⟨-, htargets⟩
  · -- A `NOP` has no address to read.
    obtain ⟨cls, hcls, -⟩ := Instruction.readAddress_eq_ok_iff.1 hread
    rw [show ins.opcode = .nop from hnop] at hcls
    cases hcls
  · apply Std.HashSet.mem_iff_contains.1
    apply htargets
    have hindex := Instruction.getElem?_targets.2 ⟨d, hread, rfl⟩
    rw [htarget] at hindex
    exact List.mem_of_getElem? hindex

/-- The place that an address of a kept instruction is moved to, if it lands. -/
theorem exists_target {ins : Instruction} {index : Nat} {d : Int}
    (hmem : ins ∈ script.instructions) (hkeep : keeps entries script ins = true)
    (hread : ins.readAddress index = .ok d) (hlands : ∃ old : Nat, (ins.offset : Int) + d = old ∧
      (old = script.byteLength ∨ ∃ target ∈ script.instructions, target.offset = old)) :
    ∃ new : Nat, (compaction { script with instructions := live entries script.instructions }).target?
        (Instruction.signed64 (ins.offset + d)) = some new ∧
      Related entries script (ins.offset + d) new := by
  obtain ⟨old, hold, hplace⟩ := hlands
  have hlen := h.byteLength
  have haddr := h.addressable
  have hnew : ∃ new : Nat, old = script.byteLength ∧
        new = extent (live entries script.instructions) ∨
      (compaction { script with instructions := live entries script.instructions }).map.get? old =
        some new := by
    rcases hplace with hend | ⟨target, htarget, rfl⟩
    · exact ⟨_, .inl ⟨hend, rfl⟩⟩
    · have hkept := h.keeps_target hmem hkeep hread hold
      obtain ⟨before, behind, hsplit⟩ := List.append_of_mem htarget
      exact ⟨_, .inr (compaction_get?_of_split h.distinct_live (live_split hsplit hkept))⟩
  obtain ⟨new, hnew⟩ := hnew
  have hlt : old < Bytes.bound 8 / 2 := by
    rcases hplace with hend | ⟨target, htarget, rfl⟩
    · omega
    · exact h.offset_lt htarget
  -- The target comes as a word, but a place in the script is its own word.
  refine ⟨new, ?_, hold ▸ h.related_target hnew⟩
  rw [hold, Instruction.signed64_of_lt hlt, Move.target?_natCast, compaction_oldLength,
    compaction_newLength]
  by_cases hend : old = script.byteLength
  · rw [if_pos hend]
    rcases hnew with ⟨-, rfl⟩ | hget
    · rfl
    · -- No instruction starts at the end.
      obtain ⟨_, ins', _, hlive, hoffset, -⟩ :=
        (compaction_get?_eq_some_iff h.distinct_live).1 hget
      have hmem' : ins' ∈ live entries script.instructions :=
        List.mem_iff_append.2 ⟨_, _, hlive⟩
      have hbounds := h.laidOut.bounds (List.mem_filter.1 hmem').1
      have hsize := ins'.size_pos
      omega
  · rw [if_neg hend]
    exact hnew.resolve_left fun hand => hend hand.1

/-- Removing dead code fails at the first address that the layout has no place for, and only there. -/
theorem eliminateDead_outcome (entries : List Nat) :
    (script.eliminateDead entries).1 =
      ((Move.words (live entries script.instructions)).find? fun a => (compaction { script with
        instructions := live entries script.instructions }).misses a.2).elim
        (.ok (compaction { script with instructions := live entries script.instructions }).map)
        fun a => .error (.invalidAddress a.1 a.2) := by
  have hall : ∀ ins ∈ live entries script.instructions, ((compaction { script with
      instructions := live entries script.instructions }).apply ins).1 =
        (ins.targets.find? (compaction { script with
          instructions := live entries script.instructions }).misses).elim (.ok ()) fun t =>
            .error (.invalidAddress ins.offset t) := by
    intro ins hlive
    obtain ⟨hmem, hkeep⟩ := List.mem_filter.1 hlive
    apply Move.apply_outcome (h.framed ins hmem)
    intro index d new hread hnew
    obtain ⟨old, hold, hplace⟩ := h.place_of_target? hmem hread hnew
    obtain ⟨before, behind, hsplit⟩ := List.append_of_mem hmem
    rw [compaction_get?_of_split h.distinct_live (live_split hsplit hkeep), Option.getD_some,
      show d = (old : Int) - ins.offset by omega]
    exact (h.anchored_of_split hsplit hkeep).shrinks (h.anchored_target hplace)
  rw [eliminateDead, relayout_fst, Move.applyAll_outcome hall]
  cases List.find? _ _ <;> rfl

/-- Removing dead code succeeds when the addresses of all that is kept land. -/
theorem eliminateDead_succeeds
    (hlands : ∀ ins ∈ script.instructions, keeps entries script ins = true → Lands script ins) :
    ∃ map result, script.eliminateDead entries = (.ok map, result) := by
  have hfound : (Move.words (live entries script.instructions)).find? (fun a => (compaction
      { script with instructions := live entries script.instructions }).misses a.2) = none := by
    rw [List.find?_eq_none]
    intro a ha
    obtain ⟨ins, hlive, hword⟩ := List.mem_flatMap.1 ha
    obtain ⟨t, ht, rfl⟩ := List.mem_map.1 hword
    obtain ⟨hmem, hkeep⟩ := List.mem_filter.1 hlive
    obtain ⟨index, hindex⟩ := List.getElem?_of_mem ht
    obtain ⟨d, hread, rfl⟩ := Instruction.getElem?_targets.1 hindex
    obtain ⟨new, hnew, -⟩ := h.exists_target hmem hkeep hread (hlands ins hmem hkeep index d hread)
    simp [Move.misses, hnew]
  have houtcome := h.eliminateDead_outcome entries
  rw [hfound] at houtcome
  exact ⟨_, _, Prod.ext houtcome rfl⟩

theorem compaction_get?_iff {old new : Nat} :
    script.compaction.map.get? old = some new ↔
      new = old ∧ ∃ ins ∈ script.instructions, ins.offset = old := by
  rw [compaction_get?_eq_some_iff (h.laidOut.pairwise.imp Nat.ne_of_lt)]
  constructor
  · rintro ⟨before, ins, behind, hsplit, rfl, rfl⟩
    exact ⟨(h.offset_of_split hsplit).symm, ins, List.mem_iff_append.2 ⟨before, behind, hsplit⟩, rfl⟩
  · rintro ⟨rfl, ins, hmem, rfl⟩
    obtain ⟨before, behind, hsplit⟩ := List.append_of_mem hmem
    exact ⟨before, ins, behind, hsplit, rfl, h.offset_of_split hsplit⟩

theorem apply_self {ins : Instruction} (hmem : ins ∈ script.instructions)
    (hlands : Lands script ins) : script.compaction.apply ins = (.ok (), ins) := by
  have hget : script.compaction.map.get? ins.offset = some ins.offset :=
    h.compaction_get?_iff.2 ⟨rfl, ins, hmem, rfl⟩
  have hretarget : script.compaction.retarget ins.offset 0 ins ins.targets = (.ok (), ins) := by
    apply Move.retarget_self (h.framed ins hmem)
    intro index t ht
    obtain ⟨d, hread, rfl⟩ := Instruction.getElem?_targets.1 ht
    obtain ⟨old, hold, hplace⟩ := hlands index d hread
    have haddr := h.addressable
    refine ⟨old, ?_, ?_⟩
    · have hlt : old < Bytes.bound 8 / 2 := by
        rcases hplace with hend | ⟨target, htarget, rfl⟩
        · omega
        · exact h.offset_lt htarget
      rw [hold, Instruction.signed64_of_lt hlt, Move.target?_natCast, compaction_oldLength,
        compaction_newLength, ← h.byteLength]
      split
      · rename_i hend
        rw [hend]
      · rename_i hinside
        exact h.compaction_get?_iff.2 ⟨rfl, hplace.resolve_left hinside⟩
    · rw [Nat.zero_add, hread]
      congr 1
      omega
  simp only [Move.apply, hget, Option.getD_some, hretarget]

/-- Without gaps, and with all addresses on their targets, there is nothing to move. -/
theorem relayout_self (hlands : ∀ ins ∈ script.instructions, Lands script ins) :
    script.relayout = (.ok script.compaction.map, script) := by
  have hall : script.compaction.applyAll [] script.instructions = (.ok (), _) :=
    Move.applyAll_self fun ins hmem => h.apply_self hmem (hlands ins hmem)
  have hlen : script.compaction.newLength = script.byteLength := by
    rw [compaction_newLength, h.byteLength]
  simp only [relayout, hall, hlen, List.reverse_nil, List.nil_append]

end Decoded

namespace Eliminated

variable {entries : List Nat} {script result : Script} (h : Eliminated entries script result)
include h

theorem forall₂_of_moves {R : Instruction → Instruction → Prop}
    (hR : ∀ ins image, ins ∈ script.instructions → keeps entries script ins = true →
      Move.Moves (compaction { script with instructions := live entries script.instructions })
        ins image → R ins image) :
    List.Forall₂ R (live entries script.instructions) result.instructions := by
  have hkept : ∀ ins ∈ live entries script.instructions,
      ins ∈ script.instructions ∧ keeps entries script ins = true := by
    intro ins hlive
    exact List.mem_filter.1 hlive
  apply ((List.forall₂_and_left _ _).2 ⟨hkept, h.moved⟩).imp
  rintro ins image ⟨⟨hmem, hkeep⟩, hmoves⟩
  exact hR ins image hmem hkeep hmoves

/-- Everything in the result is the image of something kept. -/
theorem exists_preimage {image : Instruction} (himage : image ∈ result.instructions) :
    ∃ before ins behind, script.instructions = before ++ ins :: behind ∧
      keeps entries script ins = true ∧
      Move.Moves (compaction { script with instructions := live entries script.instructions })
        ins image ∧ image.offset = extent (before.filter (keeps entries script)) := by
  obtain ⟨i, hi, rfl⟩ := List.getElem_of_mem himage
  have hlen := h.moved.length_eq
  have hmoves := h.moved.get (by omega) hi
  rw [List.get_eq_getElem, List.get_eq_getElem] at hmoves
  have hlive := List.getElem_mem (by omega : i < (live entries script.instructions).length)
  obtain ⟨hmem, hkeep⟩ := List.mem_filter.1 hlive
  obtain ⟨before, behind, hsplit⟩ := List.append_of_mem hmem
  exact ⟨before, _, behind, hsplit, hkeep, hmoves,
    hmoves.offset_of_split h.distinct_live (live_split hsplit hkeep)⟩

theorem byteLength_le : result.byteLength ≤ script.byteLength := by
  rw [h.newLength, h.byteLength, live_eq]
  exact extent_filter_le _ _

/-- What is left is again a script as it comes out of the decoder. -/
theorem decoded_result : Decoded result := by
  refine ⟨h.laidOut_result, ?_, h.extent_result.symm, ?_⟩
  · intro image himage
    obtain ⟨_, _, _, -, -, hmoves, -⟩ := h.exists_preimage himage
    exact hmoves.framed
  · have hle := h.byteLength_le
    have haddr := h.addressable
    omega

/-- After a layout that succeeded all addresses land. -/
theorem lands_result {image : Instruction} (himage : image ∈ result.instructions) :
    Lands result image := by
  intro index d' hread'
  obtain ⟨before, ins, behind, hsplit, hkeep, hmoves, -⟩ := h.exists_preimage himage
  obtain ⟨d, hread⟩ := Instruction.exists_readAddress hmoves.opcode.symm hread'
  obtain ⟨new, hnew, hmoved⟩ := hmoves.address index _
    (Instruction.getElem?_targets.2 ⟨d, hread, rfl⟩)
  have hd' : d' = new - image.offset := by
    rw [hread'] at hmoved
    exact Except.ok.inj hmoved
  refine ⟨new, by omega, ?_⟩
  obtain ⟨old, -, ⟨-, hend⟩ | hget⟩ := Move.target?_eq_some hnew
  · left
    rw [hend, compaction_newLength, h.newLength]
  · right
    obtain ⟨_, _, _, hlive, -, rfl⟩ := (compaction_get?_eq_some_iff h.distinct_live).1 hget
    obtain ⟨target, htarget, -, hoffset⟩ := exists_moved h.distinct_live h.moved hlive
    exact ⟨target, htarget, hoffset⟩

end Eliminated

end ContractLinker.Script
