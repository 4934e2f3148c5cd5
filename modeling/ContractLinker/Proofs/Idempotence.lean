import ContractLinker.Proofs.Compaction
import ContractLinker.Proofs.Marking

namespace ContractLinker.Script

theorem Decoded.ahead_eq {script : Script} (h : Decoded script)
    {before behind : List Instruction} (hsplit : script.instructions = before ++ behind) :
    Marks.ahead (script.instructions.map Instruction.waypoint).toArray (extent before) =
      behind.map Instruction.waypoint := by
  have hlaid := h.laidOut
  rw [hsplit, laidOut_append, Nat.zero_add] at hlaid
  have hmem (ins : Instruction) (hins : ins ∈ before ∨ ins ∈ behind) :
      ins.waypoint.offset = ins.offset := by
    rw [Instruction.waypoint_offset, h.signedOffset_eq]
    rw [hsplit]
    exact List.mem_append.2 hins
  -- What stands in front ends at the place, and what stands behind starts there or later.
  apply Marks.ahead_eq
  · rw [List.toList_toArray, hsplit, List.map_append]
  · intro w hw
    obtain ⟨ins, hins, rfl⟩ := List.mem_map.1 hw
    have hbounds := hlaid.1.bounds hins
    have hsize := ins.size_pos
    rw [hmem ins (.inl hins)]
    omega
  · intro w hw
    obtain ⟨ins, hins, rfl⟩ := List.mem_map.1 hw
    have hbounds := hlaid.2.bounds hins
    rw [hmem ins (.inr hins)]
    omega

namespace Eliminated

/-- `behind` and `behind'` are ends of the script and of the result, the one the image of the
other. -/
def Mirrors (entries : List Nat) (script result : Script) (behind behind' : List Instruction) :
    Prop :=
  (∃ before, script.instructions = before ++ behind) ∧
    (∃ before', result.instructions = before' ++ behind') ∧
    List.Forall₂
      (Move.Moves (compaction { script with instructions := live entries script.instructions }))
      (behind.filter (keeps entries script)) behind'

section Mirrors

variable {entries : List Nat} {script result : Script} {ins : Instruction}
  {behind behind' : List Instruction}

theorem Mirrors.of_keeps (h : Mirrors entries script result (ins :: behind) behind')
    (hkeep : keeps entries script ins = true) :
    ∃ image rest', behind' = image :: rest' ∧ image ∈ result.instructions ∧
      Move.Moves (compaction { script with instructions := live entries script.instructions })
        ins image ∧ Mirrors entries script result behind rest' := by
  obtain ⟨⟨before, hsplit⟩, ⟨before', hsplit'⟩, hmoved⟩ := h
  rw [List.filter_cons_of_pos hkeep] at hmoved
  cases hmoved with
  | @cons _ image _ rest' himage hrest =>
    refine ⟨image, rest', rfl, ?_, himage, ⟨before ++ [ins], ?_⟩, ⟨before' ++ [image], ?_⟩, hrest⟩
    · rw [hsplit']
      exact List.mem_append_right _ List.mem_cons_self
    · rw [hsplit, List.append_cons]
    · rw [hsplit', List.append_cons]

theorem Mirrors.of_not_keeps (h : Mirrors entries script result (ins :: behind) behind')
    (hkeep : keeps entries script ins = false) : Mirrors entries script result behind behind' := by
  obtain ⟨⟨before, hsplit⟩, hsplit', hmoved⟩ := h
  rw [List.filter_cons_of_neg (by rw [hkeep]; decide)] at hmoved
  exact ⟨⟨before ++ [ins], by rw [hsplit, List.append_cons]⟩, hsplit', hmoved⟩

end Mirrors

def Follows (entries entries' : List Nat) (script result : Script) (l : List Waypoint) : Prop :=
  ∃ behind behind', l = behind.map Instruction.waypoint ∧
    Mirrors entries script result behind behind' ∧
    Arrives entries' result.instructions (behind'.map Instruction.waypoint)

variable {entries entries' : List Nat} {script result : Script}
  (h : Eliminated entries script result)
include h

theorem follows_ahead {o o' : Int} (hrel : Related entries script o o')
    (harrives : Arrives entries' result.instructions
      (Marks.ahead (result.instructions.map Instruction.waypoint).toArray o')) :
    Follows entries entries' script result
      (Marks.ahead (script.instructions.map Instruction.waypoint).toArray o) := by
  obtain ⟨before, behind, hsplit, -, rfl, rfl⟩ := hrel
  have hmoved : List.Forall₂
      (Move.Moves (compaction { script with instructions := live entries script.instructions }))
      (before.filter (keeps entries script) ++ behind.filter (keeps entries script))
      result.instructions := by
    rw [← List.filter_append, ← hsplit]
    exact h.moved
  obtain ⟨before', behind', hsplit', hroom, hback⟩ := Move.Moves.append hmoved
  refine ⟨behind, behind', h.ahead_eq hsplit, ⟨⟨before, hsplit⟩, ⟨before', hsplit'⟩, hback⟩, ?_⟩
  rwa [← hroom, h.decoded_result.ahead_eq hsplit'] at harrives

theorem signed64_of_related {o : Int} {new : Nat} (hrel : Related entries script o new) :
    Instruction.signed64 new = new := by
  apply Instruction.signed64_of_lt
  obtain ⟨before, behind, hsplit, -, -, hnew⟩ := hrel
  have hkept := extent_filter_le (keeps entries script) before
  have hlen := h.byteLength
  have haddr := h.addressable
  rw [hsplit, extent_append] at hlen
  omega

/-- The targets of an image are the images of the targets. -/
theorem target_image {ins image : Instruction} (himage : Move.Moves
      (compaction { script with instructions := live entries script.instructions }) ins image)
    {t : Int} (ht : t ∈ ins.targets) :
    ∃ old new : Nat, t = old ∧ (new : Int) ∈ image.targets ∧ Related entries script old new ∧
      (old = script.byteLength ∨
        (compaction { script with instructions := live entries script.instructions }).map.get? old =
          some new) := by
  obtain ⟨index, hindex⟩ := List.getElem?_of_mem ht
  obtain ⟨new, hnew, hread⟩ := himage.address index t hindex
  obtain ⟨old, rfl, hplace⟩ := Move.target?_eq_some hnew
  rw [compaction_oldLength, compaction_newLength] at hplace
  have hrel := h.related_target hplace
  have htarget := Instruction.getElem?_targets.2 ⟨_, hread, rfl⟩
  rw [show (image.offset : Int) + (new - image.offset) = new by omega,
    h.signed64_of_related hrel] at htarget
  exact ⟨old, new, rfl, List.mem_of_getElem? htarget, hrel, hplace.imp_left And.left⟩

theorem keeps_of_arrives {ins : Instruction} {rest : List Waypoint}
    (harrives : Arrives entries script.instructions (ins.waypoint :: rest))
    (hnop : ins.opcode ≠ .nop) : keeps entries script ins = true := by
  rcases (harrives.swept h.pairwise_signed).1 with hskip | ⟨hmem, -⟩
  · exact absurd hskip hnop
  · rw [Instruction.waypoint_offset] at hmem
    exact Std.HashSet.mem_iff_contains.1 hmem

section Again

variable (hentries : ∀ entry ∈ entries, ∃ ins ∈ script.instructions, ins.offset = entry)
  (hentries' : ∀ entry ∈ entries, ∀ new,
    (compaction { script with instructions := live entries script.instructions }).map.get? entry =
      some new → new ∈ entries')
include hentries hentries'

/-- Where control can come to in the script, it can come to in the result. -/
theorem follows_of_arrives {l : List Waypoint}
    (harrives : Arrives entries script.instructions l) :
    Follows entries entries' script result l := by
  -- One case for each way that control goes; only a kept instruction has an image to go on from.
  induction harrives with
  | start => exact h.follows_ahead h.related_start .start
  | entry hx =>
    obtain ⟨entry, hentry, rfl⟩ := List.mem_map.1 hx
    obtain ⟨ins, hmem, rfl⟩ := hentries entry hentry
    obtain ⟨new, hget, hrel⟩ := h.related_entry hentry hmem rfl
    rw [Instruction.signed64_of_lt (h.offset_lt hmem)]
    apply h.follows_ahead hrel
    rw [← h.signed64_of_related hrel]
    exact .entry (List.mem_map.2 ⟨new, hentries' _ hentry new hget, rfl⟩)
  | next harrives hterm ih =>
    obtain ⟨behind₀, behind', heq, hmirrors, harrives'⟩ := ih
    obtain ⟨ins, behind, rfl, rfl, rfl⟩ := List.map_eq_cons_iff.1 heq.symm
    cases hkeep : keeps entries script ins with
    | true =>
      obtain ⟨image, rest', rfl, -, himage, hrest⟩ := hmirrors.of_keeps hkeep
      refine ⟨behind, rest', rfl, hrest, harrives'.next ?_⟩
      rw [← hterm]
      exact congrArg Opcode.isTerminator himage.opcode
    | false => exact ⟨behind, behind', rfl, hmirrors.of_not_keeps hkeep, harrives'⟩
  | target harrives hnop ht ih =>
    obtain ⟨behind₀, behind', heq, hmirrors, harrives'⟩ := ih
    obtain ⟨ins, behind, rfl, rfl, rfl⟩ := List.map_eq_cons_iff.1 heq.symm
    have hkeep := h.keeps_of_arrives harrives hnop
    obtain ⟨image, rest', rfl, -, himage, -⟩ := hmirrors.of_keeps hkeep
    obtain ⟨old, new, rfl, htarget, hrel, -⟩ := h.target_image himage ht
    apply h.follows_ahead hrel
    apply harrives'.target _ htarget
    intro himage_nop
    exact hnop (himage.opcode.symm.trans himage_nop)

/-- What control comes to and is no `NOP` has its image marked in the result, and with it the
targets of the image. -/
theorem marked_of_arrives {w : Waypoint} {rest : List Waypoint}
    (harrives : Arrives entries script.instructions (w :: rest)) (hnop : w.opcode ≠ .nop) :
    ∃ ins ∈ script.instructions, ins.waypoint = w ∧ ∃ image, Move.Moves
        (compaction { script with instructions := live entries script.instructions }) ins image ∧
      image.signedOffset ∈ reachable entries' result.instructions ∧
      ∀ t ∈ image.targets, t ∈ reachable entries' result.instructions := by
  obtain ⟨behind₀, behind', heq, hmirrors, harrives'⟩ :=
    h.follows_of_arrives hentries hentries' harrives
  obtain ⟨ins, behind, rfl, rfl, rfl⟩ := List.map_eq_cons_iff.1 heq.symm
  have hmem : ins ∈ script.instructions := by
    obtain ⟨before, hsplit⟩ := hmirrors.1
    exact List.mem_iff_append.2 ⟨before, behind, hsplit⟩
  obtain ⟨image, rest', rfl, -, himage, -⟩ :=
    hmirrors.of_keeps (h.keeps_of_arrives harrives hnop)
  refine ⟨ins, hmem, rfl, image, himage, ?_⟩
  rcases (harrives'.swept h.decoded_result.pairwise_signed).1 with hskip | hmarked
  · exact absurd (himage.opcode.symm.trans hskip) hnop
  · rwa [Instruction.waypoint_offset] at hmarked

/-- All that was kept is kept again, for the reason that it was kept for. -/
theorem keeps_again {image : Instruction} (himage : image ∈ result.instructions) :
    keeps entries' result image = true := by
  obtain ⟨before, ins, behind, hsplit, hkeep, hmoves, -⟩ := h.exists_preimage himage
  have hmem : ins ∈ script.instructions := List.mem_iff_append.2 ⟨before, behind, hsplit⟩
  have hsigned := h.signedOffset_eq hmem
  have hoffset := hmoves.offset
  apply Std.HashSet.mem_iff_contains.1
  rcases reason_of_mem_reachable h.pairwise_signed (Std.HashSet.mem_iff_contains.2 hkeep) with
    hentry | ⟨w, rest, harrives, hnop, hself | htarget⟩
  · obtain ⟨entry, hentry, heq⟩ := List.mem_map.1 hentry
    obtain ⟨first, hfirst, rfl⟩ := hentries entry hentry
    rw [Instruction.signed64_of_lt (h.offset_lt hfirst), hsigned] at heq
    obtain ⟨new, hget, -⟩ := h.related_entry hentry hfirst rfl
    have hnew := hentries' _ hentry new hget
    rw [← Int.ofNat_inj.1 heq, hget, Option.getD_some] at hoffset
    rw [Instruction.signedOffset, hoffset]
    exact mem_reachable_of_mem_entries hnew
  · obtain ⟨first, hfirst, rfl, image', himage', hmarked, -⟩ :=
      h.marked_of_arrives hentries hentries' harrives hnop
    -- It is its own reason, and images are told apart by their offsets.
    rw [Instruction.waypoint_offset, h.signedOffset_eq hfirst, hsigned] at hself
    rw [Int.ofNat_inj.1 hself, ← himage'.offset] at hoffset
    rwa [Instruction.signedOffset, hoffset]
  · obtain ⟨first, hfirst, rfl, image', himage', -, htargets⟩ :=
      h.marked_of_arrives hentries hentries' harrives hnop
    obtain ⟨old, new, hold, hnew, hrel, hplace⟩ := h.target_image himage' htarget
    have heq : old = ins.offset := by omega
    have hget := hplace.resolve_left fun hend => by
      have hbounds := h.laidOut.bounds hmem
      have hsize := ins.size_pos
      have hlen := h.byteLength
      omega
    rw [← heq, hget, Option.getD_some] at hoffset
    rw [Instruction.signedOffset, hoffset, h.signed64_of_related hrel]
    exact htargets new hnew

theorem eliminateDead_again :
    result.eliminateDead entries' = (.ok result.compaction.map, result) := by
  have hlive : live entries' result.instructions = result.instructions := by
    rw [live_eq, List.filter_eq_self]
    intro image himage
    exact h.keeps_again hentries hentries' himage
  rw [eliminateDead, hlive]
  exact h.decoded_result.relayout_self fun image => h.lands_result

end Again

end Eliminated

/-- Removing dead code is idempotent: what is left decodes to itself, and a second run from where
the entry points went finds nothing to remove and leaves every offset where it is. -/
theorem eliminateDead_idempotent {bytes : Bytes} {entries : List Nat} {script result : Script}
    {map : OffsetMap} (hlen : bytes.length < 2 ^ 63) (hdecode : decode bytes = .ok script)
    (hentries : ∀ entry ∈ entries, ∃ ins ∈ script.instructions, ins.offset = entry)
    (hrun : script.eliminateDead entries = (.ok map, result)) :
    decode result.encode = .ok result ∧
      ∃ entries', entries.map map.get? = entries'.map some ∧
        ∃ again, result.eliminateDead entries' = (.ok again, result) ∧
          ∀ old new, again.get? old = some new ↔
            new = old ∧ ∃ ins ∈ result.instructions, ins.offset = old := by
  obtain ⟨helim, rfl⟩ := eliminated_of_decode hlen hdecode hrun
  refine ⟨helim.decoded_result.decode_encode, ?_⟩
  -- The second run starts where the map takes the entry points of the first.
  have hmapped : ∀ entry ∈ entries, ∃ new, (compaction { script with
      instructions := live entries script.instructions }).map.get? entry = some new := by
    intro entry hentry
    obtain ⟨ins, hmem, hoffset⟩ := hentries entry hentry
    obtain ⟨new, hget, -⟩ := helim.related_entry hentry hmem hoffset
    exact ⟨new, hget⟩
  obtain ⟨entries', hmoved⟩ := exists_forall₂ hmapped
  have hnews : entries.map (compaction { script with
      instructions := live entries script.instructions }).map.get? = entries'.map some := by
    rw [← List.forall₂_eq_eq_eq, List.forall₂_map_left_iff, List.forall₂_map_right_iff]
    exact hmoved
  have hentries' : ∀ entry ∈ entries, ∀ new, (compaction { script with
      instructions := live entries script.instructions }).map.get? entry = some new →
      new ∈ entries' := by
    intro entry hentry new hget
    obtain ⟨found, hfound, heq⟩ : ∃ found ∈ entries', some found = some new := by
      rw [← List.mem_map, ← hnews, ← hget]
      exact List.mem_map_of_mem hentry
    rwa [← Option.some.inj heq]
  refine ⟨entries', hnews, _, helim.eliminateDead_again hentries hentries', ?_⟩
  intro old new
  exact helim.decoded_result.compaction_get?_iff

/-- A `NOP` that is jumped to stays in both runs. -/
theorem eliminateDead_idempotent_jump_to_nop : ∃ map result,
    eliminateDead ⟨[⟨.jmp, [3], 0⟩, ⟨.push1, [], 2⟩, ⟨.nop, [], 3⟩, ⟨.ret, [], 4⟩], 5⟩ [3] =
      (.ok map, result) ∧
    decode result.encode = .ok result ∧
      ∃ entries', [3].map map.get? = entries'.map some ∧
        ∃ again, result.eliminateDead entries' = (.ok again, result) ∧
          ∀ old new, again.get? old = some new ↔
            new = old ∧ ∃ ins ∈ result.instructions, ins.offset = old := by
  have hdecode : decode [0x22, 3, 0x11, 0x21, 0x40] =
      .ok ⟨[⟨.jmp, [3], 0⟩, ⟨.push1, [], 2⟩, ⟨.nop, [], 3⟩, ⟨.ret, [], 4⟩], 5⟩ := rfl
  have hdecoded := decoded_of_decode (by decide) hdecode
  obtain ⟨map, result, hrun⟩ : ∃ map result, eliminateDead _ [3] = (.ok map, result) := by
    apply hdecoded.eliminateDead_succeeds
    intro ins hmem _ index d hread
    obtain ⟨cls, hcls, hlt, rfl⟩ := Instruction.readAddress_eq_ok_iff.1 hread
    simp only [List.mem_cons, List.not_mem_nil, or_false] at hmem
    rcases hmem with rfl | rfl | rfl | rfl <;> cases hcls
    cases hlt with
    | refl => exact ⟨3, by decide, .inr ⟨⟨.nop, [], 3⟩, by decide, rfl⟩⟩
    | step hlt => cases hlt
  refine ⟨map, result, hrun, eliminateDead_idempotent (by decide) hdecode ?_ hrun⟩
  simp

end ContractLinker.Script
