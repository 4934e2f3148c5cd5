import Mathlib
import ContractLinker.Proofs.ControlFlow
import ContractLinker.Proofs.Reachability
import ContractLinker.Proofs.Relayout
import ContractLinker.Script.DeadCode

namespace ContractLinker.Script

/-- Traces carry over along a relation when steps do, each answered by a run with the same label,
and so do the ends. -/
theorem shows_of_simulation {s s' : Script} {R : Int → Int → Prop}
    (hstep : ∀ a b label a', R a b → Step s a label a' →
      ∃ b', R a' b' ∧ ∀ trace e, Shows s' b' trace e → Shows s' b (label.toList ++ trace) e)
    (hend : ∀ a b e, R a b → Ends s a e → Shows s' b [] e)
    {a b : Int} {trace : List Label} {e : Ending} (hrel : R a b) (h : Shows s a trace e) :
    Shows s' b trace e := by
  induction h generalizing b with
  | done h => exact hend _ _ _ hrel h
  | step h _ ih =>
    obtain ⟨b', hrel', hanswer⟩ := hstep _ _ _ _ hrel h
    exact hanswer _ _ (ih hrel')

/-- A script as it comes out of the decoder, short enough for offsets to be signed words. -/
structure Decoded (script : Script) : Prop where
  laidOut : LaidOut 0 script.instructions
  framed : ∀ ins ∈ script.instructions, ins.WellFramed
  byteLength : script.byteLength = extent script.instructions
  addressable : script.byteLength < Bytes.bound 8 / 2

/-- A script as decoded, and the outcome of removing its dead code. -/
structure Eliminated (entries : List Nat) (script result : Script) : Prop extends
    Decoded script where
  newLength : result.byteLength = extent (live entries script.instructions)
  moved : List.Forall₂
    (Move.Moves (compaction { script with instructions := live entries script.instructions }))
    (live entries script.instructions) result.instructions

namespace Eliminated

def keeps (entries : List Nat) (script : Script) (ins : Instruction) : Bool :=
  (reachable entries script.instructions).contains ins.signedOffset

/-- Control at `behind`, if it gets there, only meets kept instructions and `NOP`. -/
abbrev Sweeps (entries : List Nat) (script : Script) (behind : List Instruction) : Prop :=
  Marks.Swept (reachable entries script.instructions) (behind.map Instruction.waypoint)

/-- The two offsets lie in front of `behind` in the script and in what is left of it. -/
def Related (entries : List Nat) (script : Script) (o o' : Int) : Prop :=
  ∃ before behind, script.instructions = before ++ behind ∧ Sweeps entries script behind ∧
    o = extent before ∧ o' = extent (before.filter (keeps entries script))

/-- The two offsets are the places of one kept instruction, before and after, or the two ends. -/
def Anchored (entries : List Nat) (script : Script) (old new : Nat) : Prop :=
  ∃ before behind, script.instructions = before ++ behind ∧
    (∀ ins rest, behind = ins :: rest → keeps entries script ins = true) ∧
    old = extent before ∧ new = extent (before.filter (keeps entries script))

variable {entries : List Nat} {script : Script}

theorem live_eq : live entries script.instructions =
    script.instructions.filter (keeps entries script) := rfl

theorem live_split {before behind : List Instruction} {ins : Instruction}
    (hsplit : script.instructions = before ++ ins :: behind)
    (hkeep : keeps entries script ins = true) :
    live entries script.instructions = before.filter (keeps entries script) ++
      ins :: behind.filter (keeps entries script) := by
  rw [live_eq, hsplit, List.filter_append, List.filter_cons_of_pos hkeep]

/-- Control that may go on to `behind` stands at corresponding places. -/
theorem related_next {before behind : List Instruction} {ins : Instruction}
    (hsplit : script.instructions = before ++ ins :: behind)
    (hswept : Sweeps entries script (ins :: behind)) (hterm : ins.opcode.isTerminator = false) :
    Related entries script (extent before + ins.size)
      (extent (before.filter (keeps entries script)) +
        if keeps entries script ins then ins.size else 0) := by
  have hsplit' : script.instructions = (before ++ [ins]) ++ behind :=
    hsplit.trans (List.append_cons before ins behind)
  refine ⟨before ++ [ins], behind, hsplit', hswept.2 hterm, ?_, ?_⟩
  · rw [extent_append]
    simp [extent]
  · rw [List.filter_append, extent_append]
    cases hkeep : keeps entries script ins <;> simp [hkeep, extent]

theorem plainOperand_image {m : Move} {ins image : Instruction} (hframed : ins.WellFramed)
    (himage : Move.Moves m ins image) : image.plainOperand = ins.plainOperand := by
  cases hcls : ins.opcode.addressClass with
  | none =>
    rw [Instruction.plainOperand_of_no_address hcls,
      Instruction.plainOperand_of_no_address (himage.opcode ▸ hcls), himage.operand hcls]
  | some cls =>
    rw [Instruction.plainOperand_of_addressClass hframed hcls,
      Instruction.plainOperand_of_addressClass himage.framed (himage.opcode ▸ hcls)]

theorem label?_image {m : Move} {ins image : Instruction} (hframed : ins.WellFramed)
    (himage : Move.Moves m ins image) (exit : Exit) : image.label? exit = ins.label? exit := by
  simp only [Instruction.label?, himage.opcode, plainOperand_image hframed himage]

/-- What is not kept although control meets it is a `NOP`. -/
theorem nop_of_not_keeps {ins : Instruction} {behind : List Instruction}
    (hswept : Sweeps entries script (ins :: behind)) (hkeep : keeps entries script ins = false) :
    ins.opcode = .nop := by
  rcases hswept.1 with hnop | ⟨hmem, -⟩
  · exact hnop
  · rw [Instruction.waypoint_offset, Std.HashSet.mem_iff_contains] at hmem
    rw [keeps, hmem] at hkeep
    cases hkeep

end Eliminated

namespace Decoded

open Eliminated

variable {entries : List Nat} {script : Script} (h : Decoded script)
include h

theorem offset_lt {ins : Instruction} (hmem : ins ∈ script.instructions) :
    ins.offset < Bytes.bound 8 / 2 := by
  have hbounds := h.laidOut.bounds hmem
  have hsize := ins.size_pos
  have hlen := h.byteLength
  have haddr := h.addressable
  omega

theorem signedOffset_eq {ins : Instruction} (hmem : ins ∈ script.instructions) :
    ins.signedOffset = ins.offset :=
  Instruction.signed64_of_lt (h.offset_lt hmem)

theorem pairwise_signed :
    script.instructions.Pairwise fun a b => a.signedOffset < b.signedOffset := by
  apply h.laidOut.pairwise.imp_of_mem
  intro a b ha hb hlt
  rw [h.signedOffset_eq ha, h.signedOffset_eq hb]
  omega

theorem distinct_live :
    (live entries script.instructions).Pairwise fun a b => a.offset ≠ b.offset :=
  (h.laidOut.pairwise.filter _).imp Nat.ne_of_lt

theorem offset_of_split {before behind : List Instruction} {ins : Instruction}
    (hsplit : script.instructions = before ++ ins :: behind) : ins.offset = extent before := by
  have hlaid := h.laidOut
  rw [hsplit, laidOut_append, Nat.zero_add] at hlaid
  exact hlaid.2.1

theorem head_of_offset {before behind : List Instruction} {ins : Instruction}
    (hsplit : script.instructions = before ++ behind) (hmem : ins ∈ script.instructions)
    (hoffset : (ins.offset : Int) = extent before) : ∃ rest, behind = ins :: rest := by
  have hlaid := h.laidOut
  rw [hsplit] at hlaid hmem
  exact hlaid.head_of_offset hmem (by omega)

theorem anchored_of_split {before behind : List Instruction} {ins : Instruction}
    (hsplit : script.instructions = before ++ ins :: behind)
    (hkeep : keeps entries script ins = true) :
    Anchored entries script ins.offset (extent (before.filter (keeps entries script))) := by
  refine ⟨before, ins :: behind, hsplit, ?_, h.offset_of_split hsplit, rfl⟩
  intro first rest heq
  cases heq
  exact hkeep

/-- Targets are 64-bit words, but one that the layout accepts lies inside the script. -/
theorem place_of_target? {ins : Instruction} {index new : Nat} {d : Int}
    (hmem : ins ∈ script.instructions) (hread : ins.readAddress index = .ok d)
    (hnew : (compaction { script with instructions := live entries script.instructions }).target?
      (Instruction.signed64 (ins.offset + d)) = some new) :
    ∃ old : Nat, (ins.offset : Int) + d = old ∧
      (old = script.byteLength ∧ new = extent (live entries script.instructions) ∨
        (compaction { script with instructions := live entries script.instructions }).map.get? old =
          some new) := by
  obtain ⟨old, hold, hplace⟩ := Move.target?_eq_some hnew
  rw [compaction_oldLength, compaction_newLength] at hplace
  exact ⟨old, Instruction.eq_of_signed64_eq (h.offset_lt hmem)
    (Instruction.fitsSigned_readAddress hread) hold, hplace⟩

/-- The layout only knows places that something kept marks, and the end. -/
theorem anchored_target {old new : Nat}
    (hnew : old = script.byteLength ∧ new = extent (live entries script.instructions) ∨
      (compaction { script with instructions := live entries script.instructions }).map.get? old =
        some new) :
    Anchored entries script old new := by
  rcases hnew with ⟨rfl, rfl⟩ | hget
  · exact ⟨script.instructions, [], (List.append_nil _).symm, by simp, h.byteLength, rfl⟩
  · obtain ⟨_, ins, _, hlive, rfl, -⟩ := (compaction_get?_eq_some_iff h.distinct_live).1 hget
    have hmem : ins ∈ live entries script.instructions := List.mem_iff_append.2 ⟨_, _, hlive⟩
    rw [live_eq, List.mem_filter] at hmem
    obtain ⟨hins, hkeep⟩ := hmem
    obtain ⟨before, behind, hsplit⟩ := List.append_of_mem hins
    -- The place of `ins` among the kept ones is what is kept in front of it in the whole script.
    rw [compaction_get?_of_split h.distinct_live (live_split hsplit hkeep)] at hget
    cases hget
    exact h.anchored_of_split hsplit hkeep

theorem related_of_anchored {old new : Nat} (hanchored : Anchored entries script old new) :
    Related entries script old new := by
  obtain ⟨before, behind, hsplit, hfirst, rfl, rfl⟩ := hanchored
  refine ⟨before, behind, hsplit, ?_, rfl, rfl⟩
  cases behind with
  | nil => trivial
  | cons ins rest =>
    apply swept_of_mem_reachable h.pairwise_signed hsplit
    exact Std.HashSet.mem_iff_contains.2 (hfirst ins rest rfl)

/-- A place that the layout knows as a target corresponds to the place it is moved to. -/
theorem related_target {old new : Nat}
    (hnew : old = script.byteLength ∧ new = extent (live entries script.instructions) ∨
      (compaction { script with instructions := live entries script.instructions }).map.get? old =
        some new) :
    Related entries script old new :=
  h.related_of_anchored (h.anchored_target hnew)

theorem related_start : Related entries script 0 0 := by
  have hnonneg (ins : Instruction) (hmem : ins ∈ script.instructions) : 0 ≤ ins.signedOffset := by
    rw [h.signedOffset_eq hmem]
    omega
  exact ⟨[], script.instructions, rfl, swept_from_start h.pairwise_signed hnonneg, rfl, rfl⟩

theorem related_entry {entry : Nat} (hentry : entry ∈ entries) {ins : Instruction}
    (hmem : ins ∈ script.instructions) (hoffset : ins.offset = entry) :
    ∃ new, (compaction { script with instructions := live entries script.instructions }).map.get?
      entry = some new ∧ Related entries script entry new := by
  obtain ⟨before, behind, hsplit⟩ := List.append_of_mem hmem
  have hreached : ins.signedOffset ∈ reachable entries script.instructions := by
    rw [Instruction.signedOffset, hoffset]
    exact mem_reachable_of_mem_entries hentry
  have hkeep : keeps entries script ins = true := Std.HashSet.mem_iff_contains.1 hreached
  have hget : (compaction { script with
      instructions := live entries script.instructions }).map.get? ins.offset = _ :=
    compaction_get?_of_split h.distinct_live (live_split hsplit hkeep)
  rw [hoffset] at hget
  exact ⟨_, hget, h.related_target (.inr hget)⟩

end Decoded

namespace Eliminated

variable {entries : List Nat} {script result : Script} (h : Eliminated entries script result)
include h

theorem laidOut_result : LaidOut 0 result.instructions :=
  (laidOut_of_moves h.distinct_live (List.nil_append _).symm h.moved).1

theorem extent_result : extent result.instructions = result.byteLength := by
  rw [h.newLength]
  exact (laidOut_of_moves h.distinct_live (List.nil_append _).symm h.moved).2

/-- A kept instruction has its image at the corresponding place. -/
theorem exists_image {before behind : List Instruction} {ins : Instruction}
    (hsplit : script.instructions = before ++ ins :: behind)
    (hkeep : keeps entries script ins = true) :
    ∃ image ∈ result.instructions,
      Move.Moves (compaction { script with instructions := live entries script.instructions })
        ins image ∧ image.offset = extent (before.filter (keeps entries script)) :=
  exists_moved h.distinct_live h.moved (live_split hsplit hkeep)

/-- An instruction and its image have the same exits, and these lead to corresponding places. -/
theorem successor_related {before behind : List Instruction} {ins image : Instruction}
    (hsplit : script.instructions = before ++ ins :: behind)
    (hswept : Sweeps entries script (ins :: behind)) (hkeep : keeps entries script ins = true)
    (himage : Move.Moves
      (compaction { script with instructions := live entries script.instructions }) ins image)
    (hoffset : image.offset = extent (before.filter (keeps entries script))) (exit : Exit) :
    Option.Rel (Related entries script) (ins.successor? exit) (image.successor? exit) := by
  have hmem : ins ∈ script.instructions := List.mem_iff_append.2 ⟨before, behind, hsplit⟩
  cases exit with
  | next =>
    simp only [Instruction.successor?, himage.opcode, himage.size]
    cases hterm : ins.opcode.isTerminator with
    | true => exact .none
    | false =>
      have hrel := related_next hsplit hswept hterm
      rw [if_pos hkeep, ← h.offset_of_split hsplit, ← hoffset] at hrel
      exact .some hrel
  | address index =>
    simp only [Instruction.successor?]
    cases hread : ins.readAddress index with
    | error e =>
      cases hread' : image.readAddress index with
      | error e' => exact .none
      | ok d' =>
        -- Which slots there are depends on the opcode alone, and that is kept.
        obtain ⟨d, hd⟩ := Instruction.exists_readAddress himage.opcode.symm hread'
        rw [hd] at hread
        cases hread
    | ok d =>
      obtain ⟨new, hnew, hread'⟩ := himage.address index _
        (Instruction.getElem?_targets.2 ⟨d, hread, rfl⟩)
      obtain ⟨old, hstay, hplace⟩ := h.place_of_target? hmem hread hnew
      have hrel := h.related_target hplace
      simp only [hread', hstay]
      rw [show (image.offset : Int) + (new - image.offset) = new by omega]
      exact .some hrel

theorem step_forward (a b : Int) (label : Option Label) (a' : Int)
    (hrel : Related entries script a b) (hstep : Step script a label a') :
    ∃ b', Related entries script a' b' ∧
      ∀ trace e, Shows result b' trace e → Shows result b (label.toList ++ trace) e := by
  cases hstep with
  | @leave ins exit _ hmem hsucc =>
    obtain ⟨before, behind, hsplit, hswept, ha, rfl⟩ := hrel
    obtain ⟨rest, rfl⟩ := h.head_of_offset hsplit hmem ha
    cases hkeep : keeps entries script ins with
    | true =>
      obtain ⟨image, himage_mem, himage, hoffset⟩ := h.exists_image hsplit hkeep
      have hrel := h.successor_related hsplit hswept hkeep himage hoffset exit
      rw [hsucc] at hrel
      generalize hsucc' : image.successor? exit = found at hrel
      cases hrel with
      | @some _ b' hrel =>
        refine ⟨b', hrel, fun trace e hshows => ?_⟩
        have hleave := Step.leave himage_mem hsucc'
        rw [hoffset, label?_image (h.framed ins hmem) himage] at hleave
        exact .step hleave hshows
    | false =>
      -- The step over a removed `NOP` is silent, and the result stays where it is.
      have hnop := nop_of_not_keeps hswept hkeep
      obtain ⟨-, rfl⟩ := (Instruction.successor?_nop hnop).1 hsucc
      have hrel := related_next hsplit hswept (by rw [hnop]; rfl)
      rw [hkeep, ← ha] at hrel
      refine ⟨_, hrel, fun trace e hshows => ?_⟩
      simpa [Instruction.label?, hnop] using hshows

theorem ends_forward (a b : Int) (e : Ending) (hrel : Related entries script a b)
    (hend : Ends script a e) : Shows result b [] e := by
  obtain ⟨before, behind, hsplit, hswept, ha, rfl⟩ := hrel
  cases hend with
  | cut => exact .done (.cut _)
  | scriptEnd =>
    have hlen := h.byteLength
    rw [hsplit, extent_append] at hlen
    cases extent_eq_zero (show extent behind = 0 by omega)
    have hend : result.byteLength = extent (before.filter (keeps entries script)) := by
      rw [h.newLength, live_eq, hsplit, List.append_nil]
    rw [← hend]
    exact .done .scriptEnd
  | @stopped ins hmem hsucc =>
    obtain ⟨rest, rfl⟩ := h.head_of_offset hsplit hmem ha
    have hkeep : keeps entries script ins = true := by
      by_contra hkeep
      -- A `NOP` has a successor, so control does not stop there.
      have hnop := nop_of_not_keeps hswept (Bool.eq_false_iff.2 hkeep)
      have hnext := (Instruction.successor?_nop hnop).2 ⟨rfl, rfl⟩
      rw [hsucc] at hnext
      cases hnext
    obtain ⟨image, himage_mem, himage, hoffset⟩ := h.exists_image hsplit hkeep
    have hstuck (exit : Exit) : image.successor? exit = none := by
      have hrel := h.successor_related hsplit hswept hkeep himage hoffset exit
      rw [hsucc exit] at hrel
      generalize image.successor? exit = found at hrel ⊢
      cases hrel
      rfl
    have hstopped := Ends.stopped himage_mem hstuck
    rw [hoffset, himage.opcode, plainOperand_image (h.framed ins hmem) himage] at hstopped
    exact .done hstopped

/-- Control passes in silence over what was removed, up to something kept or to the end. -/
theorem settle {before behind : List Instruction}
    (hsplit : script.instructions = before ++ behind) (hswept : Sweeps entries script behind) :
    ∃ before' behind', script.instructions = before' ++ behind' ∧
      Sweeps entries script behind' ∧
      before'.filter (keeps entries script) = before.filter (keeps entries script) ∧
      (∀ trace e, Shows script (extent before') trace e → Shows script (extent before) trace e) ∧
      ∀ ins rest, behind' = ins :: rest → keeps entries script ins = true := by
  -- By induction on what lies ahead, as a removed `NOP` is stepped over in silence.
  induction behind generalizing before with
  | nil => exact ⟨before, [], hsplit, hswept, rfl, fun _ _ => id, nofun⟩
  | cons ins rest ih =>
    cases hkeep : keeps entries script ins with
    | true =>
      refine ⟨before, ins :: rest, hsplit, hswept, rfl, fun _ _ => id, ?_⟩
      intro first others heq
      cases heq
      exact hkeep
    | false =>
      have hnop := nop_of_not_keeps hswept hkeep
      have hsplit' : script.instructions = (before ++ [ins]) ++ rest :=
        hsplit.trans (List.append_cons before ins rest)
      obtain ⟨before', behind', hs, hsw, hfilter, hshows, hhead⟩ :=
        ih hsplit' (hswept.2 (by rw [Instruction.waypoint, hnop]; rfl))
      refine ⟨before', behind', hs, hsw, ?_, ?_, hhead⟩
      · rw [hfilter, List.filter_append, List.filter_cons_of_neg (by rw [hkeep]; decide),
          List.filter_nil, List.append_nil]
      · intro trace e hrest
        have hmem : ins ∈ script.instructions := List.mem_iff_append.2 ⟨before, rest, hsplit⟩
        have hleave := Step.leave hmem ((Instruction.successor?_nop hnop).2 ⟨rfl, rfl⟩)
        have hnext := hshows trace e hrest
        rw [extent_append] at hnext
        rw [h.offset_of_split hsplit, Instruction.label?, if_pos hnop] at hleave
        exact .step hleave (by simpa [extent] using hnext)

theorem image_of_offset {before behind : List Instruction}
    (hsplit : script.instructions = before ++ behind)
    (hhead : ∀ ins rest, behind = ins :: rest → keeps entries script ins = true)
    {image : Instruction} (hmem : image ∈ result.instructions)
    (hoffset : image.offset = extent (before.filter (keeps entries script))) :
    ∃ ins rest, behind = ins :: rest ∧ keeps entries script ins = true ∧
      Move.Moves (compaction { script with instructions := live entries script.instructions })
        ins image := by
  cases behind with
  | nil =>
    have hbounds := h.laidOut_result.bounds hmem
    have hsize := image.size_pos
    have hend := h.extent_result
    rw [h.newLength, live_eq, hsplit, List.append_nil] at hend
    omega
  | cons ins rest =>
    have hkeep := hhead ins rest rfl
    obtain ⟨other, hother_mem, hother, hother_offset⟩ := h.exists_image hsplit hkeep
    have heq : other = image :=
      h.laidOut_result.eq_of_offset hother_mem hmem (by rw [hoffset, hother_offset])
    exact ⟨ins, rest, rfl, hkeep, heq ▸ hother⟩

theorem step_backward (b a : Int) (label : Option Label) (b' : Int)
    (hrel : Related entries script a b) (hstep : Step result b label b') :
    ∃ a', Related entries script a' b' ∧
      ∀ trace e, Shows script a' trace e → Shows script a (label.toList ++ trace) e := by
  obtain ⟨before₀, behind₀, hsplit₀, hswept₀, rfl, hb⟩ := hrel
  obtain ⟨before, behind, hsplit, hswept, hfilter, hshows, hhead⟩ := h.settle hsplit₀ hswept₀
  cases hstep with
  | @leave image exit _ hmem hsucc =>
    have hoffset : image.offset = extent (before.filter (keeps entries script)) := by
      rw [hfilter]
      omega
    obtain ⟨ins, rest, rfl, hkeep, himage⟩ := h.image_of_offset hsplit hhead hmem hoffset
    have hins : ins ∈ script.instructions := List.mem_iff_append.2 ⟨before, rest, hsplit⟩
    have hrel := h.successor_related hsplit hswept hkeep himage hoffset exit
    rw [hsucc] at hrel
    generalize hsucc' : ins.successor? exit = found at hrel
    cases hrel with
    | @some a' _ hrel =>
      refine ⟨a', hrel, fun trace e hrest => hshows _ e ?_⟩
      have hleave := Step.leave hins hsucc'
      rw [h.offset_of_split hsplit, ← label?_image (h.framed ins hins) himage] at hleave
      exact .step hleave hrest

theorem ends_backward (b a : Int) (e : Ending) (hrel : Related entries script a b)
    (hend : Ends result b e) : Shows script a [] e := by
  obtain ⟨before₀, behind₀, hsplit₀, hswept₀, rfl, hb⟩ := hrel
  obtain ⟨before, behind, hsplit, hswept, hfilter, hshows, hhead⟩ := h.settle hsplit₀ hswept₀
  apply hshows
  cases hend with
  | cut => exact .done (.cut _)
  | scriptEnd =>
    cases behind with
    | nil =>
      have hlen : script.byteLength = extent before := by
        rw [h.byteLength, hsplit, List.append_nil]
      rw [← hlen]
      exact .done .scriptEnd
    | cons ins rest =>
      -- Something kept would still take room in front of the end.
      have hlen := h.newLength
      have hsize := ins.size_pos
      rw [live_split hsplit (hhead ins rest rfl), extent_append, hfilter] at hlen
      simp only [extent] at hlen
      omega
  | @stopped image hmem hsucc =>
    have hoffset : image.offset = extent (before.filter (keeps entries script)) := by
      rw [hfilter]
      omega
    obtain ⟨ins, rest, rfl, hkeep, himage⟩ := h.image_of_offset hsplit hhead hmem hoffset
    have hins : ins ∈ script.instructions := List.mem_iff_append.2 ⟨before, rest, hsplit⟩
    have hstuck (exit : Exit) : ins.successor? exit = none := by
      have hrel := h.successor_related hsplit hswept hkeep himage hoffset exit
      rw [hsucc exit] at hrel
      generalize ins.successor? exit = found at hrel ⊢
      cases hrel
      rfl
    have hstopped := Ends.stopped hins hstuck
    rw [h.offset_of_split hsplit, ← himage.opcode,
      ← plainOperand_image (h.framed ins hins) himage] at hstopped
    exact .done hstopped

/-- The same traces start at corresponding places. -/
theorem traces_eq {a b : Int} (hrel : Related entries script a b) :
    result.traces b = script.traces a := by
  ext ⟨trace, e⟩
  constructor
  · intro hshows
    exact shows_of_simulation (R := fun b a => Related entries script a b)
      h.step_backward h.ends_backward hrel hshows
  · intro hshows
    exact shows_of_simulation h.step_forward h.ends_forward hrel hshows

end Eliminated

theorem decoded_of_decode {bytes : Bytes} {script : Script} (hlen : bytes.length < 2 ^ 63)
    (hdecode : decode bytes = .ok script) : Decoded script := by
  obtain ⟨hcode, hlength⟩ := decode_eq_ok_iff.1 hdecode
  obtain ⟨hbytes, hlaid, hframed⟩ := instructionsOf_eq_ok_iff.1 hcode
  refine ⟨hlaid, hframed, ?_, ?_⟩
  · rw [hlength, ← hbytes, length_encodeAll]
  · rw [hlength]
    exact hlen

theorem Decoded.eliminated {entries : List Nat} {script result : Script} {map : OffsetMap}
    (h : Decoded script) (hrun : script.eliminateDead entries = (.ok map, result)) :
    Eliminated entries script result ∧
      map = (compaction { script with instructions := live entries script.instructions }).map := by
  have hlive (ins : Instruction) (hmem : ins ∈ live entries script.instructions) :
      ins.WellFramed := h.framed ins (List.mem_filter.1 hmem).1
  obtain ⟨hmap, hnew, hmoved⟩ := relayout_ok hlive hrun
  exact ⟨⟨h, hnew, hmoved⟩, hmap⟩

theorem eliminated_of_decode {bytes : Bytes} {entries : List Nat} {script result : Script}
    {map : OffsetMap} (hlen : bytes.length < 2 ^ 63) (hdecode : decode bytes = .ok script)
    (hrun : script.eliminateDead entries = (.ok map, result)) :
    Eliminated entries script result ∧
      map = (compaction { script with instructions := live entries script.instructions }).map :=
  (decoded_of_decode hlen hdecode).eliminated hrun

/-- Removing dead code changes no trace, neither from the start nor from an entry point at an
instruction, which the map knows. A byte string in memory is shorter than `2 ^ 63`; past that,
targets would no longer fit their signed words. -/
theorem eliminateDead_preserves_traces {bytes : Bytes} {entries : List Nat}
    {script result : Script} {map : OffsetMap} (hlen : bytes.length < 2 ^ 63)
    (hdecode : decode bytes = .ok script)
    (hrun : script.eliminateDead entries = (.ok map, result)) :
    result.traces 0 = script.traces 0 ∧
      ∀ entry ∈ entries, (∃ ins ∈ script.instructions, ins.offset = entry) →
        ∃ new, map.get? entry = some new ∧ result.traces new = script.traces entry := by
  obtain ⟨helim, rfl⟩ := eliminated_of_decode hlen hdecode hrun
  refine ⟨helim.traces_eq helim.related_start, ?_⟩
  intro entry hentry hins
  obtain ⟨ins, hmem, hoffset⟩ := hins
  obtain ⟨new, hget, hrel⟩ := helim.related_entry hentry hmem hoffset
  exact ⟨new, hget, helim.traces_eq hrel⟩

theorem eliminateDead_preserves_traces_jump_over :
    traces ⟨[⟨.jmp, [2], 0⟩, ⟨.ret, [], 2⟩], 3⟩ 0 =
      traces ⟨[⟨.jmp, [3], 0⟩, ⟨.push1, [], 2⟩, ⟨.ret, [], 3⟩], 4⟩ 0 ∧
    traces ⟨[⟨.jmp, [2], 0⟩, ⟨.ret, [], 2⟩], 3⟩ 2 =
      traces ⟨[⟨.jmp, [3], 0⟩, ⟨.push1, [], 2⟩, ⟨.ret, [], 3⟩], 4⟩ 3 := by
  have hlive : live [3] [⟨.jmp, [3], 0⟩, ⟨.push1, [], 2⟩, ⟨.ret, [], 3⟩] =
      [⟨.jmp, [3], 0⟩, ⟨.ret, [], 3⟩] := by cbv
  have hdistinct : [(⟨.jmp, [3], 0⟩ : Instruction), ⟨.ret, [], 3⟩].Pairwise
      fun a b => a.offset ≠ b.offset := by decide
  have hjmp : (compaction ⟨[⟨.jmp, [3], 0⟩, ⟨.ret, [], 3⟩], 4⟩).map.get? 0 = some 0 :=
    (compaction_get?_eq_some_iff hdistinct).2 ⟨[], _, _, rfl, rfl, rfl⟩
  have hret : (compaction ⟨[⟨.jmp, [3], 0⟩, ⟨.ret, [], 3⟩], 4⟩).map.get? 3 = some 2 :=
    (compaction_get?_eq_some_iff hdistinct).2 ⟨[_], _, _, rfl, rfl, rfl⟩
  have htarget : (compaction ⟨[⟨.jmp, [3], 0⟩, ⟨.ret, [], 3⟩], 4⟩).target? 3 = some 2 := by
    simpa [Move.target?, compaction_oldLength] using hret
  have htargets : Instruction.targets ⟨.jmp, [3], 0⟩ = [3] := by decide
  have hnone : Instruction.targets ⟨.ret, [], 3⟩ = [] := by decide
  have hwrite : Instruction.writeAddress ⟨.jmp, [3], 0⟩ 0 2 = (.ok (), ⟨.jmp, [2], 0⟩) := rfl
  have hlength : (compaction ⟨[⟨.jmp, [3], 0⟩, ⟨.ret, [], 3⟩], 4⟩).newLength = 3 := rfl
  have hrun : eliminateDead ⟨[⟨.jmp, [3], 0⟩, ⟨.push1, [], 2⟩, ⟨.ret, [], 3⟩], 4⟩ [3] =
      (.ok (compaction ⟨[⟨.jmp, [3], 0⟩, ⟨.ret, [], 3⟩], 4⟩).map,
        ⟨[⟨.jmp, [2], 0⟩, ⟨.ret, [], 2⟩], 3⟩) := by
    rw [eliminateDead, hlive, relayout]
    simp [Move.applyAll, Move.apply, Move.retarget, hjmp, hret, htarget, htargets, hnone, hwrite,
      hlength, Bytes.FitsSigned, Bytes.bound]
  have hdecode : decode [0x22, 3, 0x11, 0x40] =
      .ok ⟨[⟨.jmp, [3], 0⟩, ⟨.push1, [], 2⟩, ⟨.ret, [], 3⟩], 4⟩ := rfl
  obtain ⟨hstart, hentry⟩ := eliminateDead_preserves_traces (by decide) hdecode hrun
  obtain ⟨new, hnew, heq⟩ := hentry 3 (by decide) ⟨⟨.ret, [], 3⟩, by decide, rfl⟩
  rw [hret] at hnew
  cases hnew
  exact ⟨hstart, heq⟩

end ContractLinker.Script
