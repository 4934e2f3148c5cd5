import ContractLinker.Command
import ContractLinker.Proofs.Compaction
import ContractLinker.Proofs.Marking
import ContractLinker.Proofs.Spelling
import ContractLinker.Proofs.Translation

namespace ContractLinker

theorem Marks.Swept.all_nop {touched : Std.HashSet Int} {code : List Waypoint}
    (h : Swept touched code) (hnone : ∀ w ∈ code, w.offset ∉ touched) :
    ∀ w ∈ code, w.opcode = .nop := by
  induction code with
  | nil => simp
  | cons w rest ih =>
    rw [List.forall_mem_cons] at hnone ⊢
    have hnop : w.opcode = .nop := h.1.resolve_right fun hmarked => hnone.1 hmarked.1
    exact ⟨hnop, ih (h.2 (by rw [hnop]; rfl)) hnone.2⟩

namespace Script

open Eliminated

/-- Nothing is left of a script only if it does nothing and nothing enters it. -/
theorem Decoded.live_eq_nil_iff {entries : List Nat} {script : Script} (h : Decoded script)
    (hentries : ∀ entry ∈ entries, ∃ ins ∈ script.instructions, ins.offset = entry) :
    live entries script.instructions = [] ↔
      (∀ ins ∈ script.instructions, ins.opcode = .nop) ∧ entries = [] := by
  rw [live_eq, List.filter_eq_nil_iff]
  constructor
  · intro hnone
    constructor
    · have hnonneg (ins : Instruction) (hmem : ins ∈ script.instructions) :
          0 ≤ ins.signedOffset := by
        rw [h.signedOffset_eq hmem]
        omega
      -- With no mark at all, control runs from the start over `NOP` only, and so over everything.
      have hswept : Sweeps entries script script.instructions :=
        swept_from_start h.pairwise_signed hnonneg
      intro ins hmem
      apply hswept.all_nop _ ins.waypoint (List.mem_map_of_mem hmem)
      intro w hw
      obtain ⟨other, hother, rfl⟩ := List.mem_map.1 hw
      rw [Instruction.waypoint_offset, Std.HashSet.mem_iff_contains]
      exact hnone other hother
    · apply List.eq_nil_iff_forall_not_mem.2
      intro entry hentry
      obtain ⟨ins, hmem, rfl⟩ := hentries entry hentry
      apply hnone ins hmem
      exact Std.HashSet.mem_iff_contains.1 (mem_reachable_of_mem_entries hentry)
  · rintro ⟨hnops, rfl⟩ ins hmem hkeep
    rcases reason_of_mem_reachable h.pairwise_signed (Std.HashSet.mem_iff_contains.2 hkeep) with
      hentry | ⟨w, rest, harrives, hnop, -⟩
    · cases hentry
    · -- What control comes to is an instruction of the script.
      have hw := harrives.suffix.mem List.mem_cons_self
      rw [List.toList_toArray] at hw
      obtain ⟨other, hother, rfl⟩ := List.mem_map.1 hw
      exact hnop (hnops other hother)

theorem Eliminated.result_eq_nil_iff {entries : List Nat} {script result : Script}
    (h : Eliminated entries script result) :
    result.instructions = [] ↔ live entries script.instructions = [] := by
  rw [← List.length_eq_zero_iff, ← List.length_eq_zero_iff, h.moved.length_eq]

/-- `image` is what is left of `ins`. -/
structure Survives (map : OffsetMap) (ins image : Instruction) : Prop where
  offset : map.get? ins.offset = some image.offset
  opcode : image.opcode = ins.opcode
  operand : image.plainOperand = ins.plainOperand

section Survivors

variable {entries : List Nat} {script result : Script} {ins : Instruction}

/-- The map knows what is kept. -/
theorem Decoded.isSome_get? (h : Decoded script) (hmem : ins ∈ script.instructions) :
    ((compaction { script with instructions := live entries script.instructions }).map.get?
      ins.offset).isSome = keeps entries script ins := by
  rw [Bool.eq_iff_iff]
  constructor
  · intro hsome
    obtain ⟨new, hget⟩ := Option.isSome_iff_exists.1 hsome
    obtain ⟨before, other, behind, hlive, hoffset, -⟩ :=
      (compaction_get?_eq_some_iff h.distinct_live).1 hget
    have hother : other ∈ live entries script.instructions :=
      List.mem_iff_append.2 ⟨before, behind, hlive⟩
    have hkeep := (List.mem_filter.1 hother).2
    have heq : other.signedOffset = ins.signedOffset := by
      rw [Instruction.signedOffset, hoffset, Instruction.signedOffset]
    rw [keeps, ← heq]
    exact hkeep
  · intro hkeep
    obtain ⟨before, behind, hsplit⟩ := List.append_of_mem hmem
    rw [compaction_get?_of_split h.distinct_live (live_split hsplit hkeep)]
    rfl

theorem Eliminated.survives_of_moves (h : Eliminated entries script result) {image : Instruction}
    (hmem : ins ∈ script.instructions) (hkeep : keeps entries script ins = true)
    (hmoves : Move.Moves
      (compaction { script with instructions := live entries script.instructions }) ins image) :
    Survives (compaction { script with instructions := live entries script.instructions }).map
      ins image := by
  refine ⟨?_, hmoves.opcode, plainOperand_image (h.framed ins hmem) hmoves⟩
  obtain ⟨new, hget⟩ := Option.isSome_iff_exists.1 ((h.isSome_get? hmem).trans hkeep)
  rw [hmoves.offset, hget, Option.getD_some]

/-- The new script consists of what the map knows, in the old order. -/
theorem Eliminated.survivors (h : Eliminated entries script result) : List.Forall₂
    (Survives (compaction { script with instructions := live entries script.instructions }).map)
    (script.instructions.filter fun ins =>
      ((compaction { script with instructions := live entries script.instructions }).map.get?
        ins.offset).isSome) result.instructions := by
  rw [List.filter_congr fun ins hmem => h.isSome_get? hmem]
  apply h.forall₂_of_moves
  intro ins image hmem hkeep hmoves
  exact h.survives_of_moves hmem hkeep hmoves

theorem Eliminated.exists_survivor (h : Eliminated entries script result)
    (hmem : ins ∈ script.instructions) (hentry : ins.offset ∈ entries) :
    ∃ image ∈ result.instructions, Survives
      (compaction { script with instructions := live entries script.instructions }).map
      ins image := by
  obtain ⟨new, hget, -⟩ := h.related_entry hentry hmem rfl
  have hkeep : keeps entries script ins = true := by
    rw [← h.isSome_get? hmem, hget]
    rfl
  obtain ⟨before, behind, hsplit⟩ := List.append_of_mem hmem
  obtain ⟨image, himage, hmoves, -⟩ := h.exists_image hsplit hkeep
  exact ⟨image, himage, h.survives_of_moves hmem hkeep hmoves⟩

end Survivors

theorem encode_eq_nil_iff {script : Script} : script.encode = [] ↔ script.instructions = [] := by
  rw [← List.length_eq_zero_iff, encode, length_encodeAll]
  constructor
  · exact extent_eq_zero
  · intro hnil
    rw [hnil]
    rfl

end Script

namespace Executable

variable {compiler source : String} {tokens : List Token} {script : Bytes}

theorem validate_of_body {x : Executable} {data : Bytes} (h : x.body = .ok data) :
    ∀ t ∈ x.tokens, t.validate = .ok () := by
  obtain ⟨-, chunks, hchunks, -⟩ := body_eq_ok h
  intro t ht
  obtain ⟨i, hi⟩ := List.getElem?_of_mem ht
  obtain ⟨chunk, -, hchunk⟩ := forall₂_getElem? (Except.mapM_eq_ok_iff.1 hchunks) hi
  exact (Token.encode_eq_ok_iff.1 hchunk).1

theorem build_eq {x : Executable} (h : build compiler source tokens script = .ok x) :
    ∃ data, x.body = .ok data ∧ x = ⟨compiler, source, tokens, script, checksumOf data⟩ := by
  unfold build updateChecksum at h
  cases hchecksum : computeChecksum ⟨compiler, source, tokens, script, 0⟩ with
  | error e =>
    rw [hchecksum] at h
    cases h
  | ok checksum =>
    rw [hchecksum] at h
    cases h
    obtain ⟨data, hbody, hsum⟩ := Except.bind_eq_ok_iff.1 hchecksum
    -- The checksum is not part of the body.
    exact ⟨data, hbody, by rw [Except.ok.inj hsum]⟩

theorem build_ok {x : Executable} (h : build compiler source tokens script = .ok x) :
    x.script = script ∧ checkSizes (Utf8.encode x.compiler) (Utf8.encode x.source)
      x.tokens.length x.script = .ok () ∧ ∀ t ∈ x.tokens, t.validate = .ok () := by
  obtain ⟨data, hbody, hx⟩ := build_eq h
  exact ⟨by rw [hx], (body_eq_ok hbody).1, validate_of_body hbody⟩

theorem exists_build
    (hsizes : checkSizes (Utf8.encode compiler) (Utf8.encode source) tokens.length script = .ok ())
    (hvalid : ∀ t ∈ tokens, t.validate = .ok ()) :
    ∃ x, build compiler source tokens script = .ok x := by
  have hbody := body_of_valid (x := ⟨compiler, source, tokens, script, 0⟩) hsizes hvalid
  rw [build, updateChecksum, computeChecksum_of_body hbody]
  exact ⟨_, rfl⟩

variable {x : Executable} {code result : Script} {entries : List Nat} {map : OffsetMap}
  (hdecode : Script.decode x.script = .ok code)
  (hrun : code.eliminateDead entries = (.ok map, result))
include hdecode hrun

theorem optimize_of_run : x.optimize entries = do
    let executable ← CompileError.lift (build x.compiler x.source x.tokens result.encode)
    return ⟨executable, map, code.instructions.length - result.instructions.length⟩ := by
  rw [optimize, hdecode]
  simp only [CompileError.lift, bind, Except.bind, hrun]

/-- After a successful run only an empty script is refused, as the new one is not longer. -/
theorem optimize_fails_iff (hdecoded : Script.Decoded code)
    (hsizes : checkSizes (Utf8.encode x.compiler) (Utf8.encode x.source) x.tokens.length x.script =
      .ok ()) (hvalid : ∀ t ∈ x.tokens, t.validate = .ok ()) :
    (∃ e, x.optimize entries = .error e) ↔ result.instructions = [] := by
  obtain ⟨helim, -⟩ := hdecoded.eliminated hrun
  obtain ⟨hcompiler, hsource, htokens, -, hscript⟩ := checkSizes_eq_ok_iff.1 hsizes
  -- Of the checks on a new container only the one for an empty script can fail.
  have hlength : result.encode.length ≤ maxScript := by
    have hle := helim.byteLength_le
    rw [← helim.extent_result, (Script.decode_eq_ok_iff.1 hdecode).2] at hle
    rw [Script.encode, Script.length_encodeAll]
    exact hle.trans hscript
  rw [optimize_of_run hdecode hrun, ← Script.encode_eq_nil_iff]
  constructor
  · rintro ⟨e, herror⟩
    by_contra hne
    have hsizes' := checkSizes_eq_ok_iff.2 ⟨hcompiler, hsource, htokens, hne, hlength⟩
    obtain ⟨y, hy⟩ := exists_build hsizes' hvalid
    rw [hy] at herror
    cases herror
  · intro hnil
    cases hbuild : build x.compiler x.source x.tokens result.encode with
    | error e => exact ⟨_, rfl⟩
    | ok y =>
      obtain ⟨hscript', hsizes', -⟩ := build_ok hbuild
      obtain ⟨-, -, -, hne, -⟩ := checkSizes_eq_ok_iff.1 hsizes'
      exact absurd (hscript'.trans hnil) hne

theorem optimize_ok {o : Optimized} (h : x.optimize entries = .ok o) :
    o.offsets = map ∧ o.executable.script = result.encode := by
  rw [optimize_of_run hdecode hrun] at h
  obtain ⟨y, hy, hpure⟩ := Except.bind_eq_ok_iff.1 h
  cases hpure
  exact ⟨rfl, (build_ok (CompileError.lift_eq_ok_iff.1 hy)).1⟩

end Executable

namespace Optimized

/-- Every method stands where the map says, and nothing else has changed. -/
structure Relocates (o : Optimized) (m m' : Manifest) : Prop where
  rest : m' = { m with abi := { m.abi with methods := m'.abi.methods } }
  methods : List.Forall₂ (fun old new : AbiMethod => ∃ offset,
    o.offsets.get? old.offset = some offset ∧ new = { old with offset := offset % Bytes.bound 4 })
    m.abi.methods m'.abi.methods

theorem newOffset_eq_ok_iff {o : Optimized} {method : AbiMethod} {offset : Nat} :
    o.newOffset method = .ok offset ↔
      ∃ new, o.offsets.get? method.offset = some new ∧ offset = new % Bytes.bound 4 := by
  unfold newOffset
  cases o.offsets.get? method.offset <;> simp [eq_comm]

/-- A manifest is moved as a whole, or a method of it is lost and it stays as it was. -/
theorem remap_cases (o : Optimized) (m : Manifest) :
    (∃ m', o.remap m = (.ok (), m') ∧ o.Relocates m m') ∨
      (∃ e, o.remap m = (.error e, m)) ∧
        ∃ method ∈ m.abi.methods, o.offsets.get? method.offset = none := by
  unfold remap
  cases hmoves : m.abi.methods.mapM o.newOffset with
  | ok offsets =>
    refine .inl ⟨_, rfl, rfl, ?_⟩
    refine (forall₂_zipWith _ (Except.mapM_eq_ok_iff.1 hmoves)).imp ?_
    rintro old _ ⟨offset, hoffset, rfl⟩
    obtain ⟨new, hnew, rfl⟩ := newOffset_eq_ok_iff.1 hoffset
    exact ⟨new, hnew, rfl⟩
  | error e =>
    refine .inr ⟨⟨e, rfl⟩, ?_⟩
    by_contra hnone
    have hall : ∀ method ∈ m.abi.methods, ∃ offset, o.newOffset method = .ok offset := by
      intro method hmem
      have hfound : o.offsets.get? method.offset ≠ none := fun hlost => hnone ⟨method, hmem, hlost⟩
      obtain ⟨new, hnew⟩ := Option.ne_none_iff_exists'.1 hfound
      exact ⟨_, newOffset_eq_ok_iff.2 ⟨new, hnew, rfl⟩⟩
    obtain ⟨offsets, hoffsets⟩ := exists_forall₂ hall
    rw [Except.mapM_eq_ok_iff.2 hoffsets] at hmoves
    cases hmoves

theorem remap_ok {o : Optimized} {m m' : Manifest} (h : o.remap m = (.ok (), m')) :
    o.Relocates m m' := by
  rcases o.remap_cases m with ⟨_, heq, hrelocates⟩ | ⟨⟨e, heq⟩, -⟩
  · rw [heq] at h
    cases h
    exact hrelocates
  · rw [heq] at h
    cases h

/-- The new script consists of what is left of the old one, and the manifest differs in nothing but
where its methods start, each at what is left of the instruction that it started at. -/
structure Carries (o : Optimized) (script script' : Script) (m m' : Manifest) : Prop where
  survivors : List.Forall₂ (Script.Survives o.offsets)
    (script.instructions.filter fun ins => (o.offsets.get? ins.offset).isSome) script'.instructions
  rest : m' = { m with abi := { m.abi with methods := m'.abi.methods } }
  methods : List.Forall₂ (fun old new : AbiMethod => new = { old with offset := new.offset } ∧
    ∃ ins ∈ script.instructions, ∃ image ∈ script'.instructions, ins.offset = old.offset ∧
      image.offset = new.offset ∧ Script.Survives o.offsets ins image) m.abi.methods m'.abi.methods

/-- Methods that start at instructions are moved with them if they are all entry points. -/
theorem carries_of_eliminated {o : Optimized} {script script' : Script} {m : Manifest}
    {entries : List Nat} (helim : Script.Eliminated entries script script')
    (hmap : o.offsets = (Script.compaction
      { script with instructions := Script.live entries script.instructions }).map)
    (hlength : script.byteLength < Bytes.bound 4)
    (hentries : ∀ method ∈ m.abi.methods, method.offset ∈ entries)
    (hstarts : ∀ method ∈ m.abi.methods, ∃ ins ∈ script.instructions, ins.offset = method.offset) :
    ∃ m', o.remap m = (.ok (), m') ∧ o.Carries script script' m m' := by
  have hsurvives : ∀ method ∈ m.abi.methods, ∃ ins ∈ script.instructions,
      ∃ image ∈ script'.instructions, ins.offset = method.offset ∧
        Script.Survives o.offsets ins image := by
    intro method hmem
    obtain ⟨ins, hins, hoffset⟩ := hstarts method hmem
    have hentry := hentries method hmem
    rw [← hoffset] at hentry
    obtain ⟨image, himage, hsurvives⟩ := helim.exists_survivor hins hentry
    exact ⟨ins, hins, image, himage, hoffset, hmap ▸ hsurvives⟩
  rcases o.remap_cases m with ⟨m', hremap, hrelocates⟩ | ⟨-, method, hmem, hlost⟩
  · refine ⟨m', hremap, hmap ▸ helim.survivors, hrelocates.rest, ?_⟩
    apply ((List.forall₂_and_left _ _).2 ⟨hsurvives, hrelocates.methods⟩).imp
    rintro old new ⟨⟨ins, hins, image, himage, hoffset, hsurvives⟩, offset, hget, rfl⟩
    -- The new offset is that of an instruction, so it is small enough to be a word.
    have hplace := hsurvives.offset
    rw [hoffset, hget] at hplace
    cases hplace
    have hbounds := helim.laidOut_result.bounds himage
    have hextent := helim.extent_result
    have hle := helim.byteLength_le
    have hsmall : image.offset % Bytes.bound 4 = image.offset := Nat.mod_eq_of_lt (by omega)
    exact ⟨rfl, ins, hins, image, himage, hoffset, hsmall.symm, hsurvives⟩
  · obtain ⟨ins, -, image, -, hoffset, hsurvives⟩ := hsurvives method hmem
    have hplace := hsurvives.offset
    rw [hoffset, hlost] at hplace
    cases hplace

end Optimized

/-- Exported methods start at instructions. -/
theorem Compilation.Compiles.exists_start {c : Compilation} {contract : Contract}
    {decoded : List Instruction} (h : c.Compiles contract decoded) {method : AbiMethod}
    (hmem : method ∈ contract.abi.methods) : ∃ ins ∈ decoded, ins.offset = method.offset := by
  obtain ⟨i, hi⟩ := List.getElem?_of_mem hmem
  obtain ⟨e, -, _, _, _, _, ins, -, -, -, hins, rfl⟩ := forall₂_getElem? h.exported.flip hi
  exact ⟨ins, List.mem_of_getElem? hins, rfl⟩

namespace Program

section

variable {p : Program} {s : Lowering} {c : Compilation} {contract : Contract}
  {decoded : List Instruction} (hlowers : p.Lowers s c)
  (hcompiles : c.Compiles contract decoded)

include hlowers in
theorem shape_of_placed {id : InstructionId} {old : Unlinked} (hplaced : id ∈ c.order)
    (hget : c.arena.get id = .ok old) :
    old.targets.slots.length = old.opcode.addressClass.elim 0 AddressClass.count := by
  obtain ⟨generated, horder, hinit⟩ := order_eq hlowers
  rw [horder] at hplaced
  rcases List.mem_append.1 hplaced with hid | hgenerated
  · obtain ⟨i, hi⟩ := List.getElem?_of_mem hid
    obtain ⟨d, -, site, hsite, -⟩ := forall₂_getElem? p.forall₂_ids hi
    obtain ⟨ins, hins, hbound⟩ := hlowers.cells id site hsite
    rw [hget] at hins
    cases hins
    exact hbound.shape
  · rcases hinit with ⟨-, rfl⟩ | ⟨-, rfl, hfirst, hsecond⟩
    · cases hgenerated
    · have hid : id = p.sites.length ∨ id = p.sites.length + 1 := by simpa using hgenerated
      rcases hid with rfl | rfl
      · rw [hfirst] at hget
        cases hget
        rfl
      · rw [hsecond] at hget
        cases hget
        rfl

include hlowers hcompiles

/-- Every address of linked code leads to an instruction; one without a target leads back to its
own. -/
theorem lands_decoded {ins : Instruction} (hmem : ins ∈ decoded) (length : Nat) :
    Script.Lands ⟨decoded, length⟩ ins := by
  intro index d hread
  obtain ⟨i, hi⟩ := List.getElem?_of_mem hmem
  obtain ⟨id, hid, old, hold, hemits⟩ := forall₂_getElem? hcompiles.emits.flip hi
  have hshape := shape_of_placed hlowers (List.mem_of_getElem? hid) hold
  obtain ⟨cls, hcls, hlt, -⟩ := Instruction.readAddress_eq_ok_iff.1 hread
  rw [hemits.opcode] at hcls
  rw [hcls] at hshape
  have hsome : old.opcode.addressClass ≠ none := by
    rw [hcls]
    exact Option.some_ne_none cls
  have hindex : index < old.targets.slots.length := by
    rw [hshape]
    exact hlt
  have hslot := List.getElem?_eq_getElem hindex
  -- A slot without a target was left at zero, which leads back to the instruction itself.
  cases htarget : old.targets.slots[index] with
  | some target =>
    rw [htarget] at hslot
    obtain ⟨j, there, d', -, hthere, hread', hsum⟩ := hemits.bound hsome index target hslot
    rw [hread] at hread'
    cases hread'
    exact ⟨there.offset, hsum, .inr ⟨there, List.mem_of_getElem? hthere, rfl⟩⟩
  | none =>
    rw [htarget] at hslot
    have hzero := hemits.unbound hsome index hslot
    rw [hread] at hzero
    cases hzero
    exact ⟨ins.offset, by omega, .inr ⟨ins, hmem, rfl⟩⟩

end

/-- Optimizing what a program was built into fails only if nothing would be left of it. Otherwise the
manifest can be moved along: every method starts at what is left of its first instruction, and
nothing else in the manifest changes. Any manifest at all is moved as a whole, or one of its methods
is lost and it is left as it was. -/
theorem optimize_built {p : Program} {c : Compilation} {source compiler : String}
    {contract : Contract} {x : Executable} (hlower : p.lower = .ok c)
    (hcompile : { c with source }.compile = .ok contract)
    (hbuild : contract.executable compiler = .ok x) :
    ∃ script, Script.decode x.script = .ok script ∧
      ((∃ e, x.optimize (Package.mk x contract.manifest).entries = .error e) ↔
        (∀ ins ∈ script.instructions, ins.opcode = .nop) ∧ contract.manifest.abi.methods = []) ∧
      (∀ o, x.optimize (Package.mk x contract.manifest).entries = .ok o →
        ∃ m' script', o.remap contract.manifest = (.ok (), m') ∧
          Script.decode o.executable.script = .ok script' ∧
          o.Carries script script' contract.manifest m') ∧
      ∀ (o : Optimized) (m : Manifest), (∃ m', o.remap m = (.ok (), m') ∧ o.Relocates m m') ∨
        (∃ e, o.remap m = (.error e, m)) ∧
          ∃ method ∈ m.abi.methods, o.offsets.get? method.offset = none := by
  obtain ⟨s, hlowers⟩ := lower_ok hlower
  obtain ⟨decoded, hcompiles⟩ := Compilation.compile_ok hcompile
  have hlowers' : p.Lowers s { c with source } := ⟨hlowers.labels, hlowers.cells, hlowers.bodies⟩
  obtain ⟨hscript, hsizes, hvalid⟩ := Executable.build_ok (CompileError.lift_eq_ok_iff.1 hbuild)
  have hdecode : Script.decode x.script = .ok ⟨decoded, x.script.length⟩ := by
    rw [hscript]
    exact Script.decode_eq_ok_iff.2 ⟨hcompiles.decodes, rfl⟩
  have hlength : x.script.length ≤ Executable.maxScript :=
    (Executable.checkSizes_eq_ok_iff.1 hsizes).2.2.2.2
  have hdecoded := Script.decoded_of_decode (hlength.trans_lt (by decide)) hdecode
  have hstarts : ∀ method ∈ contract.manifest.abi.methods,
      ∃ ins ∈ decoded, ins.offset = method.offset := fun method hmem => hcompiles.exists_start hmem
  generalize hentries : (Package.mk x contract.manifest).entries = entries
  obtain ⟨map, result, hrun⟩ : ∃ map result, Script.eliminateDead _ entries = (.ok map, result) :=
    hdecoded.eliminateDead_succeeds fun ins hmem _ =>
      lands_decoded hlowers' hcompiles hmem x.script.length
  obtain ⟨helim, hmap⟩ := hdecoded.eliminated hrun
  refine ⟨_, hdecode, ?_, ?_, Optimized.remap_cases⟩
  · rw [Executable.optimize_fails_iff hdecode hrun hdecoded hsizes hvalid, helim.result_eq_nil_iff,
      hdecoded.live_eq_nil_iff, ← hentries, Package.entries, List.map_eq_nil_iff]
    rw [← hentries]
    intro entry hentry
    obtain ⟨method, hmem, rfl⟩ := List.mem_map.1 hentry
    exact hstarts method hmem
  · intro o hoptimize
    obtain ⟨hoffsets, hscript'⟩ := Executable.optimize_ok hdecode hrun hoptimize
    obtain ⟨m', hremap, hcarries⟩ := Optimized.carries_of_eliminated helim (hoffsets.trans hmap)
      (hlength.trans_lt (by decide)) (fun method hmem => hentries ▸ List.mem_map_of_mem hmem) hstarts
    refine ⟨m', result, hremap, ?_, hcarries⟩
    rw [hscript']
    exact helim.decoded_result.decode_encode

/-- An exported method that starts with a `NOP`, behind an instruction that is never reached. -/
def skipping : Program where
  name := "skipping"
  methods := [
    { name := "main", body := [{ opcode := "JMP", target := some "skip" }, { opcode := "PUSH1" }] },
    { name := "skip", exported := some {}, body := [{ opcode := "NOP" }, { opcode := "RET" }] }]

/-- The method still starts with its `NOP`, which is the target of a jump and now nearer to it. -/
theorem optimize_built_skipping : ∃ c contract x o m' script', skipping.lower = .ok c ∧
    { c with source := "skip.sable" }.compile = .ok contract ∧
    contract.executable "linker" = .ok x ∧ x.optimize [3] = .ok o ∧
    o.remap contract.manifest = (.ok (), m') ∧ Script.decode o.executable.script = .ok script' ∧
    ∃ new, m'.abi.methods = [⟨"skip", new, false, .void, []⟩] ∧
      ⟨.nop, [], new⟩ ∈ script'.instructions := by
  obtain ⟨c, contract, hlower, hcompile, hview⟩ :=
    exists_compile skipping ({ · with source := "skip.sable" })
      (fun contract => (contract.script, contract.source, contract.tokens, contract.abi.methods))
      ([0x22, 3, 0x11, 0x21, 0x40], "skip.sable", [], [⟨"skip", 3, false, .void, []⟩]) (by cbv)
  obtain ⟨hscript, hsource, htokens, hmethods⟩ := by simpa only [Prod.mk.injEq] using hview
  have hbuild : ∃ x, contract.executable "linker" = .ok x := by
    have hsizes : Executable.checkSizes (Utf8.encode "linker") (Utf8.encode contract.source)
        contract.tokens.length contract.script = .ok () := by
      rw [hscript, hsource, htokens]
      cbv
    obtain ⟨x, hx⟩ := Executable.exists_build hsizes (by rw [htokens]; simp)
    exact ⟨x, CompileError.lift_eq_ok_iff.2 hx⟩
  obtain ⟨x, hbuild⟩ := hbuild
  obtain ⟨script, hdecode, hfails, hcarries, -⟩ := optimize_built hlower hcompile hbuild
  have hentries : (Package.mk x contract.manifest).entries = [3] := by
    rw [Package.entries, Contract.manifest, hmethods]
    rfl
  have hcode : Script.decode x.script = .ok ⟨[⟨.jmp, [3], 0⟩, ⟨.push1, [], 2⟩, ⟨.nop, [], 3⟩,
      ⟨.ret, [], 4⟩], 5⟩ := by
    rw [(Executable.build_ok (CompileError.lift_eq_ok_iff.1 hbuild)).1, hscript]
    rfl
  rw [hcode] at hdecode
  cases hdecode
  rw [hentries] at hfails hcarries
  cases hoptimize : x.optimize [3] with
  | error e =>
    have hnone := (hfails.1 ⟨e, hoptimize⟩).2
    rw [Contract.manifest, hmethods] at hnone
    cases hnone
  | ok o =>
    obtain ⟨m', script', hremap, hdecode', -, -, hmoved⟩ := hcarries o hoptimize
    rw [Contract.manifest, hmethods] at hmoved
    obtain ⟨new, rest, ⟨hnew, ins, hins, image, himage, hold, hplace, hsurvives⟩, hrest, heq⟩ :=
      List.forall₂_cons_left_iff.1 hmoved
    cases hrest
    have hnop : ins = ⟨.nop, [], 3⟩ := by
      simp only [List.mem_cons, List.not_mem_nil, or_false] at hins
      rcases hins with rfl | rfl | rfl | rfl <;> first | rfl | cases hold
    refine ⟨c, contract, x, o, m', script', hlower, hcompile, hbuild, hoptimize, hremap, hdecode',
      new.offset, ?_, ?_⟩
    · rw [heq, hnew]
    · have hopcode : image.opcode = .nop := by rw [hsurvives.opcode, hnop]
      have hoperand : image.operand = [] := by
        rw [← Instruction.plainOperand_of_no_address (by rw [hopcode]; rfl), hsurvives.operand, hnop]
        rfl
      rw [← hopcode, ← hoperand, ← hplace]
      exact himage

end Program
end ContractLinker
