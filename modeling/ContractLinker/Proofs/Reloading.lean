import ContractLinker.Proofs.Optimizing

namespace ContractLinker

/-- The map has one entry for each of the instructions, in their order, under old offsets that are
all different. -/
structure OffsetMap.Covers (map : OffsetMap) (code : List Instruction) : Prop where
  news : map.entries.map Prod.snd = code.map Instruction.offset
  olds : (map.entries.map Prod.fst).Nodup
  get? : ∀ old new, map.get? old = some new ↔ (old, new) ∈ map.entries

namespace Script

theorem compaction_entries (script : Script) :
    script.compaction.map.entries = placements 0 script.instructions := by
  simp [compaction, positions_eq, OffsetMap.ofEntries]

theorem map_snd_placements {m : Move} {cursor : Nat} {code moved : List Instruction}
    (hmoves : List.Forall₂ (Move.Moves m) code moved) (hlaid : LaidOut cursor moved) :
    (placements cursor code).map Prod.snd = moved.map Instruction.offset := by
  induction hmoves generalizing cursor with
  | nil => rfl
  | @cons ins first code moved hfirst _ ih =>
    obtain ⟨hoffset, hrest⟩ := hlaid
    rw [hfirst.size] at hrest
    rw [placements, List.map_cons, List.map_cons, ih hrest, hoffset]

theorem Eliminated.covers {entries : List Nat} {script result : Script}
    (h : Eliminated entries script result) :
    (compaction { script with instructions := live entries script.instructions }).map.Covers
      result.instructions := by
  refine ⟨?_, ?_, ?_⟩
  · rw [compaction_entries]
    exact map_snd_placements h.moved h.laidOut_result
  · rw [compaction_entries, map_fst_placements, List.nodup_iff_pairwise_ne, List.pairwise_map]
    exact h.distinct_live
  · intro old new
    rw [compaction_entries, mem_placements, compaction_get?_eq_some_iff h.distinct_live]
    simp only [Nat.zero_add]

theorem Eliminated.length_le {entries : List Nat} {script result : Script}
    (h : Eliminated entries script result) :
    result.instructions.length ≤ script.instructions.length := by
  rw [← h.moved.length_eq]
  exact List.length_filter_le _ _

end Script

namespace Executable

variable {compiler source : String} {tokens : List Token} {script : Bytes}

/-- What was built loads as it was saved, if the name of its compiler can stand in the header. -/
theorem ofBytes_of_build {x : Executable} (h : build compiler source tokens script = .ok x)
    (hnul : '\x00' ∉ compiler.toList) :
    ∃ saved, x.toBytes = .ok saved ∧ ofBytes saved = .ok x := by
  obtain ⟨data, hbody, hx⟩ := build_eq h
  refine ⟨_, toBytes_eq_ok_iff.2 ⟨data, hbody, rfl⟩, ?_⟩
  have hread (tail : Bytes) : readBody ⟨0, data ++ tail⟩ =
      .ok (compiler, source, tokens, script) ⟨data.length, tail⟩ := by
    have hreads := reads_body hbody (hx ▸ hnul) 0 tail
    rw [Nat.zero_add, hx] at hreads
    exact hreads
  rw [hx]
  exact ofBytes_of_readBody hread

theorem optimize_eq_ok {x : Executable} {entries : List Nat} {o : Optimized}
    (h : x.optimize entries = .ok o) : ∃ code result : Script,
      Script.decode x.script = .ok code ∧ code.eliminateDead entries = (.ok o.offsets, result) ∧
      build x.compiler x.source x.tokens result.encode = .ok o.executable ∧
      o.removed = code.instructions.length - result.instructions.length := by
  obtain ⟨code, hcode, hrest⟩ := Except.bind_eq_ok_iff.1 h
  have hdecode := CompileError.lift_eq_ok_iff.1 hcode
  cases hrun : code.eliminateDead entries with
  | mk outcome result =>
    cases outcome with
    | error e =>
      simp only [hrun] at hrest
      cases hrest
    | ok map =>
      rw [optimize_of_run hdecode hrun] at h
      obtain ⟨y, hy, hpure⟩ := Except.bind_eq_ok_iff.1 h
      cases hpure
      exact ⟨code, result, hdecode, hrun, CompileError.lift_eq_ok_iff.1 hy, rfl⟩

/-- Optimizing a file that was loaded gives a file that can be saved and loads as it is, with the
same header and tokens. Its script is not longer and can be decoded, the count of what was removed
is right, and the map has one entry for each instruction that is left. -/
theorem ofBytes_optimize {data : Bytes} {x : Executable} {entries : List Nat} {o : Optimized}
    (hload : ofBytes data = .ok x) (h : x.optimize entries = .ok o) :
    (∃ saved, o.executable.toBytes = .ok saved ∧ ofBytes saved = .ok o.executable) ∧
      o.executable.compiler = x.compiler ∧ o.executable.source = x.source ∧
      o.executable.tokens = x.tokens ∧ o.executable.script.length ≤ x.script.length ∧
      ∃ old new : Script, Script.decode x.script = .ok old ∧
        Script.decode o.executable.script = .ok new ∧
        old.instructions.length = new.instructions.length + o.removed ∧
        o.offsets.Covers new.instructions := by
  obtain ⟨-, -, -, -, hbody, hnul⟩ := ofBytes_ok hload
  obtain ⟨-, -, -, -, hscript⟩ := checkSizes_eq_ok_iff.1 (body_eq_ok hbody).1
  obtain ⟨code, result, hdecode, hrun, hbuild, hremoved⟩ := optimize_eq_ok h
  have hdecoded := Script.decoded_of_decode (Nat.lt_of_le_of_lt hscript (by decide)) hdecode
  obtain ⟨helim, hmap⟩ := hdecoded.eliminated hrun
  -- The new container differs from the old one in its script and its checksum alone.
  obtain ⟨_, -, hfields⟩ := build_eq hbuild
  have hencode : o.executable.script = result.encode := by rw [hfields]
  refine ⟨ofBytes_of_build hbuild hnul, by rw [hfields], by rw [hfields], by rw [hfields], ?_, code,
    result, hdecode, ?_, ?_, ?_⟩
  · have hle := helim.byteLength_le
    rw [← helim.extent_result, (Script.decode_eq_ok_iff.1 hdecode).2] at hle
    rwa [hencode, Script.encode, Script.length_encodeAll]
  · rw [hencode]
    exact helim.decoded_result.decode_encode
  · rw [hremoved, Nat.add_sub_cancel' helim.length_le]
  · rw [hmap]
    exact helim.covers

/-- The body of a file whose code jumps over an instruction. -/
def jumpOver : Bytes :=
  [0x4E, 0x45, 0x46, 0x33, 0x61, 0x62] ++ List.replicate 62 0 ++
    [0, 0, 0, 0, 0, 4, 0x22, 3, 0x11, 0x40]

theorem ofBytes_optimize_jump_over : ∃ x o,
    ofBytes (jumpOver ++ Bytes.ofNatLE 4 (checksumOf jumpOver).toNat) = .ok x ∧
      x.optimize [] = .ok o ∧ o.removed = 1 ∧ o.executable.compiler = "ab" ∧
      ∃ saved, o.executable.toBytes = .ok saved ∧ ofBytes saved = .ok o.executable := by
  have hread (tail : Bytes) : readBody ⟨0, jumpOver ++ tail⟩ =
      .ok ("ab", "", [], [0x22, 3, 0x11, 0x40]) ⟨jumpOver.length, tail⟩ := by cbv
  have hload := ofBytes_of_readBody hread
  have hdecode : Script.decode [0x22, 3, 0x11, 0x40] =
      .ok ⟨[⟨.jmp, [3], 0⟩, ⟨.push1, [], 2⟩, ⟨.ret, [], 3⟩], 4⟩ := rfl
  have hdecoded := Script.decoded_of_decode (by decide) hdecode
  obtain ⟨map, result, hrun⟩ :
      ∃ map result, Script.eliminateDead _ [] = (.ok map, result) := by
    apply hdecoded.eliminateDead_succeeds
    intro ins hmem _ index d hread
    obtain ⟨cls, hcls, hlt, rfl⟩ := Instruction.readAddress_eq_ok_iff.1 hread
    simp only [List.mem_cons, List.not_mem_nil, or_false] at hmem
    rcases hmem with rfl | rfl | rfl <;> cases hcls
    cases hlt with
    | refl => exact ⟨3, by decide, .inr ⟨⟨.ret, [], 3⟩, by decide, rfl⟩⟩
    | step hlt => cases hlt
  obtain ⟨helim, -⟩ := hdecoded.eliminated hrun
  have hlive : Script.live [] [⟨.jmp, [3], 0⟩, ⟨.push1, [], 2⟩, ⟨.ret, [], 3⟩] =
      [⟨.jmp, [3], 0⟩, ⟨.ret, [], 3⟩] := by cbv
  have hlength : result.instructions.length = 2 := by
    rw [← helim.moved.length_eq]
    exact congrArg List.length hlive
  have hsucceeds (sum : UInt32) :
      ∃ o, optimize ⟨"ab", "", [], [0x22, 3, 0x11, 0x40], sum⟩ [] = .ok o := by
    cases ho : optimize ⟨"ab", "", [], [0x22, 3, 0x11, 0x40], sum⟩ [] with
    | ok o => exact ⟨o, rfl⟩
    | error e =>
      have hnil := (optimize_fails_iff hdecode hrun hdecoded (by cbv) (by simp)).1 ⟨e, ho⟩
      rw [hnil] at hlength
      cases hlength
  obtain ⟨o, ho⟩ := hsucceeds (checksumOf jumpOver)
  obtain ⟨hsaved, hcompiler, -, -, -, old, new, hold, hnew, hremoved, -⟩ :=
    ofBytes_optimize hload ho
  refine ⟨_, o, hload, ho, ?_, hcompiler, hsaved⟩
  obtain ⟨-, hscript⟩ := optimize_ok hdecode hrun ho
  rw [hscript, helim.decoded_result.decode_encode] at hnew
  cases hnew
  rw [hdecode] at hold
  cases hold
  rw [hlength] at hremoved
  exact Nat.add_left_cancel hremoved.symm

end Executable
end ContractLinker
