import ContractLinker.Proofs.CommandSteps
import ContractLinker.Proofs.FileTrees
import ContractLinker.Proofs.JsonDocuments
import ContractLinker.Proofs.Reloading

namespace ContractLinker

open Files.View Files.Lawful

structure Products where
  executablePath : String
  executable : Executable
  manifest : Option (String × Manifest)

/-- Every method of the manifest starts at an instruction of the script. -/
def Executable.Aligned (x : Executable) (m : Manifest) : Prop :=
  ∃ script, Script.decode x.script = .ok script ∧
    ∀ method ∈ m.abi.methods, ∃ ins ∈ script.instructions, ins.offset = method.offset

section Alignment

variable {x : Executable} {entries : List Nat} {o : Optimized} {m m' : Manifest}

theorem Executable.exists_of_offset (h : x.optimize entries = .ok o)
    (hsize : x.script.length ≤ maxScript) :
    ∃ script, Script.decode o.executable.script = .ok script ∧
      ∀ old new, o.offsets.get? old = some new →
        ∃ ins ∈ script.instructions, ins.offset = new ∧ new < Bytes.bound 4 := by
  obtain ⟨code, result, hdecode, hrun, hbuild, -⟩ := optimize_eq_ok h
  have hdecoded := Script.decoded_of_decode (Nat.lt_of_le_of_lt hsize (by decide)) hdecode
  obtain ⟨helim, hmap⟩ := hdecoded.eliminated hrun
  obtain ⟨hscript, -, -⟩ := build_ok hbuild
  refine ⟨result, hscript ▸ helim.decoded_result.decode_encode, ?_⟩
  intro old new hget
  have hcovers := helim.covers
  rw [← hmap] at hcovers
  have hnew : new ∈ result.instructions.map Instruction.offset := by
    rw [← hcovers.news]
    exact List.mem_map_of_mem ((hcovers.get? old new).1 hget)
  obtain ⟨ins, hmem, rfl⟩ := List.mem_map.1 hnew
  refine ⟨ins, hmem, rfl, ?_⟩
  -- The new script is no longer than the old one, which was within the limit.
  have hbounds := helim.laidOut_result.bounds hmem
  have hextent := helim.extent_result
  have hle := helim.byteLength_le
  have hold : code.byteLength = x.script.length := (Script.decode_eq_ok_iff.1 hdecode).2
  have hlimit : maxScript < Bytes.bound 4 := by decide
  omega

/-- A manifest that was moved fits the script that it was moved for. -/
theorem Executable.aligned_of_remap (h : x.optimize entries = .ok o)
    (hsize : x.script.length ≤ maxScript) (hremap : o.remap m = (.ok (), m')) :
    o.executable.Aligned m' := by
  obtain ⟨script, hdecode, hoffsets⟩ := exists_of_offset h hsize
  refine ⟨script, hdecode, ?_⟩
  intro method hmem
  obtain ⟨i, hi⟩ := List.getElem?_of_mem hmem
  obtain ⟨_, -, new, hget, rfl⟩ := forall₂_getElem? (Optimized.remap_ok hremap).methods.flip hi
  obtain ⟨ins, hins, hoffset, hlt⟩ := hoffsets _ new hget
  exact ⟨ins, hins, hoffset.trans (Nat.mod_eq_of_lt hlt).symm⟩

theorem Compilation.aligned_of_compile {c : Compilation} {contract : Contract} {compiler : String}
    (hcompile : c.compile = .ok contract) (hbuild : contract.executable compiler = .ok x) :
    x.Aligned contract.manifest := by
  obtain ⟨decoded, hcompiles⟩ := compile_ok hcompile
  obtain ⟨hscript, -, -⟩ := Executable.build_ok (CompileError.lift_eq_ok_iff.1 hbuild)
  refine ⟨⟨decoded, contract.script.length⟩, ?_, fun method hmem => hcompiles.exists_start hmem⟩
  rw [hscript]
  exact Script.decode_eq_ok_iff.2 ⟨hcompiles.decodes, rfl⟩

/-- What a program is built into belongs together, with dead code removed or not. -/
theorem Package.aligned_of_ofProgram {config : Config} {removeDead : Bool} {program : Program}
    {package : Package} (h : ofProgram config removeDead program = .ok package) :
    package.executable.Aligned package.manifest := by
  obtain ⟨compilation, -, hrest⟩ := Except.bind_eq_ok_iff.1 h
  obtain ⟨contract, hcompile, hpackage⟩ := Except.bind_eq_ok_iff.1 (orFail_eq_ok_iff.1 hrest)
  obtain ⟨x, hbuild, hlast⟩ := Except.bind_eq_ok_iff.1 hpackage
  cases removeDead with
  | false =>
    cases hlast
    exact Compilation.aligned_of_compile hcompile hbuild
  | true =>
    obtain ⟨-, hsizes, -⟩ := Executable.build_ok (CompileError.lift_eq_ok_iff.1 hbuild)
    obtain ⟨-, -, -, -, hsize⟩ := Executable.checkSizes_eq_ok_iff.1 hsizes
    obtain ⟨o, ho, hremap⟩ := Except.bind_eq_ok_iff.1 hlast
    obtain ⟨_, hresult, hpure⟩ := Except.bind_eq_ok_iff.1 hremap
    cases hpure
    exact Executable.aligned_of_remap ho hsize (Prod.ext hresult rfl)

end Alignment

namespace Products

variable {m : Type → Type} [Files.View m] (p : Products) (s s' : State m)

def Aligned : Prop := ∀ path manifest, p.manifest = some (path, manifest) →
  p.executable.Aligned manifest

/-- The executable stands where its path leads, and the manifest where its own does. Two paths that
lead to one place are the exception: then the manifest alone stands there. No other file changed. -/
def Stored : Prop :=
  ∃ (bytes : Bytes) (q : Place m), p.executable.toBytes = .ok bytes ∧
    place? s' p.executablePath = some q ∧
    match p.manifest with
    | none => content? s' q = some bytes ∧ ∀ other ≠ q, content? s' other = content? s other
    | some (path, manifest) => ∃ q' : Place m, place? s' path = some q' ∧
        content? s' q' = some (Utf8.encode manifest.toText) ∧
        (q ≠ q' → content? s' q = some bytes) ∧
        ∀ other, other ≠ q → other ≠ q' → content? s' other = content? s other

/-- A write failed and left less than all products: a start of the executable, the executable alone,
or the executable with a start of the manifest. -/
inductive CutShort : Prop
  | executable {bytes cut : Bytes} (hbytes : p.executable.toBytes = .ok bytes)
      (hcut : cut <+: bytes) (hwrote : Wrote [(p.executablePath, cut)] s s')
  | refused {bytes : Bytes} {path : String} {manifest : Manifest}
      (hbytes : p.executable.toBytes = .ok bytes) (hmanifest : p.manifest = some (path, manifest))
      (hwrote : Wrote [(p.executablePath, bytes)] s s')
  | manifest {bytes cut : Bytes} {path : String} {manifest : Manifest}
      (hbytes : p.executable.toBytes = .ok bytes) (hmanifest : p.manifest = some (path, manifest))
      (hcut : cut <+: Utf8.encode manifest.toText)
      (hwrote : Wrote [(p.executablePath, bytes), (path, cut)] s s')

variable {p s s'} {bytes : Bytes}

theorem stored_alone (hbytes : p.executable.toBytes = .ok bytes) (hnone : p.manifest = none)
    (h : Wrote [(p.executablePath, bytes)] s s') : p.Stored s s' := by
  obtain ⟨q, hq⟩ := h.led _ (List.mem_singleton_self _)
  refine ⟨bytes, q, hbytes, hq, ?_⟩
  rw [hnone]
  refine ⟨h.last [] _ _ [] rfl q hq (by simp), fun other hne => h.rest other ?_⟩
  simpa [hq] using hne.symm

theorem stored_both {path : String} {manifest : Manifest}
    (hbytes : p.executable.toBytes = .ok bytes) (hmanifest : p.manifest = some (path, manifest))
    (h : Wrote [(p.executablePath, bytes), (path, Utf8.encode manifest.toText)] s s') :
    p.Stored s s' := by
  obtain ⟨q, hq⟩ := h.led (p.executablePath, bytes) (by simp)
  obtain ⟨q', hq'⟩ := h.led (path, Utf8.encode manifest.toText) (by simp)
  refine ⟨bytes, q, hbytes, hq, ?_⟩
  rw [hmanifest]
  refine ⟨q', hq', h.last [(p.executablePath, bytes)] _ _ [] rfl q' hq' (by simp), ?_, ?_⟩
  · intro hne
    refine h.last [] _ _ [_] rfl q hq ?_
    simpa [hq'] using hne.symm
  · intro other hne hne'
    refine h.rest other ?_
    simpa [hq, hq'] using ⟨hne.symm, hne'.symm⟩

end Products

namespace Command

section Endings

variable {m : Type → Type} [Files.View m] {config : Config} {s s' : State m} {command : Command}
  {p : Products}

/-- The products that a command makes from the files it reads. -/
inductive Makes (config : Config) (s : State m) : Command → Products → Prop
  | build {o : BuildOptions} {text : String} {program : Program} {package : Package}
      (hread : contentAt s o.program = some (Utf8.encode text))
      (hprogram : Program.ofText text = .ok program)
      (hpackage : Package.ofProgram config (config.deadCode && o.optimize) program = .ok package) :
      Makes config s (.build o)
        ⟨o.output.getD (Path.withoutExtension o.program) ++ ".nef", package.executable,
          some (o.output.getD (Path.withoutExtension o.program) ++ ".manifest.json",
            package.manifest)⟩
  | optimizeAlone {o : OptimizeOptions} {bytes : Bytes} {x : Executable} {optimized : Optimized}
      (hread : contentAt s o.input = some bytes) (hload : Executable.ofBytes bytes = .ok x)
      (hnone : o.manifest = none) (hoptimize : x.optimize [] = .ok optimized) :
      Makes config s (.optimize o) ⟨o.output.getD o.input, optimized.executable, none⟩
  | optimizeBoth {o : OptimizeOptions} {bytes : Bytes} {x : Executable} {optimized : Optimized}
      {path text : String} {manifest moved : Manifest}
      (hread : contentAt s o.input = some bytes) (hload : Executable.ofBytes bytes = .ok x)
      (hpath : o.manifest = some path) (htext : contentAt s path = some (Utf8.encode text))
      (hmanifest : Manifest.ofText text = .ok manifest)
      (hoptimize : x.optimize (manifest.abi.methods.map (·.offset)) = .ok optimized)
      (hremap : optimized.remap manifest = (.ok (), moved)) :
      Makes config s (.optimize o)
        ⟨o.output.getD o.input, optimized.executable, some (path, moved)⟩

theorem Makes.aligned (h : Makes config s command p) : p.Aligned := by
  cases h with
  | build _ _ hpackage =>
    rintro _ _ ⟨⟩
    exact Package.aligned_of_ofProgram hpackage
  | optimizeAlone => rintro _ _ ⟨⟩
  | optimizeBoth _ hload _ _ _ hoptimize hremap =>
    rintro _ _ ⟨⟩
    obtain ⟨-, -, -, -, hbody, -⟩ := Executable.ofBytes_ok hload
    obtain ⟨-, -, -, -, hsize⟩ :=
      Executable.checkSizes_eq_ok_iff.1 (Executable.body_eq_ok hbody).1
    exact Executable.aligned_of_remap hoptimize hsize hremap

/-- What has become of the files when a command ends. -/
inductive Ending (config : Config) (s : State m) (command : Command) :
    Except Failure String → State m → Prop
  | failed {f : Failure} {s' : State m} (hfiles : SameFiles s s') :
      Ending config s command (.error f) s'
  | cut {f : Failure} {s' : State m} {p : Products} (hmakes : Makes config s command p)
      (hcut : p.CutShort s s') : Ending config s command (.error f) s'
  | stored {out : String} {s' : State m} {p : Products} (hmakes : Makes config s command p)
      (hstored : p.Stored s s') : Ending config s command (.ok out) s'

theorem Ending.unchanged {f : Failure} : Ending config s command (.error f) s :=
  .failed (refl_of SameFiles s)

end Endings

variable {m : Type → Type} [Monad m] [LawfulMonad m] [Files m] [Files.View m] [Files.Lawful m]
  {config : Config} {s s' : State m} {r : Except Failure String}

/-- From the executable on, a command stores its products in turn. -/
theorem ending_of_writes {room : State m} {command : Command} {p : Products} {bytes : Bytes}
    {out : String} (hmakes : Makes config s command p) (hroom : SameFiles s room)
    (hbytes : p.executable.toBytes = .ok bytes)
    (h : Ends (do
      write p.executablePath bytes
      match p.manifest with
      | some (path, manifest) => writeManifest path manifest
      | none => pure ()
      return out : ExceptT Failure m String).run room r s') :
    Ending config s command r s' := by
  rcases bind_cases h with ⟨f, hwrite, rfl⟩ | ⟨_, half, hwrite, hrest⟩
  · rcases write_cases hwrite with ⟨hok, -⟩ | ⟨_, -, rfl | ⟨cut, hcut, hputs⟩⟩
    · cases hok
    · exact .failed hroom
    · exact .cut hmakes (.executable hbytes hcut (Wrote.concat (.nil hroom) hputs))
  -- From here on the executable is in its place, whatever becomes of the manifest.
  have hhalf : Wrote [(p.executablePath, bytes)] s half := by
    rcases write_cases hwrite with ⟨-, hputs⟩ | ⟨_, herror, -⟩
    · exact Wrote.concat (.nil hroom) hputs
    · cases herror
  cases hmanifest : p.manifest with
  | none =>
    rw [hmanifest] at hrest
    obtain ⟨rfl, rfl⟩ := pure_cases hrest
    exact .stored hmakes (Products.stored_alone hbytes hmanifest hhalf)
  | some entry =>
    rw [hmanifest] at hrest
    rcases bind_cases hrest with ⟨f, hfail, rfl⟩ | ⟨_, last, hlast, hpure⟩
    · rcases write_cases hfail with ⟨hok, -⟩ | ⟨_, -, rfl | ⟨cut, hcut, hputs⟩⟩
      · cases hok
      · exact .cut hmakes (.refused hbytes hmanifest hhalf)
      · exact .cut hmakes (.manifest hbytes hmanifest hcut (hhalf.concat hputs))
    · obtain ⟨rfl, rfl⟩ := pure_cases hpure
      rcases write_cases hlast with ⟨-, hputs⟩ | ⟨_, herror, -⟩
      · exact .stored hmakes (Products.stored_both hbytes hmanifest (hhalf.concat hputs))
      · cases herror

theorem buildProgram_ending {o : BuildOptions}
    (h : Ends (buildProgram config o : ExceptT Failure m String).run s r s') :
    Ending config s (.build o) r s' := by
  rcases bind_cases h with ⟨f, hread, rfl⟩ | ⟨program, half, hread, hrest⟩
  · obtain ⟨rfl, -⟩ := readProgram_cases hread
    exact .unchanged
  obtain ⟨rfl, hprogram⟩ := readProgram_cases hread
  obtain ⟨text, htext, hparse⟩ := hprogram program rfl
  rcases lift_bind_cases hrest with ⟨f, rfl, rfl⟩ | ⟨package, hpackage, hrest⟩
  · exact .unchanged
  rcases bind_cases hrest with ⟨f, hroom, rfl⟩ | ⟨_, room, hroom, hrest⟩
  · exact .failed (makeRoom_cases hroom)
  have hsame := makeRoom_cases hroom
  rcases lift_bind_cases hrest with ⟨f, rfl, rfl⟩ | ⟨bytes, hbytes, hrest⟩
  · exact .failed hsame
  exact ending_of_writes (.build htext hparse hpackage) hsame (orFail_eq_ok_iff.1 hbytes) hrest

theorem optimizeExecutable_ending {o : OptimizeOptions}
    (h : Ends (optimizeExecutable o : ExceptT Failure m String).run s r s') :
    Ending config s (.optimize o) r s' := by
  rcases bind_cases h with ⟨f, hread, rfl⟩ | ⟨x, half, hread, hload⟩
  · obtain ⟨rfl, -⟩ := readExecutable_cases hread
    exact .unchanged
  obtain ⟨rfl, hx⟩ := readExecutable_cases hread
  obtain ⟨data, hdata, hparse⟩ := hx x rfl
  rcases bind_cases hload with ⟨f, hfail, rfl⟩ | ⟨found, half, hfound, hrest⟩
  · obtain ⟨rfl, -⟩ := readNamed_cases hfail
    exact .unchanged
  obtain ⟨rfl, hnamed⟩ := readNamed_cases hfound
  rcases lift_bind_cases hrest with ⟨f, rfl, rfl⟩ | ⟨optimized, hoptimize, hrest⟩
  · exact .unchanged
  rcases lift_bind_cases hrest with ⟨f, rfl, rfl⟩ | ⟨bytes, hbytes, hrest⟩
  · exact .unchanged
  have hoptimize := orFail_eq_ok_iff.1 hoptimize
  have hbytes := orFail_eq_ok_iff.1 hbytes
  rcases bind_cases hrest with ⟨f, hfail, rfl⟩ | ⟨moved, half, hmoved, hwrites⟩
  · obtain ⟨rfl, -⟩ := remapRead_cases hfail
    exact .unchanged
  obtain ⟨rfl, hremap⟩ := remapRead_cases hmoved
  have hstay := refl_of SameFiles half
  rcases hnamed found rfl with ⟨hpath, rfl⟩ | 
    ⟨path, manifest, hpath, rfl, text, htext, hmanifest⟩
  · rw [hpath] at hwrites
    exact ending_of_writes (.optimizeAlone hdata hparse hpath hoptimize) hstay hbytes hwrites
  · rcases hremap moved rfl with ⟨hnone, -⟩ | ⟨_, m', hsome, rfl, hmove⟩
    · cases hnone
    cases hsome
    rw [hpath] at hwrites
    exact ending_of_writes (.optimizeBoth hdata hparse hpath htext hmanifest hoptimize hmove) hstay
      hbytes hwrites

theorem inspectExecutable_cases {input : String}
    (h : Ends (inspectExecutable input : ExceptT Failure m String).run s r s') : s' = s := by
  rcases bind_cases h with ⟨f, hread, -⟩ | ⟨x, half, hread, hlisting⟩
  · exact (readExecutable_cases hread).1
  · obtain ⟨rfl, -⟩ := readExecutable_cases hread
    exact (lift_cases hlisting).2

theorem ending_of_run {command : Command}
    (h : Ends (command.run config : ExceptT Failure m String).run s r s') :
    (s' = s ∧ ∃ input, command = .inspect input) ∨ command.Ending config s r s' := by
  cases command with
  | build o => exact .inr (buildProgram_ending h)
  | optimize o => exact .inr (optimizeExecutable_ending h)
  | inspect input => exact .inl ⟨inspectExecutable_cases h, input, rfl⟩

end Command

namespace CommandLine

section Runs

variable {m : Type → Type} [Monad m] [Files m] [Files.View m] [Files.Lawful m] {s s' : State m}
  {exit : Exit}

/-- The products of an invocation, with the settings that it finds. -/
def MakesProducts (i : Invocation) (s : State m) (p : Products) : Prop :=
  ∃ config, Ends (Config.load i.config : m (Except ConfigError Config)) s (.ok config) s ∧
    i.command.Makes config s p

theorem runInvocation_cases {i : Invocation} (h : Ends (runInvocation i : m Exit) s exit s') :
    (exit.code ≠ 0 ∧ s' = s) ∨ ∃ config r,
      Ends (Config.load i.config : m (Except ConfigError Config)) s (.ok config) s ∧
      Ends (i.command.run config : ExceptT Failure m String).run s r s' ∧
      (exit.code = 0 ↔ ∃ out, r = .ok out) := by
  obtain ⟨loaded, half, hload, hrest⟩ := ends_bind h
  obtain rfl : s = half := Config.does_load i.config _ _ _ hload
  cases loaded with
  | error e =>
    obtain ⟨rfl, rfl⟩ := ends_pure hrest
    exact .inl ⟨(by decide : (1 : UInt8) ≠ 0), rfl⟩
  | ok config =>
    obtain ⟨r, last, hrun, hexit⟩ := ends_bind hrest
    cases r with
    | error f =>
      obtain ⟨rfl, rfl⟩ := ends_pure hexit
      exact .inr ⟨config, _, hload, hrun, by simp⟩
    | ok out =>
      obtain ⟨rfl, rfl⟩ := ends_pure hexit
      exact .inr ⟨config, _, hload, hrun, by simp⟩

end Runs

section Samples

/-- A command on a tree of files. -/
abbrev Action (α : Type) := ExceptT Failure (StateM FileTree) α

variable {α β : Type} {t t' half : FileTree}

theorem bind_of_ok {x : Action α} {next : α → Action β} {a : α} (h : x t = (.ok a, half)) :
    (x >>= next) t = next a half := by
  change ExceptT.bindCont next (x t).1 (x t).2 = next a half
  rw [h]
  rfl

theorem bind_of_error {x : Action α} {next : α → Action β} {f : Failure}
    (h : x t = (.error f, half)) : (x >>= next) t = (.error f, half) := by
  change ExceptT.bindCont next (x t).1 (x t).2 = (.error f, half)
  rw [h]
  rfl

theorem bind_pure_apply {x : Action Unit} {r : Except Failure Unit} {out : β}
    (h : x t = (r, half)) :
    ∃ r', (x >>= fun _ => pure out) t = (r', half) ∧ ((∃ b, r' = .ok b) ↔ r = .ok ()) := by
  cases r with
  | error f => exact ⟨.error f, bind_of_error h, by simp⟩
  | ok a => exact ⟨.ok out, bind_of_ok h, by simp⟩

theorem attempt_apply (purpose : String) (action : StateM FileTree (Except FileError α))
    (t : FileTree) : (Command.attempt purpose action : Action α) t =
      ((action t).1.mapError fun e => (Failure.of (.file e)).within purpose, (action t).2) := by
  have hlift : (liftM action : Action _) t = (.ok (action t).1, (action t).2) := rfl
  rw [Command.attempt, bind_of_ok hlift]
  cases (action t).1 <;> rfl

theorem runInvocation_of_run {i : Invocation} {config : Config} {r : Except Failure String}
    (hload : (Config.load i.config : StateM FileTree (Except ConfigError Config)) t =
      (.ok config, t))
    (hrun : (i.command.run config : Action String) t = (r, t')) :
    ∃ exit, (runInvocation i : StateM FileTree Exit) t = (exit, t') ∧
      (exit.code = 0 ↔ ∃ out, r = .ok out) := by
  rw [runInvocation, Files.bind_apply, hload]
  dsimp only
  rw [Files.bind_apply, ExceptT.run, hrun]
  cases r with
  | error f => exact ⟨_, rfl, by simp⟩
  | ok out => exact ⟨_, rfl, by simp⟩

/-- The text of a program whose only method returns at once. -/
def returningText : String :=
  "\x7b\"name\":\"R\",\"methods\":[\x7b\"name\":\"main\",\"body\":[\x7b\"opcode\":\"RET\"\x7d]\x7d]\x7d"

def returning : Program where
  name := "R"
  methods := [{ name := "main", body := [{ opcode := "RET" }] }]

theorem ofText_returning : Program.ofText returningText = .ok returning := by
  have hwords : Json.Lexeme.lex returningText.toList = (Json.object [("name", .string "R"),
      ("methods", .array [.object [("name", .string "main"),
        ("body", .array [.object [("opcode", .string "RET")]])]])]).words := by cbv
  rw [Program.ofText, Json.Decode.ofText, Json.Doc.parse_of_words hwords]
  rfl

theorem ofProgram_returning : ∃ package bytes, Package.ofProgram {} false returning = .ok package ∧
    package.executable.toBytes = .ok bytes := by
  obtain ⟨c, contract, hlower, hcompile, hview⟩ :=
    Program.exists_compile returning ({ · with source := ({} : Config).source })
      (fun contract => (contract.script, contract.source, contract.tokens))
      ([0x40], ({} : Config).source, []) (by cbv)
  obtain ⟨hscript, hsource, htokens⟩ := by simpa only [Prod.mk.injEq] using hview
  have hsizes : Executable.checkSizes (Utf8.encode ({} : Config).compilerId)
      (Utf8.encode contract.source) contract.tokens.length contract.script = .ok () := by
    rw [hscript, hsource, htokens]
    cbv
  obtain ⟨x, hx⟩ := Executable.exists_build hsizes (by rw [htokens]; simp)
  obtain ⟨data, hbody, -⟩ := Executable.build_eq hx
  refine ⟨⟨x, contract.manifest⟩, _, ?_, Executable.toBytes_eq_ok_iff.2 ⟨data, hbody, rfl⟩⟩
  have hexecutable : contract.executable ({} : Config).compilerId = .ok x :=
    CompileError.lift_eq_ok_iff.2 hx
  simp only [Package.ofProgram, hlower, hcompile, hexecutable, bind, Except.bind, orFail,
    Bool.false_eq_true, if_false, pure, Except.pure]

/-- A program, alone or beside a directory with the name that its manifest is to have. -/
def desk (program : Bytes) (occupied : Bool) : FileTree where
  nodes := (["r.json"], .file program) ::
    if occupied then [(["r.manifest.json"], .directory)] else []

section Desk

variable (program bytes : Bytes) (occupied : Bool)

theorem read_desk : (desk program occupied).read "r.json" = .ok program := by
  have hnul : "r.json".contains '\x00' = false := by cbv
  rw [FileTree.read, FileTree.locate, hnul]
  cases occupied <;> rfl

theorem write_desk : (desk program occupied).write "r.nef" bytes =
    (.ok (), (desk program occupied).setNode ["r.nef"] (.file bytes)) := by
  have hnul : "r.nef".contains '\x00' = false := by cbv
  refine FileTree.write_of_fileLocation rfl ?_
  rw [FileTree.fileLocation, FileTree.locate, hnul]
  cases occupied <;> rfl

theorem load_desk : (Config.load none : StateM FileTree (Except ConfigError Config))
    (desk program occupied) = (.ok {}, desk program occupied) := by
  have hnone : ∀ path ∈ ["/sable.toml", "/.sablerc.toml"],
      (desk program occupied).read path = .error .notFound := by
    have hnul : "/sable.toml".contains '\x00' = false := by cbv
    have hnul' : "/.sablerc.toml".contains '\x00' = false := by cbv
    rw [List.forall_mem_cons, List.forall_mem_singleton]
    constructor
    · rw [FileTree.read, FileTree.locate, hnul]
      cases occupied <;> rfl
    · rw [FileTree.read, FileTree.locate, hnul']
      cases occupied <;> rfl
  have hpaths : (Path.ancestors "/").flatMap (fun dir => Config.fileNames.map (Path.within dir)) =
      ["/sable.toml", "/.sablerc.toml"] := rfl
  have hfind : (Config.find : StateM FileTree (Option String)) (desk program occupied) =
      (none, desk program occupied) := by
    rw [Config.find, Files.bind_apply]
    exact hpaths ▸ Files.firstPresent_none hnone
  rw [Config.load, Files.bind_apply, hfind]
  rfl

end Desk

/-- Building the program comes down to two writes. -/
theorem buildProgram_returning (hread : t.read "r.json" = .ok (Utf8.encode returningText)) :
    ∃ bytes content, ∀ half, t.write "r.nef" bytes = (.ok (), half) → ∃ r,
      (Command.buildProgram {} ⟨"r.json", none, false⟩ : Action String) t =
        (r, (half.write "r.manifest.json" content).2) ∧
      ((∃ out, r = .ok out) ↔ (half.write "r.manifest.json" content).1 = .ok ()) := by
  obtain ⟨package, bytes, hpackage, hbytes⟩ := ofProgram_returning
  refine ⟨bytes, Utf8.encode package.manifest.toText, fun half hhalf => ?_⟩
  have hprogram : (Command.readProgram "r.json" : Action Program) t = (.ok returning, t) := by
    have htext : (Command.readText "r.json" : Action String) t = (.ok returningText, t) := by
      rw [Command.readText, attempt_apply, Files.readText_of_read hread]
      rfl
    rw [Command.readProgram, bind_of_ok htext, ofText_returning]
    rfl
  have hroom : (Command.makeRoom "r.nef" : Action Unit) t = (.ok (), t) := by
    have hparent : Path.parent? "r.nef" = some "" := rfl
    rw [Command.makeRoom, hparent]
    rfl
  have hbase : Path.withoutExtension "r.json" = "r" := rfl
  have hfirst : (Command.write "r.nef" bytes : Action Unit) t = (.ok (), half) := by
    rw [Command.write, attempt_apply, Files.write_apply, hhalf]
    rfl
  have hpackaged : (liftM (Package.ofProgram {} false returning) : Action Package) t =
      (.ok package, t) := by
    rw [hpackage]
    rfl
  have hencoded : (liftM (orFail .codec package.executable.toBytes) : Action Bytes) t =
      (.ok bytes, t) := by
    rw [hbytes]
    rfl
  have hnef : "r" ++ ".nef" = "r.nef" := by decide
  have hjson : "r" ++ ".manifest.json" = "r.manifest.json" := by decide
  unfold Command.buildProgram
  simp only [Option.getD_none, hbase, Bool.and_false, hnef, hjson]
  rw [bind_of_ok hprogram, bind_of_ok hpackaged, bind_of_ok hroom, bind_of_ok hencoded,
    bind_of_ok hfirst]
  obtain ⟨r, hrun, hok⟩ := bind_pure_apply (attempt_apply "Failed to write r.manifest.json"
    (Files.write "r.manifest.json" (Utf8.encode package.manifest.toText)) half)
  refine ⟨r, hrun, hok.trans ?_⟩
  rw [Files.write_apply]
  cases (half.write "r.manifest.json" (Utf8.encode package.manifest.toText)).1 <;>
    simp [Except.mapError]

theorem locate_manifest (t : FileTree) :
    t.locate "r.manifest.json" = .ok (.entry t.workingDir "r.manifest.json" false) := by
  have hpieces : Path.pieces "r.manifest.json".toList = ["r.manifest.json".toList] := by decide
  have hnul : "r.manifest.json".contains '\x00' = false := by cbv
  rw [FileTree.locate, hpieces, hnul]
  rfl

theorem run_returning (occupied : Bool) : ∃ exit bytes content half,
    half = (desk (Utf8.encode returningText) occupied).setNode ["r.nef"] (.file bytes) ∧
    (run ["build", "r.json", "--no-optimize"] : StateM FileTree Exit)
      (desk (Utf8.encode returningText) occupied) =
        (exit, (half.write "r.manifest.json" content).2) ∧
      (exit.code = 0 ↔ (half.write "r.manifest.json" content).1 = .ok ()) := by
  obtain ⟨bytes, content, hbuild⟩ := buildProgram_returning (read_desk _ occupied)
  obtain ⟨r, hrun, hok⟩ := hbuild _ (write_desk _ bytes occupied)
  have hparse : Arguments.parse ["build", "r.json", "--no-optimize"] =
      .ok ⟨.build ⟨"r.json", none, false⟩, none, false⟩ := rfl
  obtain ⟨exit, hexit, hcode⟩ := runInvocation_of_run
    (i := ⟨.build ⟨"r.json", none, false⟩, none, false⟩) (load_desk _ occupied) hrun
  refine ⟨exit, bytes, content, _, rfl, ?_, hcode.trans hok⟩
  simp only [run, hparse]
  exact hexit

end Samples

end CommandLine
end ContractLinker
