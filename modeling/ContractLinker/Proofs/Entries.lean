import ContractLinker.Proofs.References

namespace ContractLinker

def sitesOf (methods : List MethodDef) : List Site :=
  methods.flatMap fun m => m.body.map (Site.mk m.name)

/-- The parts in which the body of a method is given, without those that hold nothing. -/
def partsOf (methods : List MethodDef) (name : String) : List (List InstructionDef) :=
  ((methods.filter (·.name = name)).map (·.body)).filter (· ≠ [])

/-- What is exported, with the names of the methods. -/
def exportsOf (methods : List MethodDef) : List (String × ExportDef) :=
  methods.filterMap fun m => m.exported.map (m.name, ·)

section Methods

variable (methods : List MethodDef) (m : MethodDef) (name : String)

theorem sitesOf_concat :
    sitesOf (methods ++ [m]) = sitesOf methods ++ m.body.map (Site.mk m.name) := by
  simp [sitesOf]

theorem partsOf_concat : partsOf (methods ++ [m]) name =
    partsOf methods name ++ if m.name = name ∧ m.body ≠ [] then [m.body] else [] := by
  by_cases hname : m.name = name <;> by_cases hbody : m.body = [] <;>
    simp [partsOf, hname, hbody]

theorem exportsOf_concat : exportsOf (methods ++ [m]) =
    exportsOf methods ++ (m.exported.map (m.name, ·)).toList := by
  cases h : m.exported <;> simp [exportsOf, h]

theorem nil_not_mem_partsOf : [] ∉ partsOf methods name := by
  simp [partsOf]

theorem flatten_partsOf : (partsOf methods name).flatten =
    (methods.filter (·.name = name)).flatMap (·.body) := by
  rw [partsOf, List.flatMap_def]
  exact List.flatten_filter_ne_nil

theorem idsOf_body (sites : List Site) (body : List InstructionDef) (other : String) :
    idsOf (sites ++ body.map (Site.mk other)) name =
      idsOf sites name ++ if other = name then List.range' sites.length body.length else [] := by
  induction body using List.reverseRecOn with
  | nil => simp
  | append_singleton body d ih =>
    rw [List.map_append, ← List.append_assoc, List.map_singleton, idsOf_concat, ih]
    by_cases hname : other = name
    · simp [hname, List.range'_concat]
    · simp [hname]

theorem length_idsOf :
    (idsOf (sitesOf methods) name).length = (partsOf methods name).flatten.length := by
  induction methods using List.reverseRecOn with
  | nil => rfl
  | append_singleton methods m ih =>
    rw [sitesOf_concat, idsOf_body, partsOf_concat, List.flatten_append, List.length_append,
      List.length_append, ih]
    by_cases hname : m.name = name <;> by_cases hbody : m.body = [] <;> simp [hname, hbody]

end Methods

namespace Lowering

variable {s s' : Lowering}

theorem Reads.exports_eq {method : MethodId} {d : InstructionDef} (h : Reads method d s s') :
    s'.compilation.exports = s.compilation.exports := by
  obtain ⟨ins, c, hins, hcompilation⟩ := h.instruction
  rw [hcompilation, (lowerInstruction_ok hins).2.rest]

theorem lowerBody_ok {name : String} {method : MethodId} {index : Nat} {body : List InstructionDef}
    (h : lowerBody s name method index body = .ok s') :
    s'.compilation.exports = s.compilation.exports ∧
      s'.entries = if index = 0 ∧ body ≠ [] then
        s.entries.insert name s.compilation.arena.size else s.entries := by
  -- The name is noted by the first definition of a part alone, the one with index 0.
  induction body generalizing s index with
  | nil =>
    cases h
    simp
  | cons d body ih =>
    obtain ⟨t, hreads, hentries, hrest⟩ := lowerBody_cons h
    obtain ⟨hexports, hrest⟩ := ih hrest
    refine ⟨hexports.trans hreads.exports_eq, ?_⟩
    rw [hrest, hentries]
    by_cases hindex : index = 0 <;> simp [hindex]

theorem lowerMethod_ok {m : MethodDef} (h : lowerMethod s m = .ok s') :
    s'.entries = (if m.body ≠ [] then s.entries.insert m.name s.compilation.arena.size
        else s.entries) ∧
      s'.compilation.exports.toList = s.compilation.exports.toList ++ (m.exported.map fun e =>
        ⟨(s.compilation.defineMethod m.name).1, e.name.getD m.name, e.safe, e.parameters,
          e.returnType⟩).toList := by
  obtain ⟨t, hrun, hexport⟩ := Except.bind_eq_ok_iff.1 h
  have hbody : lowerBody { s with compilation := (s.compilation.defineMethod m.name).2 } m.name
      (s.compilation.defineMethod m.name).1 0 m.body = .ok t := hrun
  obtain ⟨hexports, hentries⟩ := lowerBody_ok hbody
  have hopened : (s.compilation.defineMethod m.name).2.exports = s.compilation.exports ∧
      (s.compilation.defineMethod m.name).2.arena = s.compilation.arena := by
    unfold Compilation.defineMethod
    split <;> exact ⟨rfl, rfl⟩
  simp only [true_and, hopened] at hentries hexports
  cases hexported : m.exported with
  | none =>
    simp only [hexported] at hexport
    cases hexport
    exact ⟨hentries, by simp [hexports]⟩
  | some e =>
    simp only [hexported] at hexport
    cases hexport
    refine ⟨hentries, ?_⟩
    change (t.compilation.exports.push _).toList = _
    rw [Array.toList_push, hexports]
    rfl

/-- `e` is what the compilation holds for an export; `names` are those of its bodies. -/
structure Publishes (names : List String) (x : String × ExportDef) (e : ExportedMethod) : Prop where
  method : names[e.method]? = some x.1
  described : e = ⟨e.method, x.2.name.getD x.1, x.2.safe, x.2.parameters, x.2.returnType⟩

theorem Publishes.mono {names names' : List String} {x : String × ExportDef} {e : ExportedMethod}
    (h : Publishes names x e) (hnames : names <+: names') : Publishes names' x e := by
  refine ⟨?_, h.described⟩
  exact getElem?_of_prefix hnames h.method

/-- The state after these methods were read: a name stands for the first position of the last part
of its body. -/
structure Knows (methods : List MethodDef) (s : Lowering) : Prop where
  tracks : Tracks (methods.map (·.name)) (sitesOf methods) s
  entries : ∀ name, s.entries[name]? =
    (idsOf (sitesOf methods) name)[(partsOf methods name).dropLast.flatten.length]?
  exports : List.Forall₂ (Publishes (methods.map (·.name)).eraseDups) (exportsOf methods)
    s.compilation.exports.toList

namespace Knows

variable {methods : List MethodDef} {m : MethodDef}

theorem entries_concat {entries entries' : Std.HashMap String InstructionId} {name : String}
    (h : entries[name]? =
      (idsOf (sitesOf methods) name)[(partsOf methods name).dropLast.flatten.length]?)
    (hstep : entries' = if m.body ≠ [] then entries.insert m.name (sitesOf methods).length
      else entries) :
    entries'[name]? = (idsOf (sitesOf (methods ++ [m])) name)[
      (partsOf (methods ++ [m]) name).dropLast.flatten.length]? := by
  rw [sitesOf_concat, idsOf_body, partsOf_concat, hstep]
  by_cases hbody : m.body = []
  · simpa [hbody] using h
  · by_cases hname : m.name = name
    · obtain ⟨d, body, hcons⟩ := List.exists_cons_of_ne_nil hbody
      have hnew : (List.range' (sitesOf methods).length m.body.length)[0]? =
          some (sitesOf methods).length := by
        rw [hcons]
        rfl
      rw [if_pos hbody, if_pos hname, if_pos ⟨hname, hbody⟩, List.dropLast_concat, ← length_idsOf,
        List.getElem?_append_right (Nat.le_refl _), Nat.sub_self, hnew, hname,
        Std.HashMap.getElem?_insert_self]
    · simpa [hbody, hname, Std.HashMap.getElem?_insert] using h

theorem lowerMethod (h : Knows methods s) (hrun : lowerMethod s m = .ok s') :
    Knows (methods ++ [m]) s' := by
  obtain ⟨hentries, hexports⟩ := lowerMethod_ok hrun
  have htracks := Tracks.kept.lowerMethod h.tracks hrun
  have hnames : (methods ++ [m]).map (·.name) = methods.map (·.name) ++ [m.name] := by simp
  refine ⟨?_, ?_, ?_⟩
  · rw [hnames, sitesOf_concat]
    exact htracks
  · intro name
    rw [h.tracks.size] at hentries
    exact entries_concat (h.entries name) hentries
  · rw [hnames, exportsOf_concat, hexports]
    have hgrown := eraseDups_prefix (methods.map (·.name)) [m.name]
    refine List.rel_append (h.exports.imp fun x e he => he.mono hgrown) ?_
    cases m.exported with
    | none => exact .nil
    | some e =>
      -- The body that was opened has the name of the method.
      have hopened := (h.tracks.defineMethod m.name).names_eq ▸
        Compilation.getElem?_of_method? (s.compilation.method?_defineMethod m.name)
      exact .cons ⟨hopened, rfl⟩ .nil

theorem lowerMethods {more : List MethodDef} (h : Knows methods s)
    (hrun : more.foldlM Lowering.lowerMethod s = .ok s') : Knows (methods ++ more) s' := by
  induction more generalizing methods s with
  | nil =>
    cases hrun
    rwa [List.append_nil]
  | cons m more ih =>
    rw [List.foldlM_cons] at hrun
    obtain ⟨t, hfirst, hrest⟩ := Except.bind_eq_ok_iff.1 hrun
    have hnext := ih (h.lowerMethod hfirst) hrest
    rwa [List.append_assoc, List.singleton_append] at hnext

end Knows
end Lowering

/-- Emitting an initializer exports it, and changes no other export. -/
theorem Compilation.emitInitializer_exports {c c' : Compilation} {id : Option MethodId}
    (h : c.emitInitializer = (.ok id, c')) :
    ¬ (c.statics.keys ≠ [] ∧ c.method? initializerName = none) ∧ c'.exports = c.exports ∨
      (c.statics.keys ≠ [] ∧ c.method? initializerName = none) ∧
        c'.exports = c.exports.push { method := c.methods.size, name := initializerName } := by
  rcases emitInitializer_ok h with ⟨rfl, hnone⟩ | ⟨hsome, hfind, -, -, rfl⟩
  · refine .inl ⟨?_, rfl⟩
    rintro ⟨hkeys, hmissing⟩
    rcases hnone with ⟨hnil, -⟩ | ⟨hfound, hid⟩
    · exact hkeys hnil
    · exact hid (hfound.symm.trans hmissing)
  · exact .inr ⟨⟨hsome, hfind⟩, rfl⟩

theorem PointsAt.unique {code : List Instruction} {start i slot j j' : Nat}
    (hlaid : Script.LaidOut start code) (h : PointsAt code i slot j)
    (h' : PointsAt code i slot j') : j = j' := by
  obtain ⟨ins, there, d, hins, hthere, hread, hsum⟩ := h
  obtain ⟨ins', there', d', hins', hthere', hread', hsum'⟩ := h'
  rw [hins] at hins'
  cases hins'
  rw [hread] at hread'
  cases hread'
  have hoffset : there.offset = there'.offset := by omega
  obtain ⟨hj, rfl⟩ := List.getElem?_eq_some_iff.1 hthere
  obtain ⟨hj', rfl⟩ := List.getElem?_eq_some_iff.1 hthere'
  have hordered := List.pairwise_iff_getElem.1 hlaid.pairwise
  rcases Nat.lt_trichotomy j j' with hlt | heq | hgt
  · have := hordered j j' hj hj' hlt
    omega
  · exact heq
  · have := hordered j' j hj' hj hgt
    omega

namespace Program

def start (p : Program) (name : String) : Nat :=
  ((p.names.takeWhile (· ≠ name)).flatMap fun other =>
    (p.methods.filter (·.name = other)).flatMap (·.body)).length

/-- Where the last part of it starts. -/
def lastStart (p : Program) (name : String) : Nat :=
  p.start name + (partsOf p.methods name).dropLast.flatten.length

structure Enters (p : Program) (code : List Instruction) (x : String × ExportDef) (m : AbiMethod) :
    Prop where
  described : m = ⟨x.2.name.getD x.1, m.offset, x.2.safe, x.2.returnType, x.2.parameters⟩
  first : ∃ ins, code[p.start x.1]? = some ins ∧ ins.offset = m.offset

/-- The exports behind those of the program: that of the initializer, if it is generated. -/
def InitializerExport (p : Program) (generated : List ExportedMethod) : Prop :=
  ¬ p.Generates ∧ generated = [] ∨
    p.Generates ∧ generated =
      [{ method := p.names.length, name := Compilation.initializerName }]

theorem knows_header (p : Program) : Lowering.Knows [] { compilation := p.header } := by
  obtain ⟨-, -, -, -, hexports⟩ := p.header_code
  refine ⟨p.tracks_header, ?_, ?_⟩
  · simp [partsOf, sitesOf, idsOf]
  · rw [hexports]
    exact .nil

theorem lower_knows {p : Program} {c : Compilation} (h : p.lower = .ok c) :
    ∃ s generated, p.Lowers s c ∧ s.Knows p.methods ∧ p.InitializerExport generated ∧
      c.exports.toList = s.compilation.exports.toList ++ generated := by
  obtain ⟨s, c₁, id, hmethods, htracks, hbind, hemit⟩ := lower_eq_ok h
  obtain ⟨hkeep, -, -⟩ := htracks.bindAll hbind
  have hexports : c₁.exports = s.compilation.exports := by rw [hkeep]
  have hsize : c₁.methods.size = p.names.length := by
    have hlength := congrArg List.length htracks.names_eq
    rw [List.length_map, Array.length_toList] at hlength
    rw [hkeep]
    exact hlength
  have hknows : s.Knows p.methods := p.knows_header.lowerMethods hmethods
  have hlowers := lowers_of_tracks htracks hbind hemit
  rcases Compilation.emitInitializer_exports hemit with ⟨hnone, hsame⟩ | ⟨hsome, hpushed⟩
  · refine ⟨s, [], hlowers, hknows, .inl ⟨?_, rfl⟩, ?_⟩
    · rwa [generates_iff htracks hkeep] at hnone
    · rw [hsame, hexports, List.append_nil]
  · refine ⟨s, _, hlowers, hknows, .inr ⟨(generates_iff htracks hkeep).1 hsome, rfl⟩, ?_⟩
    rw [hpushed, hsize, hexports, Array.toList_push]

theorem getElem?_ids {p : Program} {name : String} {k : Nat} {id : InstructionId}
    (hmem : name ∈ p.names) (hk : (idsOf p.sites name)[k]? = some id) :
    p.ids[p.start name + k]? = some id := by
  have hlength (l : List String) :
      (l.flatMap fun other => (p.methods.filter (·.name = other)).flatMap (·.body)).length =
        (l.flatMap (idsOf p.sites)).length := by
    rw [List.length_flatMap, List.length_flatMap]
    congr 2
    funext other
    rw [← flatten_partsOf]
    exact (length_idsOf p.methods other).symm
  rw [start, hlength]
  exact getElem?_flatMap_takeWhile hmem hk

section

variable {p : Program} {s : Lowering} {c : Compilation} {contract : Contract}
  {decoded : List Instruction} (hlowers : p.Lowers s c) (hcompiles : c.Compiles contract decoded)

include hlowers hcompiles

theorem enters_of_publishes {x : String × ExportDef} {e : ExportedMethod} {m : AbiMethod}
    (hpublishes : Lowering.Publishes p.names x e) (hexports : c.Exports decoded e m) :
    p.Enters (decoded.take p.ids.length) x m := by
  obtain ⟨generated, hbodies, -⟩ := hlowers.bodies
  have hname := hpublishes.method
  have hbody : c.methods.toList[e.method]? = some (Lowering.bodyOf p.sites x.1) := by
    have hlt : e.method < (p.names.map (Lowering.bodyOf p.sites)).length := by
      rw [List.length_map]
      exact (List.getElem?_eq_some_iff.1 hname).1
    rw [hbodies, List.getElem?_append_left hlt, List.getElem?_map, hname]
    rfl
  obtain ⟨first, rest, hfirst⟩ :=
    List.exists_cons_of_ne_nil (hcompiles.nonempty _ (List.mem_of_getElem? hbody))
  have hhead : (idsOf p.sites x.1)[0]? = some first := by
    change idsOf p.sites x.1 = first :: rest at hfirst
    rw [hfirst]
    rfl
  -- The first instruction of the body is found at its place among all definitions.
  have hplace : p.ids[p.start x.1]? = some first :=
    getElem?_ids (List.mem_of_getElem? hname) hhead
  have hbefore := (List.getElem?_eq_some_iff.1 hplace).1
  obtain ⟨more, horder, -⟩ := order_eq hlowers
  have hplaced : c.order[p.start x.1]? = some first := by
    rw [horder, List.getElem?_append_left hbefore, hplace]
  obtain ⟨ins, hins, rfl⟩ := hcompiles.exports_at hexports hbody hfirst hplaced
  constructor
  · rw [hpublishes.described]
  · refine ⟨ins, ?_, rfl⟩
    rw [List.getElem?_take_of_lt hbefore, hins]

/-- The interface lists the exports of the program, and then what was exported behind them. -/
theorem interface_split (hknows : s.Knows p.methods) {generated : List ExportedMethod}
    (hexports : c.exports.toList = s.compilation.exports.toList ++ generated) :
    ∃ own rest, contract.abi.methods = own ++ rest ∧
      List.Forall₂ (p.Enters (decoded.take p.ids.length)) (exportsOf p.methods) own ∧
      List.Forall₂ (c.Exports decoded) generated rest := by
  have habi := hcompiles.exported
  rw [hexports] at habi
  obtain ⟨hown, hrest⟩ := forall₂_of_append habi
  refine ⟨_, _, (List.take_append_drop _ _).symm, ?_, hrest⟩
  refine (forall₂_through hknows.exports.flip hown).imp fun x m hm => ?_
  obtain ⟨e, hpublishes, hexport⟩ := hm
  exact enters_of_publishes hlowers hcompiles hpublishes hexport

/-- What is no label is the name of a method, and stands for the last part of its body. -/
theorem pointsAt_lastStart (hknows : s.Knows p.methods) {i slot : Nat} {d : InstructionDef}
    {name : String} (hd : p.code[i]? = some d) (hslot : d.targetAt slot = some name)
    (hmem : name ∈ p.names) (hnone : ∀ d' ∈ p.text, d'.label ≠ some name) :
    partsOf p.methods name ≠ [] ∧
      PointsAt (decoded.take p.ids.length) i slot (p.lastStart name) := by
  -- No label goes before the name of the method.
  have hlabels : s.labels[name]? = none := by
    rw [Option.eq_none_iff_forall_ne_some]
    intro id hid
    obtain ⟨site, hsite, hlabel⟩ := (hlowers.labels name id).1 hid
    refine hnone site.definition ?_ hlabel
    rw [text_eq]
    exact List.mem_map_of_mem (List.mem_of_getElem? hsite)
  obtain ⟨id, -, site, hsite, rfl⟩ := forall₂_getElem? p.forall₂_ids.flip hd
  obtain ⟨ins, -, hbound⟩ := hlowers.cells id site hsite
  obtain ⟨target, hresolve, -⟩ := hbound.slot hslot
  have hentry : s.entries[name]? = some target := by
    rw [Lowering.resolve, hlabels] at hresolve
    split at hresolve
    · contradiction
    · cases hresolve
      assumption
    · cases hresolve
  have hposition := hknows.entries name
  rw [hentry] at hposition
  refine ⟨?_, pointsAt_resolve hlowers hcompiles hd hslot hresolve
    (getElem?_ids hmem hposition.symm)⟩
  intro hempty
  have hlength := length_idsOf p.methods name
  have hlt := (List.getElem?_eq_some_iff.1 hposition.symm).1
  rw [hlength, hempty] at hlt
  exact Nat.not_lt_zero _ hlt

end

/-- What the name of a method means as a target: the first instruction of the last part of its body.
The interface enters the method at the first instruction of all of it, and these are the same if and
only if the body is given in one part. -/
theorem method_targets {p : Program} {c : Compilation} {contract : Contract}
    (hlower : p.lower = .ok c) (hcompile : c.compile = .ok contract) :
    ∃ code tail, Script.instructionsOf contract.script = .ok (code ++ tail) ∧
      List.Forall₂ InstructionDef.Renders p.code code ∧
      (∀ i d slot name, p.code[i]? = some d → d.targetAt slot = some name → name ∈ p.names →
        (∀ d' ∈ p.text, d'.label ≠ some name) →
        PointsAt code i slot (p.lastStart name) ∧
          (PointsAt code i slot (p.start name) ↔ (partsOf p.methods name).length = 1)) ∧
      ∃ own generated, contract.abi.methods = own ++ generated ∧
        List.Forall₂ (p.Enters code) (exportsOf p.methods) own := by
  obtain ⟨s, generated, hlowers, hknows, -, hexports⟩ := lower_knows hlower
  obtain ⟨decoded, hcompiles⟩ := Compilation.compile_ok hcompile
  have hdecodes : Script.instructionsOf contract.script =
      .ok (decoded.take p.ids.length ++ decoded.drop p.ids.length) := by
    rw [List.take_append_drop]
    exact hcompiles.decodes
  have hlaid : Script.LaidOut 0 (decoded.take p.ids.length) :=
    (Script.laidOut_append.1 (Script.instructionsOf_eq_ok_iff.1 hdecodes).2.1).1
  refine ⟨_, _, hdecodes, renders_code hlowers hcompiles, ?_, ?_⟩
  · intro i d slot name hd hslot hmem hnone
    obtain ⟨hparts, hlast⟩ := pointsAt_lastStart hlowers hcompiles hknows hd hslot hmem hnone
    refine ⟨hlast, ?_⟩
    -- The two places differ by the length of all parts but the last.
    rw [← flatten_dropLast_eq_nil_iff (nil_not_mem_partsOf p.methods name) hparts,
      ← List.length_eq_zero_iff]
    constructor
    · intro hfirst
      have hsame := hlast.unique hlaid hfirst
      rw [lastStart] at hsame
      omega
    · intro hzero
      rwa [lastStart, hzero, Nat.add_zero] at hlast
  · obtain ⟨own, rest, habi, hown, -⟩ := interface_split hlowers hcompiles hknows hexports
    exact ⟨own, rest, habi, hown⟩

/-- A call of a method that is opened in front of the caller and gets its body behind it. -/
def forward : Program where
  name := "forward"
  methods := [{ name := "helper" },
    { name := "main", exported := some {}, body :=
      [{ opcode := "CALL", target := some "helper" }, { opcode := "RET" }] },
    { name := "helper", body := [{ opcode := "RET" }] }]

theorem method_targets_forward : ∃ c contract code tail,
    forward.lower = .ok c ∧ c.compile = .ok contract ∧
      Script.instructionsOf contract.script = .ok (code ++ tail) ∧ PointsAt code 1 0 0 ∧
      ∃ ins m generated, code[1]? = some ins ∧ contract.abi.methods = m :: generated ∧
        m.name = "main" ∧ m.offset = ins.offset := by
  obtain ⟨c, contract, hlower, hcompile, -⟩ :=
    exists_compile forward id Contract.script [0x40, 0x34, 0xFF, 0x40] (by cbv)
  obtain ⟨code, tail, hdecode, -, htargets, own, generated, habi, hown⟩ :=
    method_targets hlower hcompile
  have hcode : forward.code = [{ opcode := "RET" }, { opcode := "CALL", target := some "helper" },
      { opcode := "RET" }] := by cbv
  have hstart : forward.start "helper" = 0 ∧ forward.start "main" = 1 ∧
      (partsOf forward.methods "helper").length = 1 := by
    refine ⟨?_, ?_, ?_⟩ <;> cbv
  have hplain : ∀ d ∈ forward.text, d.label ≠ some "helper" := by
    simp [text, forward]
  have hcall := htargets 1 _ 0 "helper" (by rw [hcode]; rfl) rfl (by decide) hplain
  obtain ⟨m, none, hm, hnone, rfl⟩ := List.forall₂_cons_left_iff.1 hown
  cases hnone
  obtain ⟨ins, hins, hoffset⟩ := hm.first
  refine ⟨c, contract, code, tail, hlower, hcompile, hdecode, ?_, ins, m, generated, ?_, habi, ?_,
    hoffset.symm⟩
  · rw [← hstart.1]
    exact hcall.2.2 hstart.2.2
  · rw [← hstart.2.1]
    exact hins
  · rw [hm.described]
    rfl

/-- The body of one method is given in two parts, and the second is a branch to the method. -/
def twice : Program where
  name := "twice"
  methods := [{ name := "main", exported := some {}, body :=
      [{ opcode := "NOP" }, { opcode := "RET" }] },
    { name := "main", body := [{ opcode := "JMP", target := some "main" }] }]

/-- The branch leads to itself, and not to where the interface enters the method. -/
theorem target_ne_entry_of_two_parts : ∃ c contract code,
    twice.lower = .ok c ∧ c.compile = .ok contract ∧
      Script.instructionsOf contract.script = .ok code ∧
      contract.abi.methods = [⟨"main", 0, false, .void, []⟩] ∧
      PointsAt code 2 0 2 ∧ ¬ PointsAt code 2 0 0 := by
  obtain ⟨c, contract, hlower, hcompile, hview⟩ :=
    exists_compile twice id (fun contract => (contract.script, contract.abi.methods))
      ([0x21, 0x40, 0x22, 0], [⟨"main", 0, false, .void, []⟩]) (by cbv)
  obtain ⟨hscript, habi⟩ := Prod.mk.inj hview
  have hdecode : Script.instructionsOf [0x21, 0x40, 0x22, 0] =
      .ok [⟨.nop, [], 0⟩, ⟨.ret, [], 1⟩, ⟨.jmp, [0], 2⟩] := rfl
  have haddress : Instruction.readAddress ⟨.jmp, [0], 2⟩ 0 = .ok 0 := by cbv
  refine ⟨c, contract, _, hlower, hcompile, hscript ▸ hdecode, habi, ?_, ?_⟩
  · exact ⟨⟨.jmp, [0], 2⟩, ⟨.jmp, [0], 2⟩, 0, rfl, rfl, haddress, rfl⟩
  · rintro ⟨ins, there, d, hins, hthere, hread, hsum⟩
    cases hins
    cases hthere
    rw [haddress] at hread
    cases hread
    cases hsum

end Program
end ContractLinker
