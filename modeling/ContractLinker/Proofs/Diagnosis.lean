import ContractLinker.Proofs.Entries
import ContractLinker.Proofs.LinkErrors

namespace ContractLinker

section Outcomes

variable {ε α β : Type}

theorem Except.bind_eq_error_iff {x : Except ε α} {f : α → Except ε β} {e : ε} :
    (x >>= f) = .error e ↔ x = .error e ∨ ∃ a, x = .ok a ∧ f a = .error e := by
  cases x with
  | error cause => simp [bind, Except.bind]
  | ok a => simp [bind, Except.bind]

theorem Except.mapM_eq_error {f : α → Except ε β} {as : List α} {e : ε}
    (h : as.mapM f = .error e) : ∃ a ∈ as, f a = .error e := by
  induction as with
  | nil => cases h
  | cons a as ih =>
    rw [List.mapM_cons] at h
    rcases Except.bind_eq_error_iff.1 h with hfirst | ⟨b, -, hrest⟩
    · exact ⟨a, List.mem_cons_self, hfirst⟩
    · rcases Except.bind_eq_error_iff.1 hrest with hlater | ⟨bs, -, hpure⟩
      · obtain ⟨other, hmem, herror⟩ := ih hlater
        exact ⟨other, List.mem_cons_of_mem a hmem, herror⟩
      · cases hpure

end Outcomes

namespace Compilation

theorem placement_error {done entries : List InstructionId} {bodies : List MethodBody}
    {e : CompileError} (h : placement done entries bodies = .error e) :
    ∃ body ∈ bodies, body.instructions.toList = [] ∧ e = .emptyMethod body.name := by
  induction bodies generalizing done entries with
  | nil => cases h
  | cons body bodies ih =>
    unfold placement at h
    split at h
    · rename_i hempty
      cases h
      exact ⟨body, List.mem_cons_self, hempty, rfl⟩
    · obtain ⟨other, hmem, herror⟩ := ih h
      exact ⟨other, List.mem_cons_of_mem body hmem, herror⟩

/-- Once all is linked, an export can only fail for want of a body. -/
theorem abiMethod_error {arena : Arena} {entries : Array InstructionId} {x : ExportedMethod}
    {e : CompileError} (hlinked : ∀ entry ∈ entries, ∃ offset, arena.offset? entry = some offset)
    (h : abiMethod arena entries x = .error e) :
    entries.size ≤ x.method ∧ e = .unknownMethod x.name := by
  unfold abiMethod at h
  split at h
  · rename_i hnone
    cases h
    exact ⟨Array.getElem?_eq_none_iff.1 hnone, rfl⟩
  · rename_i entry hentry
    obtain ⟨offset, hoffset⟩ := hlinked entry (Array.mem_of_getElem? hentry)
    unfold Arena.offset? at hoffset
    cases hget : arena.get entry with
    | error cause =>
      rw [hget] at hoffset
      cases hoffset
    | ok ins =>
      rw [hget] at hoffset h
      have hsome : ins.offset = some offset := hoffset
      simp only [bind, Except.bind, hsome] at h
      cases h

/-- A compilation fails at a body without instructions, in the link, or at an export without a
body. -/
theorem compile_error {c : Compilation} {e : CompileError} (h : c.compile = .error e) :
    (∃ body ∈ c.methods.toList, body.instructions.toList = [] ∧ e = .emptyMethod body.name) ∨
      (c.arena.link c.order).1 = .error e ∨
      ∃ x ∈ c.exports.toList, c.methods.size ≤ x.method ∧ e = .unknownMethod x.name := by
  unfold compile at h
  rcases Except.bind_eq_error_iff.1 h with hempty | ⟨⟨order, heads⟩, hplacement, hlink⟩
  · exact .inl (placement_error hempty)
  obtain ⟨rfl, firsts, rfl, hfirsts⟩ := placement_ok hplacement
  rcases Except.bind_eq_error_iff.1 hlink with hlinked | ⟨script, hscript, hmethods⟩
  · exact .inr (.inl hlinked)
  rcases Except.bind_eq_error_iff.1 hmethods with hmapM | ⟨methods, -, hpure⟩
  · obtain ⟨x, hmem, hx⟩ := Except.mapM_eq_error hmapM
    obtain ⟨-, decoded, -, hemits⟩ := Arena.link_emits (Prod.ext hscript rfl)
    -- The first instruction of every body is placed, so the link has recorded where it stands.
    have hrecorded : ∀ entry ∈ heads.toArray, ∃ offset,
        (c.arena.link c.order).2.offset? entry = some offset := by
      intro entry hentry
      obtain ⟨i, hi⟩ := List.getElem?_of_mem (List.mem_toArray.1 hentry)
      obtain ⟨body, hbody, rest, hrest⟩ := forall₂_getElem? hfirsts.flip hi
      have hplaced : entry ∈ c.order := by
        apply List.mem_flatMap.2
        refine ⟨body, List.mem_of_getElem? hbody, ?_⟩
        rw [hrest]
        exact List.mem_cons_self
      obtain ⟨j, hj⟩ := List.getElem?_of_mem hplaced
      obtain ⟨ins, -, old, -, hoffset, -⟩ := forall₂_getElem? hemits hj
      exact ⟨ins.offset, hoffset⟩
    obtain ⟨hsize, rfl⟩ := abiMethod_error hrecorded hx
    refine .inr (.inr ⟨x, hmem, ?_, rfl⟩)
    have hlength := hfirsts.length_eq
    rw [Array.length_toList] at hlength
    rw [List.size_toArray] at hsize
    omega
  · cases hpure

end Compilation

namespace Unlinked

structure Encodable (ins : Unlinked) : Prop where
  shaped : ins.Shaped
  framed : Instruction.checkOperand ins.opcode ins.operand = .ok ()

namespace Encodable

variable {ins ins' : Unlinked}

theorem new (opcode : Opcode) : (new opcode).Encodable := by
  refine ⟨.new opcode, ?_⟩
  rw [new_opcode]
  cases hframing : opcode.framing with
  | fixed size =>
    rw [Instruction.checkOperand_fixed hframing]
    exact (Shaped.new opcode).operand size ((congrArg _ (new_opcode opcode)).trans hframing)
  | counted width =>
    have hempty : (Unlinked.new opcode).operand = [] := by
      simp only [Unlinked.new, Unlinked.setOpcode, hframing]
    rw [Instruction.checkOperand_counted hframing, hempty]
    exact Bytes.bound_pos width.bytes

theorem setOperand {operand : Bytes} (h : ins.Encodable)
    (hset : ins.setOperand operand = (.ok (), ins')) : ins'.Encodable := by
  have hshaped := h.shaped.setOperand operand
  rw [hset] at hshaped
  obtain ⟨hcheck, rfl⟩ := setOperand_eq_ok_iff.1 hset
  exact ⟨hshaped, hcheck⟩

theorem retargets {s : Lowering} {b : PendingBranch} (h : ins.Encodable)
    (hre : s.Retargets b ins ins') : ins'.Encodable := by
  refine ⟨h.shaped.retarget hre.rest hre.shape, ?_⟩
  rw [hre.rest]
  exact h.framed

end Encodable
end Unlinked

namespace Lowering

theorem encodable_lowerOperand {c c' : Compilation} {d : InstructionDef} {ins ins' : Unlinked}
    (hins : ins.Encodable) (h : lowerOperand c ins d = .ok (ins', c')) : ins'.Encodable := by
  unfold lowerOperand at h
  split at h
  case h_4 =>
    cases h
    exact hins
  -- A token, a static field and digits all end up as an operand that is set.
  all_goals
    obtain ⟨_, -, hset⟩ := Except.bind_eq_ok_iff.1 h
    obtain ⟨_, hoperand, hpure⟩ := Except.bind_eq_ok_iff.1 hset
    cases hpure
    exact hins.setOperand (orFail_onSuccess_eq_ok_iff.1 hoperand)

def AllEncodable (c : Compilation) : Prop := ∀ id ins, c.arena.get id = .ok ins → ins.Encodable

theorem AllEncodable.append {c c' : Compilation} {more : Array Unlinked} (h : AllEncodable c)
    (hcells : c'.arena.cells = c.arena.cells ++ more) (hmore : ∀ ins ∈ more, ins.Encodable) :
    AllEncodable c' := by
  intro id ins hget
  rw [Arena.get_eq_ok_iff, hcells] at hget
  rcases Array.mem_append.1 (Array.mem_of_getElem? hget) with hold | hnew
  · obtain ⟨i, hi⟩ := Array.getElem?_of_mem hold
    exact h i ins (Arena.get_eq_ok_iff.2 hi)
  · exact hmore ins hnew

theorem AllEncodable.kept : Kept fun _ _ s => AllEncodable s.compilation where
  opens {names sites s} h name := by
    unfold Compilation.defineMethod
    split <;> exact h
  reads {names sites s t method site} h _ hreads := by
    obtain ⟨ins, c, hins, hcompilation⟩ := hreads.instruction
    obtain ⟨opcode, -, -, hoperand⟩ := lowerInstruction_eq_ok hins
    have harena : c.arena = s.compilation.arena := by rw [(lowerInstruction_ok hins).2.rest]
    have hcells : t.compilation.arena.cells = s.compilation.arena.cells ++ #[ins] := by
      rw [hcompilation, harena, Array.push_eq_append]
    refine h.append hcells ?_
    intro other hother
    rw [Array.mem_singleton.1 hother]
    exact encodable_lowerOperand (.new opcode) hoperand
  exports h _ := h

theorem Knows.resolve_lt {methods : List MethodDef} {s : Lowering} (h : s.Knows methods)
    {name : String} {target : InstructionId} (hresolve : s.resolve name = .ok target) :
    target < (sitesOf methods).length := by
  unfold resolve at hresolve
  split at hresolve
  · rename_i hlabel
    cases hresolve
    obtain ⟨site, hsite, -⟩ := (h.tracks.labels name target).1 hlabel
    exact (List.getElem?_eq_some_iff.1 hsite).1
  · rename_i hentry
    cases hresolve
    have hposition := (h.entries name).symm.trans hentry
    obtain ⟨x, hx, rfl⟩ := List.mem_map.1 (List.mem_of_getElem? hposition)
    simpa using (List.mem_zipIdx (List.mem_filter.1 hx).1).2.1
  · cases hresolve

end Lowering

namespace Program

theorem mem_idsOf {sites : List Site} {name : String} {id : InstructionId} :
    id ∈ idsOf sites name ↔ ∃ site, sites[id]? = some site ∧ site.method = name := by
  simp [idsOf, List.mem_zipIdx_iff_getElem?, and_comm]

theorem nodup_idsOf (sites : List Site) (name : String) : (idsOf sites name).Nodup := by
  have hall : (sites.zipIdx.map Prod.snd).Nodup := by
    rw [List.zipIdx_map_snd]
    exact List.nodup_range'
  exact hall.sublist (List.filter_sublist.map Prod.snd)

theorem method_mem_names {p : Program} {id : InstructionId} {site : Site}
    (h : p.sites[id]? = some site) : site.method ∈ p.names := by
  obtain ⟨m, hm, hsite⟩ := List.mem_flatMap.1 (List.mem_of_getElem? h)
  obtain ⟨d, -, rfl⟩ := List.mem_map.1 hsite
  exact List.mem_eraseDups.2 (List.mem_map_of_mem hm)

theorem mem_ids {p : Program} {id : InstructionId} : id ∈ p.ids ↔ id < p.sites.length := by
  rw [ids, List.mem_flatMap]
  constructor
  · rintro ⟨name, -, hid⟩
    obtain ⟨site, hsite, -⟩ := mem_idsOf.1 hid
    exact (List.getElem?_eq_some_iff.1 hsite).1
  · intro hlt
    have hsite := List.getElem?_eq_getElem hlt
    exact ⟨_, method_mem_names hsite, mem_idsOf.2 ⟨_, hsite, rfl⟩⟩

theorem nodup_ids (p : Program) : p.ids.Nodup := by
  rw [ids, List.nodup_flatMap]
  refine ⟨fun name _ => nodup_idsOf p.sites name, ?_⟩
  apply (nodup_eraseDups (p.methods.map (·.name))).imp
  intro name other hne id hid hother
  obtain ⟨site, hsite, rfl⟩ := mem_idsOf.1 hid
  obtain ⟨found, hfound, rfl⟩ := mem_idsOf.1 hother
  rw [hsite] at hfound
  cases hfound
  exact hne rfl

theorem lower_encodable {p : Program} {c : Compilation} (h : p.lower = .ok c) :
    Lowering.AllEncodable c := by
  obtain ⟨s, c₁, id, hmethods, htracks, hbind, hemit⟩ := lower_eq_ok h
  -- Three stages: the methods are read, the branches are bound, and the initializer is added.
  have hread : Lowering.AllEncodable s.compilation := by
    have hheader : Lowering.AllEncodable p.header := by
      intro id ins hget
      rw [p.header_code.1] at hget
      cases hget
    exact @Lowering.Kept.lowerMethods _ Lowering.AllEncodable.kept [] [] _ s p.methods hheader
      hmethods
  obtain ⟨-, hsize, hall⟩ := htracks.bindAll_ok hbind
  have hbound : Lowering.AllEncodable c₁ := by
    intro id ins' hget'
    cases hold : s.compilation.arena.get id with
    | error e =>
      obtain ⟨hle, -⟩ := Arena.get_eq_error hold
      rw [Arena.get_of_size_le (hsize ▸ hle)] at hget'
      cases hget'
    | ok ins =>
      obtain ⟨found, hfound, hchanged⟩ := hall id ins hold
      rw [hget'] at hfound
      cases hfound
      rcases hchanged with ⟨-, rfl⟩ | ⟨b, -, -, hre⟩
      · exact hread id ins' hold
      · exact (hread id ins hold).retargets hre
  rcases Compilation.emitInitializer_ok hemit with ⟨rfl, -⟩ | ⟨-, -, -, -, rfl⟩
  · exact hbound
  · refine hbound.append rfl ?_
    intro ins hins
    have hpair : ins = ⟨.initSSlot, [UInt8.ofNat c₁.statics.keys.length], .none, none⟩ ∨
        ins = ⟨.ret, [], .none, none⟩ := by simpa using hins
    rcases hpair with rfl | rfl
    · have hset : (Unlinked.new .initSSlot).setOperand [UInt8.ofNat c₁.statics.keys.length] =
          (.ok (), ⟨.initSSlot, [UInt8.ofNat c₁.statics.keys.length], .none, none⟩) := rfl
      exact (Unlinked.Encodable.new .initSSlot).setOperand hset
    · exact .new .ret

/-- What the text of a program may lack although it was lowered, by the error that reports it. -/
inductive Defect (p : Program) : CompileError → Prop
  | emptyMethod {name : String} (hname : name ∈ p.names)
      (hempty : ∀ m ∈ p.methods, m.name = name → m.body = []) : Defect p (.emptyMethod name)
  | unboundBranch {id : InstructionId} {site : Site} {opcode : Opcode}
      (hsite : p.sites[id]? = some site)
      (hopcode : Opcode.ofMnemonic? site.definition.opcode = some opcode)
      (hcls : opcode.addressClass ≠ none) (hfirst : site.definition.target = none)
      (hsecond : site.definition.target2 = none) : Defect p (.unboundBranch id opcode)
  | displacementRange {id : InstructionId} {site : Site} {opcode : Opcode} {cls : AddressClass}
      {offset : Nat} {d : Int} (hsite : p.sites[id]? = some site)
      (hopcode : Opcode.ofMnemonic? site.definition.opcode = some opcode)
      (hcls : opcode.addressClass = some cls) (hrange : ¬ Bytes.FitsSigned cls.width d) :
      Defect p (.displacementRange id opcode offset d)
  | scriptTooLarge {size : Nat} (hsize : Bytes.bound 4 ≤ size) : Defect p (.scriptTooLarge size)

section

variable {p : Program} {s : Lowering} {c : Compilation} (hlowers : p.Lowers s c)
include hlowers

/-- What is placed is a definition, or an instruction without addresses that was generated behind
them. -/
theorem placed_cases {id : InstructionId} (hplaced : id ∈ c.order) :
    (∃ site ins, p.sites[id]? = some site ∧ c.arena.get id = .ok ins ∧
      s.Bound site.definition ins) ∨
      ∃ ins, c.arena.get id = .ok ins ∧ ins.opcode.addressClass = none ∧ ins.targets = .none := by
  obtain ⟨generated, horder, hinit⟩ := order_eq hlowers
  rw [horder] at hplaced
  rcases List.mem_append.1 hplaced with hid | hgenerated
  · have hsite := List.getElem?_eq_getElem (mem_ids.1 hid)
    obtain ⟨ins, hget, hbound⟩ := hlowers.cells id _ hsite
    exact .inl ⟨_, ins, hsite, hget, hbound⟩
  · rcases hinit with ⟨-, rfl⟩ | ⟨-, rfl, hfirst, hsecond⟩
    · cases hgenerated
    · have hid : id = p.sites.length ∨ id = p.sites.length + 1 := by simpa using hgenerated
      rcases hid with rfl | rfl
      · exact .inr ⟨_, hfirst, rfl, rfl⟩
      · exact .inr ⟨_, hsecond, rfl, rfl⟩

theorem exists_placed {id : InstructionId} (hplaced : id ∈ c.order) :
    ∃ ins, c.arena.get id = .ok ins := by
  rcases placed_cases hlowers hplaced with ⟨_, ins, -, hget, -⟩ | ⟨ins, hget, -, -⟩
  · exact ⟨ins, hget⟩
  · exact ⟨ins, hget⟩

theorem nodup_order : c.order.Nodup := by
  obtain ⟨generated, horder, hinit⟩ := order_eq hlowers
  rw [horder]
  rcases hinit with ⟨-, rfl⟩ | ⟨-, rfl, -⟩
  · simpa using p.nodup_ids
  · refine List.nodup_append.2 ⟨p.nodup_ids, by simp, ?_⟩
    intro id hid other hother heq
    have hlt := mem_ids.1 hid
    have hle : p.sites.length ≤ other := by
      rcases List.mem_pair.1 hother with rfl | rfl
      · exact Nat.le_refl _
      · exact Nat.le_succ _
    exact absurd heq (Nat.ne_of_lt (Nat.lt_of_lt_of_le hlt hle))

theorem placed_of_target (hknows : s.Knows p.methods) {id target : InstructionId} {ins : Unlinked}
    (hplaced : id ∈ c.order) (hget : c.arena.get id = .ok ins)
    (hslot : some target ∈ ins.targets.slots) : target ∈ c.order := by
  rcases placed_cases hlowers hplaced with ⟨site, found, hsite, hfound, hbound⟩ |
    ⟨found, hfound, -, hnone⟩
  · rw [hget] at hfound
    cases hfound
    have hresolve : ∃ name, s.resolve name = .ok target := by
      -- At most two slots, and each was bound to what a name stands for.
      have hends : ins.targets.first = some target ∨ ins.targets.second = some target := by
        cases htargets : ins.targets <;>
          simp_all [Targets.slots, Targets.first, Targets.second, eq_comm]
      have hbinds {name : Option String} (hbinds : s.Binds name none (some target)) :
          ∃ name, s.resolve name = .ok target := by
        cases name with
        | none => cases hbinds
        | some name =>
          obtain ⟨_, hresolve, heq⟩ := hbinds
          cases heq
          exact ⟨name, hresolve⟩
      rcases hends with hfirst | hsecond
      · exact hbinds (hfirst ▸ hbound.first)
      · exact hbinds (hsecond ▸ hbound.second)
    obtain ⟨name, hresolve⟩ := hresolve
    obtain ⟨generated, horder, -⟩ := order_eq hlowers
    rw [horder]
    exact List.mem_append_left _ (mem_ids.2 (hknows.resolve_lt hresolve))
  · rw [hget] at hfound
    cases hfound
    rw [hnone] at hslot
    cases hslot

theorem export_lt (hknows : s.Knows p.methods) {generated : List ExportedMethod}
    (hinit : p.InitializerExport generated)
    (hexports : c.exports.toList = s.compilation.exports.toList ++ generated) {x : ExportedMethod}
    (hmem : x ∈ c.exports.toList) : x.method < c.methods.size := by
  obtain ⟨bodies, hbodies, hbody⟩ := hlowers.bodies
  have hsize : c.methods.size = p.names.length + bodies.length := by
    rw [← Array.length_toList, hbodies, List.length_append, List.length_map]
  rw [hexports] at hmem
  rcases List.mem_append.1 hmem with hown | hgenerated
  · obtain ⟨i, hi⟩ := List.getElem?_of_mem hown
    obtain ⟨_, -, hpublishes⟩ := forall₂_getElem? hknows.exports.flip hi
    have hlt : x.method < p.names.length := (List.getElem?_eq_some_iff.1 hpublishes.method).1
    rw [hsize]
    exact Nat.lt_add_right _ hlt
  · rcases hinit with ⟨-, rfl⟩ | ⟨hgenerates, rfl⟩
    · cases hgenerated
    · rw [List.mem_singleton.1 hgenerated]
      rcases hbody with ⟨hnot, -⟩ | ⟨-, rfl, -⟩
      · exact absurd hgenerates hnot
      · rw [hsize]
        exact Nat.lt_succ_self _

/-- A body without instructions is that of a method whose parts are all empty. -/
theorem defect_of_empty {body : MethodBody} (hmem : body ∈ c.methods.toList)
    (hempty : body.instructions.toList = []) : p.Defect (.emptyMethod body.name) := by
  obtain ⟨generated, hbodies, hinit⟩ := hlowers.bodies
  rw [hbodies] at hmem
  rcases List.mem_append.1 hmem with hown | hgenerated
  · obtain ⟨name, hname, rfl⟩ := List.mem_map.1 hown
    refine .emptyMethod hname ?_
    have hnone : idsOf (sitesOf p.methods) name = [] := hempty
    have hflat : (partsOf p.methods name).flatten = [] := by
      rw [← List.length_eq_zero_iff, ← length_idsOf, hnone]
      rfl
    rw [flatten_partsOf, List.flatMap_eq_nil_iff] at hflat
    intro m hm heq
    exact hflat m (List.mem_filter.2 ⟨hm, decide_eq_true heq⟩)
  · rcases hinit with ⟨-, rfl⟩ | ⟨-, rfl, -⟩
    · cases hgenerated
    · rw [List.mem_singleton.1 hgenerated] at hempty
      cases hempty

theorem defect_of_blames (hknows : s.Knows p.methods) (hencodable : Lowering.AllEncodable c)
    {e : CompileError} (h : c.arena.Blames c.order e) : p.Defect e := by
  cases h with
  | @unknown id hget hnamed =>
    have hplaced : id ∈ c.order := by
      rcases hnamed with hplaced | ⟨other, hother, ins, hins, hslot⟩
      · exact hplaced
      · exact placed_of_target hlowers hknows hother hins hslot
    obtain ⟨ins, hins⟩ := exists_placed hlowers hplaced
    rw [hget] at hins
    cases hins
  | duplicate htwice => exact absurd (nodup_order hlowers) htwice
  | tooLarge hsize => exact .scriptTooLarge hsize
  | unbound hplaced hget hcls hnone =>
    rcases placed_cases hlowers hplaced with ⟨site, found, hsite, hfound, hbound⟩ |
      ⟨found, hfound, hplain, -⟩
    · rw [hget] at hfound
      cases hfound
      -- A target that the definition names would be bound.
      have hunnamed (i : Nat) : site.definition.targetAt i = none := by
        by_contra hsome
        obtain ⟨name, hname⟩ := Option.ne_none_iff_exists'.1 hsome
        obtain ⟨target, -, hslot⟩ := hbound.slot hname
        cases hnone _ (List.mem_of_getElem? hslot)
      exact .unboundBranch hsite hbound.opcode hcls (hunnamed 0) (hunnamed 1)
    · rw [hget] at hfound
      cases hfound
      exact absurd hplain hcls
  | dangling hplaced hget hslot hmissing =>
    exact absurd (placed_of_target hlowers hknows hplaced hget hslot) hmissing
  | displacement hplaced hget hcls hrange =>
    rcases placed_cases hlowers hplaced with ⟨site, found, hsite, hfound, hbound⟩ |
      ⟨found, hfound, hplain, -⟩
    · rw [hget] at hfound
      cases hfound
      exact .displacementRange hsite hbound.opcode hcls hrange
    · rw [hget] at hfound
      cases hfound
      rw [hplain] at hcls
      cases hcls
  | operand _ hget hcheck =>
    rw [(hencodable _ _ hget).framed] at hcheck
    cases hcheck

end

/-- A program that was lowered compiles, or its text lacks something: a method is empty, a branch
names no target, a target is too far away for its address, or all of it is too long for a script.
No rule of the linker can be broken any more. -/
theorem compile_lower_cases {p : Program} {c : Compilation} (hlower : p.lower = .ok c) :
    (∃ contract, c.compile = .ok contract) ∨ ∃ e, c.compile = .error e ∧ p.Defect e := by
  obtain ⟨s, generated, hlowers, hknows, hinit, hexports⟩ := lower_knows hlower
  have hencodable := lower_encodable hlower
  cases hcompile : c.compile with
  | ok contract => exact .inl ⟨contract, rfl⟩
  | error e =>
    refine .inr ⟨e, rfl, ?_⟩
    rcases Compilation.compile_error hcompile with
      ⟨body, hmem, hempty, rfl⟩ | hlink | ⟨x, hmem, hsize, rfl⟩
    · exact defect_of_empty hlowers hmem hempty
    · have hblames := Arena.link_blames (fun id ins hget => (hencodable id ins hget).shaped) hlink
      exact defect_of_blames hlowers hknows hencodable hblames
    · have hlt := export_lt hlowers hknows hinit hexports hmem
      exact absurd hlt (Nat.not_lt.2 hsize)

def aimless : Program where
  name := "aimless"
  methods := [{ name := "main", exported := some {}, body := [{ opcode := "JMP" }] }]

theorem compile_lower_cases_aimless : ∃ c, aimless.lower = .ok c ∧
    c.compile = .error (.unboundBranch 0 .jmp) ∧ aimless.Defect (.unboundBranch 0 .jmp) := by
  have hview : (aimless.lower.map fun c => c.compile.map Contract.script) =
      .ok (.error (.unboundBranch 0 .jmp)) := by cbv
  obtain ⟨c, hlower, hcompiled⟩ := Except.map_eq_ok_iff.1 hview
  have hcompile : c.compile = .error (.unboundBranch 0 .jmp) := by
    cases hcompile : c.compile with
    | ok contract =>
      rw [hcompile] at hcompiled
      cases hcompiled
    | error e =>
      rw [hcompile] at hcompiled
      cases hcompiled
      rfl
  refine ⟨c, hlower, hcompile, ?_⟩
  rcases compile_lower_cases hlower with ⟨contract, hok⟩ | ⟨e, herror, hdefect⟩
  · rw [hcompile] at hok
    cases hok
  · rw [hcompile] at herror
    cases herror
    exact hdefect

end Program
end ContractLinker
