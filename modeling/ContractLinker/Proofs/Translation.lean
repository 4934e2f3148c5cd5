import ContractLinker.Proofs.Binding

namespace ContractLinker

namespace Program

/-- All definitions in the order of the script: the methods of one name are one body, which stands
where the first of them does. -/
def code (p : Program) : List InstructionDef :=
  p.names.flatMap fun name => (p.methods.filter (·.name = name)).flatMap (·.body)

def ids (p : Program) : List InstructionId := p.names.flatMap (idsOf p.sites)

theorem body_eq (p : Program) (name : String) :
    (p.methods.filter (·.name = name)).flatMap (·.body) =
      (p.sites.filter (·.method = name)).map (·.definition) := by
  unfold sites
  induction p.methods with
  | nil => rfl
  | cons m methods ih =>
    by_cases h : m.name = name <;> simp [h, ih, List.filter_map, Function.comp_def]

theorem forall₂_idsOf (sites : List Site) (name : String) :
    List.Forall₂ (fun id d => ∃ site, sites[id]? = some site ∧ site.definition = d)
      (idsOf sites name) ((sites.filter (·.method = name)).map (·.definition)) := by
  have hdefs : (sites.filter (·.method = name)).map (·.definition) =
      (sites.zipIdx.filter (·.1.method = name)).map (·.1.definition) := by
    nth_rewrite 1 [← List.zipIdx_map_fst 0 sites]
    rw [List.filter_map, List.map_map]
    rfl
  rw [hdefs, idsOf, List.forall₂_map_left_iff, List.forall₂_map_right_iff, List.forall₂_same]
  intro x hx
  have hsite := List.mem_zipIdx_iff_getElem?.1 (List.mem_filter.1 hx).1
  exact ⟨x.1, hsite, rfl⟩

theorem forall₂_ids (p : Program) :
    List.Forall₂ (fun id d => ∃ site, p.sites[id]? = some site ∧ site.definition = d)
      p.ids p.code := by
  unfold ids code
  induction p.names with
  | nil => exact .nil
  | cons name names ih =>
    rw [List.flatMap_cons, List.flatMap_cons, body_eq]
    exact List.rel_append (forall₂_idsOf p.sites name) ih

theorem order_eq {p : Program} {s : Lowering} {c : Compilation} (h : p.Lowers s c) :
    ∃ generated, c.order = p.ids ++ generated.flatMap (·.instructions.toList) ∧
      p.Initializer c generated := by
  obtain ⟨generated, hbodies, hinit⟩ := h.bodies
  refine ⟨generated, ?_, hinit⟩
  rw [Compilation.order, hbodies, List.flatMap_append, ids, List.flatMap_map]
  rfl

end Program

/-- `ins` is what the definition asks for. -/
structure InstructionDef.Renders (d : InstructionDef) (ins : Instruction) : Prop where
  opcode : Opcode.ofMnemonic? d.opcode = some ins.opcode
  operand : ∀ digits, d.operand = some digits → ins.opcode.addressClass = none →
    Hex.Writes digits.toList ins.operand

def InstructionDef.targetAt (d : InstructionDef) : Nat → Option String
  | 0 => d.target
  | 1 => d.target2
  | _ => none

/-- Address `slot` of the instruction at `i` leads to the instruction at `j`. -/
def PointsAt (code : List Instruction) (i slot j : Nat) : Prop :=
  ∃ (ins there : Instruction) (d : Int), code[i]? = some ins ∧ code[j]? = some there ∧
    ins.readAddress slot = .ok d ∧ (ins.offset : Int) + d = there.offset

namespace Lowering.Bound

variable {s : Lowering} {d : InstructionDef} {ins : Unlinked} (h : s.Bound d ins)
include h

theorem slot {i : Nat} {name : String} (hname : d.targetAt i = some name) :
    ∃ target, s.resolve name = .ok target ∧ ins.targets.slots[i]? = some (some target) := by
  match i with
  | 0 =>
    have hfirst := h.first
    rw [show d.target = some name from hname] at hfirst
    obtain ⟨target, hresolve, hsome⟩ := hfirst
    refine ⟨target, hresolve, ?_⟩
    cases htargets : ins.targets <;> simp_all [Targets.first, Targets.slots]
  | 1 =>
    have hsecond := h.second
    rw [show d.target2 = some name from hname] at hsecond
    obtain ⟨target, hresolve, hsome⟩ := hsecond
    refine ⟨target, hresolve, ?_⟩
    cases htargets : ins.targets <;> simp_all [Targets.second, Targets.slots]
  | _ + 2 => cases hname

theorem addressClass_ne {i : Nat} {slot : Option InstructionId}
    (hslot : ins.targets.slots[i]? = some slot) : ins.opcode.addressClass ≠ none := by
  intro hnone
  have hshape := h.shape
  have hlt := (List.getElem?_eq_some_iff.1 hslot).1
  rw [hshape, hnone] at hlt
  exact Nat.not_lt_zero i hlt

end Lowering.Bound

namespace Program

/-- The code behind that of the definitions: the initializer, if it is generated. -/
def Sizes (p : Program) (tail : List Instruction) : Prop :=
  ¬ p.Generates ∧ tail = [] ∨
    p.Generates ∧ ∃ first second, tail = [first, second] ∧ first.opcode = .initSSlot ∧
      first.operand = [UInt8.ofNat (Lowering.staticsOf p.sites).length] ∧
      second.opcode = .ret ∧ second.operand = []

section

variable {p : Program} {s : Lowering} {c : Compilation} {contract : Contract}
  {decoded : List Instruction} (hlowers : p.Lowers s c)
  (hcompiles : c.Compiles contract decoded)

include hlowers in
theorem label_iff {k : Nat} {name : String} :
    (∃ d, p.code[k]? = some d ∧ d.label = some name) ↔
      ∃ id, p.ids[k]? = some id ∧ s.labels[name]? = some id := by
  constructor
  · rintro ⟨d, hd, hlabel⟩
    obtain ⟨id, hid, site, hsite, rfl⟩ := forall₂_getElem? p.forall₂_ids.flip hd
    exact ⟨id, hid, (hlowers.labels name id).2 ⟨site, hsite, hlabel⟩⟩
  · rintro ⟨id, hid, hlabel⟩
    obtain ⟨d, hd, site, hsite, rfl⟩ := forall₂_getElem? p.forall₂_ids hid
    obtain ⟨found, hfound, hname⟩ := (hlowers.labels name id).1 hlabel
    rw [hsite] at hfound
    cases hfound
    exact ⟨site.definition, hd, hname⟩

include hlowers hcompiles

theorem emits_split : ∃ generated, p.Initializer c generated ∧
    c.order = p.ids ++ generated.flatMap (·.instructions.toList) ∧
    List.Forall₂ (fun id ins => ∃ old, c.arena.get id = .ok old ∧ Emits c.order decoded old ins)
      p.ids (decoded.take p.ids.length) ∧
    List.Forall₂ (fun id ins => ∃ old, c.arena.get id = .ok old ∧ Emits c.order decoded old ins)
      (generated.flatMap (·.instructions.toList)) (decoded.drop p.ids.length) := by
  obtain ⟨generated, horder, hinit⟩ := order_eq hlowers
  refine ⟨generated, hinit, horder, ?_⟩
  apply forall₂_of_append
  rw [← horder]
  exact hcompiles.emits

theorem renders_code : List.Forall₂ InstructionDef.Renders p.code (decoded.take p.ids.length) := by
  obtain ⟨-, -, -, hcode, -⟩ := emits_split hlowers hcompiles
  refine (forall₂_through p.forall₂_ids hcode).imp fun d ins hins => ?_
  obtain ⟨id, ⟨site, hsite, rfl⟩, old, hold, hemits⟩ := hins
  obtain ⟨found, hfound, hbound⟩ := hlowers.cells id site hsite
  rw [hold] at hfound
  cases hfound
  constructor
  · rw [hemits.opcode]
    exact hbound.opcode
  · intro digits hdigits hcls
    rw [hemits.opcode] at hcls
    rw [hemits.operand hcls]
    exact hbound.operand digits hdigits

theorem sizes_tail : p.Sizes (decoded.drop p.ids.length) := by
  obtain ⟨generated, hinit, -, -, htail⟩ := emits_split hlowers hcompiles
  generalize decoded.drop p.ids.length = tail at htail ⊢
  rcases hinit with ⟨hnone, rfl⟩ | ⟨hsome, rfl, hfirst, hsecond⟩
  · cases htail
    exact .inl ⟨hnone, rfl⟩
  · have hpair : List.Forall₂ (fun id ins => ∃ old, c.arena.get id = .ok old ∧
        Emits c.order decoded old ins) [p.sites.length, p.sites.length + 1] tail := htail
    obtain ⟨first, rest, ⟨old, hold, hemits⟩, hrest, rfl⟩ := List.forall₂_cons_left_iff.1 hpair
    obtain ⟨second, none, ⟨old', hold', hemits'⟩, hnone, rfl⟩ := List.forall₂_cons_left_iff.1 hrest
    cases hnone
    rw [hfirst] at hold
    rw [hsecond] at hold'
    cases hold
    cases hold'
    exact .inr ⟨hsome, first, second, rfl, hemits.opcode, hemits.operand rfl, hemits'.opcode,
      hemits'.operand rfl⟩

theorem pointsAt_resolve {i slot k : Nat} {d : InstructionDef} {name : String}
    {target : InstructionId} (hd : p.code[i]? = some d) (hslot : d.targetAt slot = some name)
    (hresolve : s.resolve name = .ok target) (hk : p.ids[k]? = some target) :
    PointsAt (decoded.take p.ids.length) i slot k := by
  obtain ⟨generated, -, horder, hcode, -⟩ := emits_split hlowers hcompiles
  obtain ⟨id, hid, site, hsite, rfl⟩ := forall₂_getElem? p.forall₂_ids.flip hd
  obtain ⟨ins, hins, old, hold, hemits⟩ := forall₂_getElem? hcode hid
  obtain ⟨found, hfound, hbound⟩ := hlowers.cells id site hsite
  rw [hold] at hfound
  cases hfound
  obtain ⟨target', hresolve', htarget⟩ := hbound.slot hslot
  rw [hresolve] at hresolve'
  cases hresolve'
  obtain ⟨j, there, disp, hj, hthere, hread, hsum⟩ :=
    hemits.bound (hbound.addressClass_ne htarget) slot target htarget
  -- The target is placed once, so the branch leads to the place at hand.
  have hlt : k < p.ids.length := (List.getElem?_eq_some_iff.1 hk).1
  have hplaced : c.order[k]? = some target := by
    rw [horder, List.getElem?_append_left hlt, hk]
  obtain rfl := hcompiles.placed_once hj hplaced
  exact ⟨ins, there, disp, hins, by rw [List.getElem?_take_of_lt hlt, hthere], hread, hsum⟩

theorem pointsAt_label {i slot : Nat} {d : InstructionDef} {name : String}
    (hd : p.code[i]? = some d) (hslot : d.targetAt slot = some name)
    (hlabel : ∃ d' ∈ p.code, d'.label = some name) :
    ∃ j, (∀ k, (∃ d', p.code[k]? = some d' ∧ d'.label = some name) ↔ k = j) ∧
      PointsAt (decoded.take p.ids.length) i slot j := by
  obtain ⟨generated, -, horder, -, -⟩ := emits_split hlowers hcompiles
  have hnodup := hcompiles.nodup
  obtain ⟨d', hd', hname⟩ := hlabel
  obtain ⟨j, hj⟩ := List.getElem?_of_mem hd'
  obtain ⟨id, hid, hlabels⟩ := (label_iff hlowers).1 ⟨d', hj, hname⟩
  have hresolve : s.resolve name = .ok id := by rw [Lowering.resolve, hlabels]
  refine ⟨j, ?_, pointsAt_resolve hlowers hcompiles hd hslot hresolve hid⟩
  intro k
  rw [label_iff hlowers, hlabels]
  constructor
  · rintro ⟨id', hid', hsome⟩
    cases hsome
    -- No instruction is placed twice, so the label has one place.
    have hids : p.ids.Nodup := by
      rw [horder] at hnodup
      exact (List.nodup_append.1 hnodup).1
    have hlt := (List.getElem?_eq_some_iff.1 hid).1
    exact ((List.getElem?_inj hlt hids).1 (hid.trans hid'.symm)).symm
  · rintro rfl
    exact ⟨id, hid, rfl⟩

end

/-- Lowering and linking are faithful: the script decodes into one instruction for each definition,
with its opcode and operand bytes, followed by the initializer at most, and every address that names
a label leads to the one instruction that carries the label. -/
theorem decode_compile_lower {p : Program} {c : Compilation} {contract : Contract}
    (hlower : p.lower = .ok c) (hcompile : c.compile = .ok contract) :
    ∃ code tail, Script.instructionsOf contract.script = .ok (code ++ tail) ∧
      List.Forall₂ InstructionDef.Renders p.code code ∧ p.Sizes tail ∧
      ∀ i d slot name, p.code[i]? = some d → d.targetAt slot = some name →
        (∃ d' ∈ p.code, d'.label = some name) →
        ∃ j, (∀ k, (∃ d', p.code[k]? = some d' ∧ d'.label = some name) ↔ k = j) ∧
          PointsAt code i slot j := by
  obtain ⟨s, hlowers⟩ := lower_ok hlower
  obtain ⟨decoded, hcompiles⟩ := Compilation.compile_ok hcompile
  refine ⟨decoded.take p.ids.length, decoded.drop p.ids.length, ?_, renders_code hlowers hcompiles,
    sizes_tail hlowers hcompiles, ?_⟩
  · rw [List.take_append_drop]
    exact hcompiles.decodes
  · intro i d slot name hd hslot hlabel
    exact pointsAt_label hlowers hcompiles hd hslot hlabel

/-- A branch to a label that has the name of a method. -/
def shadowed : Program where
  name := "shadowed"
  methods := [{ name := "loop", body :=
    [{ opcode := "JMP", target := some "loop" }, { opcode := "RET", label := some "loop" }] }]

theorem decode_compile_lower_shadowed : ∃ c contract code tail,
    shadowed.lower = .ok c ∧ c.compile = .ok contract ∧
      Script.instructionsOf contract.script = .ok (code ++ tail) ∧ PointsAt code 0 0 1 := by
  obtain ⟨c, contract, hlower, hcompile, -⟩ :=
    exists_compile shadowed id Contract.script [0x22, 2, 0x40] (by cbv)
  obtain ⟨code, tail, hdecode, -, -, hpoints⟩ := decode_compile_lower hlower hcompile
  have hcode : shadowed.code = [{ opcode := "JMP", target := some "loop" },
      { opcode := "RET", label := some "loop" }] := by cbv
  rw [hcode] at hpoints
  obtain ⟨j, hunique, hthere⟩ := hpoints 0 _ 0 "loop" rfl rfl ⟨_, .tail _ (.head _), rfl⟩
  have hj : 1 = j := (hunique 1).1 ⟨_, rfl, rfl⟩
  subst hj
  exact ⟨c, contract, code, tail, hlower, hcompile, hdecode, hthere⟩

end Program
end ContractLinker
