import ContractLinker.Proofs.Entries

namespace ContractLinker

/-- `tail` is an initializer for `n` fields, and `m` enters it. -/
def Initializes (n : Nat) (tail : List Instruction) (m : AbiMethod) : Prop :=
  ∃ (first second : Instruction) (count : UInt8), tail = [first, second] ∧
    first.opcode = .initSSlot ∧ first.operand = [count] ∧ count.toNat = n ∧
    second.opcode = .ret ∧ second.operand = [] ∧
    m = ⟨Compilation.initializerName, first.offset, false, .void, []⟩

namespace Program

variable {p : Program} {c : Compilation}

theorem fields_eq (p : Program) : p.fields = Lowering.staticsOf p.sites := by
  rw [fields, text_eq, List.filterMap_map]
  rfl

theorem generates_iff_of_fields (hfields : p.fields ≠ []) :
    p.Generates ↔ Compilation.initializerName ∉ p.names := by
  rw [Generates, ← fields_eq]
  exact and_iff_right hfields

theorem length_fields_le (hlower : p.lower = .ok c) (hgenerates : p.Generates) :
    p.fields.length ≤ 255 := by
  obtain ⟨s, c₁, id, -, htracks, hbind, hemit⟩ := lower_eq_ok hlower
  obtain ⟨hkeep, -, -⟩ := htracks.bindAll hbind
  obtain ⟨hkeys, hmissing⟩ := (generates_iff htracks hkeep).2 hgenerates
  rcases Compilation.emitInitializer_ok hemit with ⟨-, ⟨hnil, -⟩ | ⟨hfound, hid⟩⟩ | ⟨-, -, hle, -⟩
  · exact absurd hnil hkeys
  · exact absurd (hfound.symm.trans hmissing) hid
  · rw [hkeep] at hle
    rwa [fields_eq, ← htracks.statics]

theorem enters_initializer {s : Lowering} {contract : Contract} {decoded : List Instruction}
    {m : AbiMethod} (hlowers : p.Lowers s c) (hcompiles : c.Compiles contract decoded)
    (hgenerates : p.Generates)
    (hexports : c.Exports decoded
      { method := p.names.length, name := Compilation.initializerName } m) :
    ∃ first, (decoded.drop p.ids.length)[0]? = some first ∧
      m = ⟨Compilation.initializerName, first.offset, false, .void, []⟩ := by
  have hgenerated {generated : List MethodBody} (hinit : p.Initializer c generated) : generated =
      [⟨Compilation.initializerName, #[p.sites.length, p.sites.length + 1]⟩] :=
    (hinit.resolve_left fun hnone => hnone.1 hgenerates).2.1
  obtain ⟨generated, hbodies, hinit⟩ := hlowers.bodies
  have hbody : c.methods.toList[p.names.length]? =
      some ⟨Compilation.initializerName, #[p.sites.length, p.sites.length + 1]⟩ := by
    have hlength : (p.names.map (Lowering.bodyOf p.sites)).length = p.names.length :=
      List.length_map _
    rw [hbodies, hgenerated hinit, List.getElem?_append_right (Nat.le_of_eq hlength), hlength,
      Nat.sub_self]
    rfl
  have hplaced : c.order[p.ids.length]? = some p.sites.length := by
    obtain ⟨more, horder, hmore⟩ := order_eq hlowers
    rw [horder, hgenerated hmore, List.getElem?_append_right (Nat.le_refl _), Nat.sub_self]
    rfl
  obtain ⟨ins, hins, rfl⟩ := hcompiles.exports_at hexports hbody rfl hplaced
  refine ⟨ins, ?_, rfl⟩
  rw [List.getElem?_drop, Nat.add_zero, hins]

/-- Every index that stands for a static field is below the number of fields. Storage is sized for
that number, unless a method of the program has the name of the initializer. Then nothing is
generated: the script holds the code of the program alone, and the interface what it exports. -/
theorem static_storage {contract : Contract} (hlower : p.lower = .ok c)
    (hcompile : c.compile = .ok contract) (hfields : p.fields ≠ []) :
    ∃ code tail own, Script.instructionsOf contract.script = .ok (code ++ tail) ∧
      List.Forall₂ (fun d ins => d.Plain → ∀ name, d.staticField = some name →
        ∃ slot : UInt8, ins.operand = [slot] ∧ slot.toNat < p.fields.length) p.code code ∧
      List.Forall₂ (p.Enters code) (exportsOf p.methods) own ∧
      (Compilation.initializerName ∉ p.names →
        ∃ m, Initializes p.fields.length tail m ∧ contract.abi.methods = own ++ [m]) ∧
      (Compilation.initializerName ∈ p.names → tail = [] ∧ contract.abi.methods = own) := by
  obtain ⟨s, generated, hlowers, hknows, hinit, hexports⟩ := lower_knows hlower
  obtain ⟨decoded, hcompiles⟩ := Compilation.compile_ok hcompile
  obtain ⟨own, rest, habi, hown, hrest⟩ := interface_split hlowers hcompiles hknows hexports
  have hgenerates := generates_iff_of_fields hfields
  refine ⟨decoded.take p.ids.length, decoded.drop p.ids.length, own, ?_, ?_, hown, ?_, ?_⟩
  · rw [List.take_append_drop]
    exact hcompiles.decodes
  · refine (cites_code hlower hcompiles).imp fun d ins hcites hplain name hname => ?_
    obtain ⟨slot, hslot, hget⟩ := (hcites hplain).field name hname
    exact ⟨slot, hslot, (List.getElem?_eq_some_iff.1 hget).1⟩
  · intro hmissing
    have hsome := hgenerates.2 hmissing
    obtain ⟨-, rfl⟩ := hinit.resolve_left fun hnone => hnone.1 hsome
    obtain ⟨m, none, hm, hnone, rfl⟩ := List.forall₂_cons_left_iff.1 hrest
    cases hnone
    obtain ⟨-, first, second, htail, hopcode, hoperand, hret, hempty⟩ :=
      (sizes_tail hlowers hcompiles).resolve_left fun hnone => hnone.1 hsome
    obtain ⟨entry, hentry, hdescribed⟩ := enters_initializer hlowers hcompiles hsome hm
    rw [htail] at hentry
    cases hentry
    refine ⟨m, ⟨first, second, _, htail, hopcode, hoperand, ?_, hret, hempty, hdescribed⟩, habi⟩
    -- The count in the operand is one byte, which holds it because the initializer was emitted.
    rw [← fields_eq]
    exact UInt8.toNat_ofNat_of_lt' (Nat.lt_succ_of_le (length_fields_le hlower hsome))
  · intro hmem
    have hnone : ¬ p.Generates := fun hsome => hgenerates.1 hsome hmem
    obtain ⟨-, rfl⟩ := hinit.resolve_right fun hsome => hnone hsome.1
    obtain ⟨-, htail⟩ := (sizes_tail hlowers hcompiles).resolve_right fun hsome => hnone hsome.1
    cases hrest
    rw [List.append_nil] at habi
    exact ⟨htail, habi⟩

/-- A public method with two static fields. -/
def counter : Program where
  name := "counter"
  methods := [{ name := "main", exported := some {}, body :=
    [{ opcode := "LDSFLD", staticField := some "owner" },
      { opcode := "STSFLD", staticField := some "count" }, { opcode := "RET" }] }]

theorem static_storage_counter : ∃ c contract code tail main m,
    counter.lower = .ok c ∧ c.compile = .ok contract ∧ counter.fields ≠ [] ∧
      Script.instructionsOf contract.script = .ok (code ++ tail) ∧
      contract.abi.methods = [main, m] ∧ Initializes 2 tail m := by
  obtain ⟨c, contract, hlower, hcompile, -⟩ :=
    exists_compile counter id Contract.script [0x5F, 0, 0x67, 1, 0x40, 0x56, 2, 0x40] (by cbv)
  have hfields : counter.fields = ["owner", "count"] := by cbv
  have hsome : counter.fields ≠ [] := by
    rw [hfields]
    exact List.cons_ne_nil _ _
  obtain ⟨code, tail, own, hdecode, -, hown, hgenerated, -⟩ := static_storage hlower hcompile hsome
  obtain ⟨m, hinit, habi⟩ := hgenerated (by decide)
  rw [hfields] at hinit
  obtain ⟨main, none, -, hnone, rfl⟩ := List.forall₂_cons_left_iff.1 hown
  cases hnone
  exact ⟨c, contract, code, tail, main, m, hlower, hcompile, hsome, hdecode, habi, hinit⟩

/-- A static field is read, and a method that does nothing has the name of the initializer. -/
def unsized : Program where
  name := "unsized"
  methods := [{ name := "main", exported := some {}, body :=
      [{ opcode := "LDSFLD", staticField := some "count" }, { opcode := "RET" }] },
    { name := "_initialize", body := [{ opcode := "RET" }] }]

/-- Nothing sizes the storage, and no method of the interface could. -/
theorem storage_unsized_of_own_initializer : ∃ c contract,
    unsized.lower = .ok c ∧ c.compile = .ok contract ∧ unsized.fields = ["count"] ∧
      Script.instructionsOf contract.script =
        .ok [⟨.ldSFld, [0], 0⟩, ⟨.ret, [], 2⟩, ⟨.ret, [], 3⟩] ∧
      contract.abi.methods = [⟨"main", 0, false, .void, []⟩] := by
  obtain ⟨c, contract, hlower, hcompile, hview⟩ :=
    exists_compile unsized id (fun contract => (contract.script, contract.abi.methods))
      ([0x5F, 0, 0x40, 0x40], [⟨"main", 0, false, .void, []⟩]) (by cbv)
  obtain ⟨hscript, habi⟩ := Prod.mk.inj hview
  have hdecode : Script.instructionsOf [0x5F, 0, 0x40, 0x40] =
      .ok [⟨.ldSFld, [0], 0⟩, ⟨.ret, [], 2⟩, ⟨.ret, [], 3⟩] := rfl
  exact ⟨c, contract, hlower, hcompile, by cbv, hscript ▸ hdecode, habi⟩

end Program
end ContractLinker
