import ContractLinker.Proofs.Interning
import ContractLinker.Proofs.Translation

namespace ContractLinker

/-- The operand is the number of the token, or of the static field, that the definition names. -/
structure InstructionDef.Cites (tokens : List Token) (fields : List String) (d : InstructionDef)
    (operand : Bytes) : Prop where
  token : ∀ token, d.token = some token →
    operand.length = 2 ∧ tokens[Bytes.toNatLE operand]? = some token
  field : ∀ name, d.staticField = some name →
    ∃ slot : UInt8, operand = [slot] ∧ fields[slot.toNat]? = some name

/-- The definition is of no branch: its instruction has no address. -/
def InstructionDef.Plain (d : InstructionDef) : Prop :=
  ∃ opcode, Opcode.ofMnemonic? d.opcode = some opcode ∧ opcode.addressClass = none

theorem InstructionDef.Cites.mono {tokens tokens' : List Token} {fields fields' : List String}
    {d : InstructionDef} {operand : Bytes} (h : d.Cites tokens fields operand)
    (htokens : tokens <+: tokens') (hfields : fields <+: fields') :
    d.Cites tokens' fields' operand := by
  constructor
  · intro token htoken
    obtain ⟨hlength, hget⟩ := h.token token htoken
    exact ⟨hlength, getElem?_of_prefix htokens hget⟩
  · intro name hname
    obtain ⟨slot, hslot, hget⟩ := h.field name hname
    exact ⟨slot, hslot, getElem?_of_prefix hfields hget⟩

theorem InstructionDef.Cites.operand_eq_iff {tokens : List Token} {fields : List String}
    {d d' : InstructionDef} {operand operand' : Bytes} {name name' : String}
    (h : d.Cites tokens fields operand) (h' : d'.Cites tokens fields operand')
    (hname : d.staticField = some name) (hname' : d'.staticField = some name')
    (hnodup : fields.Nodup) : operand = operand' ↔ name = name' := by
  obtain ⟨slot, rfl, hget⟩ := h.field name hname
  obtain ⟨slot', rfl, hget'⟩ := h'.field name' hname'
  constructor
  · intro heq
    rw [List.singleton_inj] at heq
    subst heq
    exact Option.some.inj (hget.symm.trans hget')
  · rintro rfl
    have hlt := (List.getElem?_eq_some_iff.1 hget).1
    have hslot := (List.getElem?_inj hlt hnodup).1 (hget.trans hget'.symm)
    rw [UInt8.toNat_inj.1 hslot]

/-- The table holds the tokens that were used, in the order of their first use. -/
structure TokenTable.Lists (table : TokenTable) (used : List Token) : Prop where
  consistent : table.Consistent
  tokens : table.toList = used.eraseDups
  room : table.tokens.size ≤ capacity

structure StaticSlots.Lists (slots : StaticSlots) (named : List String) : Prop where
  keys : slots.keys = named.eraseDups
  room : slots.keys.length ≤ capacity

theorem Compilation.addToken_lists {c c' : Compilation} {token : Token} {i : Nat}
    {used : List Token} (h : c.tokens.Lists used) (hadd : c.addToken token = (.ok i, c')) :
    c'.tokens.Lists (used ++ [token]) ∧ i < TokenTable.capacity ∧
      c'.tokens.toList[i]? = some token := by
  have hmem : token ∈ c.tokens.tokens ↔ token ∈ used := by
    rw [← List.mem_eraseDups, ← h.tokens, TokenTable.toList, Array.mem_toList_iff]
  have hcases := addToken_cases h.consistent token
  rw [hadd] at hcases
  cases hcases with
  | known hvalid hold =>
    have hlt := (Array.getElem?_eq_some_iff.1 hold).1
    refine ⟨⟨h.consistent, ?_, h.room⟩, Nat.lt_of_lt_of_le hlt h.room, ?_⟩
    · rw [eraseDups_concat, if_pos (hmem.1 (Array.mem_of_getElem? hold)), h.tokens]
    · rw [TokenTable.toList, Array.getElem?_toList, hold]
  | fresh hvalid hnew hroom =>
    refine ⟨⟨h.consistent.push hnew, ?_, ?_⟩, hroom, ?_⟩
    · rw [eraseDups_concat, if_neg (mt hmem.2 hnew), ← h.tokens]
      exact Array.toList_push
    · rw [Array.size_push]
      exact hroom
    · rw [TokenTable.toList, Array.getElem?_toList, Array.getElem?_push_size]

theorem Compilation.addStatic_allocate {c c' : Compilation} {name : String} {i : Nat}
    (h : c.addStatic name = (.ok i, c')) : c.statics.allocate name = (.ok i, c'.statics) := by
  obtain ⟨hslot, rfl⟩ := Prod.mk.inj h
  exact Prod.ext hslot rfl

theorem Compilation.addStatic_lists {c c' : Compilation} {name : String} {i : Nat}
    {named : List String} (h : c.statics.Lists named) (hadd : c.addStatic name = (.ok i, c')) :
    c'.statics.Lists (named ++ [name]) ∧ i < StaticSlots.capacity ∧
      c'.statics.keys[i]? = some name := by
  have hkeys := (Lowering.addStatic_ok hadd).2 named h.keys
  rcases Lowering.allocate_cases (addStatic_allocate hadd) with ⟨hget, heq⟩ | ⟨-, hroom, rfl, heq⟩
  · have hlt := (List.getElem?_eq_some_iff.1 hget).1
    rw [heq] at hkeys ⊢
    exact ⟨⟨hkeys, h.room⟩, Nat.lt_of_lt_of_le hlt h.room, hget⟩
  · rw [heq] at hkeys ⊢
    refine ⟨⟨hkeys, ?_⟩, hroom, List.getElem?_concat_length⟩
    rw [List.length_append]
    exact hroom

namespace Lowering

structure Lists (defs : List InstructionDef) (c : Compilation) : Prop where
  tokens : c.tokens.Lists (defs.filterMap (·.token))
  statics : c.statics.Lists (defs.filterMap (·.staticField))

theorem Lists.concat_of_none {defs : List InstructionDef} {c : Compilation} {d : InstructionDef}
    (h : Lists defs c) (htoken : d.token = none) (hfield : d.staticField = none) (operand : Bytes) :
    Lists (defs ++ [d]) c ∧ d.Cites c.tokens.toList c.statics.keys operand := by
  refine ⟨⟨?_, ?_⟩, ?_, ?_⟩
  · simpa [htoken] using h.tokens
  · simpa [hfield] using h.statics
  · rw [htoken]
    exact nofun
  · rw [hfield]
    exact nofun

theorem Lists.lowerInstruction {defs : List InstructionDef} {c c' : Compilation}
    {d : InstructionDef} {ins : Unlinked} (h : Lists defs c)
    (hrun : lowerInstruction c d = .ok (ins, c')) :
    Lists (defs ++ [d]) c' ∧ d.Cites c'.tokens.toList c'.statics.keys ins.operand := by
  obtain ⟨opcode, -, hgiven, hoperand⟩ := lowerInstruction_eq_ok hrun
  -- A definition names a token, a static field, or neither; the other table is as before.
  rcases lowerOperand_cases hgiven hoperand with
    ⟨token, i, htoken, hfield, -, hadd, rfl⟩ | ⟨name, i, htoken, hfield, -, hadd, rfl⟩ |
    ⟨digits, bytes, htoken, hfield, -, -, rfl, rfl⟩ | ⟨htoken, hfield, -, rfl, rfl⟩
  · obtain ⟨htokens, hlt, hget⟩ := Compilation.addToken_lists h.tokens hadd
    have hstatics : c'.statics = c.statics := by rw [addToken_ok hadd]
    refine ⟨⟨?_, ?_⟩, ?_, ?_⟩
    · simpa [htoken] using htokens
    · simpa [hfield, hstatics] using h.statics
    · rw [htoken]
      rintro _ ⟨⟩
      refine ⟨Bytes.length_ofNatLE 2 i, ?_⟩
      rw [Bytes.toNatLE_ofNatLE_of_lt hlt, hget]
    · rw [hfield]
      exact nofun
  · obtain ⟨hstatics, hlt, hget⟩ := Compilation.addStatic_lists h.statics hadd
    have htokens : c'.tokens = c.tokens := by rw [(addStatic_ok hadd).1]
    refine ⟨⟨?_, ?_⟩, ?_, ?_⟩
    · simpa [htoken, htokens] using h.tokens
    · simpa [hfield] using hstatics
    · rw [htoken]
      exact nofun
    · rw [hfield]
      rintro _ ⟨⟩
      refine ⟨_, rfl, ?_⟩
      rw [UInt8.toNat_ofNat_of_lt' hlt, hget]
  · exact h.concat_of_none htoken hfield _
  · exact h.concat_of_none htoken hfield _

/-- The compilation after these definitions were read: each has an instruction, which holds the
number of what the definition names. -/
structure Holds (defs : List InstructionDef) (c : Compilation) : Prop extends Lists defs c where
  size : c.arena.size = defs.length
  cells : ∀ (id : Nat) d, defs[id]? = some d →
    ∃ ins, c.arena.get id = .ok ins ∧ d.Cites c.tokens.toList c.statics.keys ins.operand

namespace Holds

variable {defs : List InstructionDef} {s s' : Lowering}

theorem congr {c c' : Compilation} (h : Holds defs c) (htokens : c'.tokens = c.tokens)
    (hstatics : c'.statics = c.statics) (harena : c'.arena = c.arena) : Holds defs c' := by
  constructor
  · constructor
    · rw [htokens]
      exact h.tokens
    · rw [hstatics]
      exact h.statics
  · rw [harena]
    exact h.size
  · rw [htokens, hstatics, harena]
    exact h.cells

theorem reads {method : MethodId} {d : InstructionDef} (h : Holds defs s.compilation)
    (hreads : Reads method d s s') : Holds (defs ++ [d]) s'.compilation := by
  obtain ⟨ins, c, hins, hcompilation⟩ := hreads.instruction
  obtain ⟨hlists, hcites⟩ := h.toLists.lowerInstruction hins
  have harena : c.arena = s.compilation.arena := by rw [(lowerInstruction_ok hins).2.rest]
  have hcells : s'.compilation.arena.cells = s.compilation.arena.cells ++ #[ins] := by
    rw [hcompilation, harena, Array.push_eq_append]
  obtain ⟨hold, hnew⟩ := Arena.get_append hcells
  rw [hcompilation] at hold hnew ⊢
  refine ⟨⟨hlists.tokens, hlists.statics⟩, ?_, ?_⟩
  · rw [harena, List.length_append, List.length_singleton, ← h.size]
    exact Array.size_push _
  · intro id other hother
    rcases getElem?_concat_iff.1 hother with hearlier | ⟨rfl, rfl⟩
    · -- The tables have only grown since.
      obtain ⟨old, hget, hcites'⟩ := h.cells id other hearlier
      refine ⟨old, hold id old hget, hcites'.mono ?_ ?_⟩
      · rw [h.tokens.tokens, hlists.tokens.tokens, List.filterMap_append]
        exact eraseDups_prefix _ _
      · rw [h.statics.keys, hlists.statics.keys, List.filterMap_append]
        exact eraseDups_prefix _ _
    · rw [← h.size]
      exact ⟨ins, hnew 0 ins rfl, hcites⟩

theorem defineMethod {c : Compilation} (h : Holds defs c) (name : String) :
    Holds defs (c.defineMethod name).2 := by
  unfold Compilation.defineMethod
  split
  · exact h
  · exact h.congr rfl rfl rfl

theorem kept : Kept fun _ sites s => Holds (sites.map (·.definition)) s.compilation where
  opens := defineMethod
  reads h _ hreads := by
    rw [List.map_append]
    exact h.reads hreads
  exports h _ := h.congr rfl rfl rfl

end Holds
end Lowering

namespace Program

def text (p : Program) : List InstructionDef := p.methods.flatMap (·.body)

theorem text_eq (p : Program) : p.text = p.sites.map (·.definition) := by
  simp [text, sites, List.map_flatMap, Function.comp_def]

def tokens (p : Program) : List Token := (p.text.filterMap (·.token)).eraseDups

def fields (p : Program) : List String := (p.text.filterMap (·.staticField)).eraseDups

theorem holds_header (p : Program) : Lowering.Holds [] p.header := by
  obtain ⟨harena, -, hstatics, htokens, -⟩ := p.header_code
  refine ⟨⟨?_, ?_⟩, ?_, ?_⟩
  · rw [htokens]
    exact ⟨TokenTable.consistent_empty, rfl, Nat.zero_le _⟩
  · rw [hstatics]
    exact ⟨rfl, Nat.zero_le _⟩
  · rw [harena]
    rfl
  · simp

theorem lower_cites {p : Program} {c : Compilation} (h : p.lower = .ok c) :
    c.tokens.toList = p.tokens ∧ ∀ (id : Nat) d, p.text[id]? = some d →
      ∃ ins, c.arena.get id = .ok ins ∧ d.Cites p.tokens p.fields ins.operand := by
  obtain ⟨s, c₁, _, hmethods, htracks, hbind, hemit⟩ := lower_eq_ok h
  have hholds : Lowering.Holds p.text s.compilation := by
    rw [text_eq]
    refine @Lowering.Kept.lowerMethods _ Lowering.Holds.kept [] [] _ _ _ ?_ hmethods
    exact p.holds_header
  obtain ⟨hrest, -, hcells⟩ := htracks.bindAll_ok hbind
  constructor
  · have htokens : c.tokens = c₁.tokens := by
      rcases Compilation.emitInitializer_ok hemit with ⟨rfl, -⟩ | ⟨-, -, -, -, rfl⟩ <;> rfl
    rw [htokens, hrest]
    exact hholds.tokens.tokens
  · intro id d hd
    obtain ⟨ins, hget, hcites⟩ := hholds.cells id d hd
    rw [hholds.tokens.tokens, hholds.statics.keys] at hcites
    obtain ⟨ins₁, hget₁, hsame⟩ := hcells id ins hget
    -- Binding a branch changes its targets alone.
    have hoperand : ins₁.operand = ins.operand := by
      rcases hsame with ⟨-, rfl⟩ | ⟨b, -, -, hre⟩
      · rfl
      · rw [hre.rest]
    refine ⟨ins₁, ?_, hoperand ▸ hcites⟩
    rcases Compilation.emitInitializer_ok hemit with ⟨rfl, -⟩ | ⟨-, -, -, -, rfl⟩
    · exact hget₁
    · exact (Arena.get_append rfl).1 id ins₁ hget₁

/-- The instruction of a definition that names the static field and is not a branch. -/
def Accesses (p : Program) (code : List Instruction) (name : String) (ins : Instruction) : Prop :=
  ∃ (i : Nat) (d : InstructionDef), p.code[i]? = some d ∧ code[i]? = some ins ∧ d.Plain ∧
    d.staticField = some name

theorem cites_code {p : Program} {c : Compilation} {contract : Contract}
    {decoded : List Instruction} (hlower : p.lower = .ok c) (hcompiles : c.Compiles contract decoded) :
    List.Forall₂ (fun d ins => d.Plain → d.Cites p.tokens p.fields ins.operand) p.code
      (decoded.take p.ids.length) := by
  obtain ⟨s, hlowers⟩ := lower_ok hlower
  obtain ⟨-, hcites⟩ := lower_cites hlower
  obtain ⟨-, -, -, hcode, -⟩ := emits_split hlowers hcompiles
  refine (forall₂_through p.forall₂_ids hcode).imp fun d ins hins => ?_
  obtain ⟨id, ⟨site, hsite, rfl⟩, old, hold, hemits⟩ := hins
  rintro ⟨opcode, hopcode, hplain⟩
  have htext : p.text[id]? = some site.definition := by
    rw [text_eq, List.getElem?_map, hsite]
    rfl
  obtain ⟨found, hfound, hcited⟩ := hcites id site.definition htext
  obtain ⟨bound, hbound, hopcode'⟩ := hlowers.cells id site hsite
  rw [hold] at hfound hbound
  cases hfound
  cases hbound
  have hsame : opcode = old.opcode := Option.some.inj (hopcode.symm.trans hopcode'.opcode)
  rw [hemits.operand (hsame ▸ hplain)]
  exact hcited

/-- References lead to what they name: the tokens of the contract are those of the program, each
once and in the order of their first use; an operand that stands for a token is its number; and one
that stands for a static field is the number of that field, which no other field has. -/
theorem resolve_references {p : Program} {c : Compilation} {contract : Contract}
    (hlower : p.lower = .ok c) (hcompile : c.compile = .ok contract) :
    contract.tokens = p.tokens ∧ contract.tokens.Nodup ∧
      ∃ code tail, Script.instructionsOf contract.script = .ok (code ++ tail) ∧
        List.Forall₂ (fun d ins => d.Plain → d.Cites contract.tokens p.fields ins.operand)
          p.code code ∧
        ∀ name name' ins ins', p.Accesses code name ins → p.Accesses code name' ins' →
          (ins.operand = ins'.operand ↔ name = name') := by
  obtain ⟨decoded, hcompiles⟩ := Compilation.compile_ok hcompile
  have htokens : contract.tokens = p.tokens := by
    rw [(Compilation.compile_manifest hcompile).1, (lower_cites hlower).1]
  have hcites := cites_code hlower hcompiles
  refine ⟨htokens, ?_, decoded.take p.ids.length, decoded.drop p.ids.length, ?_, ?_, ?_⟩
  · rw [htokens]
    exact nodup_eraseDups _
  · rw [List.take_append_drop]
    exact hcompiles.decodes
  · rw [htokens]
    exact hcites
  · rintro name name' ins ins' ⟨i, d, hd, hins, hplain, hname⟩ ⟨j, d', hd', hins', hplain', hname'⟩
    obtain ⟨found, hfound, hcited⟩ := forall₂_getElem? hcites hd
    obtain ⟨found', hfound', hcited'⟩ := forall₂_getElem? hcites hd'
    rw [hins] at hfound
    rw [hins'] at hfound'
    cases hfound
    cases hfound'
    exact (hcited hplain).operand_eq_iff (hcited' hplain') hname hname' (nodup_eraseDups _)

def remote : Token := ⟨.ofBytes [], "pay", 0, false, {}⟩

/-- Two accesses to one field around a call. -/
def accessor : Program where
  name := "accessor"
  methods := [{ name := "main", body :=
    [{ opcode := "LDSFLD", staticField := some "owner" },
      { opcode := "CALLT", token := some remote },
      { opcode := "STSFLD", staticField := some "owner" }] }]

theorem resolve_references_accessor : ∃ c contract load call store tail,
    accessor.lower = .ok c ∧ c.compile = .ok contract ∧ contract.tokens = [remote] ∧
      Script.instructionsOf contract.script = .ok ([load, call, store] ++ tail) ∧
      call.operand.length = 2 ∧ contract.tokens[Bytes.toNatLE call.operand]? = some remote ∧
      load.operand = store.operand := by
  obtain ⟨c, contract, hlower, hcompile, -⟩ :=
    exists_compile accessor id Contract.script [0x5F, 0, 0x37, 0, 0, 0x67, 0, 0x56, 1, 0x40] (by cbv)
  obtain ⟨htokens, -, code, tail, hdecode, hcites, hfields⟩ := resolve_references hlower hcompile
  have hcode : accessor.code = [{ opcode := "LDSFLD", staticField := some "owner" },
      { opcode := "CALLT", token := some remote },
      { opcode := "STSFLD", staticField := some "owner" }] := by cbv
  have hload : InstructionDef.Plain { opcode := "LDSFLD", staticField := some "owner" } :=
    ⟨.ldSFld, by cbv, rfl⟩
  have hcall : InstructionDef.Plain { opcode := "CALLT", token := some remote } :=
    ⟨.callT, by cbv, rfl⟩
  have hstore : InstructionDef.Plain { opcode := "STSFLD", staticField := some "owner" } :=
    ⟨.stSFld, by cbv, rfl⟩
  rw [hcode] at hcites
  obtain ⟨load, rest, -, hrest, rfl⟩ := List.forall₂_cons_left_iff.1 hcites
  obtain ⟨call, last, hcalls, hlast, rfl⟩ := List.forall₂_cons_left_iff.1 hrest
  obtain ⟨store, none, -, hnone, rfl⟩ := List.forall₂_cons_left_iff.1 hlast
  cases hnone
  obtain ⟨hlength, htoken⟩ := (hcalls hcall).token remote rfl
  refine ⟨c, contract, load, call, store, tail, hlower, hcompile, ?_, hdecode, hlength, htoken, ?_⟩
  · rw [htokens]
    cbv
  · exact (hfields "owner" "owner" load store ⟨0, _, by rw [hcode]; rfl, rfl, hload, rfl⟩
      ⟨2, _, by rw [hcode]; rfl, rfl, hstore, rfl⟩).2 rfl

end Program
end ContractLinker
