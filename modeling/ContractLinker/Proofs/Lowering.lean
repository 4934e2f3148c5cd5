import ContractLinker.Program.Lower
import ContractLinker.Proofs.Compiling
import ContractLinker.Proofs.HexDigits

namespace ContractLinker

structure Site where
  method : String
  definition : InstructionDef

/-- All definitions in the order of the text. -/
def Program.sites (p : Program) : List Site :=
  p.methods.flatMap fun m => m.body.map (Site.mk m.name)

def idsOf (sites : List Site) (name : String) : List InstructionId :=
  (sites.zipIdx.filter (·.1.method = name)).map (·.2)

theorem idsOf_concat (sites : List Site) (site : Site) (name : String) :
    idsOf (sites ++ [site]) name =
      idsOf sites name ++ if site.method = name then [sites.length] else [] := by
  simp only [idsOf, List.zipIdx_append, List.filter_append, List.map_append]
  by_cases h : site.method = name <;> simp [h]

theorem idsOf_eq_nil {sites : List Site} {name : String}
    (h : ∀ site ∈ sites, site.method ≠ name) : idsOf sites name = [] := by
  rw [idsOf, List.map_eq_nil_iff, List.filter_eq_nil_iff]
  intro x hx
  have hsite := h x.1 (List.fst_mem_of_mem_zipIdx hx)
  simpa using hsite

theorem Arena.get_append {arena arena' : Arena} {more : Array Unlinked}
    (h : arena'.cells = arena.cells ++ more) :
    (∀ id ins, arena.get id = .ok ins → arena'.get id = .ok ins) ∧
      ∀ k ins, more[k]? = some ins → arena'.get (arena.size + k) = .ok ins := by
  simp only [Arena.get_eq_ok_iff, h]
  constructor
  · intro id ins hget
    rw [Array.getElem?_append_left (Array.getElem?_eq_some_iff.1 hget).1, hget]
  · intro k ins hget
    rw [Arena.size, Array.getElem?_append_right (Nat.le_add_right _ _), Nat.add_sub_cancel_left,
      hget]

namespace Unlinked

variable {ins ins' : Unlinked}

theorem new_opcode (opcode : Opcode) : (new opcode).opcode = opcode := by
  unfold new setOpcode
  split <;> rfl

theorem new_targets (opcode : Opcode) : (new opcode).targets = Targets.reshape opcode .none := by
  unfold new setOpcode
  split <;> rfl

theorem setOperand_eq_ok_iff {operand : Bytes} : ins.setOperand operand = (.ok (), ins') ↔
    Instruction.checkOperand ins.opcode operand = .ok () ∧ ins' = { ins with operand } := by
  unfold setOperand
  cases Instruction.checkOperand ins.opcode operand <;> simp [eq_comm]

theorem setOperand_ok {operand : Bytes} (h : ins.setOperand operand = (.ok (), ins')) :
    ins' = { ins with operand } := (setOperand_eq_ok_iff.1 h).2

end Unlinked

namespace Compilation

theorem method?_eq_none_iff {c : Compilation} {name : String} :
    c.method? name = none ↔ name ∉ c.methods.toList.map (·.name) := by
  rw [method?, Array.findIdx?_eq_none_iff]
  simp

theorem method?_eq (c : Compilation) (name : String) :
    c.method? name = (c.methods.toList.map (·.name)).findIdx? (· = name) := by
  rw [method?, List.findIdx?_map, ← List.findIdx?_toArray, Array.toArray_toList]
  rfl

theorem getElem?_of_method? {c : Compilation} {name : String} {id : MethodId}
    (h : c.method? name = some id) : (c.methods.toList.map (·.name))[id]? = some name := by
  rw [method?_eq, List.findIdx?_eq_some_iff_getElem] at h
  obtain ⟨hlt, hname, -⟩ := h
  rw [List.getElem?_eq_getElem hlt, of_decide_eq_true hname]

theorem method?_defineMethod (c : Compilation) (name : String) :
    (c.defineMethod name).2.method? name = some (c.defineMethod name).1 := by
  unfold defineMethod
  cases hfind : c.method? name with
  | some id => exact hfind
  | none =>
    rw [method?_eq, List.findIdx?_eq_none_iff] at hfind
    rw [method?_eq, Array.toList_push, List.map_append, List.findIdx?_append,
      List.findIdx?_eq_none_iff.2 hfind]
    simp

theorem place_cases (c : Compilation) (method : MethodId) (id : InstructionId) :
    (∃ e, c.place method id = (.error e, c)) ∨ method < c.methods.size ∧
      c.place method id =
        (.ok (), { c with methods := c.methods.modify method (·.append id) }) := by
  unfold place
  split
  · exact .inl ⟨_, rfl⟩
  · split
    · rename_i hlt
      exact .inr ⟨hlt, rfl⟩
    · exact .inl ⟨_, rfl⟩

theorem place_ok {c c' : Compilation} {method : MethodId} {id : InstructionId}
    (h : c.place method id = (.ok (), c')) :
    c' = { c with methods := c.methods.modify method (·.append id) } := by
  rcases c.place_cases method id with ⟨e, heq⟩ | ⟨-, heq⟩ <;> rw [heq] at h <;> cases h
  rfl

end Compilation

namespace Lowering

/-- What stands in the arena for a definition whose targets are not bound yet. -/
structure Lowered (d : InstructionDef) (ins : Unlinked) : Prop where
  opcode : Opcode.ofMnemonic? d.opcode = some ins.opcode
  targets : ins.targets = Targets.reshape ins.opcode .none
  operand : ∀ digits, d.operand = some digits → Hex.Writes digits.toList ins.operand

def staticsOf (sites : List Site) : List String :=
  (sites.filterMap (·.definition.staticField)).eraseDups

theorem allocate_cases {slots slots' : StaticSlots} {key : String} {i : Nat}
    (h : slots.allocate key = (.ok i, slots')) :
    slots.keys[i]? = some key ∧ slots' = slots ∨
      key ∉ slots.keys ∧ slots.keys.length < StaticSlots.capacity ∧ i = slots.keys.length ∧
        slots' = ⟨slots.keys ++ [key]⟩ := by
  unfold StaticSlots.allocate StaticSlots.get? at h
  split at h
  · rename_i hfound
    cases h
    obtain ⟨hlt, hkey, -⟩ := List.findIdx?_eq_some_iff_getElem.1 hfound
    refine .inl ⟨?_, rfl⟩
    rw [List.getElem?_eq_getElem hlt, eq_of_beq hkey]
  · rename_i hnone
    dsimp only at h
    split at h
    · rename_i hroom
      cases h
      exact .inr ⟨List.idxOf?_eq_none_iff.1 hnone, hroom, rfl, rfl⟩
    · cases h

theorem allocate_keys {slots slots' : StaticSlots} {key : String} {i : Nat} {fields : List String}
    (hkeys : slots.keys = fields.eraseDups) (h : slots.allocate key = (.ok i, slots')) :
    slots'.keys = (fields ++ [key]).eraseDups := by
  have hmem : key ∈ slots.keys ↔ key ∈ fields := by rw [hkeys, List.mem_eraseDups]
  rw [eraseDups_concat]
  rcases allocate_cases h with ⟨hget, rfl⟩ | ⟨hnew, -, -, rfl⟩
  · rw [if_pos (hmem.1 (List.mem_of_getElem? hget)), hkeys]
  · rw [if_neg (mt hmem.2 hnew), hkeys]

/-- What the operand of a definition does to the compilation: only the tables it refers to
change. -/
structure Refers (d : InstructionDef) (c c' : Compilation) : Prop where
  rest : c' = { c with tokens := c'.tokens, permissions := c'.permissions, statics := c'.statics }
  statics : ∀ fields, c.statics.keys = fields.eraseDups →
    c'.statics.keys = (fields ++ d.staticField.toList).eraseDups

theorem Refers.of_no_static {d : InstructionDef} {c c' : Compilation}
    (hstatic : d.staticField = none)
    (h : c' = { c with tokens := c'.tokens, permissions := c'.permissions }) : Refers d c c' := by
  have hstatics : c'.statics = c.statics := by rw [h]
  refine ⟨by rw [hstatics]; exact h, ?_⟩
  intro fields hkeys
  rw [hstatics, hstatic, Option.toList_none, List.append_nil]
  exact hkeys

theorem addToken_ok {c c' : Compilation} {token : Token} {i : Nat}
    (h : c.addToken token = (.ok i, c')) :
    c' = { c with tokens := c'.tokens, permissions := c'.permissions } := by
  unfold Compilation.addToken at h
  split at h
  · cases h
  · split at h
    · cases h
    · cases h
      rfl

theorem addStatic_ok {c c' : Compilation} {name : String} {slot : Nat}
    (h : c.addStatic name = (.ok slot, c')) :
    c' = { c with statics := c'.statics } ∧ ∀ fields, c.statics.keys = fields.eraseDups →
      c'.statics.keys = (fields ++ [name]).eraseDups := by
  obtain ⟨hslot, rfl⟩ := Prod.mk.inj h
  exact ⟨rfl, fun fields hkeys => allocate_keys hkeys (Prod.ext hslot rfl)⟩

/-- What a definition can give its instruction: a token, a static field, digits, or nothing. -/
theorem lowerOperand_cases {c c' : Compilation} {d : InstructionDef} {ins ins' : Unlinked}
    (hgiven : [d.operand.isSome, d.token.isSome, d.staticField.isSome].count true ≤ 1)
    (h : lowerOperand c ins d = .ok (ins', c')) :
    (∃ token i, d.token = some token ∧ d.staticField = none ∧ d.operand = none ∧
      c.addToken token = (.ok i, c') ∧ ins' = { ins with operand := Bytes.ofNatLE 2 i }) ∨
    (∃ name i, d.token = none ∧ d.staticField = some name ∧ d.operand = none ∧
      c.addStatic name = (.ok i, c') ∧ ins' = { ins with operand := [UInt8.ofNat i] }) ∨
    (∃ digits bytes, d.token = none ∧ d.staticField = none ∧ d.operand = some digits ∧
      Hex.Writes digits.toList bytes ∧ ins' = { ins with operand := bytes } ∧ c' = c) ∨
    (d.token = none ∧ d.staticField = none ∧ d.operand = none ∧ ins' = ins ∧ c' = c) := by
  -- At most one of the three is given, so the order in which they are looked at does not matter.
  unfold lowerOperand at h
  cases htoken : d.token with
  | some token =>
    have hoperand : d.operand = none := by
      cases hop : d.operand <;> simp_all
    have hstatic : d.staticField = none := by
      cases hst : d.staticField <;> simp_all
    simp only [htoken] at h
    obtain ⟨⟨i, c₁⟩, htable, hset⟩ := Except.bind_eq_ok_iff.1 h
    obtain ⟨⟨_, ins₁⟩, hins, hpure⟩ := Except.bind_eq_ok_iff.1 hset
    cases hpure
    exact .inl ⟨token, i, rfl, hstatic, hoperand, orFail_onSuccess_eq_ok_iff.1 htable,
      Unlinked.setOperand_ok (orFail_onSuccess_eq_ok_iff.1 hins)⟩
  | none =>
    cases hstatic : d.staticField with
    | some name =>
      have hoperand : d.operand = none := by
        cases hop : d.operand <;> simp_all
      simp only [htoken, hstatic] at h
      obtain ⟨⟨i, c₁⟩, htable, hset⟩ := Except.bind_eq_ok_iff.1 h
      obtain ⟨⟨_, ins₁⟩, hins, hpure⟩ := Except.bind_eq_ok_iff.1 hset
      cases hpure
      exact .inr (.inl ⟨name, i, rfl, rfl, hoperand, orFail_onSuccess_eq_ok_iff.1 htable,
        Unlinked.setOperand_ok (orFail_onSuccess_eq_ok_iff.1 hins)⟩)
    | none =>
      cases hoperand : d.operand with
      | some digits =>
        simp only [htoken, hstatic, hoperand] at h
        obtain ⟨bytes, hbytes, hset⟩ := Except.bind_eq_ok_iff.1 h
        obtain ⟨⟨_, ins₁⟩, hins, hpure⟩ := Except.bind_eq_ok_iff.1 hset
        cases hpure
        exact .inr (.inr (.inl ⟨digits, bytes, rfl, rfl, rfl,
          Hex.decode_eq_ok_iff.1 (orFail_eq_ok_iff.1 (withContext_eq_ok_iff.1 hbytes)),
          Unlinked.setOperand_ok (orFail_onSuccess_eq_ok_iff.1 hins), rfl⟩))
      | none =>
        simp only [htoken, hstatic, hoperand] at h
        cases h
        exact .inr (.inr (.inr ⟨rfl, rfl, rfl, rfl, rfl⟩))

theorem lowerOperand_ok {c c' : Compilation} {d : InstructionDef} {ins ins' : Unlinked}
    (hgiven : [d.operand.isSome, d.token.isSome, d.staticField.isSome].count true ≤ 1)
    (h : lowerOperand c ins d = .ok (ins', c')) :
    ins' = { ins with operand := ins'.operand } ∧ Refers d c c' ∧
      ∀ digits, d.operand = some digits → Hex.Writes digits.toList ins'.operand := by
  rcases lowerOperand_cases hgiven h with
    ⟨token, i, -, hstatic, hoperand, hadd, rfl⟩ | ⟨name, i, -, hstatic, hoperand, hadd, rfl⟩ |
    ⟨digits, bytes, -, hstatic, hoperand, hwrites, rfl, rfl⟩ | ⟨-, hstatic, hoperand, rfl, rfl⟩
  · exact ⟨rfl, .of_no_static hstatic (addToken_ok hadd), by rw [hoperand]; nofun⟩
  · obtain ⟨hrest, hkeys⟩ := addStatic_ok hadd
    exact ⟨rfl, ⟨by rw [hrest], by rw [hstatic]; exact hkeys⟩, by rw [hoperand]; nofun⟩
  · refine ⟨rfl, .of_no_static hstatic rfl, ?_⟩
    intro found hfound
    rw [hoperand] at hfound
    cases hfound
    exact hwrites
  · exact ⟨rfl, .of_no_static hstatic rfl, by rw [hoperand]; nofun⟩

theorem lowerInstruction_eq_ok {c c' : Compilation} {d : InstructionDef} {ins : Unlinked}
    (h : lowerInstruction c d = .ok (ins, c')) :
    ∃ opcode, Opcode.ofMnemonic? d.opcode = some opcode ∧
      [d.operand.isSome, d.token.isSome, d.staticField.isSome].count true ≤ 1 ∧
      lowerOperand c (.new opcode) d = .ok (ins, c') := by
  unfold lowerInstruction at h
  split at h
  · rename_i opcode hopcode
    dsimp only at h
    split at h
    · cases h
    · rename_i hgiven
      exact ⟨opcode, hopcode, Nat.le_of_not_lt hgiven, h⟩
  · cases h

/-- One definition becomes one instruction. -/
theorem lowerInstruction_ok {c c' : Compilation} {d : InstructionDef} {ins : Unlinked}
    (h : lowerInstruction c d = .ok (ins, c')) : Lowered d ins ∧ Refers d c c' := by
  obtain ⟨opcode, hopcode, hgiven, hoperand⟩ := lowerInstruction_eq_ok h
  obtain ⟨hins, hrefers, hdigits⟩ := lowerOperand_ok hgiven hoperand
  refine ⟨⟨?_, ?_, hdigits⟩, hrefers⟩
  · rw [hins, Unlinked.new_opcode, hopcode]
  · rw [hins, Unlinked.new_opcode, Unlinked.new_targets]

structure Reads (method : MethodId) (d : InstructionDef) (s t : Lowering) : Prop where
  instruction : ∃ ins c, lowerInstruction s.compilation d = .ok (ins, c) ∧
    t.compilation = { c with
      arena := ⟨c.arena.cells.push ins⟩
      methods := c.methods.modify method (·.append c.arena.size) }
  labels : d.label = none ∧ t.labels = s.labels ∨ ∃ label, d.label = some label ∧
    s.labels[label]? = none ∧ t.labels = s.labels.insert label s.compilation.arena.size
  pending : t.pending =
    if d.target.isSome || d.target2.isSome then
      ⟨s.compilation.arena.size, d.target, d.target2⟩ :: s.pending
    else s.pending

theorem lowerBody_cons {s s' : Lowering} {name : String} {method : MethodId} {index : Nat}
    {d : InstructionDef} {body : List InstructionDef}
    (h : lowerBody s name method index (d :: body) = .ok s') :
    ∃ t, Reads method d s t ∧
      t.entries = (if index = 0 then s.entries.insert name s.compilation.arena.size
        else s.entries) ∧
      lowerBody t name method (index + 1) body = .ok s' := by
  unfold lowerBody at h
  obtain ⟨⟨ins, c⟩, hins, hplace⟩ := Except.bind_eq_ok_iff.1 h
  have hins := withContext_eq_ok_iff.1 hins
  obtain ⟨⟨_, c'⟩, hplaced, hlabel⟩ := Except.bind_eq_ok_iff.1 hplace
  have hplaced' := Compilation.place_ok (orFail_onSuccess_eq_ok_iff.1 hplaced)
  -- The id that a label is noted with is taken before the instruction is placed.
  have hsize : c.arena.size = s.compilation.arena.size := by
    rw [(lowerInstruction_ok hins).2.rest]
  dsimp only at hlabel
  rw [hsize] at hlabel
  cases hname : d.label with
  | none =>
    simp only [hname, pure_bind] at hlabel
    refine ⟨_, ?_, rfl, hlabel⟩
    exact ⟨⟨ins, c, hins, hplaced'⟩, .inl ⟨hname, rfl⟩, rfl⟩
  | some label =>
    simp only [hname, pure_bind] at hlabel
    split at hlabel
    · cases hlabel
    · rename_i hnew
      rw [Std.HashMap.contains_eq_isSome_getElem?, Option.not_isSome_iff_eq_none] at hnew
      refine ⟨_, ?_, rfl, hlabel⟩
      exact ⟨⟨ins, c, hins, hplaced'⟩, .inr ⟨label, hname, hnew, rfl⟩, rfl⟩

theorem Reads.method?_eq {method : MethodId} {d : InstructionDef} {s t : Lowering}
    (h : Reads method d s t) (name : String) :
    t.compilation.method? name = s.compilation.method? name := by
  obtain ⟨ins, c, hins, hcompilation⟩ := h.instruction
  have hmethods : c.methods = s.compilation.methods := by rw [(lowerInstruction_ok hins).2.rest]
  have hnames : t.compilation.methods.toList.map (·.name) =
      s.compilation.methods.toList.map (·.name) := by
    rw [hcompilation, hmethods]
    apply List.ext_getElem?
    intro i
    simp only [Array.toList_modify, List.getElem?_map, List.getElem?_modify]
    cases s.compilation.methods.toList[i]? with
    | none => rfl
    | some body => by_cases heq : method = i <;> simp [heq, MethodBody.append]
  rw [Compilation.method?_eq, Compilation.method?_eq, hnames]

/-- What is said of the names that were opened and the definitions that were read, and holds after
every step of a lowering if it held before. -/
structure Kept (P : List String → List Site → Lowering → Prop) : Prop where
  opens : ∀ {names sites s}, P names sites s → ∀ name,
    P (names ++ [name]) sites { s with compilation := (s.compilation.defineMethod name).2 }
  reads : ∀ {names sites s t method} {site : Site}, P names sites s →
    s.compilation.method? site.method = some method → Reads method site.definition s t →
    P names (sites ++ [site]) t
  exports : ∀ {names sites s}, P names sites s → ∀ e,
    P names sites { s with compilation := s.compilation.exportMethod e }

namespace Kept

variable {P : List String → List Site → Lowering → Prop} (hkept : Kept P) {names : List String}
  {sites : List Site} {s s' : Lowering}
include hkept

theorem lowerBody {name : String} {method : MethodId} {index : Nat} {body : List InstructionDef}
    (h : P names sites s) (hmethod : s.compilation.method? name = some method)
    (hrun : lowerBody s name method index body = .ok s') :
    P names (sites ++ body.map (Site.mk name)) s' := by
  induction body generalizing sites s index with
  | nil =>
    cases hrun
    rwa [List.map_nil, List.append_nil]
  | cons d body ih =>
    obtain ⟨t, hreads, -, hrest⟩ := lowerBody_cons hrun
    have hread : P names (sites ++ [⟨name, d⟩]) t := hkept.reads h hmethod hreads
    have hnext := ih hread ((hreads.method?_eq name).trans hmethod) hrest
    rwa [List.append_assoc, List.singleton_append, ← List.map_cons] at hnext

theorem lowerMethod {m : MethodDef} (h : P names sites s) (hrun : lowerMethod s m = .ok s') :
    P (names ++ [m.name]) (sites ++ m.body.map (Site.mk m.name)) s' := by
  obtain ⟨t, hbody, hexport⟩ := Except.bind_eq_ok_iff.1 hrun
  have hread := hkept.lowerBody (hkept.opens h m.name)
    (s.compilation.method?_defineMethod m.name) hbody
  split at hexport
  · cases hexport
    exact hread
  · cases hexport
    exact hkept.exports hread _

theorem lowerMethods {methods : List MethodDef} (h : P names sites s)
    (hrun : methods.foldlM Lowering.lowerMethod s = .ok s') :
    P (names ++ methods.map (·.name))
      (sites ++ methods.flatMap fun m => m.body.map (Site.mk m.name)) s' := by
  induction methods generalizing names sites s with
  | nil =>
    cases hrun
    simpa using h
  | cons m methods ih =>
    rw [List.foldlM_cons] at hrun
    obtain ⟨t, hfirst, hrest⟩ := Except.bind_eq_ok_iff.1 hrun
    have hnext := ih (hkept.lowerMethod h hfirst) hrest
    rwa [List.append_assoc, List.append_assoc, List.singleton_append] at hnext

end Kept

/-- The body of a method, with the positions of all that stands in methods of its name. -/
def bodyOf (sites : List Site) (name : String) : MethodBody := ⟨name, (idsOf sites name).toArray⟩

/-- `b` is what waits for the targets of the definition. -/
def Waits (d : InstructionDef) (b : PendingBranch) : Prop :=
  b.target = d.target ∧ b.target2 = d.target2 ∧ (d.target.isSome || d.target2.isSome) = true

/-- The state after methods of these names were opened and these definitions read. -/
structure Tracks (names : List String) (sites : List Site) (s : Lowering) : Prop where
  known : ∀ site ∈ sites, site.method ∈ names
  size : s.compilation.arena.size = sites.length
  cells : ∀ id site, sites[id]? = some site →
    ∃ ins, s.compilation.arena.get id = .ok ins ∧ Lowered site.definition ins
  methods : s.compilation.methods.toList = names.eraseDups.map (bodyOf sites)
  statics : s.compilation.statics.keys = staticsOf sites
  labels : ∀ label id, s.labels[label]? = some id ↔
    ∃ site : Site, sites[id]? = some site ∧ site.definition.label = some label
  distinct : (s.pending.map (·.id)).Nodup
  pending : ∀ b, b ∈ s.pending ↔
    ∃ site : Site, sites[b.id]? = some site ∧ Waits site.definition b

namespace Tracks

variable {names : List String} {sites : List Site} {s : Lowering}

theorem names_eq (h : Tracks names sites s) :
    s.compilation.methods.toList.map (·.name) = names.eraseDups := by
  rw [h.methods, List.map_map]
  exact List.map_id _

theorem defineMethod (h : Tracks names sites s) (name : String) :
    Tracks (names ++ [name]) sites
      { s with compilation := (s.compilation.defineMethod name).2 } := by
  have hknown : ∀ site ∈ sites, site.method ∈ names ++ [name] := fun site hsite =>
    List.mem_append_left _ (h.known site hsite)
  have hnames := h.names_eq
  unfold Compilation.defineMethod
  cases hfind : s.compilation.method? name with
  | some id =>
    have hid : names.eraseDups[id]? = some name := hnames ▸ Compilation.getElem?_of_method? hfind
    have heq : (names ++ [name]).eraseDups = names.eraseDups := by
      rw [eraseDups_concat, if_pos (List.mem_eraseDups.1 (List.mem_of_getElem? hid))]
    refine ⟨hknown, h.size, h.cells, ?_, h.statics, h.labels, h.distinct, h.pending⟩
    rw [heq]
    exact h.methods
  | none =>
    have hnew : name ∉ names := by
      rwa [← List.mem_eraseDups, ← hnames, ← Compilation.method?_eq_none_iff]
    -- Every definition read so far stands in a method that was opened, so the new body is empty.
    have hempty : idsOf sites name = [] := by
      apply idsOf_eq_nil
      intro site hsite hsame
      exact hnew (hsame ▸ h.known site hsite)
    have hbody : bodyOf sites name = { name } := by rw [bodyOf, hempty]
    refine ⟨hknown, h.size, h.cells, ?_, h.statics, h.labels, h.distinct, h.pending⟩
    rw [eraseDups_concat, if_neg hnew, List.map_append, ← h.methods, List.map_singleton, hbody,
      Array.toList_push]

theorem methods_concat {methods : Array MethodBody} {method : MethodId} {site : Site}
    (h : methods.toList = names.eraseDups.map (bodyOf sites))
    (hmethod : names.eraseDups[method]? = some site.method) :
    (methods.modify method (·.append sites.length)).toList =
      names.eraseDups.map (bodyOf (sites ++ [site])) := by
  apply List.ext_getElem?
  intro i
  rw [Array.toList_modify, List.getElem?_modify, h, List.getElem?_map, List.getElem?_map]
  cases hi : names.eraseDups[i]? with
  | none => rfl
  | some name =>
    simp only [Option.map_some, Option.map_eq_map]
    by_cases heq : method = i
    · subst heq
      rw [hmethod] at hi
      cases hi
      rw [if_pos rfl]
      simp [bodyOf, MethodBody.append, idsOf_concat]
    · -- No name has two bodies.
      have hne : site.method ≠ name := by
        intro hsame
        rw [← hsame] at hi
        have hlt := (List.getElem?_eq_some_iff.1 hmethod).1
        exact heq ((List.getElem?_inj hlt (nodup_eraseDups names)).1 (hmethod.trans hi.symm))
      rw [if_neg heq]
      simp [bodyOf, idsOf_concat, hne]

theorem labels_concat {labels labels' : Std.HashMap String InstructionId} {site : Site}
    (h : ∀ label id, labels[label]? = some id ↔
      ∃ site : Site, sites[id]? = some site ∧ site.definition.label = some label)
    (hstep : site.definition.label = none ∧ labels' = labels ∨
      ∃ label, site.definition.label = some label ∧ labels[label]? = none ∧
        labels' = labels.insert label sites.length) (label : String) (id : InstructionId) :
    labels'[label]? = some id ↔
      ∃ x : Site, (sites ++ [site])[id]? = some x ∧ x.definition.label = some label := by
  simp only [getElem?_concat_iff, or_and_right, exists_or, ← h label id]
  rcases hstep with ⟨hnone, rfl⟩ | ⟨new, hsome, hnew, rfl⟩
  · simp [hnone]
  · rw [Std.HashMap.getElem?_insert]
    by_cases heq : new = label
    · subst heq
      simp [hnew, hsome, eq_comm]
    · simp [heq, hsome]

theorem pending_concat {pending pending' : List PendingBranch} {site : Site}
    (h : ∀ b, b ∈ pending ↔
      ∃ site : Site, sites[b.id]? = some site ∧ Waits site.definition b)
    (hstep : pending' = if site.definition.target.isSome || site.definition.target2.isSome then
        ⟨sites.length, site.definition.target, site.definition.target2⟩ :: pending
      else pending) (b : PendingBranch) :
    b ∈ pending' ↔
      ∃ x : Site, (sites ++ [site])[b.id]? = some x ∧ Waits x.definition b := by
  simp only [getElem?_concat_iff, or_and_right, exists_or, ← h b]
  obtain ⟨id, target, target2⟩ := b
  rw [hstep]
  split
  · rename_i hsome
    simp [Waits, hsome, or_comm]
  · rename_i hnone
    simp [Waits, hnone]

theorem reads {t : Lowering} {method : MethodId} {site : Site} (h : Tracks names sites s)
    (hfind : s.compilation.method? site.method = some method)
    (hreads : Reads method site.definition s t) : Tracks names (sites ++ [site]) t := by
  have hmethod : names.eraseDups[method]? = some site.method :=
    h.names_eq ▸ Compilation.getElem?_of_method? hfind
  obtain ⟨ins, c, hins, hcompilation⟩ := hreads.instruction
  obtain ⟨hlowered, hrefers⟩ := lowerInstruction_ok hins
  have hrest := hrefers.rest
  have harena : c.arena = s.compilation.arena := by rw [hrest]
  have hmethods : c.methods = s.compilation.methods := by rw [hrest]
  have hlt : ∀ id x, sites[id]? = some x → id < sites.length := fun id x hx =>
    (List.getElem?_eq_some_iff.1 hx).1
  refine ⟨?_, ?_, ?_, ?_, ?_, ?_, ?_, ?_⟩
  · intro x hx
    rcases List.mem_append.1 hx with hold | hnew
    · exact h.known x hold
    · rw [List.mem_singleton.1 hnew, ← List.mem_eraseDups]
      exact List.mem_of_getElem? hmethod
  · rw [hcompilation, harena, List.length_append, List.length_singleton, ← h.size]
    exact Array.size_push _
  · have hcells : t.compilation.arena.cells = s.compilation.arena.cells ++ #[ins] := by
      rw [hcompilation, harena, Array.push_eq_append]
    obtain ⟨hold, hnew⟩ := Arena.get_append hcells
    intro id x hx
    rcases getElem?_concat_iff.1 hx with hearlier | ⟨rfl, rfl⟩
    · obtain ⟨old, hget, hlowered'⟩ := h.cells id x hearlier
      exact ⟨old, hold id old hget, hlowered'⟩
    · rw [← h.size]
      exact ⟨ins, hnew 0 ins rfl, hlowered⟩
  · rw [hcompilation, hmethods, harena, h.size]
    exact methods_concat h.methods hmethod
  · have hkeys := hrefers.statics _ h.statics
    rw [hcompilation, staticsOf, List.filterMap_append, hkeys]
    cases hfield : site.definition.staticField <;> simp [hfield]
  · exact labels_concat h.labels (h.size ▸ hreads.labels)
  · rw [hreads.pending]
    split
    · rw [List.map_cons, List.nodup_cons, h.size]
      refine ⟨?_, h.distinct⟩
      -- What waits already has come earlier in the text.
      intro hmem
      obtain ⟨b, hb, hid⟩ := List.mem_map.1 hmem
      obtain ⟨x, hx, -⟩ := (h.pending b).1 hb
      have hearlier := hlt _ _ hx
      rw [hid] at hearlier
      exact Nat.lt_irrefl _ hearlier
    · exact h.distinct
  · exact pending_concat h.pending (h.size ▸ hreads.pending)

theorem kept : Kept Tracks where
  opens := defineMethod
  reads := reads
  exports h _ := ⟨h.known, h.size, h.cells, h.methods, h.statics, h.labels, h.distinct, h.pending⟩

end Tracks

end Lowering

namespace Program

theorem header_code (p : Program) :
    p.header.arena = {} ∧ p.header.methods = #[] ∧ p.header.statics = {} ∧
      p.header.tokens = {} ∧ p.header.exports = #[] := by
  let code (c : Compilation) := (c.arena, c.methods, c.statics, c.tokens, c.exports)
  have hcode : code p.header = ({}, #[], {}, {}, #[]) := by
    unfold header
    rw [foldl_keeps code, foldl_keeps code, foldl_keeps code, foldl_keeps code]
    · intro c standard
      simp only [code, Compilation.addStandard]
      split <;> rfl
    · exact fun _ _ => rfl
    · intro c q
      split <;> rfl
    · exact fun _ _ => rfl
  simpa [code] using hcode

theorem tracks_header (p : Program) : Lowering.Tracks [] [] { compilation := p.header } := by
  obtain ⟨harena, hmethods, hstatics, -⟩ := p.header_code
  refine ⟨?_, ?_, ?_, ?_, ?_, ?_, .nil, ?_⟩
  · simp
  · rw [harena]
    rfl
  · simp
  · rw [hmethods]
    rfl
  · rw [hstatics]
    rfl
  · simp
  · simp

end Program
end ContractLinker
