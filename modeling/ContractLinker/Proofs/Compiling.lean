import ContractLinker.Contract.Compilation
import ContractLinker.Failure
import ContractLinker.Proofs.Linking

namespace ContractLinker

section Outcomes

variable {ε α β : Type}

theorem Except.bind_eq_ok_iff {x : Except ε α} {f : α → Except ε β} {b : β} :
    (x >>= f) = .ok b ↔ ∃ a, x = .ok a ∧ f a = .ok b := by
  cases x with
  | error e => exact ⟨nofun, fun ⟨_, h, _⟩ => nomatch h⟩
  | ok a =>
    constructor
    · intro h
      exact ⟨a, rfl, h⟩
    · rintro ⟨_, heq, h⟩
      cases heq
      exact h

theorem Except.map_eq_ok_iff {x : Except ε α} {f : α → β} {b : β} :
    x.map f = .ok b ↔ ∃ a, x = .ok a ∧ f a = b := by
  cases x <;> simp [Except.map]

theorem Except.mapM_eq_ok_iff {f : α → Except ε β} {as : List α} {bs : List β} :
    as.mapM f = .ok bs ↔ List.Forall₂ (fun a b => f a = .ok b) as bs := by
  induction as generalizing bs with
  | nil =>
    rw [List.mapM_nil, List.forall₂_nil_left_iff]
    exact ⟨fun h => (Except.ok.inj h).symm, fun h => congrArg Except.ok h.symm⟩
  | cons a as ih =>
    rw [List.mapM_cons, Except.bind_eq_ok_iff, List.forall₂_cons_left_iff]
    constructor
    · rintro ⟨b, hb, hrest⟩
      obtain ⟨rest, htail, hpure⟩ := Except.bind_eq_ok_iff.1 hrest
      cases hpure
      exact ⟨b, rest, hb, ih.1 htail, rfl⟩
    · rintro ⟨b, rest, hb, hrest, rfl⟩
      exact ⟨b, hb, Except.bind_eq_ok_iff.2 ⟨rest, ih.2 hrest, rfl⟩⟩

theorem orFail_eq_ok_iff {cause : ε → Cause} {x : Except ε α} {a : α} :
    orFail cause x = .ok a ↔ x = .ok a := by
  cases x <;> simp [orFail]

theorem orFail_onSuccess_eq_ok_iff {σ : Type} {cause : ε → Cause} {x : Outcome ε σ α} {a : α}
    {s : σ} : orFail cause x.onSuccess = .ok (a, s) ↔ x = (.ok a, s) :=
  orFail_eq_ok_iff.trans Outcome.onSuccess_eq_ok_iff

theorem withContext_eq_ok_iff {context : String} {x : Except Failure α} {a : α} :
    withContext context x = .ok a ↔ x = .ok a := by
  cases x <;> simp [withContext]

theorem CompileError.lift_eq_ok_iff {x : Except CodecError α} {a : α} :
    CompileError.lift x = .ok a ↔ x = .ok a := by
  cases x <;> simp [CompileError.lift]

end Outcomes

/-- `ins` is the code that `old` has in `decoded`, which was linked from `order`. -/
structure Emits (order : List InstructionId) (decoded : List Instruction) (old : Unlinked)
    (ins : Instruction) : Prop where
  opcode : ins.opcode = old.opcode
  operand : old.opcode.addressClass = none → ins.operand = old.operand
  bound : old.opcode.addressClass ≠ none →
    ∀ i target, old.targets.slots[i]? = some (some target) → ∃ (j : Nat) (there : Instruction) (d : Int),
      order[j]? = some target ∧ decoded[j]? = some there ∧ ins.readAddress i = .ok d ∧
        (ins.offset : Int) + d = there.offset
  unbound : old.opcode.addressClass ≠ none →
    ∀ i, old.targets.slots[i]? = some none → ins.readAddress i = .ok 0

theorem Arena.link_emits {arena linked : Arena} {order : List InstructionId} {script : Bytes}
    (h : arena.link order = (.ok script, linked)) :
    order.Nodup ∧ ∃ decoded, Script.instructionsOf script = .ok decoded ∧
      List.Forall₂ (fun id ins => ∃ old, arena.get id = .ok old ∧
        linked.offset? id = some ins.offset ∧ Emits order decoded old ins) order decoded := by
  unfold link at h
  split at h
  · rename_i bytes s' hrun
    cases h
    obtain ⟨t, code, hstamps, hcode, rfl, -⟩ := Link.run_ok hrun
    have hlength : order.length = (Script.restamp 0 code).length := by
      rw [Script.length_restamp, hcode.encodes.length_eq]
    have hall (i : Nat) (hi : i < order.length) (hi' : i < (Script.restamp 0 code).length) :
        ∃ old new, arena.get order[i] = .ok old ∧ s'.arena.get order[i] = .ok new ∧
          Realizes s'.arena order (arena.span (order.take i)) old new
            (Script.restamp 0 code)[i] := by
      have hi'' : i < code.length := by rwa [Script.length_restamp] at hi'
      have hsplit : order = order.take i ++ order[i] :: order.drop (i + 1) := by
        rw [← List.drop_eq_getElem_cons hi, List.take_append_drop]
      have hstamp : (Script.restamp 0 code)[i] =
          { code[i] with offset := arena.span (order.take i) } := by
        have hget := Script.getElem?_restamp 0 code i
        rw [List.getElem?_eq_getElem hi', List.getElem?_eq_getElem hi'', Nat.zero_add,
          Link.extent_take_code hstamps hcode] at hget
        exact Option.some.inj hget
      rw [hstamp]
      exact Link.realizes hstamps hcode (by simp) hsplit (hcode.encodes.get hi hi'')
    refine ⟨hstamps.nodup, _, Script.instructionsOf_encodeAll hcode.framed, ?_⟩
    apply List.forall₂_iff_get.2 ⟨hlength, ?_⟩
    intro i hi hi'
    obtain ⟨old, new, hold, hnew, hreal⟩ := hall i hi hi'
    have hoffset : s'.arena.offset? order[i] = some (Script.restamp 0 code)[i].offset := by
      rw [Arena.offset?, hnew, hreal.offset, ← hreal.recorded]
      rfl
    refine ⟨old, hold, hoffset, hreal.opcode, hreal.operand, ?_, hreal.unbound⟩
    intro hcls slot target hslot
    obtain ⟨hmem, d, o, hread, hrecorded, hsum⟩ := hreal.bound hcls slot target hslot
    -- The offset that the link has recorded for the target is where the target stands.
    obtain ⟨j, hj, rfl⟩ := List.getElem_of_mem hmem
    have hj' : j < (Script.restamp 0 code).length := hlength ▸ hj
    obtain ⟨_, there, -, hthere, hthere'⟩ := hall j hj hj'
    have ho : o = (Script.restamp 0 code)[j].offset := by
      rw [Arena.offset?, hthere] at hrecorded
      have heq := hthere'.recorded.symm.trans hrecorded
      rw [hthere'.offset]
      exact (Option.some.inj heq).symm
    refine ⟨j, _, d, List.getElem?_eq_getElem hj, List.getElem?_eq_getElem hj', hread, ?_⟩
    rw [List.get_eq_getElem, hreal.offset, hsum, ho]
  · cases h

namespace Compilation

def order (c : Compilation) : List InstructionId :=
  c.methods.toList.flatMap (·.instructions.toList)

theorem placement_ok {done entries order heads : List InstructionId} {bodies : List MethodBody}
    (h : placement done entries bodies = .ok (order, heads)) :
    order = done.reverse ++ bodies.flatMap (·.instructions.toList) ∧
      ∃ firsts, heads = entries.reverse ++ firsts ∧ List.Forall₂
        (fun body first => ∃ rest, body.instructions.toList = first :: rest) bodies firsts := by
  -- Both lists are built back to front, on top of what was there before.
  induction bodies generalizing done entries with
  | nil =>
    cases h
    exact ⟨by simp, [], by simp, .nil⟩
  | cons body bodies ih =>
    unfold placement at h
    split at h
    · cases h
    · rename_i first rest hbody
      obtain ⟨rfl, firsts, rfl, hall⟩ := ih h
      exact ⟨by simp [hbody], first :: firsts, by simp, .cons ⟨rest, hbody⟩ hall⟩

/-- The first body without instructions is reported. -/
theorem placement_empty {done entries : List InstructionId} {before behind : List MethodBody}
    {body : MethodBody} (hbefore : ∀ b ∈ before, b.instructions.toList ≠ [])
    (hempty : body.instructions.toList = []) :
    placement done entries (before ++ body :: behind) = .error (.emptyMethod body.name) := by
  induction before generalizing done entries with
  | nil => rw [List.nil_append, placement, hempty]
  | cons b before ih =>
    obtain ⟨hb, hrest⟩ := List.forall_mem_cons.1 hbefore
    obtain ⟨first, rest, hbody⟩ := List.exists_cons_of_ne_nil hb
    rw [List.cons_append, placement, hbody]
    exact ih hrest

/-- `m` is what the interface says of the export `e`: it stands at the first instruction of its
body. -/
def Exports (c : Compilation) (decoded : List Instruction) (e : ExportedMethod) (m : AbiMethod) :
    Prop :=
  ∃ (body : MethodBody) (first : InstructionId) (rest : List InstructionId) (i : Nat)
    (ins : Instruction), c.methods[e.method]? = some body ∧
    body.instructions.toList = first :: rest ∧ c.order[i]? = some first ∧
    decoded[i]? = some ins ∧ m = ⟨e.name, ins.offset, e.safe, e.returnType, e.parameters⟩

/-- The contract that `c` compiles to, with the instructions of its script. -/
structure Compiles (c : Compilation) (contract : Contract) (decoded : List Instruction) :
    Prop where
  decodes : Script.instructionsOf contract.script = .ok decoded
  nodup : c.order.Nodup
  emits : List.Forall₂ (fun id ins => ∃ old, c.arena.get id = .ok old ∧
    Emits c.order decoded old ins) c.order decoded
  nonempty : ∀ body ∈ c.methods.toList, body.instructions.toList ≠ []
  exported : List.Forall₂ (c.Exports decoded) c.exports.toList contract.abi.methods

namespace Compiles

variable {c : Compilation} {contract : Contract} {decoded : List Instruction}
  (h : c.Compiles contract decoded)
include h

theorem placed_once {i j : Nat} {id : InstructionId} (hi : c.order[i]? = some id)
    (hj : c.order[j]? = some id) : i = j :=
  (List.getElem?_inj (List.getElem?_eq_some_iff.1 hi).1 h.nodup).1 (hi.trans hj.symm)

/-- An export is entered where the first instruction of its body is placed. -/
theorem exports_at {e : ExportedMethod} {m : AbiMethod} {body : MethodBody} {first : InstructionId}
    {rest : List InstructionId} {k : Nat} (hexports : c.Exports decoded e m)
    (hbody : c.methods.toList[e.method]? = some body)
    (hfirst : body.instructions.toList = first :: rest) (hplaced : c.order[k]? = some first) :
    ∃ ins, decoded[k]? = some ins ∧
      m = ⟨e.name, ins.offset, e.safe, e.returnType, e.parameters⟩ := by
  obtain ⟨found, head, tail, i, ins, hfound, hhead, hi, hins, rfl⟩ := hexports
  rw [← Array.getElem?_toList, hbody] at hfound
  cases hfound
  rw [hhead] at hfirst
  cases hfirst
  obtain rfl := h.placed_once hi hplaced
  exact ⟨ins, hins, rfl⟩

end Compiles

theorem abiMethod_ok {arena : Arena} {entries : Array InstructionId} {e : ExportedMethod}
    {m : AbiMethod} (h : abiMethod arena entries e = .ok m) :
    ∃ entry offset, entries[e.method]? = some entry ∧ arena.offset? entry = some offset ∧
      m = ⟨e.name, offset, e.safe, e.returnType, e.parameters⟩ := by
  unfold abiMethod at h
  split at h
  · cases h
  · rename_i entry hentry
    obtain ⟨ins, hins, hoffset⟩ := Except.bind_eq_ok_iff.1 h
    split at hoffset
    · cases hoffset
    · rename_i offset hsome
      cases hoffset
      exact ⟨entry, offset, hentry, by rw [Arena.offset?, hins]; exact hsome, rfl⟩

/-- What `compile` runs: the bodies are placed, their instructions linked, and the exports looked
up in what the link has recorded. -/
theorem compile_eq_ok {c : Compilation} {contract : Contract} (h : c.compile = .ok contract) :
    ∃ linked firsts, c.arena.link c.order = (.ok contract.script, linked) ∧
      List.Forall₂ (fun body first => ∃ rest, body.instructions.toList = first :: rest)
        c.methods.toList firsts ∧
      List.Forall₂ (fun e m => abiMethod linked firsts.toArray e = .ok m) c.exports.toList
        contract.abi.methods := by
  unfold compile at h
  obtain ⟨⟨order, heads⟩, hplacement, hlink⟩ := Except.bind_eq_ok_iff.1 h
  obtain ⟨rfl, firsts, rfl, hfirsts⟩ := placement_ok hplacement
  obtain ⟨script, hscript, hmethods⟩ := Except.bind_eq_ok_iff.1 hlink
  obtain ⟨methods, hmapM, hpure⟩ := Except.bind_eq_ok_iff.1 hmethods
  cases hpure
  exact ⟨_, heads, Prod.ext hscript rfl, hfirsts, Except.mapM_eq_ok_iff.1 hmapM⟩

/-- The manifest repeats what the compilation was told; only the methods' offsets come from the
link. -/
theorem compile_manifest {c : Compilation} {contract : Contract} (h : c.compile = .ok contract) :
    contract.tokens = c.tokens.toList ∧ contract.manifest =
      { name := c.name
        standards := c.standards
        abi := ⟨contract.abi.methods, c.events.toList⟩
        permissions := c.permissions.entries
        extra := c.extra } := by
  unfold compile at h
  obtain ⟨_, -, hlink⟩ := Except.bind_eq_ok_iff.1 h
  obtain ⟨_, -, hmethods⟩ := Except.bind_eq_ok_iff.1 hlink
  obtain ⟨_, -, hpure⟩ := Except.bind_eq_ok_iff.1 hmethods
  cases hpure
  exact ⟨rfl, rfl⟩

theorem compile_ok {c : Compilation} {contract : Contract} (h : c.compile = .ok contract) :
    ∃ decoded, Compiles c contract decoded := by
  obtain ⟨linked, firsts, hlink, hfirsts, hmethods⟩ := compile_eq_ok h
  obtain ⟨hnodup, decoded, hdecoded, hemits⟩ := Arena.link_emits hlink
  refine ⟨decoded, hdecoded, hnodup, ?_, ?_, ?_⟩
  · refine hemits.imp fun id ins hins => ?_
    obtain ⟨old, hold, -, hemit⟩ := hins
    exact ⟨old, hold, hemit⟩
  · intro body hbody
    obtain ⟨i, hi⟩ := List.getElem?_of_mem hbody
    obtain ⟨first, -, rest, hrest⟩ := forall₂_getElem? hfirsts hi
    rw [hrest]
    exact List.cons_ne_nil first rest
  · refine hmethods.imp fun e m hm => ?_
    obtain ⟨entry, offset, hentry, hoffset, rfl⟩ := abiMethod_ok hm
    rw [List.getElem?_toArray] at hentry
    obtain ⟨body, hbody, rest, hrest⟩ := forall₂_getElem? hfirsts.flip hentry
    rw [Array.getElem?_toList] at hbody
    -- The first instruction of a body is placed, and the link has recorded where.
    have hplaced : entry ∈ c.order := by
      apply List.mem_flatMap.2
      refine ⟨body, Array.mem_toList_iff.2 (Array.mem_of_getElem? hbody), ?_⟩
      rw [hrest]
      exact List.mem_cons_self
    obtain ⟨i, hi⟩ := List.getElem?_of_mem hplaced
    obtain ⟨ins, hins, old, -, hrecorded, -⟩ := forall₂_getElem? hemits hi
    rw [hoffset] at hrecorded
    refine ⟨body, entry, rest, i, ins, hbody, hrest, hi, hins, ?_⟩
    rw [Option.some.inj hrecorded]

end Compilation
end ContractLinker
