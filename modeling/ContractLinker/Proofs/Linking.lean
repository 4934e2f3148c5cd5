import Mathlib
import ContractLinker.Assembly.Link
import ContractLinker.Proofs.Addresses
import ContractLinker.Proofs.Lists

namespace ContractLinker

namespace Arena

variable {arena : Arena} {id other : InstructionId} {ins old : Unlinked}

/-- The offset that the last link has recorded for an instruction. -/
def offset? (arena : Arena) (id : InstructionId) : Option Nat :=
  (arena.get id).toOption.bind Unlinked.offset

def span (arena : Arena) : List InstructionId → Nat
  | [] => 0
  | id :: ids => (arena.get id).toOption.elim 0 Unlinked.size + arena.span ids

theorem get_eq_ok_iff : arena.get id = .ok ins ↔ arena.cells[id]? = some ins := by
  unfold get
  cases arena.cells[id]? <;> simp

theorem get_set_self (h : arena.get id = .ok old) : (arena.set id ins).get id = .ok ins := by
  obtain ⟨hlt, -⟩ := Array.getElem?_eq_some_iff.1 (get_eq_ok_iff.1 h)
  exact get_eq_ok_iff.2 (Array.getElem?_setIfInBounds_self_of_lt hlt)

theorem get_set_of_ne (h : other ≠ id) : (arena.set id ins).get other = arena.get other := by
  simp only [get, set, Array.getElem?_setIfInBounds_ne h.symm]

theorem span_set {ids : List InstructionId} (h : arena.get id = .ok old)
    (hsize : ins.size = old.size) : (arena.set id ins).span ids = arena.span ids := by
  induction ids with
  | nil => rfl
  | cons first rest ih =>
    simp only [span, ih]
    by_cases hid : first = id
    · subst hid
      rw [get_set_self h, h]
      simp only [Except.toOption, Option.elim, hsize]
    · rw [get_set_of_ne hid]

theorem span_cons {ids : List InstructionId} (h : arena.get id = .ok ins) :
    arena.span (id :: ids) = ins.size + arena.span ids := by
  rw [span, h]
  rfl

end Arena

namespace Link

variable {id : InstructionId} {order : List InstructionId} {ins : Unlinked} {s s' : Linker}

@[simp] theorem place_apply : place id s = .ok () { s with placed := s.placed.insert id } := rfl

theorem fetch_apply :
    fetch id s = match s.arena.get id with
      | .ok ins => .ok ins s
      | .error e => .error e s := by
  unfold fetch
  rw [bind_of_ok get_apply]
  cases s.arena.get id <;> rfl

theorem assignOffsets_cons {cursor : Nat} :
    assignOffsets cursor (id :: order) s = match s.arena.get id with
      | .error e => .error e s
      | .ok ins =>
        if s.placed.contains id then .error (.duplicatePlacement id ins.opcode) s
        else if cursor ≥ Bytes.bound 4 then
          .error (.scriptTooLarge cursor) { s with placed := s.placed.insert id }
        else assignOffsets (cursor + ins.size) order
          ⟨s.arena.set id { ins with offset := some cursor }, s.placed.insert id⟩ := by
  rw [assignOffsets]
  simp only [bind_apply, fetch_apply]
  cases s.arena.get id with
  | error e => rfl
  | ok ins =>
    simp only [get_apply]
    split
    · rfl
    · simp only [bind_apply, place_apply]
      split
      · rfl
      · rfl

/-- The first pass from byte `cursor` on has stamped exactly the ids in `order`, each once. -/
structure Stamps (cursor : Nat) (order : List InstructionId) (s s' : Linker) : Prop where
  nodup : order.Nodup
  fresh : ∀ id ∈ order, id ∉ s.placed
  placed : ∀ id, id ∈ s'.placed ↔ id ∈ s.placed ∨ id ∈ order
  other : ∀ id, id ∉ order → s'.arena.get id = s.arena.get id
  stamped : ∀ before id behind, order = before ++ id :: behind →
    ∃ ins, s.arena.get id = .ok ins ∧
      s'.arena.get id = .ok { ins with offset := some (cursor + s.arena.span before) }

theorem Stamps.nil {cursor : Nat} : Stamps cursor [] s s :=
  ⟨.nil, nofun, by simp, fun _ _ => rfl, by simp⟩

theorem Stamps.cons {cursor : Nat} (hget : s.arena.get id = .ok ins) (hfresh : id ∉ s.placed)
    (h : Stamps (cursor + ins.size) order
      ⟨s.arena.set id { ins with offset := some cursor }, s.placed.insert id⟩ s') :
    Stamps cursor (id :: order) s s' := by
  have hspan (ids : List InstructionId) :
      (s.arena.set id { ins with offset := some cursor }).span ids = s.arena.span ids :=
    Arena.span_set hget rfl
  have hid : id ∉ order := by
    intro hmem
    exact h.fresh id hmem (Std.HashSet.mem_insert.2 (.inl (beq_self_eq_true id)))
  refine ⟨List.nodup_cons.2 ⟨hid, h.nodup⟩, ?_, ?_, ?_, ?_⟩
  · intro other hmem
    rcases List.mem_cons.1 hmem with rfl | hmem
    · exact hfresh
    · intro hplaced
      exact h.fresh other hmem (Std.HashSet.mem_insert.2 (.inr hplaced))
  · intro other
    rw [h.placed other, List.mem_cons, Std.HashSet.mem_insert, beq_iff_eq]
    tauto
  · intro other hnot
    rw [List.mem_cons, not_or] at hnot
    rw [h.other other hnot.2, Arena.get_set_of_ne hnot.1]
  · intro before other behind hsplit
    cases before with
    | nil =>
      cases hsplit
      exact ⟨ins, hget, by rw [h.other id hid, Arena.get_set_self hget]; rfl⟩
    | cons first before =>
      cases hsplit
      -- Stamping `id` has changed neither the instruction in question nor any size.
      obtain ⟨found, hfound, hstamped⟩ := h.stamped before other behind rfl
      have hne : other ≠ id := by
        intro heq
        exact hid (heq ▸ List.mem_append_right _ List.mem_cons_self)
      rw [Arena.get_set_of_ne hne] at hfound
      refine ⟨found, hfound, ?_⟩
      rw [hstamped, hspan, Arena.span_cons hget, Nat.add_assoc]

theorem assignOffsets_ok {cursor length : Nat} (h : assignOffsets cursor order s = .ok length s') :
    length = cursor + s.arena.span order ∧ Stamps cursor order s s' := by
  induction order generalizing cursor s with
  | nil =>
    cases h
    exact ⟨rfl, .nil⟩
  | cons id order ih =>
    rw [assignOffsets_cons] at h
    split at h
    · cases h
    · rename_i ins hget
      split at h
      · cases h
      · rename_i hfresh
        split at h
        · cases h
        · obtain ⟨rfl, hrest⟩ := ih h
          -- A stamp changes no size.
          have hspan : (s.arena.set id { ins with offset := some cursor }).span order =
              s.arena.span order := Arena.span_set hget rfl
          refine ⟨?_, .cons hget (by simpa using hfresh) hrest⟩
          rw [hspan, Arena.span_cons hget, Nat.add_assoc]

/-- What a slot is to hold in a branch at `origin`, once all offsets are fixed. -/
def displacement? (s : Linker) (origin : Nat) : Option InstructionId → Option Int
  | none => some 0
  | some target =>
    if s.placed.contains target then (s.arena.offset? target).map fun o : Nat => (o - origin : Int)
    else none

theorem targetOffset_eq_ok_iff {opcode : Opcode} {target : InstructionId} {o : Nat} :
    targetOffset id opcode target s = .ok o s' ↔
      s' = s ∧ s.placed.contains target = true ∧ s.arena.offset? target = some o := by
  unfold targetOffset Arena.offset?
  simp only [bind_apply, fetch_apply]
  cases s.arena.get target with
  | error e => simp [Except.toOption]
  | ok ins =>
    simp only [get_apply, Except.toOption, Option.bind_some]
    cases ins.offset <;> cases s.placed.contains target <;> simp [eq_comm, and_comm]

theorem ofCodec_eq_ok_iff {α : Type} {r : Except CodecError α} {a : α} :
    ofCodec r s = .ok a s' ↔ r = .ok a ∧ s' = s := by
  cases r <;> simp [ofCodec, eq_comm]

def slotDisplacement (id : InstructionId) (origin : Nat) (opcode : Opcode) :
    Option InstructionId → Link Int
  | some target => do return ((← targetOffset id opcode target) - origin : Int)
  | none => pure 0

theorem slotDisplacement_ok {origin : Nat} {opcode : Opcode} {slot : Option InstructionId} {d : Int}
    (h : slotDisplacement id origin opcode slot s = .ok d s') :
    s' = s ∧ displacement? s origin slot = some d := by
  cases slot with
  | none =>
    cases h
    exact ⟨rfl, rfl⟩
  | some target =>
    obtain ⟨o, t, htarget, hpure⟩ := bind_eq_ok_iff.1 h
    obtain ⟨rfl, hplaced, hoffset⟩ := targetOffset_eq_ok_iff.1 htarget
    cases hpure
    exact ⟨rfl, by simp [displacement?, hplaced, hoffset]⟩

theorem writeSlots_cons {origin width index : Nat} {ins : Instruction}
    {slot : Option InstructionId} {slots : List (Option InstructionId)} :
    writeSlots id origin width index ins (slot :: slots) = (do
      let d ← slotDisplacement id origin ins.opcode slot
      if ¬ Bytes.FitsSigned width d then throw (.displacementRange id ins.opcode origin d)
      let (result, patched) := ins.writeAddress index d
      ofCodec result
      writeSlots id origin width (index + 1) patched slots) := by
  cases slot with
  | none => rfl
  | some target => simp only [writeSlots, slotDisplacement, bind_assoc, pure_bind]

theorem writeSlots_ok {origin width index : Nat} {ins written : Instruction}
    {slots : List (Option InstructionId)} (hframed : ins.WellFramed)
    (h : writeSlots id origin width index ins slots s = .ok written s') :
    s' = s ∧ ∃ ds, slots.map (displacement? s origin) = ds.map some ∧
      Instruction.Rewrites index ds ins written := by
  -- The linker is only looked at, and every write keeps the framing for the next.
  induction slots generalizing index ins with
  | nil =>
    cases h
    exact ⟨rfl, [], rfl, .nil hframed⟩
  | cons slot slots ih =>
    rw [writeSlots_cons] at h
    obtain ⟨d, t, hslot, hfit⟩ := bind_eq_ok_iff.1 h
    obtain ⟨rfl, hd⟩ := slotDisplacement_ok hslot
    obtain ⟨-, hwrite⟩ := unless_throw_eq_ok_iff.1 hfit
    cases hpatched : ins.writeAddress index d with
    | mk result patched =>
      rw [hpatched] at hwrite
      obtain ⟨_, u, hresult, hslots⟩ := bind_eq_ok_iff.1 hwrite
      obtain ⟨rfl, rfl⟩ := ofCodec_eq_ok_iff.1 hresult
      obtain ⟨rfl, ds, hds, hrest⟩ :=
        ih (Instruction.writeAddress_wellFramed hframed hpatched) hslots
      refine ⟨rfl, d :: ds, ?_, .cons hframed hpatched hrest⟩
      rw [List.map_cons, List.map_cons, hd, hds]

/-- `resolved` is `ins` with its slots written as `place` says for its offset. -/
structure Resolves (place : Nat → Option InstructionId → Option Int) (ins resolved : Unlinked) :
    Prop where
  opcode : resolved.opcode = ins.opcode
  offset : resolved.offset = ins.offset
  length : resolved.operand.length = ins.operand.length
  operand : ins.opcode.addressClass = none → resolved.operand = ins.operand
  address : ins.opcode.addressClass ≠ none → ∃ origin, ∃ ds : List Int, ins.offset = some origin ∧
    ins.targets.slots.map (place origin) = ds.map some ∧
    ∀ i d, ds[i]? = some d →
      Instruction.readAddress ⟨resolved.opcode, resolved.operand, 0⟩ i = .ok d

theorem resolveBranch_ok {resolved : Unlinked} (hget : s.arena.get id = .ok ins)
    (h : resolveBranch id ins s = .ok resolved s') :
    Resolves (displacement? s) ins resolved ∧ s'.placed = s.placed ∧ s'.arena.get id = .ok resolved ∧
      ∀ other, other ≠ id → s'.arena.get other = s.arena.get other := by
  unfold resolveBranch at h
  cases hcls : ins.opcode.addressClass with
  | none =>
    simp only [hcls] at h
    cases h
    refine ⟨⟨rfl, rfl, rfl, fun _ => rfl, ?_⟩, rfl, hget, fun _ _ => rfl⟩
    intro hsome
    exact absurd hcls hsome
  | some cls =>
    cases horigin : ins.offset with
    | none =>
      simp only [hcls, horigin] at h
      cases h
    | some origin =>
      simp only [hcls, horigin] at h
      -- The checks that have passed, and then the operand that was written.
      obtain ⟨-, hshaped⟩ := unless_throw_eq_ok_iff.1 h
      obtain ⟨-, hbound⟩ := unless_throw_eq_ok_iff.1 hshaped
      obtain ⟨concrete, t, hnew, hrun⟩ := bind_eq_ok_iff.1 hbound
      obtain ⟨hconcrete, rfl⟩ := ofCodec_eq_ok_iff.1 hnew
      obtain ⟨rfl, hframed⟩ := Instruction.new_eq_ok_iff.1 hconcrete
      obtain ⟨written, u, hwritten, hstore⟩ := bind_eq_ok_iff.1 hrun
      obtain ⟨rfl, ds, hds, hrewrites⟩ := writeSlots_ok hframed hwritten
      cases hstore
      refine ⟨⟨rfl, horigin.symm, hrewrites.length, ?_, ?_⟩, rfl, ?_, ?_⟩
      · intro hnone
        rw [hcls] at hnone
        cases hnone
      · intro _
        refine ⟨origin, ds, horigin, hds, ?_⟩
        intro i d hd
        have hread := hrewrites.address i d hd
        rw [Nat.zero_add, Instruction.readAddress_eq_ok_iff, hrewrites.opcode] at hread
        exact Instruction.readAddress_eq_ok_iff.2 hread
      · exact Arena.get_set_self hget
      · intro other hne
        exact Arena.get_set_of_ne hne

theorem displacement?_congr (hplaced : s'.placed = s.placed)
    (hoffset : ∀ id, s'.arena.offset? id = s.arena.offset? id) :
    displacement? s' = displacement? s := by
  funext origin slot
  cases slot with
  | none => rfl
  | some target => simp only [displacement?, hplaced, hoffset]

/-- What the second pass makes of an instruction; it stands in the arena and in the code. -/
def Encodes (s s' : Linker) (id : InstructionId) (concrete : Instruction) : Prop :=
  ∃ ins resolved, s.arena.get id = .ok ins ∧ s'.arena.get id = .ok resolved ∧
    Resolves (displacement? s) ins resolved ∧ concrete = ⟨resolved.opcode, resolved.operand, 0⟩ ∧
    concrete.WellFramed

/-- The second pass has encoded every id of `order`; it keeps all offsets. -/
structure Encoded (order : List InstructionId) (s s' : Linker) (code : List Instruction) :
    Prop where
  placed : s'.placed = s.placed
  offset : ∀ id, s'.arena.offset? id = s.arena.offset? id
  other : ∀ id, id ∉ order → s'.arena.get id = s.arena.get id
  encodes : List.Forall₂ (Encodes s s') order code

theorem Encoded.framed {code : List Instruction} (h : Encoded order s s' code) :
    ∀ ins ∈ code, ins.WellFramed := by
  obtain ⟨-, -, -, hencodes⟩ := h
  induction hencodes with
  | nil => nofun
  | cons hhead _ ih =>
    obtain ⟨_, _, _, _, _, _, hframed⟩ := hhead
    exact List.forall_mem_cons.2 ⟨hframed, ih⟩

theorem Encoded.cons {t : Linker} {resolved : Unlinked} {code : List Instruction}
    (hget : s.arena.get id = .ok ins) (hresolve : resolveBranch id ins s = .ok resolved t)
    (hframed : Instruction.WellFramed ⟨resolved.opcode, resolved.operand, 0⟩)
    (hid : id ∉ order) (h : Encoded order t s' code) :
    Encoded (id :: order) s s' (⟨resolved.opcode, resolved.operand, 0⟩ :: code) := by
  obtain ⟨hresolves, hplaced, hself, hother⟩ := resolveBranch_ok hget hresolve
  have hoffset (id' : InstructionId) : t.arena.offset? id' = s.arena.offset? id' := by
    by_cases hne : id' = id
    · subst hne
      simp only [Arena.offset?, hself, hget, Except.toOption, Option.bind_some, hresolves.offset]
    · simp only [Arena.offset?, hother id' hne]
  refine ⟨h.placed.trans hplaced, fun id' => (h.offset id').trans (hoffset id'), ?_, ?_⟩
  · intro id' hnot
    rw [List.mem_cons, not_or] at hnot
    rw [h.other id' hnot.2, hother id' hnot.1]
  · refine .cons ⟨ins, resolved, hget, ?_, hresolves, rfl, hframed⟩ ?_
    · rw [h.other id hid, hself]
    · -- The ids still to come were not touched by this one, which is not among them.
      have hmem := (List.forall₂_and_left order code).2 ⟨fun _ hmem => hmem, h.encodes⟩
      refine hmem.imp fun id' concrete hand => ?_
      obtain ⟨hmem', ins', resolved', hget', hself', hresolves', hconcrete⟩ := hand
      have hne : id' ≠ id := fun heq => hid (heq ▸ hmem')
      rw [hother id' hne] at hget'
      rw [displacement?_congr hplaced hoffset] at hresolves'
      exact ⟨ins', resolved', hget', hself', hresolves', hconcrete⟩

theorem encodeAll_ok {done chunks : List Bytes} (hnodup : order.Nodup)
    (h : encodeAll done order s = .ok chunks s') :
    ∃ code, chunks.reverse = done.reverse ++ code.map Instruction.encode ∧
      Encoded order s s' code := by
  -- The chunks are collected back to front.
  induction order generalizing done s with
  | nil =>
    cases h
    exact ⟨[], by simp, rfl, fun _ => rfl, fun _ _ => rfl, .nil⟩
  | cons id order ih =>
    rw [List.nodup_cons] at hnodup
    rw [encodeAll] at h
    obtain ⟨ins, t, hfetch, hrest⟩ := bind_eq_ok_iff.1 h
    rw [fetch_apply] at hfetch
    split at hfetch
    · rename_i hget
      cases hfetch
      obtain ⟨resolved, u, hresolve, hencode⟩ := bind_eq_ok_iff.1 hrest
      obtain ⟨concrete, v, hnew, hnext⟩ := bind_eq_ok_iff.1 hencode
      obtain ⟨hconcrete, rfl⟩ := ofCodec_eq_ok_iff.1 hnew
      obtain ⟨rfl, hframed⟩ := Instruction.new_eq_ok_iff.1 hconcrete
      obtain ⟨code, hchunks, hcode⟩ := ih hnodup.2 hnext
      exact ⟨_ :: code, by simp [hchunks], .cons hget hresolve hframed hnodup.1 hcode⟩
    · cases hfetch

theorem run_ok {script : Bytes} (h : run order s = .ok script s') :
    ∃ t code, Stamps 0 order s t ∧ Encoded order t s' code ∧ script = Script.encodeAll code ∧
      script.length = s.arena.span order := by
  unfold run at h
  obtain ⟨length, t, hassign, hrest⟩ := bind_eq_ok_iff.1 h
  obtain ⟨hlength, hstamps⟩ := assignOffsets_ok hassign
  obtain ⟨chunks, u, hencode, hcheck⟩ := bind_eq_ok_iff.1 hrest
  obtain ⟨code, hchunks, hcode⟩ := encodeAll_ok hstamps.nodup hencode
  obtain ⟨hequal, hpure⟩ := unless_throw_eq_ok_iff.1 hcheck
  cases hpure
  refine ⟨t, code, hstamps, hcode, ?_, ?_⟩
  · rw [hchunks, Script.encodeAll, List.flatMap_def]
    rfl
  · rw [not_not.1 hequal, hlength, Nat.zero_add]

theorem displacement?_eq_some {origin : Nat} {target : InstructionId} {d : Int}
    (h : displacement? s origin (some target) = some d) :
    target ∈ s.placed ∧ ∃ o : Nat, s.arena.offset? target = some o ∧ origin + d = o := by
  simp only [displacement?] at h
  split at h
  · rename_i hplaced
    obtain ⟨o, ho, rfl⟩ := Option.map_eq_some_iff.1 h
    exact ⟨Std.HashSet.mem_iff_contains.2 hplaced, o, ho, by omega⟩
  · cases h

end Link

/-- `ins` is what a link makes of the instruction `old`, recorded as `new`, when `start` bytes stand
in front of it. -/
structure Realizes (linked : Arena) (order : List InstructionId) (start : Nat)
    (old new : Unlinked) (ins : Instruction) : Prop where
  opcode : ins.opcode = old.opcode
  offset : ins.offset = start
  recorded : new.offset = some start
  operand : old.opcode.addressClass = none → ins.operand = old.operand
  bound : old.opcode.addressClass ≠ none →
    ∀ i target, old.targets.slots[i]? = some (some target) →
      target ∈ order ∧ ∃ d o, ins.readAddress i = .ok d ∧ linked.offset? target = some o ∧
        start + d = (o : Int)
  unbound : old.opcode.addressClass ≠ none →
    ∀ i, old.targets.slots[i]? = some none → ins.readAddress i = .ok 0

namespace Link

variable {id : InstructionId} {order : List InstructionId} {s s' t : Linker}
  {code : List Instruction} (hstamps : Stamps 0 order s t) (hcode : Encoded order t s' code)
include hstamps

/-- What one id was before the link, and what the link made of it. -/
theorem Stamps.encodes {before behind : List InstructionId} {concrete : Instruction}
    (hsplit : order = before ++ id :: behind) (h : Encodes t s' id concrete) :
    ∃ old new, s.arena.get id = .ok old ∧ s'.arena.get id = .ok new ∧
      Resolves (displacement? t) { old with offset := some (s.arena.span before) } new ∧
      concrete = ⟨new.opcode, new.operand, 0⟩ := by
  obtain ⟨old, hold, hstamped⟩ := hstamps.stamped before id behind hsplit
  obtain ⟨ins, new, hins, hnew, hresolves, hconcrete, -⟩ := h
  rw [hstamped, Nat.zero_add] at hins
  cases hins
  exact ⟨old, new, hold, hnew, hresolves, hconcrete⟩

include hcode

theorem extent_take_code (k : Nat) :
    Script.extent (code.take k) = s.arena.span (order.take k) := by
  have hsizes : List.Forall₂ (fun id concrete => ∃ old, s.arena.get id = .ok old ∧
      concrete.size = old.size) order code := by
    have hmem := (List.forall₂_and_left order code).2 ⟨fun _ hmem => hmem, hcode.encodes⟩
    refine hmem.imp fun id concrete hand => ?_
    obtain ⟨before, behind, hsplit⟩ := List.append_of_mem hand.1
    obtain ⟨old, new, hold, -, hresolves, rfl⟩ := hstamps.encodes hsplit hand.2
    exact ⟨old, hold, by
      simp only [Instruction.size, Unlinked.size, hresolves.opcode, hresolves.length]⟩
  have htake := List.forall₂_take k hsizes
  generalize code.take k = code' at htake ⊢
  generalize order.take k = order' at htake ⊢
  induction htake with
  | nil => rfl
  | cons hhead _ ih =>
    obtain ⟨old, hold, hsize⟩ := hhead
    rw [Arena.span_cons hold, ← ih, ← hsize]
    rfl

theorem realizes (hfresh : ∀ id, id ∉ s.placed) {before behind : List InstructionId}
    {concrete : Instruction} (hsplit : order = before ++ id :: behind)
    (h : Encodes t s' id concrete) :
    ∃ old new, s.arena.get id = .ok old ∧ s'.arena.get id = .ok new ∧
      Realizes s'.arena order (s.arena.span before) old new
        { concrete with offset := s.arena.span before } := by
  obtain ⟨old, new, hold, hnew, hresolves, rfl⟩ := hstamps.encodes hsplit h
  have hslot (hcls : old.opcode.addressClass ≠ none) (i : Nat) (slot : Option InstructionId)
      (hi : old.targets.slots[i]? = some slot) :
      ∃ d, displacement? t (s.arena.span before) slot = some d ∧
        Instruction.readAddress ⟨new.opcode, new.operand, s.arena.span before⟩ i = .ok d := by
    obtain ⟨origin, ds, horigin, hds, hread⟩ := hresolves.address hcls
    cases horigin
    obtain ⟨d, hd, hindex⟩ := exists_of_map_eq_map_some hds hi
    have haddress := Instruction.readAddress_eq_ok_iff.1 (hread i d hindex)
    exact ⟨d, hd, Instruction.readAddress_eq_ok_iff.2 haddress⟩
  refine ⟨old, new, hold, hnew, hresolves.opcode, rfl, hresolves.offset, hresolves.operand, ?_, ?_⟩
  · intro hcls i target hi
    obtain ⟨d, hd, hread⟩ := hslot hcls i _ hi
    obtain ⟨hplaced, o, ho, hsum⟩ := displacement?_eq_some hd
    refine ⟨?_, d, o, hread, ?_, hsum⟩
    · -- Nothing was placed before this link.
      rcases (hstamps.placed target).1 hplaced with hearlier | hmem
      · exact absurd hearlier (hfresh target)
      · exact hmem
    · rw [hcode.offset, ho]
  · intro hcls i hi
    obtain ⟨d, hd, hread⟩ := hslot hcls i _ hi
    cases hd
    exact hread

end Link

/-- A linked script decodes into one instruction for each id of `order`, in order: with its opcode
and operand, at the sum of the sizes in front of it, and with every displacement leading from there
to the recorded offset of the target. -/
theorem Arena.link_decodes {arena linked : Arena} {order : List InstructionId} {script : Bytes}
    (h : arena.link order = (.ok script, linked)) :
    ∃ decoded, Script.instructionsOf script = .ok decoded ∧ decoded.length = order.length ∧
      script.length = arena.span order ∧
      ∀ k id, order[k]? = some id → ∃ old new ins, arena.get id = .ok old ∧
        linked.get id = .ok new ∧ decoded[k]? = some ins ∧
        Realizes linked order (arena.span (order.take k)) old new ins := by
  unfold link at h
  split at h
  · rename_i bytes s' hrun
    cases h
    obtain ⟨t, code, hstamps, hcode, rfl, hlength⟩ := Link.run_ok hrun
    refine ⟨_, Script.instructionsOf_encodeAll hcode.framed, ?_, hlength, ?_⟩
    · rw [Script.length_restamp, hcode.encodes.length_eq]
    · intro k id hk
      obtain ⟨hlt, rfl⟩ := List.getElem?_eq_some_iff.1 hk
      have hlt' : k < code.length := hcode.encodes.length_eq ▸ hlt
      -- What one id has become is known from the ids in front of it and behind it.
      have hsplit : order = order.take k ++ order[k] :: order.drop (k + 1) := by
        rw [← List.drop_eq_getElem_cons hlt, List.take_append_drop]
      obtain ⟨old, new, hold, hnew, hreal⟩ :=
        Link.realizes hstamps hcode (by simp) hsplit (hcode.encodes.get hlt hlt')
      refine ⟨old, new, _, hold, hnew, ?_, hreal⟩
      rw [Script.getElem?_restamp, List.getElem?_eq_getElem hlt', Nat.zero_add,
        Link.extent_take_code hstamps hcode]
      rfl
  · cases h

theorem Arena.link_decodes_tryScope :
    ∃ decoded, Script.instructionsOf [0x3B, 4, 0, 0x21, 0x40] = .ok decoded ∧
      decoded.length = 3 ∧ ∃ ins, decoded[0]? = some ins ∧ ins.opcode = .tryScope ∧
        ins.readAddress 0 = .ok 4 ∧ ins.readAddress 1 = .ok 0 := by
  have hlink : Arena.link ⟨#[⟨.ret, [], .none, none⟩,
      ⟨.tryScope, [0, 0], .dual (some 0) none, none⟩, ⟨.nop, [], .none, none⟩]⟩ [1, 2, 0] =
    (.ok [0x3B, 4, 0, 0x21, 0x40], ⟨#[⟨.ret, [], .none, some 4⟩,
      ⟨.tryScope, [4, 0], .dual (some 0) none, some 0⟩, ⟨.nop, [], .none, some 3⟩]⟩) := by cbv
  obtain ⟨decoded, hdecoded, hlength, -, hall⟩ := Arena.link_decodes hlink
  obtain ⟨old, new, ins, hold, -, hins, hreal⟩ := hall 0 1 rfl
  cases hold
  obtain ⟨-, d, o, hread, hoffset, hsum⟩ := hreal.bound (by decide) 0 0 rfl
  cases hoffset
  have hd : d = 4 := by simpa [Arena.span] using hsum
  subst hd
  exact ⟨decoded, hdecoded, hlength, ins, hins, hreal.opcode, hread,
    hreal.unbound (by decide) 1 rfl⟩

end ContractLinker
