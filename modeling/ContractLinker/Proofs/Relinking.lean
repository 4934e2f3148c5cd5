import ContractLinker.Proofs.Linking

namespace ContractLinker

theorem Bytes.take_overwrite {bytes patch : Bytes} {start : Nat} (h : start ≤ bytes.length) :
    (overwrite bytes start patch).take (start + patch.length) = bytes.take start ++ patch := by
  have hlen : (bytes.take start ++ patch).length = start + patch.length := by
    rw [List.length_append, List.length_take_of_le h]
  rw [overwrite, List.take_left' hlen]

namespace Instruction

variable {ins ins' patched : Instruction} {cls : AddressClass} {index position : Nat} {value : Int}

theorem drop_writeAddress (hframed : ins.WellFramed) (hcls : ins.opcode.addressClass = some cls)
    (h : ins.writeAddress index value = (.ok (), patched))
    (hafter : (index + 1) * cls.width ≤ position) :
    patched.operand.drop position = ins.operand.drop position := by
  obtain ⟨found, hfound, hlt, -, rfl⟩ := writeAddress_eq_ok_iff.1 h
  rw [hcls] at hfound
  cases hfound
  have hend := slot_end_le (length_operand_of_addressClass hframed hcls) hlt
  apply Bytes.drop_overwrite_after (by omega)
  rwa [Bytes.length_ofIntLE, ← Nat.succ_mul]

theorem take_writeAddress (hframed : ins.WellFramed) (hcls : ins.opcode.addressClass = some cls)
    (h : ins.writeAddress index value = (.ok (), patched)) :
    patched.operand.take ((index + 1) * cls.width) =
      ins.operand.take (index * cls.width) ++ Bytes.ofIntLE cls.width value := by
  obtain ⟨found, hfound, hlt, -, rfl⟩ := writeAddress_eq_ok_iff.1 h
  rw [hcls] at hfound
  cases hfound
  have hend := slot_end_le (length_operand_of_addressClass hframed hcls) hlt
  have htake : (Bytes.overwrite ins.operand (index * cls.width) (Bytes.ofIntLE cls.width value)).take
      (index * cls.width + (Bytes.ofIntLE cls.width value).length) =
        ins.operand.take (index * cls.width) ++ Bytes.ofIntLE cls.width value :=
    Bytes.take_overwrite (by omega)
  rwa [Bytes.length_ofIntLE, ← Nat.succ_mul] at htake

theorem writeAddress_congr (hop : ins'.opcode = ins.opcode) (hoff : ins'.offset = ins.offset)
    (index : Nat) (value : Int) :
    (∃ e, ins.writeAddress index value = (.error e, ins) ∧
      ins'.writeAddress index value = (.error e, ins')) ∨
      ∃ patched patched', ins.writeAddress index value = (.ok (), patched) ∧
        ins'.writeAddress index value = (.ok (), patched') := by
  unfold writeAddress addressSlot
  rw [hop, hoff]
  cases ins.opcode.addressClass with
  | none => exact .inl ⟨_, rfl, rfl⟩
  | some cls =>
    by_cases hlt : index < cls.count
    · simp only [if_pos hlt]
      by_cases hfits : Bytes.FitsSigned cls.width value
      · exact .inr ⟨_, _, if_pos hfits, if_pos hfits⟩
      · exact .inl ⟨_, if_neg hfits, if_neg hfits⟩
    · simp only [if_neg hlt]
      exact .inl ⟨_, rfl, rfl⟩

theorem new_congr {opcode : Opcode} {operand operand' : Bytes}
    (h : operand'.length = operand.length) :
    (∃ e, new opcode operand = .error e ∧ new opcode operand' = .error e) ∨
      new opcode operand = .ok ⟨opcode, operand, 0⟩ ∧
        new opcode operand' = .ok ⟨opcode, operand', 0⟩ := by
  have hcheck : checkOperand opcode operand' = checkOperand opcode operand := by
    simp only [checkOperand, h]
  unfold new
  rw [hcheck]
  cases checkOperand opcode operand with
  | error e => exact .inl ⟨e, rfl, rfl⟩
  | ok => exact .inr ⟨rfl, rfl⟩

end Instruction

namespace Unlinked

/-- How many bytes at the start of the operand are slots; none without addresses. -/
def slotBytes (ins : Unlinked) : Nat :=
  ins.targets.slots.length * ins.opcode.addressClass.elim 0 AddressClass.width

/-- `new` is `old` as a link may leave it: only the offset and the bytes of the slots may differ. -/
structure Relinked (old new : Unlinked) : Prop where
  opcode : new.opcode = old.opcode
  targets : new.targets = old.targets
  length : new.operand.length = old.operand.length
  behind : new.operand.drop old.slotBytes = old.operand.drop old.slotBytes

namespace Relinked

variable {old new newer : Unlinked}

theorem refl (ins : Unlinked) : Relinked ins ins := ⟨rfl, rfl, rfl, rfl⟩

theorem slotBytes_eq (h : Relinked old new) : new.slotBytes = old.slotBytes := by
  rw [slotBytes, slotBytes, h.opcode, h.targets]

theorem trans (h : Relinked old new) (h' : Relinked new newer) : Relinked old newer := by
  refine ⟨h'.opcode.trans h.opcode, h'.targets.trans h.targets, h'.length.trans h.length, ?_⟩
  rw [← h.behind, ← h.slotBytes_eq, h'.behind]

theorem size_eq (h : Relinked old new) : new.size = old.size := by
  rw [size, size, h.opcode, h.length]

theorem operand_eq (h : Relinked old new) (hplain : old.opcode.addressClass = none) :
    new.operand = old.operand := by
  have hzero : old.slotBytes = 0 := by rw [slotBytes, hplain]; rfl
  have hbehind := h.behind
  rwa [hzero, List.drop_zero, List.drop_zero] at hbehind

theorem withOffset (h : Relinked old new) (offset offset' : Option Nat) :
    Relinked { old with offset } { new with offset := offset' } :=
  ⟨h.opcode, h.targets, h.length, h.behind⟩

end Relinked
end Unlinked

namespace Arena

variable {arena arena' arena'' : Arena} {order order' : List InstructionId} {id : InstructionId}
  {old new ins : Unlinked}

theorem get_eq_error {e : CompileError} (h : arena.get id = .error e) :
    arena.size ≤ id ∧ e = .unknownInstruction id := by
  unfold get at h
  split at h
  · cases h
  · rename_i hnone
    cases h
    exact ⟨Array.getElem?_eq_none_iff.1 hnone, rfl⟩

theorem get_of_size_le (h : arena.size ≤ id) : arena.get id = .error (.unknownInstruction id) := by
  rw [get, Array.getElem?_eq_none_iff.2 h]

theorem set_of_get (h : arena.get id = .ok ins) : arena.set id ins = arena := by
  obtain ⟨hlt, rfl⟩ := Array.getElem?_eq_some_iff.1 (get_eq_ok_iff.1 h)
  rw [set, Array.setIfInBounds_def, dif_pos hlt, Array.set_getElem_self]

/-- `arena'` is `arena` as links of `order` may leave it. -/
structure Relinks (order : List InstructionId) (arena arena' : Arena) : Prop where
  size : arena'.size = arena.size
  cells : ∀ id old, arena.get id = .ok old → ∃ new, arena'.get id = .ok new ∧ old.Relinked new
  other : ∀ id, id ∉ order → arena'.get id = arena.get id

namespace Relinks

theorem refl (order : List InstructionId) (arena : Arena) : Relinks order arena arena :=
  ⟨rfl, fun _ old hget => ⟨old, hget, .refl old⟩, fun _ _ => rfl⟩

theorem trans (h : Relinks order arena arena') (h' : Relinks order arena' arena'') :
    Relinks order arena arena'' := by
  refine ⟨h'.size.trans h.size, ?_, fun id hnot => (h'.other id hnot).trans (h.other id hnot)⟩
  intro id old hold
  obtain ⟨new, hnew, hrelinked⟩ := h.cells id old hold
  obtain ⟨newer, hnewer, hrelinked'⟩ := h'.cells id new hnew
  exact ⟨newer, hnewer, hrelinked.trans hrelinked'⟩

theorem mono (h : Relinks order arena arena') (hsubset : order ⊆ order') :
    Relinks order' arena arena' :=
  ⟨h.size, h.cells, fun id hnot => h.other id (mt (@hsubset id) hnot)⟩

theorem get_error {e : CompileError} (h : Relinks order arena arena')
    (herror : arena'.get id = .error e) : arena.get id = .error e := by
  obtain ⟨hsize, rfl⟩ := get_eq_error herror
  exact get_of_size_le (h.size ▸ hsize)

theorem exists_old (h : Relinks order arena arena') (hnew : arena'.get id = .ok new) :
    ∃ old, arena.get id = .ok old ∧ old.Relinked new := by
  cases hold : arena.get id with
  | error e =>
    obtain ⟨hsize, -⟩ := get_eq_error hold
    rw [get_of_size_le (h.size ▸ hsize)] at hnew
    cases hnew
  | ok old =>
    obtain ⟨found, hfound, hrelinked⟩ := h.cells id old hold
    rw [hnew] at hfound
    cases hfound
    exact ⟨old, rfl, hrelinked⟩

theorem set (hget : arena.get id = .ok old) (hrelinked : old.Relinked new) (hmem : id ∈ order) :
    Relinks order arena (arena.set id new) := by
  refine ⟨Array.size_setIfInBounds, ?_, ?_⟩
  · intro other ins hins
    by_cases heq : other = id
    · subst heq
      rw [hget] at hins
      cases hins
      exact ⟨new, get_set_self hget, hrelinked⟩
    · exact ⟨ins, (get_set_of_ne heq).trans hins, .refl ins⟩
  · intro other hnot
    exact get_set_of_ne fun heq => hnot (heq ▸ hmem)

end Relinks
end Arena

namespace Link

variable {id : InstructionId} {order : List InstructionId} {s t : Linker}

/-- How a run ends when it leaves the linker as it was. -/
def settle {α : Type} (s : Linker) : Except CompileError α → EStateM.Result CompileError Linker α
  | .ok a => .ok a s
  | .error e => .error e s

theorem bind_of_settle {α β : Type} {x : Link α} {f : α → Link β} {r : Except CompileError α} :
    x s = settle s r → (x >>= f) s = match r with
      | .ok a => f a s
      | .error e => .error e s := by
  intro h
  rw [bind_apply, h]
  cases r <;> rfl

theorem fetch_eq_settle (id : InstructionId) (s : Linker) :
    fetch id s = settle s (s.arena.get id) := by
  rw [fetch_apply]
  cases s.arena.get id <;> rfl

theorem ofCodec_eq_settle {α : Type} (r : Except CodecError α) (s : Linker) :
    ofCodec r s = settle s (CompileError.lift r) := by
  cases r <;> rfl

def displacementOf (s : Linker) (id : InstructionId) (opcode : Opcode) (origin : Nat) :
    Option InstructionId → Except CompileError Int
  | none => .ok 0
  | some target =>
    match s.arena.get target with
    | .error e => .error e
    | .ok there =>
      match there.offset, s.placed.contains target with
      | some offset, true => .ok (offset - origin : Int)
      | _, _ => .error (.danglingTarget id opcode target)

/-- `ins` with the displacements of `slots` written from `index` on. -/
def fill (s : Linker) (id : InstructionId) (origin width index : Nat) (ins : Instruction) :
    List (Option InstructionId) → Except CompileError Instruction
  | [] => .ok ins
  | slot :: slots =>
    match displacementOf s id ins.opcode origin slot with
    | .error e => .error e
    | .ok d =>
      if Bytes.FitsSigned width d then
        match ins.writeAddress index d with
        | (.error e, _) => .error (.codec e)
        | (.ok (), patched) => fill s id origin width (index + 1) patched slots
      else .error (.displacementRange id ins.opcode origin d)

def resolution (s : Linker) (id : InstructionId) (ins : Unlinked) : Except CompileError Unlinked :=
  match ins.opcode.addressClass, ins.offset with
  | none, _ => .ok ins
  | some _, none => .error (.internal (.missingOffset id ins.opcode))
  | some cls, some origin =>
    if ins.targets.slots.isEmpty then .error (.internal (.missingSlots id ins.opcode))
    else if ins.targets.slots.all Option.isNone then .error (.unboundBranch id ins.opcode)
    else
      match Instruction.new ins.opcode ins.operand with
      | .error e => .error (.codec e)
      | .ok concrete =>
        match fill s id origin cls.width 0 concrete ins.targets.slots with
        | .error e => .error e
        | .ok written => .ok { ins with operand := written.operand }

theorem slotDisplacement_eq_settle (opcode : Opcode) (origin : Nat) (slot : Option InstructionId) :
    slotDisplacement id origin opcode slot s = settle s (displacementOf s id opcode origin slot) := by
  cases slot with
  | none => rfl
  | some target =>
    simp only [slotDisplacement, displacementOf, targetOffset, bind_apply, fetch_apply]
    cases s.arena.get target with
    | error e => rfl
    | ok there =>
      simp only [get_apply]
      cases there.offset <;> cases s.placed.contains target <;> rfl

theorem writeSlots_eq_settle {origin width index : Nat} {ins : Instruction}
    {slots : List (Option InstructionId)} :
    writeSlots id origin width index ins slots s =
      settle s (fill s id origin width index ins slots) := by
  induction slots generalizing index ins with
  | nil => rfl
  | cons slot slots ih =>
    rw [writeSlots_cons, bind_of_settle (slotDisplacement_eq_settle _ _ _), fill]
    cases displacementOf s id ins.opcode origin slot with
    | error e => rfl
    | ok d =>
      by_cases hfits : Bytes.FitsSigned width d
      · simp only [if_pos hfits, if_neg (not_not_intro hfits)]
        cases ins.writeAddress index d with
        | mk result patched =>
          simp only [bind_of_settle (ofCodec_eq_settle _ _)]
          cases result with
          | error e => rfl
          | ok _ => exact ih
      · simp only [if_pos hfits, if_neg hfits]
        rfl

theorem resolveBranch_eq {ins : Unlinked} : s.arena.get id = .ok ins →
    resolveBranch id ins s = match resolution s id ins with
      | .error e => .error e s
      | .ok resolved => .ok resolved { s with arena := s.arena.set id resolved } := by
  intro hget
  unfold resolveBranch resolution
  cases ins.opcode.addressClass with
  | none =>
    simp only [Arena.set_of_get hget]
    rfl
  | some cls =>
    cases ins.offset with
    | none => rfl
    | some origin =>
      by_cases hempty : ins.targets.slots.isEmpty
      · simp only [if_pos hempty]
        rfl
      · by_cases hunbound : ins.targets.slots.all Option.isNone
        · simp only [if_neg hempty, if_pos hunbound]
          rfl
        · simp only [if_neg hempty, if_neg hunbound]
          rw [bind_of_settle (ofCodec_eq_settle _ _)]
          cases Instruction.new ins.opcode ins.operand with
          | error e => rfl
          | ok concrete =>
            simp only [CompileError.lift]
            rw [bind_of_settle writeSlots_eq_settle]
            cases fill s id origin cls.width 0 concrete ins.targets.slots <;> rfl

theorem encodeAll_cons {done : List Bytes} :
    encodeAll done (id :: order) s = match s.arena.get id with
      | .error e => .error e s
      | .ok ins =>
        match resolution s id ins with
        | .error e => .error e s
        | .ok resolved =>
          match Instruction.new resolved.opcode resolved.operand with
          | .error e => .error (.codec e) { s with arena := s.arena.set id resolved }
          | .ok concrete => encodeAll (concrete.encode :: done) order
              { s with arena := s.arena.set id resolved } := by
  rw [encodeAll, bind_of_settle (fetch_eq_settle _ _)]
  cases hget : s.arena.get id with
  | error e => rfl
  | ok ins =>
    simp only [bind_apply, resolveBranch_eq hget]
    cases resolution s id ins with
    | error e => rfl
    | ok resolved =>
      simp only [ofCodec_eq_settle]
      cases Instruction.new resolved.opcode resolved.operand <;> rfl

theorem fill_ok {origin width index : Nat} {ins written : Instruction} {cls : AddressClass}
    {slots : List (Option InstructionId)} (hframed : ins.WellFramed)
    (hcls : ins.opcode.addressClass = some cls)
    (h : fill s id origin width index ins slots = .ok written) :
    written.opcode = ins.opcode ∧ written.operand.length = ins.operand.length ∧
      written.operand.drop ((index + slots.length) * cls.width) =
        ins.operand.drop ((index + slots.length) * cls.width) := by
  -- Each slot is written in front of all that come after it, so nothing behind the last is touched.
  induction slots generalizing index ins with
  | nil =>
    cases h
    exact ⟨rfl, rfl, rfl⟩
  | cons slot slots ih =>
    unfold fill at h
    split at h
    · cases h
    · split at h
      · split at h
        · cases h
        · rename_i patched hpatched
          have hop := Instruction.writeAddress_opcode hpatched
          obtain ⟨hopcode, hlength, hbehind⟩ :=
            ih (Instruction.writeAddress_wellFramed hframed hpatched) (hop ▸ hcls) h
          have hshift : index + 1 + slots.length = index + (slot :: slots).length := by
            rw [List.length_cons]
            omega
          rw [hshift] at hbehind
          refine ⟨hopcode.trans hop, ?_, hbehind.trans ?_⟩
          · rw [hlength, Instruction.writeAddress_length hframed hpatched]
          · apply Instruction.drop_writeAddress hframed hcls hpatched
            apply Nat.mul_le_mul_right
            rw [List.length_cons]
            omega
      · cases h

theorem resolution_ok {ins resolved : Unlinked} (h : resolution s id ins = .ok resolved) :
    ins.Relinked resolved ∧ resolved.offset = ins.offset := by
  unfold resolution at h
  split at h
  · cases h
    exact ⟨.refl ins, rfl⟩
  · cases h
  · rename_i cls origin hcls _
    split at h
    · cases h
    · split at h
      · cases h
      · split at h
        · cases h
        · rename_i concrete hnew
          obtain ⟨rfl, hframed⟩ := Instruction.new_eq_ok_iff.1 hnew
          split at h
          · cases h
          · rename_i written hfill
            cases h
            obtain ⟨-, hlength, hbehind⟩ := fill_ok hframed hcls hfill
            refine ⟨⟨rfl, rfl, hlength, ?_⟩, rfl⟩
            rw [Unlinked.slotBytes, hcls]
            rwa [Nat.zero_add] at hbehind

/-- The linker that a run ends with, whether it succeeds or not. -/
def final {α : Type} : EStateM.Result CompileError Linker α → Linker
  | .ok _ s | .error _ s => s

theorem assignOffsets_relinks (cursor : Nat) (order : List InstructionId) (s : Linker) :
    s.arena.Relinks order (final (assignOffsets cursor order s)).arena := by
  induction order generalizing cursor s with
  | nil => exact .refl _ _
  | cons id order ih =>
    rw [assignOffsets_cons]
    cases hget : s.arena.get id with
    | error e => exact .refl _ _
    | ok ins =>
      dsimp only
      split
      · exact .refl _ _
      · split
        · exact .refl _ _
        · have hstamp : s.arena.Relinks (id :: order)
              (s.arena.set id { ins with offset := some cursor }) :=
            .set hget ((Unlinked.Relinked.refl ins).withOffset _ _) List.mem_cons_self
          have hrest := ih (cursor + ins.size)
            ⟨s.arena.set id { ins with offset := some cursor }, s.placed.insert id⟩
          exact hstamp.trans (hrest.mono (List.subset_cons_self id order))

theorem encodeAll_relinks (done : List Bytes) (order : List InstructionId) (s : Linker) :
    s.arena.Relinks order (final (encodeAll done order s)).arena := by
  induction order generalizing done s with
  | nil => exact .refl _ _
  | cons id order ih =>
    rw [encodeAll_cons]
    cases hget : s.arena.get id with
    | error e => exact .refl _ _
    | ok ins =>
      dsimp only
      cases hresolution : resolution s id ins with
      | error e => exact .refl _ _
      | ok resolved =>
        have hstore : s.arena.Relinks (id :: order) (s.arena.set id resolved) :=
          .set hget (resolution_ok hresolution).1 List.mem_cons_self
        dsimp only
        split
        · exact hstore
        · rename_i concrete _
          have hrest := ih (concrete.encode :: done) { s with arena := s.arena.set id resolved }
          exact hstore.trans (hrest.mono (List.subset_cons_self id order))

theorem run_eq : run order s = match assignOffsets 0 order s with
    | .error e t => .error e t
    | .ok length t =>
      match encodeAll [] order t with
      | .error e u => .error e u
      | .ok chunks u =>
        if chunks.reverse.flatten.length = length then .ok chunks.reverse.flatten u
        else .error (.internal (.scriptLength chunks.reverse.flatten.length length)) u := by
  unfold run
  rw [bind_apply]
  cases assignOffsets 0 order s with
  | error e t => rfl
  | ok length t =>
    dsimp only
    rw [bind_apply]
    cases encodeAll [] order t with
    | error e u => rfl
    | ok chunks u =>
      by_cases heq : chunks.reverse.flatten.length = length
      · simp only [if_pos heq, ne_eq, if_neg (not_not_intro heq)]
        rfl
      · simp only [if_neg heq, ne_eq, if_pos heq]
        rfl

theorem run_relinks (order : List InstructionId) (s : Linker) :
    s.arena.Relinks order (final (run order s)).arena := by
  rw [run_eq]
  have hfirst := assignOffsets_relinks 0 order s
  cases hassign : assignOffsets 0 order s with
  | error e t =>
    rw [hassign] at hfirst
    exact hfirst
  | ok length t =>
    rw [hassign] at hfirst
    have hsecond := encodeAll_relinks [] order t
    dsimp only
    cases hencode : encodeAll [] order t with
    | error e u =>
      rw [hencode] at hsecond
      exact hfirst.trans hsecond
    | ok chunks u =>
      rw [hencode] at hsecond
      dsimp only
      split <;> exact hfirst.trans hsecond

/-- The two linkers differ only in what earlier links may have left; what this link has placed
stands at the same offset in both. -/
structure Agrees (s t : Linker) : Prop where
  placed : t.placed = s.placed
  size : t.arena.size = s.arena.size
  cells : ∀ id old, s.arena.get id = .ok old → ∃ new, t.arena.get id = .ok new ∧
    old.Relinked new ∧ (id ∈ s.placed → new.offset = old.offset)

/-- Two runs end alike: with the same error, or with the same value in linkers that agree. -/
inductive Alike {α : Type} : (r r' : EStateM.Result CompileError Linker α) → Prop
  | error (e : CompileError) (s t : Linker) : Alike (.error e s) (.error e t)
  | ok (a : α) {s t : Linker} (h : Agrees s t) : Alike (.ok a s) (.ok a t)

namespace Agrees

theorem get_error {e : CompileError} (h : Agrees s t) (herror : s.arena.get id = .error e) :
    t.arena.get id = .error e := by
  obtain ⟨hsize, rfl⟩ := Arena.get_eq_error herror
  exact Arena.get_of_size_le (h.size ▸ hsize)

theorem set {placed : Std.HashSet InstructionId} {old old' new new' : Unlinked} (h : Agrees s t)
    (hget : s.arena.get id = .ok old) (hget' : t.arena.get id = .ok old')
    (hnew : new.Relinked new') (hoffset : new'.offset = new.offset)
    (hplaced : ∀ other ∈ placed, other ≠ id → other ∈ s.placed) :
    Agrees ⟨s.arena.set id new, placed⟩ ⟨t.arena.set id new', placed⟩ := by
  refine ⟨rfl, ?_, ?_⟩
  · simp only [Arena.size, Arena.set, Array.size_setIfInBounds]
    exact h.size
  · intro other ins hins
    by_cases heq : other = id
    · subst heq
      rw [Arena.get_set_self hget] at hins
      cases hins
      exact ⟨new', Arena.get_set_self hget', hnew, fun _ => hoffset⟩
    · rw [Arena.get_set_of_ne heq] at hins ⊢
      obtain ⟨ins', hins', hrelinked, hsame⟩ := h.cells other ins hins
      exact ⟨ins', hins', hrelinked, fun hmem => hsame (hplaced other hmem heq)⟩

theorem assignOffsets {cursor : Nat} (h : Agrees s t) :
    Alike (assignOffsets cursor order s) (assignOffsets cursor order t) := by
  induction order generalizing cursor s t with
  | nil => exact .ok cursor h
  | cons id order ih =>
    rw [assignOffsets_cons, assignOffsets_cons]
    cases hget : s.arena.get id with
    | error e =>
      rw [h.get_error hget]
      exact .error e s t
    | ok ins =>
      obtain ⟨ins', hget', hrelinked, -⟩ := h.cells id ins hget
      rw [hget']
      dsimp only
      rw [h.placed, hrelinked.size_eq]
      split
      · rw [hrelinked.opcode]
        exact .error _ _ _
      · split
        · exact .error _ _ _
        · -- What this link places now has the same offset in both; other offsets do not count.
          apply ih
          apply h.set hget hget' (hrelinked.withOffset _ _) rfl
          intro other hmem hne
          rw [Std.HashSet.mem_insert, beq_iff_eq] at hmem
          exact hmem.resolve_left fun heq => hne heq.symm

theorem displacementOf (h : Agrees s t) (opcode : Opcode) (origin : Nat)
    (slot : Option InstructionId) :
    displacementOf t id opcode origin slot = displacementOf s id opcode origin slot := by
  cases slot with
  | none => rfl
  | some target =>
    cases hget : s.arena.get target with
    | error e => simp only [Link.displacementOf, hget, h.get_error hget]
    | ok there =>
      obtain ⟨there', hget', -, hoffset⟩ := h.cells target there hget
      simp only [Link.displacementOf, hget, hget', h.placed]
      cases hplaced : s.placed.contains target with
      | false => cases there.offset <;> cases there'.offset <;> rfl
      | true => rw [hoffset (Std.HashSet.mem_iff_contains.2 hplaced)]

/-- All slots from `index` on are written, so their old bytes do not matter. -/
theorem fill {origin width index : Nat} {ins ins' : Instruction} {cls : AddressClass}
    {slots : List (Option InstructionId)} (h : Agrees s t) (hframed : ins.WellFramed)
    (hframed' : ins'.WellFramed) (hcls : ins.opcode.addressClass = some cls)
    (hopcode : ins'.opcode = ins.opcode) (hoffset : ins'.offset = ins.offset)
    (hbefore : ins'.operand.take (index * cls.width) = ins.operand.take (index * cls.width))
    (hbehind : ins'.operand.drop ((index + slots.length) * cls.width) =
      ins.operand.drop ((index + slots.length) * cls.width)) :
    fill t id origin width index ins' slots = fill s id origin width index ins slots := by
  -- The operands agree in front of slot `index` and behind the last one. Every write moves the
  -- first place on, until nothing is left in between.
  induction slots generalizing index ins ins' with
  | nil =>
    have hoperand : ins'.operand = ins.operand := by
      rw [List.length_nil, Nat.add_zero] at hbehind
      rw [← List.take_append_drop (index * cls.width) ins'.operand, hbefore, hbehind,
        List.take_append_drop]
    obtain ⟨opcode, operand, offset⟩ := ins
    obtain ⟨opcode', operand', offset'⟩ := ins'
    cases hopcode
    cases hoperand
    cases hoffset
    rfl
  | cons slot slots ih =>
    unfold Link.fill
    rw [h.displacementOf, hopcode]
    cases Link.displacementOf s id ins.opcode origin slot with
    | error e => rfl
    | ok d =>
      dsimp only
      split
      · rcases Instruction.writeAddress_congr hopcode hoffset index d with
          ⟨e, hwrite, hwrite'⟩ | ⟨patched, patched', hwrite, hwrite'⟩
        · rw [hwrite, hwrite']
        · rw [hwrite, hwrite']
          have hcls' : ins'.opcode.addressClass = some cls := hopcode ▸ hcls
          have hop := Instruction.writeAddress_opcode hwrite
          have hop' := Instruction.writeAddress_opcode hwrite'
          have hshift : index + 1 + slots.length = index + (slot :: slots).length := by
            rw [List.length_cons]
            omega
          have hafter : (index + 1) * cls.width ≤ (index + (slot :: slots).length) * cls.width := by
            apply Nat.mul_le_mul_right
            rw [List.length_cons]
            omega
          apply ih (Instruction.writeAddress_wellFramed hframed hwrite)
            (Instruction.writeAddress_wellFramed hframed' hwrite') (hop ▸ hcls)
          · rw [hop', hop, hopcode]
          · rw [Instruction.writeAddress_offset hwrite', Instruction.writeAddress_offset hwrite,
              hoffset]
          · rw [Instruction.take_writeAddress hframed' hcls' hwrite', hbefore,
              Instruction.take_writeAddress hframed hcls hwrite]
          · rw [hshift, Instruction.drop_writeAddress hframed' hcls' hwrite' hafter, hbehind,
              Instruction.drop_writeAddress hframed hcls hwrite hafter]
      · rfl

theorem resolution {ins ins' : Unlinked} (h : Agrees s t) (hrelinked : ins.Relinked ins')
    (hoffset : ins'.offset = ins.offset) : resolution t id ins' = resolution s id ins := by
  unfold Link.resolution
  rw [hrelinked.opcode, hrelinked.targets, hoffset]
  cases hcls : ins.opcode.addressClass with
  | none =>
    have hoperand := hrelinked.operand_eq hcls
    have hopcode := hrelinked.opcode
    have htargets := hrelinked.targets
    obtain ⟨opcode, operand, targets, offset⟩ := ins
    obtain ⟨opcode', operand', targets', offset'⟩ := ins'
    cases hopcode
    cases hoperand
    cases htargets
    cases hoffset
    rfl
  | some cls =>
    cases ins.offset with
    | none => rfl
    | some origin =>
      dsimp only
      split
      · rfl
      · split
        · rfl
        · rcases Instruction.new_congr hrelinked.length with ⟨e, hnew, hnew'⟩ | ⟨hnew, hnew'⟩
          · rw [hnew, hnew']
          · have hfill : Link.fill t id origin cls.width 0 ⟨ins.opcode, ins'.operand, 0⟩
                ins.targets.slots =
                Link.fill s id origin cls.width 0 ⟨ins.opcode, ins.operand, 0⟩ ins.targets.slots := by
              apply h.fill (Instruction.new_eq_ok_iff.1 hnew).2 (Instruction.new_eq_ok_iff.1 hnew').2
                hcls rfl rfl
              · rw [Nat.zero_mul, List.take_zero, List.take_zero]
              · have hbehind := hrelinked.behind
                rw [Unlinked.slotBytes, hcls] at hbehind
                rw [Nat.zero_add]
                exact hbehind
            rw [hnew, hnew']
            dsimp only
            rw [hfill]

theorem encodeAll {done : List Bytes} (h : Agrees s t) (hplaced : ∀ id ∈ order, id ∈ s.placed) :
    Alike (encodeAll done order s) (encodeAll done order t) := by
  induction order generalizing done s t with
  | nil => exact .ok done h
  | cons id order ih =>
    rw [List.forall_mem_cons] at hplaced
    rw [encodeAll_cons, encodeAll_cons]
    cases hget : s.arena.get id with
    | error e =>
      rw [h.get_error hget]
      exact .error e s t
    | ok ins =>
      obtain ⟨ins', hget', hrelinked, hoffset⟩ := h.cells id ins hget
      rw [hget']
      dsimp only
      rw [h.resolution hrelinked (hoffset hplaced.1)]
      cases Link.resolution s id ins with
      | error e => exact .error e s t
      | ok resolved =>
        dsimp only
        split
        · exact .error _ _ _
        · refine ih ?_ hplaced.2
          rw [h.placed]
          exact h.set hget hget' (.refl resolved) rfl fun _ hmem _ => hmem

theorem run (h : Agrees s t) : Alike (run order s) (run order t) := by
  rw [run_eq, run_eq]
  have hfirst : Alike (Link.assignOffsets 0 order s) (Link.assignOffsets 0 order t) :=
    h.assignOffsets
  cases hassign : Link.assignOffsets 0 order s with
  | error e s' =>
    rw [hassign] at hfirst
    generalize Link.assignOffsets 0 order t = result at hfirst
    cases hfirst
    exact .error _ _ _
  | ok length s' =>
    -- After the first pass all of the order is placed, as the second one needs it.
    have hplaced := (assignOffsets_ok hassign).2.placed
    rw [hassign] at hfirst
    generalize Link.assignOffsets 0 order t = result at hfirst
    cases hfirst with
    | ok _ hagrees =>
      have hsecond : Alike (Link.encodeAll [] order s') (Link.encodeAll [] order _) :=
        hagrees.encodeAll fun id hmem => (hplaced id).2 (.inr hmem)
      dsimp only
      generalize Link.encodeAll [] order s' = result at hsecond
      generalize Link.encodeAll [] order _ = result' at hsecond
      cases hsecond with
      | error e _ _ => exact .error _ _ _
      | ok chunks hagrees' =>
        dsimp only
        split
        · exact .ok _ hagrees'
        · exact .error _ _ _

end Agrees

end Link

namespace Arena

variable {arena arena' : Arena} {order : List InstructionId}

theorem link_relinks (arena : Arena) (order : List InstructionId) :
    arena.Relinks order (arena.link order).2 := by
  have hrun := Link.run_relinks order { arena }
  unfold link
  cases hresult : Link.run order { arena } with
  | ok script s =>
    rw [hresult] at hrun
    exact hrun
  | error e s =>
    rw [hresult] at hrun
    exact hrun

theorem Relinks.link_eq {attempted : List InstructionId} (h : arena.Relinks attempted arena')
    (order : List InstructionId) : (arena'.link order).1 = (arena.link order).1 := by
  have hagrees : Link.Agrees { arena } { arena := arena' } := by
    refine ⟨rfl, h.size, ?_⟩
    intro id old hold
    obtain ⟨new, hnew, hrelinked⟩ := h.cells id old hold
    exact ⟨new, hnew, hrelinked, fun hmem => absurd hmem Std.HashSet.not_mem_empty⟩
  have hrun : Link.Alike (Link.run order { arena }) (Link.run order { arena := arena' }) :=
    hagrees.run
  unfold link
  generalize Link.run order { arena } = result at hrun
  generalize Link.run order { arena := arena' } = result' at hrun
  cases hrun <;> rfl

/-- The arena after links of all these orders were tried, one after the other. -/
def attempt (arena : Arena) (orders : List (List InstructionId)) : Arena :=
  orders.foldl (fun arena order => (arena.link order).2) arena

theorem attempt_relinks (arena : Arena) (orders : List (List InstructionId)) :
    arena.Relinks orders.flatten (arena.attempt orders) := by
  induction orders generalizing arena with
  | nil => exact .refl _ _
  | cons order orders ih =>
    rw [List.flatten_cons]
    have hfirst := arena.link_relinks order
    exact (hfirst.mono (List.subset_append_left _ _)).trans
      ((ih (arena.link order).2).mono (List.subset_append_right _ _))

/-- Earlier attempts to link, whatever their orders and however they ended, change nothing but
offsets and slot bytes of the instructions in those orders, and every later link gives what it would
have given without them: the same script or the same error. -/
theorem link_after_attempts (arena : Arena) (orders : List (List InstructionId)) :
    arena.Relinks orders.flatten (arena.attempt orders) ∧
      ∀ order, ((arena.attempt orders).link order).1 = (arena.link order).1 :=
  ⟨arena.attempt_relinks orders, (arena.attempt_relinks orders).link_eq⟩

end Arena
end ContractLinker
