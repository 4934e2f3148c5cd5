import ContractLinker.Proofs.Compiling
import ContractLinker.Proofs.Shapes
namespace ContractLinker

namespace Arena

variable {arena : Arena} {order before : List InstructionId} {id target : InstructionId}
  {ins : Unlinked}

theorem span_append (arena : Arena) (ids more : List InstructionId) :
    arena.span (ids ++ more) = arena.span ids + arena.span more := by
  induction ids with
  | nil => rw [List.nil_append, span, Nat.zero_add]
  | cons id ids ih => rw [List.cons_append, span, span, ih, Nat.add_assoc]

theorem span_concat (h : arena.get id = .ok ins) :
    arena.span (before ++ [id]) = arena.span before + ins.size := by
  rw [span_append, span_cons h, span, Nat.add_zero]

theorem lt_size_iff : id < arena.size ↔ ∃ ins, arena.get id = .ok ins := by
  constructor
  · intro hlt
    exact ⟨_, get_eq_ok_iff.2 (Array.getElem?_eq_getElem hlt)⟩
  · rintro ⟨ins, hget⟩
    exact (Array.getElem?_eq_some_iff.1 (get_eq_ok_iff.1 hget)).1

/-- Where an instruction comes to stand: behind all that are placed before it. -/
def startOf (arena : Arena) (order : List InstructionId) (id : InstructionId) : Nat :=
  arena.span (order.takeWhile (· ≠ id))

def displacement (arena : Arena) (order : List InstructionId) (id target : InstructionId) : Int :=
  arena.startOf order target - arena.startOf order id

/-- What is wrong with placing `id` behind `before`. -/
def placingDefects (arena : Arena) (before : List InstructionId) (id : InstructionId) :
    List CompileError :=
  match arena.get id with
  | .error _ => [.unknownInstruction id]
  | .ok ins =>
    (if id ∈ before then [.duplicatePlacement id ins.opcode] else []) ++
      if Bytes.bound 4 ≤ arena.span before then [.scriptTooLarge (arena.span before)] else []

def layoutDefects (arena : Arena) (before : List InstructionId) :
    List InstructionId → List CompileError
  | [] => []
  | id :: rest => arena.placingDefects before id ++ arena.layoutDefects (before ++ [id]) rest

/-- What is wrong with a slot of `id`; one without a target is never wrong. -/
def slotDefects (arena : Arena) (order : List InstructionId) (id : InstructionId) (opcode : Opcode)
    (width : Nat) : Option InstructionId → List CompileError
  | none => []
  | some target =>
    if arena.size ≤ target then [.unknownInstruction target]
    else if target ∉ order then [.danglingTarget id opcode target]
    else if Bytes.FitsSigned width (arena.displacement order id target) then []
    else [.displacementRange id opcode (arena.startOf order id)
      (arena.displacement order id target)]

/-- A branch needs one target at least. -/
def unboundDefects (id : InstructionId) (ins : Unlinked) : List CompileError :=
  if ins.opcode.addressClass ≠ none ∧ ins.targets.slots.all Option.isNone then
    [.unboundBranch id ins.opcode] else []

def operandDefects (ins : Unlinked) : List CompileError :=
  match Instruction.checkOperand ins.opcode ins.operand with
  | .ok _ => []
  | .error cause => [.codec cause]

def addressDefects (arena : Arena) (order : List InstructionId) (id : InstructionId)
    (ins : Unlinked) : List CompileError :=
  match ins.opcode.addressClass with
  | none => []
  | some cls => ins.targets.slots.flatMap (arena.slotDefects order id ins.opcode cls.width)

/-- What stands against the code of `id`; one that is not known counts where it is placed. -/
def codingDefects (arena : Arena) (order : List InstructionId) (id : InstructionId) :
    List CompileError :=
  match arena.get id with
  | .error _ => []
  | .ok ins => unboundDefects id ins ++ operandDefects ins ++ arena.addressDefects order id ins

def defects (arena : Arena) (order : List InstructionId) : List CompileError :=
  arena.layoutDefects [] order ++ order.flatMap (arena.codingDefects order)

/-- An instruction that has code behind the others of `order`. -/
structure Codable (arena : Arena) (order : List InstructionId) (id : InstructionId)
    (ins : Unlinked) : Prop where
  framed : Instruction.checkOperand ins.opcode ins.operand = .ok ()
  bound : ins.opcode.addressClass ≠ none → ∃ target, some target ∈ ins.targets.slots
  known : ins.opcode.addressClass ≠ none → ∀ target, some target ∈ ins.targets.slots →
    target < arena.size ∧ target ∈ order
  fits : ∀ cls, ins.opcode.addressClass = some cls → ∀ target, some target ∈ ins.targets.slots →
    Bytes.FitsSigned cls.width (arena.displacement order id target)

structure Linkable (arena : Arena) (order : List InstructionId) : Prop where
  known : ∀ id ∈ order, id < arena.size
  once : order.Nodup
  starts : ∀ id ∈ order, arena.startOf order id < Bytes.bound 4
  codable : ∀ id ∈ order, ∀ ins, arena.get id = .ok ins → arena.Codable order id ins

theorem placingDefects_eq_nil :
    arena.placingDefects before id = [] ↔
      id < arena.size ∧ id ∉ before ∧ arena.span before < Bytes.bound 4 := by
  unfold placingDefects
  cases hget : arena.get id with
  | error e =>
    have hsize := (get_eq_error hget).1
    simp [Nat.not_lt.2 hsize]
  | ok ins =>
    have hlt : id < arena.size := lt_size_iff.2 ⟨ins, hget⟩
    simp [hlt]

theorem layoutDefects_eq_nil (before rest : List InstructionId) :
    arena.layoutDefects before rest = [] ↔
      (∀ id ∈ rest, id < arena.size) ∧ (rest.Nodup ∧ ∀ id ∈ rest, id ∉ before) ∧
        ∀ id ∈ rest, arena.span (before ++ rest.takeWhile (· ≠ id)) < Bytes.bound 4 := by
  induction rest generalizing before with
  | nil => simp [layoutDefects]
  | cons first rest ih =>
    -- Only `first` itself stands right behind `before`; the others have it in front of them.
    have hfront (id : InstructionId) (hne : first ≠ id) :
        before ++ (first :: rest).takeWhile (· ≠ id) =
          before ++ [first] ++ rest.takeWhile (· ≠ id) := by
      rw [List.takeWhile_cons_of_pos (by simpa using hne), List.append_assoc, List.singleton_append]
    have hself : before ++ (first :: rest).takeWhile (· ≠ first) = before := by
      rw [List.takeWhile_cons_of_neg (by simp), List.append_nil]
    rw [layoutDefects, List.append_eq_nil_iff, placingDefects_eq_nil, ih, List.nodup_cons]
    simp only [List.forall_mem_cons, hself, List.mem_append, List.mem_singleton, not_or]
    constructor
    · rintro ⟨⟨hknown, hfresh, hstart⟩, hrest, ⟨hnodup, hothers⟩, hstarts⟩
      have hne (id : InstructionId) (hid : id ∈ rest) : first ≠ id := Ne.symm (hothers id hid).2
      refine ⟨⟨hknown, hrest⟩, ⟨⟨fun hmem => hne first hmem rfl, hnodup⟩, hfresh,
        fun id hid => (hothers id hid).1⟩, hstart, ?_⟩
      intro id hid
      rw [hfront id (hne id hid)]
      exact hstarts id hid
    · rintro ⟨⟨hknown, hrest⟩, ⟨⟨hfirst, hnodup⟩, hfresh, hothers⟩, hstart, hstarts⟩
      have hne (id : InstructionId) (hid : id ∈ rest) : first ≠ id :=
        fun heq => hfirst (heq ▸ hid)
      refine ⟨⟨hknown, hfresh, hstart⟩, hrest,
        ⟨hnodup, fun id hid => ⟨hothers id hid, Ne.symm (hne id hid)⟩⟩, ?_⟩
      intro id hid
      rw [← hfront id (hne id hid)]
      exact hstarts id hid

theorem slotDefects_eq_nil {opcode : Opcode} {width : Nat} :
    arena.slotDefects order id opcode width (some target) = [] ↔
      target < arena.size ∧ target ∈ order ∧
        Bytes.FitsSigned width (arena.displacement order id target) := by
  rw [slotDefects]
  by_cases hsize : arena.size ≤ target
  · simp [hsize]
  · by_cases hmem : target ∈ order
    · rw [if_neg hsize, if_neg (not_not_intro hmem), ite_eq_left_iff]
      simp only [Nat.not_le.1 hsize, hmem, true_and, List.cons_ne_nil, imp_false, not_not]
    · simp [hsize, hmem]

theorem unboundDefects_eq_nil :
    unboundDefects id ins = [] ↔
      (ins.opcode.addressClass ≠ none → ∃ target, some target ∈ ins.targets.slots) := by
  have hnone : ins.targets.slots.all Option.isNone ↔
      ¬ ∃ target, some target ∈ ins.targets.slots := by
    rw [List.all_eq_true, not_exists]
    constructor
    · intro hall target hmem
      exact absurd (hall _ hmem) Bool.false_ne_true
    · intro hall slot hmem
      cases slot with
      | none => rfl
      | some target => exact absurd hmem (hall target)
  rw [unboundDefects, ite_eq_right_iff, hnone]
  simp only [List.cons_ne_nil, imp_false, not_and, not_not]

theorem operandDefects_eq_nil :
    operandDefects ins = [] ↔ Instruction.checkOperand ins.opcode ins.operand = .ok () := by
  unfold operandDefects
  cases Instruction.checkOperand ins.opcode ins.operand <;> simp

theorem addressDefects_eq_nil :
    arena.addressDefects order id ins = [] ↔
      ∀ cls, ins.opcode.addressClass = some cls → ∀ target, some target ∈ ins.targets.slots →
        target < arena.size ∧ target ∈ order ∧
          Bytes.FitsSigned cls.width (arena.displacement order id target) := by
  unfold addressDefects
  cases ins.opcode.addressClass with
  | none => simp
  | some cls =>
    rw [List.flatMap_eq_nil_iff]
    constructor
    · rintro hall _ ⟨⟩ target hmem
      exact slotDefects_eq_nil.1 (hall _ hmem)
    · intro hall slot hmem
      cases slot with
      | none => rfl
      | some target => exact slotDefects_eq_nil.2 (hall cls rfl target hmem)

theorem codingDefects_eq_nil (hget : arena.get id = .ok ins) :
    arena.codingDefects order id = [] ↔ arena.Codable order id ins := by
  rw [codingDefects, hget]
  dsimp only
  rw [List.append_eq_nil_iff, List.append_eq_nil_iff, unboundDefects_eq_nil, operandDefects_eq_nil,
    addressDefects_eq_nil]
  constructor
  · rintro ⟨⟨hbound, hframed⟩, hslots⟩
    refine ⟨hframed, hbound, ?_, fun cls hcls target hmem => (hslots cls hcls target hmem).2.2⟩
    intro hcls target hmem
    obtain ⟨cls, hcls⟩ := Option.ne_none_iff_exists'.1 hcls
    obtain ⟨hlt, hplaced, -⟩ := hslots cls hcls target hmem
    exact ⟨hlt, hplaced⟩
  · intro h
    refine ⟨⟨h.bound, h.framed⟩, fun cls hcls target hmem => ?_⟩
    obtain ⟨hlt, hplaced⟩ := h.known (by rw [hcls]; exact Option.some_ne_none cls) target hmem
    exact ⟨hlt, hplaced, h.fits cls hcls target hmem⟩

theorem defects_eq_nil : arena.defects order = [] ↔ arena.Linkable order := by
  rw [defects, List.append_eq_nil_iff, layoutDefects_eq_nil, List.flatMap_eq_nil_iff]
  constructor
  · rintro ⟨⟨hknown, ⟨honce, -⟩, hstarts⟩, hcoding⟩
    refine ⟨hknown, honce, hstarts, fun id hid ins hget => ?_⟩
    exact (codingDefects_eq_nil hget).1 (hcoding id hid)
  · intro h
    refine ⟨⟨h.known, ⟨h.once, fun _ _ => List.not_mem_nil⟩, h.starts⟩, fun id hid => ?_⟩
    obtain ⟨ins, hget⟩ := lt_size_iff.1 (h.known id hid)
    exact (codingDefects_eq_nil hget).2 (h.codable id hid ins hget)

end Arena

namespace Link

variable {arena : Arena} {order before : List InstructionId} {id : InstructionId}
  {ins : Unlinked} {s t : Linker}

def fault {α : Type} : Except CompileError α → Option CompileError
  | .ok _ => none
  | .error e => some e

def refusal {α : Type} : EStateM.Result CompileError Linker α → Option CompileError
  | .ok _ _ => none
  | .error e _ => some e

theorem fault_new {old new : Unlinked} (h : old.Relinked new) :
    fault (CompileError.lift (Instruction.new new.opcode new.operand)) =
      (Arena.operandDefects old).head? := by
  have hcheck : Instruction.checkOperand new.opcode new.operand =
      Instruction.checkOperand old.opcode old.operand := by
    rw [Instruction.checkOperand, Instruction.checkOperand, h.opcode, h.length]
  rw [Arena.operandDefects, Instruction.new, hcheck]
  cases Instruction.checkOperand old.opcode old.operand <;> rfl

/-- The linker in its first pass, when `before` is placed. -/
structure Placing (arena : Arena) (before : List InstructionId) (s : Linker) : Prop where
  relinks : arena.Relinks before s.arena
  placed : ∀ id, id ∈ s.placed ↔ id ∈ before

theorem Placing.concat {offset : Option Nat} (h : Placing arena before s)
    (hget : s.arena.get id = .ok ins) :
    Placing arena (before ++ [id])
      ⟨s.arena.set id { ins with offset := offset }, s.placed.insert id⟩ := by
  constructor
  · have hstamp : s.arena.Relinks (before ++ [id])
        (s.arena.set id { ins with offset := offset }) :=
      .set hget ((Unlinked.Relinked.refl ins).withOffset _ _)
        (List.mem_append_right before List.mem_cons_self)
    exact (h.relinks.mono (List.subset_append_left before [id])).trans hstamp
  · intro other
    rw [Std.HashSet.mem_insert, h.placed other, beq_iff_eq, List.mem_append, List.mem_singleton,
      or_comm, eq_comm]

theorem refusal_assignOffsets (rest : List InstructionId) (h : Placing arena before s) :
    refusal (assignOffsets (arena.span before) rest s) =
      (arena.layoutDefects before rest).head? := by
  induction rest generalizing before s with
  | nil => rfl
  | cons id rest ih =>
    -- The branches of the pass are the defects in the order in which they are listed.
    rw [assignOffsets_cons, Arena.layoutDefects, Arena.placingDefects, List.head?_append]
    cases hget : s.arena.get id with
    | error e =>
      obtain ⟨-, rfl⟩ := Arena.get_eq_error hget
      rw [h.relinks.get_error hget]
      rfl
    | ok ins =>
      obtain ⟨old, hold, hrelinked⟩ := h.relinks.exists_old hget
      rw [hold]
      dsimp only
      by_cases hplaced : id ∈ before
      · rw [if_pos (Std.HashSet.mem_iff_contains.1 ((h.placed id).2 hplaced)), if_pos hplaced,
          hrelinked.opcode]
        rfl
      · rw [if_neg fun hmem => hplaced ((h.placed id).1 (Std.HashSet.mem_iff_contains.2 hmem)),
          if_neg hplaced]
        by_cases hlarge : Bytes.bound 4 ≤ arena.span before
        · rw [if_pos hlarge, if_pos hlarge]
          rfl
        · rw [if_neg hlarge, if_neg hlarge, ← ih (h.concat hget), Arena.span_concat hold,
            hrelinked.size_eq]
          rfl

/-- The linker in its second pass: all of `order` is placed and has the offset where it comes to
stand, and the instructions are those of `arena` otherwise. -/
structure Settled (arena : Arena) (order : List InstructionId) (s : Linker) : Prop where
  relinks : arena.Relinks order s.arena
  placed : ∀ id, id ∈ s.placed ↔ id ∈ order
  start : ∀ id ins, id ∈ order → s.arena.get id = .ok ins →
    ins.offset = some (arena.startOf order id)

theorem Stamps.startOf {linker : Linker} (h : Stamps 0 order linker t) (hid : id ∈ order)
    (hget : t.arena.get id = .ok ins) : ins.offset = some (linker.arena.startOf order id) := by
  obtain ⟨front, behind, hsplit⟩ := List.append_of_mem hid
  have hnodup := h.nodup
  rw [hsplit, List.nodup_append] at hnodup
  have hfront : order.takeWhile (· ≠ id) = front := by
    have hne : ∀ other ∈ front, decide (other ≠ id) = true := fun other hmem =>
      decide_eq_true (hnodup.2.2 other hmem id List.mem_cons_self)
    rw [hsplit, List.takeWhile_append_of_pos hne, List.takeWhile_cons_of_neg (by simp),
      List.append_nil]
  obtain ⟨old, -, hstamped⟩ := h.stamped front id behind hsplit
  rw [hget] at hstamped
  cases hstamped
  rw [Arena.startOf, hfront, Nat.zero_add]

theorem settled_of_assignOffsets {length : Nat}
    (h : assignOffsets 0 order { arena } = .ok length t) : Settled arena order t := by
  obtain ⟨-, hstamps⟩ := assignOffsets_ok h
  have hrelinks := assignOffsets_relinks 0 order { arena }
  rw [h] at hrelinks
  refine ⟨hrelinks, ?_, fun _ _ hid hget => hstamps.startOf hid hget⟩
  intro id
  rw [hstamps.placed id]
  simp

theorem length_chunks {length : Nat} {chunks : List Bytes} {t u : Linker}
    (hassign : assignOffsets 0 order s = .ok length t)
    (hencode : encodeAll [] order t = .ok chunks u) : chunks.reverse.flatten.length = length := by
  obtain ⟨rfl, hstamps⟩ := assignOffsets_ok hassign
  obtain ⟨code, hchunks, hcode⟩ := encodeAll_ok hstamps.nodup hencode
  have hextent := extent_take_code hstamps hcode order.length
  rw [List.take_length, hcode.encodes.length_eq, List.take_length] at hextent
  rw [hchunks, List.reverse_nil, List.nil_append, ← List.flatMap_def, Nat.zero_add, ← hextent]
  exact Script.length_encodeAll code

namespace Settled

variable (h : Settled arena order s)
include h

theorem store {resolved : Unlinked} (hplaced : id ∈ order) (hget : s.arena.get id = .ok ins)
    (hresolution : resolution s id ins = .ok resolved) :
    Settled arena order { s with arena := s.arena.set id resolved } := by
  obtain ⟨hrelinked, hoffset⟩ := resolution_ok hresolution
  refine ⟨h.relinks.trans (.set hget hrelinked hplaced), h.placed, ?_⟩
  intro other found hmem hfound
  by_cases heq : other = id
  · subst heq
    rw [Arena.get_set_self hget] at hfound
    cases hfound
    rw [hoffset]
    exact h.start other ins hmem hget
  · rw [Arena.get_set_of_ne heq] at hfound
    exact h.start other found hmem hfound

/-- What a slot is refused for, or the displacement that it gets. -/
theorem displacementOf_eq {opcode : Opcode} (target : InstructionId) :
    displacementOf s id opcode (arena.startOf order id) (some target) =
      if arena.size ≤ target then .error (.unknownInstruction target)
      else if target ∉ order then .error (.danglingTarget id opcode target)
      else .ok (arena.displacement order id target) := by
  rw [displacementOf]
  cases hget : s.arena.get target with
  | error e =>
    obtain ⟨hsize, rfl⟩ := Arena.get_eq_error (h.relinks.get_error hget)
    rw [if_pos hsize]
  | ok there =>
    have hlt : ¬ arena.size ≤ target := by
      rw [← h.relinks.size, Nat.not_le]
      exact Arena.lt_size_iff.2 ⟨there, hget⟩
    rw [if_neg hlt]
    dsimp only
    -- What is placed stands where it is to stand; an offset of an earlier link does not count.
    by_cases hmem : target ∈ order
    · rw [if_neg (not_not_intro hmem), h.start target there hmem hget,
        Std.HashSet.mem_iff_contains.1 ((h.placed target).2 hmem)]
      rfl
    · have hplaced : s.placed.contains target = false := by
        rw [← Bool.not_eq_true, ← Std.HashSet.mem_iff_contains, h.placed target]
        exact hmem
      rw [if_pos hmem, hplaced]
      cases there.offset <;> rfl

theorem head?_slotDefects {opcode : Opcode} {cls : AddressClass} (slot : Option InstructionId) :
    (arena.slotDefects order id opcode cls.width slot).head? =
      match displacementOf s id opcode (arena.startOf order id) slot with
      | .error e => some e
      | .ok d =>
        if Bytes.FitsSigned cls.width d then none
        else some (.displacementRange id opcode (arena.startOf order id) d) := by
  cases slot with
  | none =>
    have hzero : Bytes.FitsSigned cls.width 0 := by cases cls <;> decide
    exact (if_pos hzero).symm
  | some target =>
    rw [Arena.slotDefects, h.displacementOf_eq]
    by_cases hsize : arena.size ≤ target
    · rw [if_pos hsize, if_pos hsize]
      rfl
    · rw [if_neg hsize, if_neg hsize]
      by_cases hmem : target ∈ order
      · rw [if_neg (not_not_intro hmem), if_neg (not_not_intro hmem)]
        dsimp only
        split <;> rfl
      · rw [if_pos hmem, if_pos hmem]
        rfl

theorem fault_fill {index : Nat} {concrete : Instruction} {cls : AddressClass}
    {slots : List (Option InstructionId)} (hcls : concrete.opcode.addressClass = some cls)
    (hroom : index + slots.length ≤ cls.count) :
    fault (fill s id (arena.startOf order id) cls.width index concrete slots) =
      (slots.flatMap (arena.slotDefects order id concrete.opcode cls.width)).head? := by
  -- Slots are written in order, so the first defect is the one that shows.
  induction slots generalizing index concrete with
  | nil => rfl
  | cons slot slots ih =>
    rw [List.length_cons] at hroom
    rw [fill, List.flatMap_cons, List.head?_append, h.head?_slotDefects]
    cases displacementOf s id concrete.opcode (arena.startOf order id) slot with
    | error e => rfl
    | ok d =>
      dsimp only
      by_cases hfits : Bytes.FitsSigned cls.width d
      · have hindex : index < cls.count := by omega
        have hrest : index + 1 + slots.length ≤ cls.count := by omega
        have hwrite := Instruction.writeAddress_eq_ok_iff.2 ⟨cls, hcls, hindex, hfits, rfl⟩
        rw [if_pos hfits, if_pos hfits, hwrite, Option.none_or]
        exact ih (by exact hcls) hrest
      · rw [if_neg hfits, if_neg hfits]
        rfl

theorem fault_fill_slots {old : Unlinked} {cls : AddressClass} (hshaped : old.Shaped)
    (hcls : old.opcode.addressClass = some cls) (operand : Bytes) :
    fault (fill s id (arena.startOf order id) cls.width 0 ⟨old.opcode, operand, 0⟩
      old.targets.slots) = (arena.addressDefects order id old).head? := by
  have hslots := hshaped.slots
  rw [hcls] at hslots
  have hroom : 0 + old.targets.slots.length ≤ cls.count := by
    rw [Nat.zero_add, hslots]
    exact Nat.le_refl _
  rw [Arena.addressDefects, hcls]
  exact h.fault_fill hcls hroom

/-- Coding an instruction stops at its first defect. -/
theorem head?_codingDefects (hshaped : ∀ id ins, arena.get id = .ok ins → ins.Shaped)
    (hplaced : id ∈ order) (hget : s.arena.get id = .ok ins) :
    (arena.codingDefects order id).head? =
      match resolution s id ins with
      | .error e => some e
      | .ok resolved =>
        fault (CompileError.lift (Instruction.new resolved.opcode resolved.operand)) := by
  obtain ⟨old, hold, hrelinked⟩ := h.relinks.exists_old hget
  have hwell := hshaped id old hold
  rw [Arena.codingDefects, hold]
  dsimp only
  rw [resolution, h.start id ins hplaced hget, hrelinked.opcode, hrelinked.targets]
  cases hcls : old.opcode.addressClass with
  | none =>
    have hbound : Arena.unboundDefects id old = [] := if_neg fun hand => hand.1 hcls
    rw [hbound, Arena.addressDefects, hcls, List.nil_append, List.append_nil]
    exact (fault_new hrelinked).symm
  | some cls =>
    have hempty : ¬ old.targets.slots.isEmpty := by
      rw [List.isEmpty_iff]
      exact hwell.slots_ne_nil hcls
    dsimp only
    rw [if_neg hempty]
    by_cases hunbound : old.targets.slots.all Option.isNone
    · have hclass : old.opcode.addressClass ≠ none := by
        rw [hcls]
        exact Option.some_ne_none cls
      rw [if_pos hunbound, Arena.unboundDefects, if_pos ⟨hclass, hunbound⟩]
      rfl
    · have hbound : Arena.unboundDefects id old = [] := if_neg fun hand => hunbound hand.2
      rw [if_neg hunbound, hbound, List.nil_append, List.head?_append, ← fault_new hrelinked,
        hrelinked.opcode]
      cases hnew : Instruction.new old.opcode ins.operand with
      | error cause => rfl
      | ok concrete =>
        obtain ⟨rfl, hframed⟩ := Instruction.new_eq_ok_iff.1 hnew
        dsimp only
        rw [← h.fault_fill_slots hwell hcls ins.operand]
        cases hwritten : fill s id (arena.startOf order id) cls.width 0
            ⟨old.opcode, ins.operand, 0⟩ old.targets.slots with
        | error e => rfl
        | ok written =>
          -- What is written into the slots leaves the operand at its size.
          obtain ⟨-, hlength, -⟩ := fill_ok hframed hcls hwritten
          rcases Instruction.new_congr hlength with ⟨cause, hcause, -⟩ | ⟨-, hagain⟩
          · rw [hnew] at hcause
            cases hcause
          · simp only [hagain]
            rfl

theorem refusal_encodeAll {done : List Bytes} {rest : List InstructionId}
    (hshaped : ∀ id ins, arena.get id = .ok ins → ins.Shaped) (hrest : rest ⊆ order)
    (hknown : ∀ id ∈ order, id < arena.size) :
    refusal (encodeAll done rest s) = (rest.flatMap (arena.codingDefects order)).head? := by
  -- The pass stores what it resolves; the linker stays settled, so later defects are the same.
  induction rest generalizing done s with
  | nil => rfl
  | cons id rest ih =>
    obtain ⟨hplaced, hrest⟩ := List.cons_subset.1 hrest
    obtain ⟨ins, hget⟩ : ∃ ins, s.arena.get id = .ok ins :=
      Arena.lt_size_iff.1 (h.relinks.size ▸ hknown id hplaced)
    rw [encodeAll_cons, hget, List.flatMap_cons, List.head?_append,
      h.head?_codingDefects hshaped hplaced hget]
    dsimp only
    cases hresolution : resolution s id ins with
    | error e => rfl
    | ok resolved =>
      dsimp only
      cases Instruction.new resolved.opcode resolved.operand with
      | error cause => rfl
      | ok concrete => exact ih (h.store hplaced hget hresolution) hrest

end Settled

/-- A run fails with the first defect of its order. -/
theorem refusal_run (hshaped : ∀ id ins, arena.get id = .ok ins → ins.Shaped)
    (order : List InstructionId) : refusal (run order { arena }) = (arena.defects order).head? := by
  have hstart : Placing arena [] { arena } := ⟨.refl [] arena, by simp⟩
  have hfirst : refusal (assignOffsets 0 order { arena }) = (arena.layoutDefects [] order).head? :=
    refusal_assignOffsets order hstart
  rw [run_eq, Arena.defects, List.head?_append, ← hfirst]
  cases hassign : assignOffsets 0 order { arena } with
  | error e t => rfl
  | ok length t =>
    rw [hassign] at hfirst
    -- The layout has no defect, so all ids are known and only the code can be refused.
    have hlayout : arena.layoutDefects [] order = [] := List.head?_eq_none_iff.1 hfirst.symm
    have hsecond : refusal (encodeAll [] order t) = _ :=
      (settled_of_assignOffsets hassign).refusal_encodeAll hshaped (List.Subset.refl order)
        ((Arena.layoutDefects_eq_nil [] order).1 hlayout).1
    rw [refusal, Option.none_or, ← hsecond]
    dsimp only
    cases hencode : encodeAll [] order t with
    | error e u => rfl
    | ok chunks u =>
      dsimp only
      rw [if_pos (length_chunks hassign hencode)]
      rfl

end Link

namespace Arena

variable {arena linked : Arena} {order : List InstructionId} {script : Bytes}

theorem fault_link (hshaped : ∀ id ins, arena.get id = .ok ins → ins.Shaped)
    (order : List InstructionId) :
    Link.fault (arena.link order).1 = (arena.defects order).head? := by
  rw [← Link.refusal_run hshaped, link]
  cases Link.run order { arena } <;> rfl

/-- A link records where its instructions come to stand. -/
theorem offset?_link (h : arena.link order = (.ok script, linked)) {id : InstructionId}
    (hid : id ∈ order) : linked.offset? id = some (arena.startOf order id) := by
  unfold link at h
  split at h
  · rename_i bytes s hrun
    cases h
    obtain ⟨t, code, hstamps, hcode, -, -⟩ := Link.run_ok hrun
    obtain ⟨front, behind, hsplit⟩ := List.append_of_mem hid
    obtain ⟨old, -, hstamped⟩ := hstamps.stamped front id behind hsplit
    rw [hcode.offset, offset?, hstamped]
    exact hstamps.startOf hid hstamped
  · cases h

/-- `ins` stands where `id` is to stand and leads from there to the targets of `old`. -/
structure Coded (arena : Arena) (order : List InstructionId) (id : InstructionId) (old : Unlinked)
    (ins : Instruction) : Prop where
  opcode : ins.opcode = old.opcode
  offset : ins.offset = arena.startOf order id
  address : old.opcode.addressClass ≠ none →
    ∀ i target, old.targets.slots[i]? = some (some target) →
      ins.readAddress i = .ok (arena.displacement order id target)

theorem link_coded (h : arena.link order = (.ok script, linked)) :
    ∃ decoded, Script.instructionsOf script = .ok decoded ∧
      List.Forall₂ (fun id ins => ∃ old, arena.get id = .ok old ∧ arena.Coded order id old ins)
        order decoded := by
  obtain ⟨-, decoded, hdecoded, hemits⟩ := link_emits h
  have hoffset {id : InstructionId} {ins : Instruction} (hid : id ∈ order)
      (hrecorded : linked.offset? id = some ins.offset) : ins.offset = arena.startOf order id := by
    rw [offset?_link h hid] at hrecorded
    exact (Option.some.inj hrecorded).symm
  have hmem := (List.forall₂_and_left order decoded).2 ⟨fun _ hmem => hmem, hemits⟩
  refine ⟨decoded, hdecoded, hmem.imp ?_⟩
  rintro id ins ⟨hid, old, hold, hrecorded, hcode⟩
  refine ⟨old, hold, hcode.opcode, hoffset hid hrecorded, fun hcls i target hslot => ?_⟩
  -- The target has its own place in the code, at the offset that was recorded for it.
  obtain ⟨j, there, d, hj, hthere, hread, hsum⟩ := hcode.bound hcls i target hslot
  obtain ⟨found, hfound, -, -, hrecorded', -⟩ := forall₂_getElem? hemits hj
  rw [hthere] at hfound
  cases hfound
  have htarget := hoffset (List.mem_of_getElem? hj) hrecorded'
  have hd : d = arena.displacement order id target := by
    rw [displacement, ← htarget, ← hoffset hid hrecorded]
    omega
  rw [hread, hd]

/-- An order is linked if and only if nothing is wrong with it, and otherwise the error is the first
defect. When it is linked, every displacement can be read from the script as what it is. -/
theorem link_reports_first_defect {arena : Arena}
    (hall : ∀ id ins, arena.get id = .ok ins → ins.Obtained) (order : List InstructionId) :
    ((∃ script, (arena.link order).1 = .ok script) ↔ arena.Linkable order) ∧
    (∀ e, (arena.link order).1 = .error e ↔ (arena.defects order).head? = some e) ∧
    ∀ script, (arena.link order).1 = .ok script →
      ∃ decoded, Script.instructionsOf script = .ok decoded ∧
        List.Forall₂ (fun id ins => ∃ old, arena.get id = .ok old ∧ arena.Coded order id old ins)
          order decoded := by
  have hfault := fault_link (fun id ins hget => (hall id ins hget).shaped) order
  refine ⟨?_, ?_, fun script hscript => link_coded (Prod.ext hscript rfl)⟩
  · rw [← defects_eq_nil, ← List.head?_eq_none_iff, ← hfault]
    cases (arena.link order).1 <;> simp [Link.fault]
  · intro e
    rw [← hfault]
    cases (arena.link order).1 <;> simp [Link.fault]

/-- A jump to the end can be linked. A scope in front of it has one target that is not known and one
that is not placed, but if the scope is placed twice then this is what is reported. -/
theorem link_reports_first_defect_scope :
    Linkable ⟨#[.new .ret, ⟨.jmp, [0], .single (some 0), none⟩,
      ⟨.tryScope, [0, 0], .dual (some 5) (some 0), none⟩]⟩ [1, 0] ∧
    (link ⟨#[.new .ret, ⟨.jmp, [0], .single (some 0), none⟩,
      ⟨.tryScope, [0, 0], .dual (some 5) (some 0), none⟩]⟩ [2, 1]).1 =
      .error (.unknownInstruction 5) ∧
    (link ⟨#[.new .ret, ⟨.jmp, [0], .single (some 0), none⟩,
      ⟨.tryScope, [0, 0], .dual (some 5) (some 0), none⟩]⟩ [2, 1, 2]).1 =
      .error (.duplicatePlacement 2 .tryScope) := by
  have hall (id : InstructionId) (ins : Unlinked)
      (hget : get ⟨#[.new .ret, ⟨.jmp, [0], .single (some 0), none⟩,
        ⟨.tryScope, [0, 0], .dual (some 5) (some 0), none⟩]⟩ id = .ok ins) : ins.Obtained := by
    rcases id with _ | _ | _ | id
    · cases hget
      exact .new .ret
    · cases hget
      exact .branch (show Unlinked.branch .jmp 0 = .ok _ from rfl)
    · cases hget
      exact .tryScope (show Unlinked.tryScope .tryScope (some 5) (some 0) = .ok _ from rfl)
    · cases hget
  refine ⟨?_, ?_, ?_⟩
  · exact (link_reports_first_defect hall [1, 0]).1.1 ⟨[0x22, 2, 0x40], by cbv⟩
  · exact ((link_reports_first_defect hall [2, 1]).2.1 _).2 (by decide)
  · exact ((link_reports_first_defect hall [2, 1, 2]).2.1 _).2 (by decide)

end Arena
end ContractLinker
