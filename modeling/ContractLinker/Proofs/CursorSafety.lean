import Mathlib
import ContractLinker.Proofs.Fields
import ContractLinker.Proofs.ScriptCodec
import ContractLinker.Token

namespace ContractLinker

/-- The cursor that stands at `position` in `data`. -/
def Cursor.into (data : Bytes) (position : Nat) : Cursor := ⟨position, data.drop position⟩

/-- Where the cursor stands after a read, successful or not. -/
def Read.stop {α : Type} (read : Read α) (c : Cursor) : Cursor :=
  match read c with
  | .ok _ t => t
  | .error _ t => t

def CodecError.IsShortage : CodecError → Prop
  | .unexpectedEnd .. => True
  | _ => False

/-- What a reader does, step by step. It never reports a shortage of its own accord. -/
inductive Plan (α : Type) where
  | done (a : α)
  | refuse (cause : CodecError) (other : ¬ cause.IsShortage)
  | look (next : (position remaining : Nat) → Plan α)
  | ask (size : Nat) (next : Bytes → Plan α)

/-- A question for `size` bytes at `position`, and what was given. -/
structure Ask where
  position : Nat
  size : Nat
  given : Option Bytes
  deriving DecidableEq, Repr

namespace Plan

variable {α β : Type}

def run : Plan α → Read α
  | .done a => pure a
  | .refuse cause _ => throw cause
  | .look next => fun c => (next c.position c.rest.length).run c
  | .ask size next => Read.bytes size >>= fun b => (next b).run

/-- The questions that come up on the way, in their order. -/
def asks : Plan α → Cursor → List Ask
  | .done _, _ => []
  | .refuse _ _, _ => []
  | .look next, c => (next c.position c.rest.length).asks c
  | .ask size next, c =>
    match Read.bytes size c with
    | .ok b t => ⟨c.position, size, some b⟩ :: (next b).asks t
    | .error _ _ => [⟨c.position, size, none⟩]

def bind : Plan α → (α → Plan β) → Plan β
  | .done a, f => f a
  | .refuse cause other, _ => .refuse cause other
  | .look next, f => .look fun position remaining => (next position remaining).bind f
  | .ask size next, f => .ask size fun b => (next b).bind f

theorem run_bind (plan : Plan α) (f : α → Plan β) :
    (plan.bind f).run = plan.run >>= fun a => (f a).run := by
  induction plan with
  | done a => rfl
  | refuse cause other => rfl
  | look next ih =>
    funext c
    exact congrFun (ih c.position c.rest.length) c
  | ask size next ih =>
    funext c
    simp only [bind, run, bind_apply, ih]
    cases Read.bytes size c <;> rfl

end Plan

/-- There is a plan that `read` follows, whatever the data. -/
def Planned {α : Type} (read : Read α) : Prop := ∃ plan : Plan α, plan.run = read

namespace Planned

variable {α β : Type} {m m' : Read α} {f : α → Read β} {a : α}

theorem pure : Planned (pure a : Read α) := ⟨.done a, rfl⟩

theorem refuse {e : CodecError} (h : ¬ e.IsShortage) : Planned (throw e : Read α) :=
  ⟨.refuse e h, rfl⟩

theorem reject {cause : FormatError} : Planned (Read.refuse cause : Read α) := refuse id

theorem look {k : Nat → Nat → Read α} (h : ∀ position remaining, Planned (k position remaining)) :
    Planned fun c => k c.position c.rest.length c := by
  choose plan hplan using h
  refine ⟨.look plan, ?_⟩
  funext c
  exact congrFun (hplan c.position c.rest.length) c

theorem bind (h : Planned m) (hf : ∀ a, Planned (f a)) : Planned (m >>= f) := by
  obtain ⟨plan, rfl⟩ := h
  choose next hnext using hf
  refine ⟨plan.bind next, ?_⟩
  simp only [Plan.run_bind, hnext]

theorem ite {p : Prop} [Decidable p] (h : Planned m) (h' : Planned m') :
    Planned (if p then m else m') := by
  by_cases hp : p
  · rwa [if_pos hp]
  · rwa [if_neg hp]

theorem bytes {size : Nat} : Planned (Read.bytes size) := by
  refine ⟨.ask size .done, ?_⟩
  funext c
  simp only [Plan.run, bind_apply]
  cases Read.bytes size c <;> rfl

theorem natLE {width : Nat} : Planned (Read.natLE width) := .bind bytes fun _ => pure

theorem byte : Planned Read.byte := .bind natLE fun _ => pure

theorem varInt {max : Nat} : Planned (Read.varInt max) := by
  have hpayload (first : UInt8) : Planned (Read.payload first) :=
    .ite natLE (.ite natLE (.ite natLE pure))
  rw [Read.varInt_eq]
  apply Planned.bind byte
  intro first
  apply Planned.bind (hpayload first)
  intro value
  exact .ite reject pure

theorem varBytes {max : Nat} : Planned (Read.varBytes max) := .bind varInt fun _ => bytes

theorem varText {max : Nat} : Planned (Read.varText max) := by
  apply Planned.bind varBytes
  intro b
  cases Utf8.decode b with
  | ok text => exact pure
  | error cause => exact reject

end Planned

theorem Token.validate_error {t : Token} {e : CodecError} (h : t.validate = .error e) :
    ¬ e.IsShortage := by
  unfold validate at h
  dsimp only at h
  split_ifs at h
  · cases h
    exact id
  · cases h
    exact id

theorem CallFlags.ofBits_error {b : UInt8} {e : CodecError} (h : ofBits b = .error e) :
    ¬ e.IsShortage := by
  unfold ofBits at h
  split at h
  · cases h
  · cases h
    exact id

theorem Token.planned_read : Planned read := by
  have hbool (b : UInt8) : Planned (if b = 0 then return false
      else if b = 1 then return true else Read.refuse (.tokenBoolean b) : Read Bool) :=
    .ite .pure (.ite .pure .reject)
  unfold read readHash readBool
  apply Planned.bind (.bind .bytes fun _ => .pure)
  intro hash
  apply Planned.bind .varText
  intro method
  apply Planned.bind .natLE
  intro count
  apply Planned.bind (.bind .byte hbool)
  intro returns
  apply Planned.bind .byte
  intro flagBits
  dsimp only
  cases hvalid : validate ⟨hash, method, UInt16.ofNat count, returns, {}⟩ with
  | error e => exact .refuse (validate_error hvalid)
  | ok =>
    cases hflags : CallFlags.ofBits flagBits with
    | error e => exact .refuse (CallFlags.ofBits_error hflags)
    | ok flags => exact .pure

namespace Instruction

def readOpcode (start : Nat) : Read (Option Instruction) := do
  let byte ← Read.byte
  match Opcode.ofByte? byte with
  | none => throw (.invalidOpcode byte start)
  | some opcode => readOperand start opcode

/-- The look at the cursor, and what follows it. -/
theorem read_eq_look :
    read = fun c => (if c.rest.length = 0 then pure none else readOpcode c.position) c := by
  funext c
  cases hrest : c.rest with
  | nil => exact read_of_rest_nil hrest
  | cons byte rest =>
    have hbyte : Read.byte c = .ok byte ⟨c.position + 1, rest⟩ :=
      Read.byte_eq_ok_iff.2 ⟨hrest, rfl⟩
    rw [read_cons hrest, if_neg (by simp), readOpcode, bind_of_ok hbyte]
    cases Opcode.ofByte? byte <;> rfl

theorem planned_readOperand (start : Nat) (opcode : Opcode) :
    Planned (readOperand start opcode) := by
  have hlength : Planned (readLength opcode) := by
    unfold readLength
    cases opcode.framing with
    | fixed size => exact .pure
    | counted width => exact .natLE
  exact .bind hlength fun _ => .bind .bytes fun _ => .pure

theorem planned_readOpcode (start : Nat) : Planned (readOpcode start) := by
  apply Planned.bind .byte
  intro byte
  cases Opcode.ofByte? byte with
  | none => exact .refuse id
  | some opcode => exact planned_readOperand start opcode

theorem planned_read : Planned read := by
  rw [read_eq_look]
  apply Planned.look (k := fun position remaining =>
    if remaining = 0 then pure none else readOpcode position)
  intro position remaining
  exact .ite .pure (planned_readOpcode position)

end Instruction

inductive Piece where
  | byte
  | word (width : Nat)
  | bytes (size : Nat)
  | varInt (max : Nat)
  | varBytes (max : Nat)
  | varText (max : Nat)
  | instruction
  | token
  deriving DecidableEq, Repr

namespace Piece

/-- What a piece is read as; there may be no instruction left. -/
abbrev Value : Piece → Type
  | .byte => UInt8
  | .word _ | .varInt _ => Nat
  | .bytes _ | .varBytes _ => Bytes
  | .varText _ => String
  | .instruction => Option Instruction
  | .token => Token

def read : (piece : Piece) → Read piece.Value
  | .byte => Read.byte
  | .word width => Read.natLE width
  | .bytes size => Read.bytes size
  | .varInt max => Read.varInt max
  | .varBytes max => Read.varBytes max
  | .varText max => Read.varText max
  | .instruction => Instruction.read
  | .token => Token.read

/-- Where the cursor stands after some pieces were tried one after the other. -/
def tryAll (pieces : List Piece) (c : Cursor) : Cursor :=
  pieces.foldl (fun c piece => piece.read.stop c) c

theorem planned_read (piece : Piece) : Planned piece.read := by
  cases piece with
  | byte => exact .byte
  | word width => exact .natLE
  | bytes size => exact .bytes
  | varInt max => exact .varInt
  | varBytes max => exact .varBytes
  | varText max => exact .varText
  | instruction => exact Instruction.planned_read
  | token => exact Token.planned_read

end Piece

section Data

variable {α : Type} {data : Bytes} {position size : Nat}

/-- A question can be answered exactly when it does not reach past the end of the data. -/
theorem Read.bytes_into (size : Nat) (h : position ≤ data.length) :
    Read.bytes size (.into data position) = if position + size ≤ data.length
      then .ok ((data.drop position).take size) (.into data (position + size))
      else .error (.unexpectedEnd position (position + size - data.length))
        (.into data position) := by
  have hlen : ((data.drop position).take size).length = min size (data.length - position) := by
    rw [List.length_take, List.length_drop]
  simp only [Read.bytes, Cursor.into, hlen, List.drop_drop]
  by_cases hfits : position + size ≤ data.length
  · rw [if_pos (by omega), if_pos hfits]
  · have hneeded : size - min size (data.length - position) = position + size - data.length := by
      omega
    rw [if_neg (by omega), if_neg hfits, hneeded]

namespace Plan

/-- What a plan does when it is followed from `position` on and the cursor then stands at `stop`. -/
structure Account (plan : Plan α) (data : Bytes) (position stop : Nat) : Prop where
  stops : plan.run.stop (.into data position) = .into data stop
  forward : position ≤ stop
  inside : stop ≤ data.length
  consumed : ((plan.asks (.into data position)).filterMap Ask.given).flatten =
    (data.drop position).take (stop - position)
  shortage : ∀ offset needed c,
    plan.run (.into data position) = .error (.unexpectedEnd offset needed) c →
      offset = stop ∧ 0 < needed ∧ ∃ size,
        (plan.asks (.into data position)).getLast? = some ⟨stop, size, none⟩ ∧
          data.length + needed = stop + size

variable {next : Bytes → Plan α} {stop : Nat}

theorem Account.answered (hfits : position + size ≤ data.length)
    (h : (next ((data.drop position).take size)).Account data (position + size) stop) :
    (ask size next).Account data position stop := by
  have hbytes := Read.bytes_into size (Nat.le_of_add_right_le hfits)
  rw [if_pos hfits] at hbytes
  have hrun : (ask size next).run (.into data position) =
      (next ((data.drop position).take size)).run (.into data (position + size)) :=
    bind_of_ok hbytes
  have hasks : (ask size next).asks (.into data position) =
      ⟨position, size, some ((data.drop position).take size)⟩ ::
        (next ((data.drop position).take size)).asks (.into data (position + size)) := by
    simp only [asks, hbytes]
    rfl
  have hforward := h.forward
  refine ⟨?_, by omega, h.inside, ?_, ?_⟩
  · rw [← h.stops, Read.stop, Read.stop, hrun]
  · have hsplit : stop - position = size + (stop - (position + size)) := by omega
    rw [hasks, List.filterMap_cons, List.flatten_cons, h.consumed, hsplit, List.take_add,
      List.drop_drop]
  · intro offset needed c herror
    rw [hrun] at herror
    obtain ⟨hoffset, hneeded, last, hlast, hend⟩ := h.shortage offset needed c herror
    refine ⟨hoffset, hneeded, last, ?_, hend⟩
    rw [hasks, List.getLast?_cons, hlast]
    rfl

theorem Account.unanswered (h : position ≤ data.length) (hshort : ¬ position + size ≤ data.length) :
    (ask size next).Account data position position := by
  have hbytes := Read.bytes_into size h
  rw [if_neg hshort] at hbytes
  have hrun : (ask size next).run (.into data position) =
      .error (.unexpectedEnd position (position + size - data.length)) (.into data position) := by
    rw [run, bind_apply, hbytes]
  have hasks : (ask size next).asks (.into data position) = [⟨position, size, none⟩] := by
    simp only [asks, hbytes]
    rfl
  refine ⟨?_, Nat.le_refl _, h, ?_, ?_⟩
  · rw [Read.stop, hrun]
  · simp [hasks]
  · intro offset needed c herror
    rw [hrun] at herror
    cases herror
    refine ⟨rfl, by omega, size, ?_, by omega⟩
    rw [hasks]
    rfl

/-- Every plan has an account, wherever in the data it starts. -/
theorem exists_account (plan : Plan α) (h : position ≤ data.length) :
    ∃ stop, plan.Account data position stop := by
  induction plan generalizing position with
  | done a =>
    refine ⟨position, rfl, Nat.le_refl _, h, ?_, ?_⟩
    · simp [asks]
    · intro offset needed c hrun
      cases hrun
  | refuse cause other =>
    refine ⟨position, rfl, Nat.le_refl _, h, ?_, ?_⟩
    · simp [asks]
    · intro offset needed c hrun
      cases hrun
      exact absurd trivial other
  | look next ih =>
    -- Looking moves nothing, so the account is that of what was decided.
    obtain ⟨stop, haccount⟩ := ih position (data.drop position).length h
    exact ⟨stop, haccount.stops, haccount.forward, haccount.inside, haccount.consumed,
      haccount.shortage⟩
  | ask size next ih =>
    by_cases hfits : position + size ≤ data.length
    · obtain ⟨stop, haccount⟩ := ih ((data.drop position).take size) hfits
      exact ⟨stop, haccount.answered hfits⟩
    · exact ⟨position, .unanswered h hfits⟩

end Plan

namespace Piece

theorem tryAll_concat (pieces : List Piece) (piece : Piece) (c : Cursor) :
    tryAll (pieces ++ [piece]) c = piece.read.stop (tryAll pieces c) := List.foldl_append

/-- However pieces were tried before, the cursor stands inside the data. -/
theorem exists_tryAll (pieces : List Piece) (data : Bytes) :
    ∃ position ≤ data.length, tryAll pieces (.start data) = .into data position := by
  induction pieces using List.reverseRecOn with
  | nil => exact ⟨0, Nat.zero_le _, rfl⟩
  | append_singleton pieces piece ih =>
    obtain ⟨position, hinside, hcursor⟩ := ih
    obtain ⟨plan, hplan⟩ := piece.planned_read
    obtain ⟨stop, haccount⟩ := plan.exists_account hinside
    refine ⟨stop, haccount.inside, ?_⟩
    rw [tryAll_concat, hcursor, ← hplan, haccount.stops]

/-- A piece is read by asking for bytes, according to a plan that does not depend on the data.
Whatever was tried on the data before, and whether it succeeds or not, the cursor is and stays
inside the data and does not move back, and what it moves over are the bytes that were given. If it
fails for want of bytes, it reports where it stopped and by how many bytes the data ends short of
the question that could not be answered, which was the last one. -/
theorem read_anywhere (piece : Piece) :
    ∃ plan : Plan piece.Value, plan.run = piece.read ∧ ∀ (data : Bytes) (before : List Piece),
      let c := tryAll before (.start data)
      let c' := piece.read.stop c
      c = .into data c.position ∧ c' = .into data c'.position ∧
      c.position ≤ c'.position ∧ c'.position ≤ data.length ∧
      c'.position + c'.rest.length = data.length ∧
      ((plan.asks c).filterMap Ask.given).flatten =
        (data.drop c.position).take (c'.position - c.position) ∧
      ∀ offset needed t, piece.read c = .error (.unexpectedEnd offset needed) t →
        t = c' ∧ offset = c'.position ∧ 0 < needed ∧ ∃ size,
          (plan.asks c).getLast? = some ⟨offset, size, none⟩ ∧
            offset + c'.rest.length + needed = offset + size := by
  obtain ⟨plan, hplan⟩ := piece.planned_read
  refine ⟨plan, hplan, ?_⟩
  intro data before
  -- Whatever was tried before, the plan starts somewhere inside the data.
  obtain ⟨position, hinside, hcursor⟩ := exists_tryAll before data
  obtain ⟨stop, haccount⟩ := plan.exists_account hinside
  have hstop := haccount.stops
  rw [hplan] at hstop
  simp only [hcursor, hstop]
  have hlength : (Cursor.into data stop).rest.length = data.length - stop := List.length_drop
  have hend := haccount.inside
  refine ⟨rfl, rfl, haccount.forward, hend, ?_, haccount.consumed, ?_⟩
  · rw [hlength]
    exact Nat.add_sub_cancel' hend
  · intro offset needed t herror
    have ht : t = Cursor.into data stop := by
      rw [← hstop, Read.stop, herror]
    rw [← hplan] at herror
    obtain ⟨rfl, hneeded, size, hlast, hsize⟩ := haccount.shortage offset needed t herror
    refine ⟨ht, rfl, hneeded, size, hlast, ?_⟩
    rw [hlength]
    omega

/-- A text of three bytes is cut after two of them. Before it stand an instruction and a word that
the data is too short for. -/
theorem read_anywhere_text : ∃ plan : Plan String, plan.run = Read.varText 5 ∧
    tryAll [.word 8, .instruction] (.start [0x40, 3, 0x61, 0x62]) = ⟨1, [3, 0x61, 0x62]⟩ ∧
    Read.varText 5 ⟨1, [3, 0x61, 0x62]⟩ = .error (.unexpectedEnd 2 1) ⟨2, [0x61, 0x62]⟩ ∧
    (plan.asks ⟨1, [3, 0x61, 0x62]⟩).getLast? = some ⟨2, 3, none⟩ ∧
    ((plan.asks ⟨1, [3, 0x61, 0x62]⟩).filterMap Ask.given).flatten = [3] := by
  have hbefore : tryAll [.word 8, .instruction] (.start [0x40, 3, 0x61, 0x62]) =
      ⟨1, [3, 0x61, 0x62]⟩ := rfl
  have hread : Read.varText 5 ⟨1, [3, 0x61, 0x62]⟩ =
      .error (.unexpectedEnd 2 1) ⟨2, [0x61, 0x62]⟩ := rfl
  have hstop : (Read.varText 5).stop ⟨1, [3, 0x61, 0x62]⟩ = ⟨2, [0x61, 0x62]⟩ := rfl
  obtain ⟨plan, hplan, hlaws⟩ := read_anywhere (.varText 5)
  have hlaws := hlaws [0x40, 3, 0x61, 0x62] [.word 8, .instruction]
  simp only [hbefore, read, hstop] at hlaws
  obtain ⟨-, -, -, -, -, hgiven, hshort⟩ := hlaws
  obtain ⟨-, -, -, size, hlast, hsize⟩ := hshort 2 1 _ hread
  have hthree : size = 3 := by
    have hsum : 2 + 2 + 1 = 2 + size := hsize
    omega
  exact ⟨plan, hplan, hbefore, hread, hthree ▸ hlast, hgiven⟩

end Piece

end Data

end ContractLinker
