import ContractLinker.Proofs.FirstUse
import ContractLinker.Proofs.SlotCapacity

namespace ContractLinker

/-- The slots as they are stored, each key with a byte. A number is cut to a byte when it is stored,
and later requests answer with the byte that they find. -/
structure ByteSlots where
  cells : List (String × UInt8) := []

namespace ByteSlots

def allocate (slots : ByteSlots) (key : String) : Outcome CompileError ByteSlots UInt8 :=
  match slots.cells.lookup key with
  | some byte => (.ok byte, slots)
  | none =>
    let next := slots.cells.length
    if next < StaticSlots.capacity then
      (.ok (UInt8.ofNat next), ⟨slots.cells ++ [(key, UInt8.ofNat next)]⟩)
    else (.error (.staticSlotOverflow key), slots)

def allocateAll (requests : List String) : ByteSlots := FirstUse.run allocate {} requests

end ByteSlots

namespace StaticSlots

def allocateAll (requests : List String) : StaticSlots := FirstUse.run allocate {} requests

def Gives (requests : List String) (k : Nat) (key : String) (i : Nat) : Prop :=
  requests[k]? = some key ∧ ((allocateAll (requests.take k)).allocate key).1 = .ok i

section Allocate

variable {slots : StaticSlots} {key : String} {i : Nat}

theorem step_allocate (slots : StaticSlots) (key : String) : FirstUse.Step capacity slots.keys key
    (slots.allocate key).1.toOption (slots.allocate key).2.keys := by
  rcases hresult : slots.allocate key with ⟨e | i, after⟩
  · obtain ⟨hnew, hfull, -, rfl⟩ := allocate_error hresult
    exact .full hnew hfull
  · rcases Lowering.allocate_cases hresult with ⟨hold, rfl⟩ | ⟨hnew, hroom, rfl, rfl⟩
    · exact .known hold
    · exact .fresh hnew hroom

theorem allocate_of_known (hnodup : slots.keys.Nodup) (hold : slots.keys[i]? = some key) :
    slots.allocate key = (.ok i, slots) := by
  have hunique := (step_allocate slots key).unique hnodup (.known hold)
  generalize slots.allocate key = result at hunique
  obtain ⟨answer, after⟩ := result
  obtain ⟨hanswer, hafter⟩ := hunique
  cases answer with
  | error e => cases hanswer
  | ok j =>
    cases hanswer
    cases after
    cases hafter
    rfl

theorem allocate_of_room (hnew : key ∉ slots.keys) (hroom : slots.keys.length < capacity) :
    slots.allocate key = (.ok slots.keys.length, ⟨slots.keys ++ [key]⟩) := by
  rw [allocate, get?, List.idxOf?_eq_none_iff.2 hnew]
  simp only [if_pos hroom]

theorem allocate_of_full (hnew : key ∉ slots.keys) (hfull : capacity ≤ slots.keys.length) :
    slots.allocate key = (.error (.staticSlotOverflow key), slots) := by
  rw [allocate, get?, List.idxOf?_eq_none_iff.2 hnew]
  simp only [if_neg (Nat.not_lt.2 hfull)]

end Allocate

def numbering : FirstUse.Numbering capacity allocate {} where
  keysOf := keys
  number := Except.toOption
  Valid _ := True
  keysOf_init := rfl
  valid_init := trivial
  valid_call _ _ := trivial
  step key _ := step_allocate _ key

theorem keys_allocateAll (requests : List String) :
    (allocateAll requests).keys = FirstUse.keys capacity requests :=
  numbering.keysOf_run requests

theorem nodup_allocateAll (requests : List String) : (allocateAll requests).keys.Nodup := by
  rw [keys_allocateAll]
  exact FirstUse.nodup_keys capacity requests

theorem length_allocateAll_le (requests : List String) :
    (allocateAll requests).keys.length ≤ capacity := by
  rw [keys_allocateAll]
  exact FirstUse.length_keys_le capacity requests

theorem gives_iff {requests : List String} {k i : Nat} {key : String} :
    Gives requests k key i ↔ numbering.Gives requests k key i := by
  apply and_congr_right
  intro hkey
  change _ ↔ ((allocateAll (requests.take k)).allocate key).1.toOption = some i
  cases ((allocateAll (requests.take k)).allocate key).1 <;> simp [Except.toOption]

theorem exists_gives_iff {requests : List String} {i : Nat} {key : String} :
    (∃ k, Gives requests k key i) ↔ (allocateAll requests).keys[i]? = some key := by
  rw [keys_allocateAll, ← numbering.exists_gives_iff]
  exact exists_congr fun k => gives_iff

end StaticSlots

namespace ByteSlots

/-- The bytes are the numbers of the keys, each cut to a byte. -/
def Packs (bytes : ByteSlots) (slots : StaticSlots) : Prop :=
  bytes.cells = slots.entries.map fun entry => (entry.1, UInt8.ofNat entry.2)

theorem lookup_zipIdx (keys : List String) (start : Nat) (key : String) :
    ((keys.zipIdx start).map fun entry => (entry.1, UInt8.ofNat entry.2)).lookup key =
      (keys.idxOf? key).map fun i => UInt8.ofNat (start + i) := by
  induction keys generalizing start with
  | nil => rfl
  | cons first rest ih =>
    rw [List.zipIdx_cons, List.map_cons, List.lookup_cons, ih, List.idxOf?_cons]
    by_cases heq : key = first
    · simp [heq]
    · have hne : (key == first) = false := beq_false_of_ne heq
      have hne' : (first == key) = false := beq_false_of_ne (Ne.symm heq)
      simp [hne, hne', Function.comp_def, Nat.add_assoc, Nat.add_comm 1]

variable {bytes : ByteSlots} {slots : StaticSlots}

theorem Packs.allocate (h : Packs bytes slots) (key : String) :
    (bytes.allocate key).1 = (slots.allocate key).1.map UInt8.ofNat ∧
      Packs (bytes.allocate key).2 (slots.allocate key).2 := by
  have hlookup := lookup_zipIdx slots.keys 0 key
  have hlength : bytes.cells.length = slots.keys.length := by
    rw [h, List.length_map, StaticSlots.entries, List.length_zipIdx]
  rw [← StaticSlots.entries, ← h] at hlookup
  unfold ByteSlots.allocate StaticSlots.allocate StaticSlots.get?
  rw [hlookup]
  cases slots.keys.idxOf? key with
  | some i =>
    simp only [Option.map_some, Nat.zero_add]
    exact ⟨rfl, h⟩
  | none =>
    simp only [Option.map_none, hlength]
    by_cases hroom : slots.keys.length < StaticSlots.capacity
    · simp only [if_pos hroom]
      refine ⟨rfl, ?_⟩
      simp only [Packs, StaticSlots.entries, List.zipIdx_append, List.map_append]
      rw [h]
      simp [StaticSlots.entries]
    · simp only [if_neg hroom]
      exact ⟨rfl, h⟩

theorem packs_allocateAll (requests : List String) :
    Packs (allocateAll requests) (StaticSlots.allocateAll requests) := by
  induction requests using List.reverseRecOn with
  | nil => rfl
  | append_singleton requests key ih =>
    have hnext := (ih.allocate key).2
    simpa only [allocateAll, StaticSlots.allocateAll, FirstUse.run, List.foldl_concat] using hnext

theorem cells_allocateAll (requests : List String) :
    (allocateAll requests).cells.map (fun cell => (cell.1, cell.2.toNat)) =
      (StaticSlots.allocateAll requests).entries := by
  rw [packs_allocateAll, List.map_map]
  apply (List.map_congr_left _).trans (List.map_id _)
  rintro ⟨key, i⟩ hmem
  have hlt := (List.snd_lt_of_mem_zipIdx hmem).trans_le
    (StaticSlots.length_allocateAll_le requests)
  exact congrArg (key, ·) (UInt8.toNat_ofNat_of_lt' hlt)

/-- The byte that is answered is the number itself. -/
theorem allocate_allocateAll (requests : List String) (key : String) :
    ((allocateAll requests).allocate key).1.map UInt8.toNat =
      ((StaticSlots.allocateAll requests).allocate key).1 := by
  rw [((packs_allocateAll requests).allocate key).1]
  have hstep := StaticSlots.numbering.step_run requests key
  have hanswer : StaticSlots.numbering.number
      (StaticSlots.allocate (FirstUse.run StaticSlots.allocate {} requests) key).1 =
      ((StaticSlots.allocateAll requests).allocate key).1.toOption := rfl
  rw [hanswer] at hstep
  cases hresult : ((StaticSlots.allocateAll requests).allocate key).1 with
  | error e => rfl
  | ok i =>
    rw [hresult] at hstep
    have hlt := (List.getElem?_eq_some_iff.1 hstep.getElem?_after).1
    have hle := FirstUse.length_keys_le StaticSlots.capacity (requests ++ [key])
    exact congrArg Except.ok (UInt8.toNat_ofNat_of_lt' (hlt.trans_le hle))

end ByteSlots

namespace StaticSlots

/-- The keys that have a number are the first 256 different ones, numbered from 0 on without a gap,
and each number is stored in a byte as it is. A key that was given a number is answered with it
again, without a change; a new key gets the next number while there is one, and is refused without a
change otherwise. -/
theorem allocate_run (requests : List String) :
    (allocateAll requests).keys = requests.eraseDups.take 256 ∧
    (allocateAll requests).keys.Nodup ∧
    (allocateAll requests).entries.map Prod.snd = List.range (allocateAll requests).keys.length ∧
    (ByteSlots.allocateAll requests).cells.map (fun cell => (cell.1, cell.2.toNat)) =
      (allocateAll requests).entries ∧
    ∀ key,
      (key ∈ (allocateAll requests).keys ↔ ∃ k i, Gives requests k key i) ∧
      (∀ k i, Gives requests k key i →
        (allocateAll requests).allocate key = (.ok i, allocateAll requests)) ∧
      (key ∉ (allocateAll requests).keys → (allocateAll requests).keys.length < 256 →
        (allocateAll requests).allocate key =
          (.ok (allocateAll requests).keys.length, ⟨(allocateAll requests).keys ++ [key]⟩)) ∧
      (key ∉ (allocateAll requests).keys → 256 ≤ (allocateAll requests).keys.length →
        (allocateAll requests).allocate key =
          (.error (.staticSlotOverflow key), allocateAll requests)) ∧
      ((ByteSlots.allocateAll requests).allocate key).1.map UInt8.toNat =
        ((allocateAll requests).allocate key).1 := by
  refine ⟨keys_allocateAll requests, nodup_allocateAll requests, ?_,
    ByteSlots.cells_allocateAll requests, fun key => ⟨?_, ?_, allocate_of_room, allocate_of_full,
    ByteSlots.allocate_allocateAll requests key⟩⟩
  · rw [entries, List.zipIdx_map_snd, List.range_eq_range']
  · rw [List.mem_iff_getElem?, exists_comm]
    exact exists_congr fun i => exists_gives_iff.symm
  · intro k i h
    exact allocate_of_known (nodup_allocateAll requests) (exists_gives_iff.1 ⟨k, h⟩)

/-- With all numbers given out, an old field is still found and a new one is refused. -/
theorem allocate_run_full :
    (allocateAll Compilation.allFields).keys.length = 256 ∧
      (allocateAll Compilation.allFields).allocate "0" =
        (.ok 0, allocateAll Compilation.allFields) ∧
      (allocateAll Compilation.allFields).allocate "extra" =
        (.error (.staticSlotOverflow "extra"), allocateAll Compilation.allFields) := by
  obtain ⟨hkeys, -, -, -, hcalls⟩ := allocate_run Compilation.allFields
  have hlength : (allocateAll Compilation.allFields).keys.length = 256 := by
    rw [hkeys, List.length_take, ← card_toFinset_eq, Compilation.card_allFields]
    rfl
  have hgives : Gives Compilation.allFields 0 "0" 0 := ⟨rfl, rfl⟩
  have hnew : "extra" ∉ (allocateAll Compilation.allFields).keys := by
    rw [hkeys]
    intro hmem
    have hnot : "extra" ∉ Compilation.allFields := by decide +kernel
    exact hnot (List.mem_eraseDups.1 (List.mem_of_mem_take hmem))
  exact ⟨hlength, (hcalls "0").2.1 0 0 hgives, (hcalls "extra").2.2.2.1 hnew hlength.ge⟩

end StaticSlots
end ContractLinker
