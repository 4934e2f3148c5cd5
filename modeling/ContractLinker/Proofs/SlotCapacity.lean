import ContractLinker.Proofs.Diagnosis
import ContractLinker.Proofs.References

namespace ContractLinker

theorem StaticSlots.allocate_error {slots slots' : StaticSlots} {key : String} {e : CompileError}
    (h : slots.allocate key = (.error e, slots')) :
    key ∉ slots.keys ∧ capacity ≤ slots.keys.length ∧ e = .staticSlotOverflow key ∧
      slots' = slots := by
  unfold allocate at h
  cases hfind : slots.get? key with
  | some i =>
    rw [hfind] at h
    cases h
  | none =>
    rw [hfind] at h
    by_cases hroom : slots.keys.length < capacity
    · simp only [if_pos hroom] at h
      cases h
    · simp only [if_neg hroom] at h
      cases h
      exact ⟨List.idxOf?_eq_none_iff.1 hfind, by omega, rfl, rfl⟩

theorem StaticSlots.length_allocate_le {slots slots' : StaticSlots} {key : String} {i : Nat}
    (h : slots.allocate key = (.ok i, slots')) (hroom : slots.keys.length ≤ capacity) :
    slots'.keys.length ≤ capacity := by
  rcases Lowering.allocate_cases h with ⟨-, rfl⟩ | ⟨-, hlt, -, rfl⟩
  · exact hroom
  · rw [List.length_append, List.length_singleton]
    omega

namespace Compilation

/-- Names static fields, one after the other. -/
def addStatics (c : Compilation) : List String → Except CompileError Compilation
  | [] => .ok c
  | name :: names => do
    let (_, c) ← (c.addStatic name).onSuccess
    c.addStatics names

variable {c c' : Compilation} {named names : List String}

theorem addStatics_ok (h : c.addStatics names = .ok c')
    (hkeys : c.statics.keys = named.eraseDups) (hroom : c.statics.keys.length ≤ StaticSlots.capacity) :
    c' = { c with statics := ⟨(named ++ names).eraseDups⟩ } ∧
      (named ++ names).eraseDups.length ≤ StaticSlots.capacity := by
  induction names generalizing c named with
  | nil =>
    cases h
    rw [List.append_nil, ← hkeys]
    exact ⟨rfl, hroom⟩
  | cons name names ih =>
    obtain ⟨⟨slot, next⟩, hadd, hrest⟩ := Except.bind_eq_ok_iff.1 h
    have hadd := Outcome.onSuccess_eq_ok_iff.1 hadd
    have hallocate := addStatic_allocate hadd
    obtain ⟨hkeep, hkeys'⟩ := Lowering.addStatic_ok hadd
    have hroom' := StaticSlots.length_allocate_le hallocate hroom
    have hnext := ih hrest (hkeys' named hkeys) hroom'
    rw [hkeep] at hnext
    rwa [List.append_assoc, List.singleton_append] at hnext

theorem addStatics_error {e : CompileError} (h : c.addStatics names = .error e)
    (hkeys : c.statics.keys = named.eraseDups) :
    StaticSlots.capacity < (named ++ names).eraseDups.length ∧
      ∃ name ∈ names, e = .staticSlotOverflow name := by
  induction names generalizing c named with
  | nil => cases h
  | cons name names ih =>
    have hsplit : named ++ name :: names = named ++ [name] ++ names := List.append_cons ..
    rw [hsplit]
    rcases Except.bind_eq_error_iff.1 h with hadd | ⟨⟨slot, next⟩, hadd, hrest⟩
    · -- The fields up to the refused one are already too many.
      have herror : (c.addStatic name).1 = .error e := Outcome.onSuccess_eq_error_iff.1 hadd
      have hrefused : c.statics.allocate name = (.error e, (c.statics.allocate name).2) :=
        Prod.ext herror rfl
      obtain ⟨hnew, hle, heq, -⟩ := StaticSlots.allocate_error hrefused
      have hprefix := eraseDups_prefix (named ++ [name]) names
      have hlength := hprefix.length_le
      rw [hkeys, List.mem_eraseDups] at hnew
      rw [eraseDups_concat, if_neg hnew, List.length_append, List.length_singleton] at hlength
      rw [hkeys] at hle
      exact ⟨by omega, name, List.mem_cons_self, heq⟩
    · have hkeys' := (Lowering.addStatic_ok (Outcome.onSuccess_eq_ok_iff.1 hadd)).2 named hkeys
      obtain ⟨hmany, refused, hmem, heq⟩ := ih hrest hkeys'
      exact ⟨hmany, refused, List.mem_cons_of_mem name hmem, heq⟩

theorem addStatics_cases (title : String) (names : List String) :
    addStatics { name := title } names = .ok { name := title, statics := ⟨names.eraseDups⟩ } ∧
        names.toFinset.card ≤ StaticSlots.capacity ∨
      (∃ name ∈ names, addStatics { name := title } names = .error (.staticSlotOverflow name)) ∧
        StaticSlots.capacity < names.toFinset.card := by
  have hkeys : [] = List.eraseDups ([] : List String) := rfl
  rw [card_toFinset_eq]
  cases hadd : addStatics { name := title } names with
  | ok c =>
    obtain ⟨rfl, hle⟩ := addStatics_ok hadd hkeys (Nat.zero_le _)
    exact .inl ⟨rfl, hle⟩
  | error e =>
    obtain ⟨hmany, name, hmem, rfl⟩ := addStatics_error hadd hkeys
    exact .inr ⟨⟨name, hmem, rfl⟩, hmany⟩

section Emitting

variable (title : String) {keys : List String}

theorem emitInitializer_of_le (hsome : keys ≠ []) (hle : keys.length ≤ 255) :
    emitInitializer { name := title, statics := ⟨keys⟩ } = (.ok (some 0),
      withInitializer { name := title, statics := ⟨keys⟩ } (UInt8.ofNat keys.length)) := by
  rcases emitInitializer_cases { name := title, statics := ⟨keys⟩ } with
    ⟨hnil, -⟩ | ⟨id, -, hfind, -⟩ | ⟨-, -, hlt, -⟩ | ⟨-, -, -, heq⟩
  · exact absurd hnil hsome
  · simp [method?] at hfind
  · exact absurd hlt (Nat.not_lt.2 hle)
  · exact heq

theorem emitInitializer_of_lt (hlt : 255 < keys.length) :
    emitInitializer { name := title, statics := ⟨keys⟩ } =
      (.error (.staticSlotOverflow (toString keys.length ++ " static fields")),
        { name := title, statics := ⟨keys⟩ }) := by
  rcases emitInitializer_cases { name := title, statics := ⟨keys⟩ } with
    ⟨hnil, -⟩ | ⟨id, -, hfind, -⟩ | ⟨-, -, -, heq⟩ | ⟨-, -, hle, -⟩
  · rw [show keys = [] from hnil] at hlt
    cases hlt
  · simp [method?] at hfind
  · exact heq
  · exact absurd hlt (Nat.not_lt.2 hle)

theorem compile_withInitializer (keys : List String) (count : UInt8) :
    ∃ contract, (withInitializer { name := title, statics := ⟨keys⟩ } count).compile = .ok contract ∧
      Script.instructionsOf contract.script = .ok [⟨.initSSlot, [count], 0⟩, ⟨.ret, [], 2⟩] := by
  have hview : (withInitializer { name := title, statics := ⟨keys⟩ } count).compile.map
      Contract.script = .ok [0x56, count, 0x40] := by cbv
  obtain ⟨contract, hcompile, hscript⟩ := Except.map_eq_ok_iff.1 hview
  refine ⟨contract, hcompile, ?_⟩
  rw [hscript, Script.instructionsOf_eq_ok_iff]
  refine ⟨rfl, ⟨rfl, rfl, trivial⟩, ?_⟩
  simp only [List.forall_mem_cons]
  exact ⟨rfl, rfl, by simp⟩

end Emitting

/-- Up to 256 different fields can be named. For up to 255 the initializer is emitted and asks for as
many slots as there are fields; for 256 it is refused. -/
theorem addStatics_initializer (title : String) (names : List String) :
    ((∃ c, addStatics { name := title } names = .ok c) ↔ names.toFinset.card ≤ 256) ∧
    (256 < names.toFinset.card →
      ∃ name ∈ names, addStatics { name := title } names = .error (.staticSlotOverflow name)) ∧
    ∀ c, addStatics { name := title } names = .ok c → names ≠ [] →
      (names.toFinset.card ≤ 255 → ∃ (c' : Compilation) (count : UInt8) (contract : Contract),
        c.emitInitializer = (.ok (some 0), c') ∧ count.toNat = names.toFinset.card ∧
        c'.methods = #[⟨initializerName, #[0, 1]⟩] ∧
        c'.arena = ⟨#[⟨.initSSlot, [count], .none, none⟩, ⟨.ret, [], .none, none⟩]⟩ ∧
        c'.compile = .ok contract ∧
        Script.instructionsOf contract.script = .ok [⟨.initSSlot, [count], 0⟩, ⟨.ret, [], 2⟩]) ∧
      (names.toFinset.card = 256 →
        c.emitInitializer = (.error (.staticSlotOverflow "256 static fields"), c)) := by
  have hlength := card_toFinset_eq names
  rcases addStatics_cases title names with ⟨hadd, hle⟩ | ⟨⟨name, hmem, hrefused⟩, hmany⟩
  · have hroom : names.toFinset.card ≤ 256 := hle
    refine ⟨⟨fun _ => hroom, fun _ => ⟨_, hadd⟩⟩, by omega, ?_⟩
    intro c hok hsome
    rw [hadd] at hok
    cases hok
    -- One more field can be named than a byte can count.
    refine ⟨fun hfits => ?_, fun hfull => ?_⟩
    · have hkeys : names.eraseDups ≠ [] := by
        cases names with
        | nil => exact absurd rfl hsome
        | cons name names => simp [List.eraseDups_cons]
      rw [hlength] at hfits
      obtain ⟨contract, hcompile, hscript⟩ :=
        compile_withInitializer title names.eraseDups (UInt8.ofNat names.eraseDups.length)
      refine ⟨_, _, contract, emitInitializer_of_le title hkeys hfits, ?_, rfl, rfl, hcompile, hscript⟩
      rw [hlength]
      exact UInt8.toNat_ofNat_of_lt' (Nat.lt_succ_of_le hfits)
    · rw [hlength] at hfull
      have hlt : 255 < names.eraseDups.length := by omega
      rw [emitInitializer_of_lt title hlt, hfull]
      rfl
  · have hover : 256 < names.toFinset.card := hmany
    rw [hrefused]
    exact ⟨⟨by simp, by omega⟩, fun _ => ⟨name, hmem, rfl⟩, by simp⟩

theorem addStatics_initializer_repeated : ∃ c c' contract,
    addStatics { name := "pair" } ["owner", "count", "owner"] = .ok c ∧
      c.emitInitializer = (.ok (some 0), c') ∧ c'.compile = .ok contract ∧
      Script.instructionsOf contract.script = .ok [⟨.initSSlot, [2], 0⟩, ⟨.ret, [], 2⟩] := by
  have hcard : ["owner", "count", "owner"].toFinset.card = 2 := by decide
  obtain ⟨hadds, -, hemits⟩ := addStatics_initializer "pair" ["owner", "count", "owner"]
  rw [hcard] at hadds hemits
  obtain ⟨c, hadd⟩ := hadds.2 (by decide)
  obtain ⟨c', count, contract, hemit, hcount, -, -, hcompile, hscript⟩ :=
    (hemits c hadd (by simp)).1 (by decide)
  have hbyte : count = 2 := UInt8.toNat_inj.1 hcount
  rw [hbyte] at hscript
  exact ⟨c, c', contract, hadd, hemit, hcompile, hscript⟩

/-- As many fields as can be numbered. -/
def allFields : List String := (List.range 256).map Nat.repr

theorem card_allFields : allFields.toFinset.card = 256 := by
  rw [allFields, List.toFinset_card_of_nodup, List.length_map, List.length_range]
  exact List.nodup_range.map fun _ _ => Nat.repr_injective

theorem initializer_refuses_all_fields : ∃ c, addStatics { name := "full" } allFields = .ok c ∧
    c.emitInitializer = (.error (.staticSlotOverflow "256 static fields"), c) := by
  have hadd := (addStatics_cases "full" allFields).resolve_right fun hand => by
    have hmany : 256 < allFields.toFinset.card := hand.2
    have hcard := card_allFields
    omega
  refine ⟨_, hadd.1, ?_⟩
  have hlength : allFields.eraseDups.length = 256 := by rw [← card_toFinset_eq, card_allFields]
  have hlt : 255 < allFields.eraseDups.length := by omega
  rw [emitInitializer_of_lt "full" hlt, hlength]
  rfl

end Compilation
end ContractLinker
