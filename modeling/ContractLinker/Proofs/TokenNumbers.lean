import ContractLinker.Proofs.FirstUse

namespace ContractLinker

theorem Token.eq_iff_fields {token token' : Token} : token = token' ↔
    token.hash = token'.hash ∧ token.method = token'.method ∧
      token.parameterCount = token'.parameterCount ∧
      token.returnsValue = token'.returnsValue ∧ token.callFlags = token'.callFlags := by
  obtain ⟨hash, method, parameterCount, returnsValue, callFlags⟩ := token
  obtain ⟨hash', method', parameterCount', returnsValue', callFlags'⟩ := token'
  exact iff_of_eq (Token.mk.injEq ..)

namespace TokenTable

def internAll (uses : List Token) : TokenTable := FirstUse.run intern {} uses

def Gives (uses : List Token) (k : Nat) (token : Token) (i : Nat) : Prop :=
  uses[k]? = some token ∧ ∃ added, ((internAll (uses.take k)).intern token).1 = .ok (i, added)

namespace Consistent

variable {table : TokenTable} {token : Token} {i : Nat} (h : table.Consistent)
include h

theorem intern (token : Token) : (table.intern token).2.Consistent := by
  have hinterned := h.interned token
  generalize table.intern token = result at hinterned
  cases hinterned with
  | known hold => exact h
  | fresh hnew hroom => exact h.push hnew
  | full hnew hfull => exact h

theorem step_intern (token : Token) : FirstUse.Step capacity table.toList token
    ((table.intern token).1.toOption.map Prod.fst) (table.intern token).2.toList := by
  have hinterned := h.interned token
  generalize table.intern token = result at hinterned
  cases hinterned with
  | known hold => exact .known (by rwa [toList, Array.getElem?_toList])
  | fresh hnew hroom =>
    rw [toList, toList, Array.toList_push]
    exact .fresh (by rwa [Array.mem_toList_iff]) hroom
  | full hnew hfull => exact .full (by rwa [toList, Array.mem_toList_iff]) hfull

theorem intern_eq_known_iff :
    table.intern token = (.ok (i, false), table) ↔ table.tokens[i]? = some token := by
  refine ⟨fun heq => ?_, h.intern_of_known⟩
  have hinterned := h.interned token
  rw [heq] at hinterned
  cases hinterned with
  | known hold => exact hold

theorem intern_eq_fresh_iff :
    table.intern token = (.ok (table.tokens.size, true),
      ⟨table.tokens.push token, table.index.insert token table.tokens.size⟩) ↔
    token ∉ table.tokens ∧ table.tokens.size < capacity := by
  refine ⟨fun heq => ?_, fun hand => h.intern_of_room hand.1 hand.2⟩
  have hinterned := h.interned token
  rw [heq] at hinterned
  cases hinterned with
  | fresh hnew hroom => exact ⟨hnew, hroom⟩

theorem intern_eq_full_iff :
    table.intern token = (.error .tokenTableOverflow, table) ↔
    token ∉ table.tokens ∧ capacity ≤ table.tokens.size := by
  refine ⟨fun heq => ?_, fun hand => h.intern_of_full hand.1 hand.2⟩
  have hinterned := h.interned token
  rw [heq] at hinterned
  cases hinterned with
  | full hnew hfull => exact ⟨hnew, hfull⟩

end Consistent

def numbering : FirstUse.Numbering capacity intern {} where
  keysOf := toList
  number answer := answer.toOption.map Prod.fst
  Valid := Consistent
  keysOf_init := rfl
  valid_init := consistent_empty
  valid_call token h := h.intern token
  step token h := h.step_intern token

theorem consistent_internAll (uses : List Token) : (internAll uses).Consistent :=
  numbering.valid_run uses

theorem toList_internAll (uses : List Token) :
    (internAll uses).tokens.toList = FirstUse.keys capacity uses :=
  numbering.keysOf_run uses

theorem gives_iff {uses : List Token} {k i : Nat} {token : Token} :
    Gives uses k token i ↔ numbering.Gives uses k token i := by
  apply and_congr_right
  intro hkey
  change _ ↔ ((internAll (uses.take k)).intern token).1.toOption.map Prod.fst = some i
  cases ((internAll (uses.take k)).intern token).1 with
  | error e => simp [Except.toOption]
  | ok answer =>
    obtain ⟨number, added⟩ := answer
    simp [Except.toOption]

section Run

variable {uses : List Token} {token : Token} {i : Nat}

/-- A token stands in the table under the number that some call has given it. -/
theorem exists_gives_iff :
    (∃ k, Gives uses k token i) ↔ (internAll uses).tokens[i]? = some token := by
  rw [← Array.getElem?_toList, toList_internAll, ← numbering.exists_gives_iff]
  exact exists_congr fun k => gives_iff

theorem notMem_internAll_iff :
    token ∉ (internAll uses).tokens ↔ ∀ k i, ¬ Gives uses k token i := by
  rw [Array.mem_iff_getElem?, not_exists, forall_comm]
  apply forall_congr'
  intro i
  rw [← exists_gives_iff, not_exists]

theorem get?_internAll_append {k : Nat} (h : Gives uses k token i) (later : List Token) :
    (internAll (uses ++ later)).get? i = some token := by
  rw [get?, ← Array.getElem?_toList, toList_internAll]
  exact (gives_iff.1 h).getElem? later

end Run

/-- The tokens of a table are all different, and its index leads back to each of them. A call for a
token that was numbered before answers with that number and changes nothing, a call for a new token
appends it while there is room, and is refused without a change otherwise. Numbers stay with their
tokens, and two calls share a number exactly if their tokens agree in every field. -/
theorem intern_run (uses : List Token) :
    (internAll uses).tokens.toList.Nodup ∧
    (∀ (token : Token) (i : Nat), (internAll uses).index[token]? = some i ↔
      (internAll uses).tokens[i]? = some token) ∧
    (∀ token,
      (∀ i, (internAll uses).intern token = (.ok (i, false), internAll uses) ↔
        ∃ k, Gives uses k token i) ∧
      ((internAll uses).intern token = (.ok ((internAll uses).tokens.size, true),
          ⟨(internAll uses).tokens.push token,
            (internAll uses).index.insert token (internAll uses).tokens.size⟩) ↔
        (∀ k i, ¬ Gives uses k token i) ∧ (internAll uses).tokens.size ≤ 65535) ∧
      ((internAll uses).intern token = (.error .tokenTableOverflow, internAll uses) ↔
        (∀ k i, ¬ Gives uses k token i) ∧ 65535 < (internAll uses).tokens.size)) ∧
    (∀ k token i, Gives uses k token i →
      ∀ later, (internAll (uses ++ later)).get? i = some token) ∧
    ∀ k k' token token' i i', Gives uses k token i → Gives uses k' token' i' →
      (i = i' ↔ token.hash = token'.hash ∧ token.method = token'.method ∧
        token.parameterCount = token'.parameterCount ∧
        token.returnsValue = token'.returnsValue ∧ token.callFlags = token'.callFlags) := by
  have hconsistent := consistent_internAll uses
  refine ⟨?_, hconsistent, ?_, ?_, ?_⟩
  · rw [toList_internAll]
    exact FirstUse.nodup_keys capacity uses
  · intro token
    refine ⟨fun i => ?_, ?_, ?_⟩
    · rw [hconsistent.intern_eq_known_iff, exists_gives_iff]
    · rw [hconsistent.intern_eq_fresh_iff, notMem_internAll_iff]
      exact and_congr_right fun _ => Nat.lt_succ_iff
    · rw [hconsistent.intern_eq_full_iff, notMem_internAll_iff]
      exact and_congr_right fun _ => Nat.succ_le_iff
  · intro k token i h later
    exact get?_internAll_append h later
  · intro k k' token token' i i' h h'
    -- Two calls share a number exactly if they are of one key.
    rw [← Token.eq_iff_fields]
    exact (gives_iff.1 h).eq_iff (gives_iff.1 h')

/-- A call that may do what `flags` say. -/
def transferToken (flags : CallFlags) : Token := ⟨.ofBytes [], "transfer", 4, true, flags⟩

/-- Two tokens that differ in their flags only, of which the first is used again. -/
theorem intern_run_flags :
    Gives [transferToken {}, transferToken { readStates := true }, transferToken {}] 0
        (transferToken {}) 0 ∧
      Gives [transferToken {}, transferToken { readStates := true }, transferToken {}] 1
        (transferToken { readStates := true }) 1 ∧
      (internAll [transferToken {}, transferToken { readStates := true }, transferToken {}]).intern
          (transferToken {}) = (.ok (0, false),
        internAll [transferToken {}, transferToken { readStates := true }, transferToken {}]) := by
  have hne : transferToken {} ≠ transferToken { readStates := true } := by
    rw [Ne, Token.eq_iff_fields]
    decide
  generalize transferToken {} = first at hne
  generalize transferToken { readStates := true } = second at hne
  have hfirst := ((intern_run []).2.2.1 first).2.1.2 ⟨by simp [Gives], Nat.zero_le _⟩
  have hsecond := ((intern_run [first]).2.2.1 second).2.1
  have hsize : (internAll [first]).tokens.size = 1 := congrArg (·.2.tokens.size) hfirst
  rw [hsize] at hsecond
  have hnew : ∀ k i, ¬ Gives [first] k second i := fun k i h =>
    hne (List.mem_singleton.1 (List.mem_of_getElem? h.1)).symm
  have hanswer := congrArg Prod.fst (hsecond.2 ⟨hnew, by decide⟩)
  have hgives : Gives [first, second, first] 0 first 0 := ⟨rfl, true, congrArg Prod.fst hfirst⟩
  exact ⟨hgives, ⟨rfl, true, hanswer⟩,
    (((intern_run [first, second, first]).2.2.1 first).1 0).2 ⟨0, hgives⟩⟩

end TokenTable
end ContractLinker
