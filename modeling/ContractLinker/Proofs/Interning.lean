import ContractLinker.Proofs.Sessions

namespace ContractLinker

namespace TokenTable

def Consistent (table : TokenTable) : Prop :=
  ∀ (token : Token) (i : Nat), table.index[token]? = some i ↔ table.tokens[i]? = some token

theorem consistent_empty : Consistent {} := by
  intro token i
  simp

/-- What can come of asking for the number of a token. -/
inductive Interned (table : TokenTable) (token : Token) :
    Outcome CompileError TokenTable (Nat × Bool) → Prop
  | known {i : Nat} (hold : table.tokens[i]? = some token) :
    Interned table token (.ok (i, false), table)
  | fresh (hnew : token ∉ table.tokens) (hroom : table.tokens.size < capacity) :
    Interned table token (.ok (table.tokens.size, true),
      ⟨table.tokens.push token, table.index.insert token table.tokens.size⟩)
  | full (hnew : token ∉ table.tokens) (hfull : capacity ≤ table.tokens.size) :
    Interned table token (.error .tokenTableOverflow, table)

namespace Consistent

variable {table : TokenTable} {token : Token} (h : table.Consistent)
include h

theorem index_eq_none_iff : table.index[token]? = none ↔ token ∉ table.tokens := by
  rw [Array.mem_iff_getElem?, not_exists, Option.eq_none_iff_forall_ne_some]
  exact forall_congr' fun i => not_congr (h token i)

theorem push (hnew : token ∉ table.tokens) :
    Consistent ⟨table.tokens.push token, table.index.insert token table.tokens.size⟩ := by
  intro other i
  rw [Std.HashMap.getElem?_insert, Array.getElem?_push]
  by_cases heq : token = other
  · subst heq
    simp only [BEq.rfl, if_true, Option.some.injEq]
    constructor
    · rintro rfl
      simp
    · intro hget
      split at hget
      · exact (‹i = table.tokens.size›).symm
      · exact absurd (Array.mem_of_getElem? hget) hnew
  · simp only [beq_iff_eq, heq, if_false, h other i]
    split
    · rename_i hi
      subst hi
      simp [heq]
    · rfl

theorem intern_of_known {i : Nat} (hold : table.tokens[i]? = some token) :
    table.intern token = (.ok (i, false), table) := by
  rw [intern, (h token i).2 hold]

theorem intern_of_room (hnew : token ∉ table.tokens) (hroom : table.tokens.size < capacity) :
    table.intern token = (.ok (table.tokens.size, true),
      ⟨table.tokens.push token, table.index.insert token table.tokens.size⟩) := by
  rw [intern, h.index_eq_none_iff.2 hnew]
  exact if_pos hroom

theorem intern_of_full (hnew : token ∉ table.tokens) (hfull : capacity ≤ table.tokens.size) :
    table.intern token = (.error .tokenTableOverflow, table) := by
  rw [intern, h.index_eq_none_iff.2 hnew]
  exact if_neg (Nat.not_lt.2 hfull)

theorem interned (token : Token) : table.Interned token (table.intern token) := by
  by_cases hmem : token ∈ table.tokens
  · obtain ⟨i, hold⟩ := Array.mem_iff_getElem?.1 hmem
    rw [h.intern_of_known hold]
    exact .known hold
  · by_cases hroom : table.tokens.size < capacity
    · rw [h.intern_of_room hmem hroom]
      exact .fresh hmem hroom
    · have hfull := Nat.le_of_not_lt hroom
      rw [h.intern_of_full hmem hfull]
      exact .full hmem hfull

end Consistent
end TokenTable

namespace Compilation

/-- What can come of adding a token. -/
inductive Interns (c : Compilation) (token : Token) : Outcome CompileError Compilation Nat → Prop
  | invalid {e : CompileError} (hvalid : token.validate ≠ .ok ()) : Interns c token (.error e, c)
  | known {i : Nat} (hvalid : token.validate = .ok ()) (hold : c.tokens.tokens[i]? = some token) :
    Interns c token (.ok i, c)
  | fresh (hvalid : token.validate = .ok ()) (hnew : token ∉ c.tokens.tokens)
    (hroom : c.tokens.tokens.size < TokenTable.capacity) :
    Interns c token (.ok c.tokens.tokens.size, { c with
      tokens := ⟨c.tokens.tokens.push token, c.tokens.index.insert token c.tokens.tokens.size⟩
      permissions := c.permissions.add token.hash.text token.method })
  | full (hvalid : token.validate = .ok ()) (hnew : token ∉ c.tokens.tokens)
    (hfull : TokenTable.capacity ≤ c.tokens.tokens.size) :
    Interns c token (.error .tokenTableOverflow, c)

theorem addToken_cases {c : Compilation} (h : c.tokens.Consistent) (token : Token) :
    c.Interns token (c.addToken token) := by
  unfold addToken
  cases hvalid : token.validate with
  | error e =>
    refine .invalid ?_
    rw [hvalid]
    exact nofun
  | ok =>
    have hinterned := h.interned token
    generalize c.tokens.intern token = result at hinterned
    cases hinterned with
    | known hold => exact .known hvalid hold
    | fresh hnew hroom => exact .fresh hvalid hnew hroom
    | full hnew hfull => exact .full hvalid hnew hfull

end Compilation
end ContractLinker
