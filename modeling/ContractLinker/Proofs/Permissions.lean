import ContractLinker.Proofs.Binding
import ContractLinker.Proofs.Interning

namespace ContractLinker

theorem NameSet.allows_insert {set : NameSet} {name method : String} :
    (set.insert name).allows method ↔ set.allows method ∨ name = method ∨ name = wildcard := by
  unfold insert
  by_cases hall : name = wildcard
  · simp [hall, allows]
  · rw [if_neg hall]
    cases set with
    | all => simp [allows]
    | only names =>
      by_cases hold : name ∈ names
      · simp only [List.contains_eq_mem, hold, decide_true, if_true, allows, hall, or_false,
          decide_eq_true_eq, iff_self_or]
        rintro rfl
        exact hold
      · simp [hold, allows, hall, @eq_comm _ method name]

theorem NameSet.allows_foldl {set : NameSet} {names : List String} {method : String} :
    (names.foldl insert set).allows method ↔
      set.allows method ∨ method ∈ names ∨ wildcard ∈ names := by
  induction names generalizing set with
  | nil => simp
  | cons name names ih =>
    rw [List.foldl_cons, ih, allows_insert, List.mem_cons, List.mem_cons, eq_comm,
      @eq_comm _ wildcard]
    tauto

/-- Some permission allows the method on the contract. -/
def Permits (permissions : List Permission) (contract method : String) : Prop :=
  ∃ p ∈ permissions, p.contract = contract ∧ p.methods.allows method

theorem permits_cons {p : Permission} {rest : List Permission} {contract method : String} :
    Permits (p :: rest) contract method ↔
      (p.contract = contract ∧ p.methods.allows method) ∨ Permits rest contract method := by
  simp [Permits]

theorem permits_addTo {entries : List Permission} {contract target method : String}
    {methods : List String} :
    Permits (Permissions.addTo target methods entries) contract method ↔
      Permits entries contract method ∨
        target = contract ∧ (method ∈ methods ∨ NameSet.wildcard ∈ methods) := by
  induction entries with
  | nil =>
    rw [Permissions.addTo, permits_cons, Permissions.insertAll, NameSet.allows_foldl]
    simp [Permits, NameSet.allows]
  | cons p rest ih =>
    unfold Permissions.addTo
    split
    · rename_i heq
      rw [permits_cons, permits_cons, Permissions.insertAll, NameSet.allows_foldl, heq]
      tauto
    · rw [permits_cons, permits_cons, ih]
      tauto

def Token.Calls (token : Token) (contract method : String) : Prop :=
  token.hash.text = contract ∧ (token.method = method ∨ token.method = NameSet.wildcard)

theorem permits_add {permissions : Permissions} {token : Token} {contract method : String} :
    Permits (permissions.add token.hash.text token.method).entries contract method ↔
      Permits permissions.entries contract method ∨ token.Calls contract method := by
  rw [Permissions.add, Permissions.addAll, permits_addTo, Token.Calls, List.mem_singleton,
    List.mem_singleton, @eq_comm _ method, @eq_comm _ NameSet.wildcard]

/-- The operation asks for calls of the method on the contract. -/
def Operation.Grants (contract method : String) (c : Compilation) : Operation → Prop
  | .addPermission target methods =>
    target = contract ∧ (method ∈ methods ∨ NameSet.wildcard ∈ methods)
  | .addToken token => (∃ i, (c.addToken token).1 = .ok i) ∧ token.Calls contract method
  | _ => False

namespace Compilation

/-- Whatever the tokens in use can call is permitted. -/
structure Authorizes (c : Compilation) : Prop where
  consistent : c.tokens.Consistent
  permits : ∀ token ∈ c.tokens.tokens, ∀ contract method, token.Calls contract method →
    Permits c.permissions.entries contract method

theorem Authorizes.congr {c c' : Compilation} (h : c.Authorizes) (htokens : c'.tokens = c.tokens)
    (hpermissions : c'.permissions = c.permissions) : c'.Authorizes := by
  constructor
  · rw [htokens]
    exact h.consistent
  · rw [htokens, hpermissions]
    exact h.permits

theorem addToken_permits {c : Compilation} (h : c.Authorizes) (token : Token) :
    (c.addToken token).2.Authorizes ∧ ∀ contract method,
      Permits (c.addToken token).2.permissions.entries contract method ↔
        Permits c.permissions.entries contract method ∨
          (Operation.addToken token).Grants contract method c := by
  have hcases := addToken_cases h.consistent token
  simp only [Operation.Grants]
  generalize c.addToken token = result at hcases
  cases hcases with
  | invalid => exact ⟨h, by simp⟩
  | full => exact ⟨h, by simp⟩
  | known hvalid hold =>
    refine ⟨h, fun contract method => ?_⟩
    simp only [Except.ok.injEq, exists_eq', true_and, iff_self_or]
    exact h.permits token (Array.mem_of_getElem? hold) contract method
  | fresh hvalid hnew hroom =>
    refine ⟨⟨h.consistent.push hnew, ?_⟩, fun contract method => ?_⟩
    · intro other hother contract method hcalls
      rw [permits_add]
      rcases Array.mem_push.1 hother with hold | rfl
      · exact .inl (h.permits other hold contract method hcalls)
      · exact .inr hcalls
    · simp only [Except.ok.injEq, exists_eq', true_and, permits_add]

theorem place_calls (c : Compilation) (method : MethodId) (id : InstructionId) :
    (c.place method id).2.tokens = c.tokens ∧
      (c.place method id).2.permissions = c.permissions := by
  rcases c.place_cases method id with ⟨e, heq⟩ | ⟨-, heq⟩ <;> rw [heq] <;> exact ⟨rfl, rfl⟩

theorem perform_permits {c : Compilation} (h : c.Authorizes) (op : Operation) :
    (c.perform op).Authorizes ∧ ∀ contract method,
      Permits (c.perform op).permissions.entries contract method ↔
        Permits c.permissions.entries contract method ∨ op.Grants contract method c := by
  -- Most operations touch neither the tokens nor the permissions.
  have unchanged {c' : Compilation} (htokens : c'.tokens = c.tokens)
      (hpermissions : c'.permissions = c.permissions) : c'.Authorizes ∧ ∀ contract method,
        Permits c'.permissions.entries contract method ↔
          Permits c.permissions.entries contract method ∨ False :=
    ⟨h.congr htokens hpermissions, fun _ _ => by rw [hpermissions, or_false]⟩
  cases op with
  | addToken token => exact addToken_permits h token
  | addPermission target methods =>
    refine ⟨⟨h.consistent, ?_⟩, fun contract method => permits_addTo⟩
    intro token htoken contract method hcalls
    exact permits_addTo.2 (.inl (h.permits token htoken contract method hcalls))
  | defineMethod name =>
    simp only [perform, defineMethod]
    split <;> exact unchanged rfl rfl
  | push method ins =>
    obtain ⟨htokens, hpermissions⟩ := (c.alloc ins).2.place_calls method (c.alloc ins).1
    exact unchanged htokens hpermissions
  | place method id =>
    obtain ⟨htokens, hpermissions⟩ := c.place_calls method id
    exact unchanged htokens hpermissions
  | addStandard standard =>
    simp only [perform, addStandard]
    split <;> exact unchanged rfl rfl
  | emitInitializer =>
    simp only [perform]
    rcases c.emitInitializer_cases with
      ⟨-, heq⟩ | ⟨_, -, -, heq⟩ | ⟨-, -, -, heq⟩ | ⟨-, -, -, heq⟩ <;>
      rw [heq] <;> exact unchanged rfl rfl
  | setSource _ | alloc _ | modify _ _ | addStatic _ | exportMethod _ | exportEvent _
  | setExtra _ _ => exact unchanged rfl rfl

theorem performAll_permits {c : Compilation} (h : c.Authorizes) (ops : List Operation) :
    (c.performAll ops).Authorizes ∧ ∀ contract method,
      Permits (c.performAll ops).permissions.entries contract method ↔
        Permits c.permissions.entries contract method ∨
          Happens (fun c op => op.Grants contract method c) c ops := by
  induction ops generalizing c with
  | nil => exact ⟨h, fun _ _ => (or_iff_left happens_nil).symm⟩
  | cons op ops ih =>
    obtain ⟨hstep, hpermits⟩ := perform_permits h op
    obtain ⟨hrun, hall⟩ := ih hstep
    refine ⟨hrun, fun contract method => ?_⟩
    rw [happens_cons, ← or_assoc, ← hpermits]
    exact hall contract method

theorem session_authorizes (name : String) (ops : List Operation) :
    (session name ops).Authorizes ∧ ∀ contract method,
      Permits (session name ops).permissions.entries contract method ↔
        Happens (fun c op => op.Grants contract method c) { name } ops := by
  have hinitial : Authorizes { name } :=
    ⟨TokenTable.consistent_empty, fun _ h => absurd h (Array.not_mem_empty _)⟩
  obtain ⟨hauthorizes, hpermits⟩ := performAll_permits hinitial ops
  refine ⟨hauthorizes, fun contract method => (hpermits contract method).trans (or_iff_right ?_)⟩
  rintro ⟨p, hp, -⟩
  exact absurd hp List.not_mem_nil

/-- The manifest permits all calls of the contract's tokens and otherwise only what was asked for, and
a token is refused without a trace if its name is not valid or if all numbers are taken. -/
theorem session_permits_iff (name : String) (ops : List Operation) :
    (∀ contract, (session name ops).compile = .ok contract →
      (∀ token ∈ contract.tokens,
        Permits contract.manifest.permissions token.hash.text token.method) ∧
      ∀ target method, Permits contract.manifest.permissions target method ↔
        Happens (fun c op => op.Grants target method c) { name } ops) ∧
    ∀ token,
      ((∃ e, ((session name ops).addToken token).1 = .error e) ↔ token.validate ≠ .ok () ∨
        token ∉ (session name ops).tokens.toList ∧
          TokenTable.capacity ≤ (session name ops).tokens.toList.length) ∧
      ∀ e c, (session name ops).addToken token = (.error e, c) → c = session name ops := by
  obtain ⟨hauthorizes, hpermits⟩ := session_authorizes name ops
  constructor
  · intro contract hcompile
    obtain ⟨htokens, hmanifest⟩ := compile_manifest hcompile
    rw [htokens, hmanifest]
    refine ⟨fun token htoken => ?_, hpermits⟩
    exact hauthorizes.permits token (Array.mem_toList_iff.1 htoken) _ _ ⟨rfl, .inl rfl⟩
  · intro token
    have hcases := addToken_cases hauthorizes.consistent token
    simp only [TokenTable.toList, Array.mem_toList_iff, Array.length_toList]
    -- From here on only the four ways in which a token can be met count.
    generalize (session name ops).addToken token = result at hcases ⊢
    cases hcases with
    | invalid hvalid => simp [hvalid, eq_comm]
    | full hvalid hnew hfull => simp [hnew, hfull, eq_comm]
    | known hvalid hold => simp [hvalid, Array.mem_of_getElem? hold]
    | fresh hvalid hnew hroom => simp [hvalid, Nat.not_le_of_lt hroom]

/-- A call without parameters, for which no flag is set. -/
def plainCall (method : String) : Token := ⟨.ofBytes [], method, 0, false, {}⟩

theorem session_permits_iff_plainCall : ∃ contract,
    (session "caller" [.addToken (plainCall "_hidden"), .addToken (plainCall "transfer")]).compile =
      .ok contract ∧
    Permits contract.manifest.permissions (plainCall "transfer").hash.text "transfer" ∧
    ¬ Permits contract.manifest.permissions (plainCall "transfer").hash.text "_hidden" ∧
    session "caller" [.addToken (plainCall "_hidden")] = { name := "caller" } := by
  obtain ⟨-, hrefuse⟩ := session_permits_iff "caller" []
  obtain ⟨e, hhidden⟩ := (hrefuse (plainCall "_hidden")).1.2 (.inl (by decide))
  have hsame : session "caller" [.addToken (plainCall "_hidden")] = { name := "caller" } := by
    have hrefused := (hrefuse (plainCall "_hidden")).2 e _ (Prod.ext hhidden rfl)
    exact hrefused
  have hadded : ∃ i, ((session "caller" [.addToken (plainCall "_hidden")]).addToken
      (plainCall "transfer")).1 = .ok i := by
    have hiff := ((session_permits_iff "caller" [.addToken (plainCall "_hidden")]).2
      (plainCall "transfer")).1
    rw [hsame] at hiff ⊢
    cases hadd : (addToken { name := "caller" } (plainCall "transfer")).1 with
    | ok i => exact ⟨i, rfl⟩
    | error e =>
      rcases hiff.1 ⟨e, hadd⟩ with hvalid | ⟨-, hfull⟩
      · exact absurd rfl hvalid
      · exact absurd hfull (by decide : ¬ TokenTable.capacity ≤ 0)
  have hcompile : ∃ contract, (session "caller" [.addToken (plainCall "_hidden"),
      .addToken (plainCall "transfer")]).compile = .ok contract := by
    have hlast := addToken_code { name := "caller" } (plainCall "transfer")
    rw [show session "caller" [.addToken (plainCall "_hidden"), .addToken (plainCall "transfer")] =
      (session "caller" [.addToken (plainCall "_hidden")]).perform
        (.addToken (plainCall "transfer")) from rfl, hsame]
    simp only [compile, perform, hlast.1, hlast.2.1]
    exact ⟨_, rfl⟩
  obtain ⟨contract, hcompile⟩ := hcompile
  obtain ⟨-, hpermits⟩ := (session_permits_iff "caller" _).1 contract hcompile
  refine ⟨contract, hcompile, (hpermits _ _).2 ?_, fun h => ?_, hsame⟩
  · exact ⟨[_], _, [], rfl, hadded, rfl, .inl rfl⟩
  · rcases happens_cons.1 ((hpermits _ _).1 h) with ⟨⟨i, hok⟩, -⟩ | hlater
    · cases hok.symm.trans hhidden
    · rcases happens_cons.1 hlater with ⟨-, -, hname | hname⟩ | hnone
      · exact absurd hname (by decide)
      · exact absurd hname (by decide)
      · exact happens_nil hnone

end Compilation
end ContractLinker
