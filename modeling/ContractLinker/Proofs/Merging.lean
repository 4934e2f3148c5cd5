import ContractLinker.Proofs.Lowering
import ContractLinker.Proofs.Permissions

namespace ContractLinker

namespace NameSet

/-- The set that a list of names stands for; each name counts where it is mentioned first. -/
def ofNames (names : List String) : NameSet :=
  if wildcard ∈ names then .all else .only names.eraseDups

theorem insert_ofNames (names : List String) (name : String) :
    (ofNames names).insert name = ofNames (names ++ [name]) := by
  unfold ofNames insert
  by_cases hname : name = wildcard
  · simp [hname]
  · by_cases hall : wildcard ∈ names
    · simp [hall, hname]
    · have hboth : wildcard ∉ names ++ [name] := by simpa [hall] using Ne.symm hname
      simp only [if_neg hname, if_neg hall, if_neg hboth, eraseDups_concat, List.contains_eq_mem,
        List.mem_eraseDups, decide_eq_true_eq]
      split <;> rfl

theorem foldl_insert_ofNames (names more : List String) :
    more.foldl insert (ofNames names) = ofNames (names ++ more) := by
  induction more generalizing names with
  | nil => rw [List.append_nil, List.foldl_nil]
  | cons name more ih =>
    rw [List.foldl_cons, insert_ofNames, ih, List.append_assoc, List.singleton_append]

theorem allows_ofNames {names : List String} {name : String} :
    (ofNames names).allows name ↔ name ∈ names ∨ wildcard ∈ names := by
  unfold ofNames
  by_cases hall : wildcard ∈ names
  · simp [hall, allows]
  · simp [hall, allows]

end NameSet

namespace Permissions

inductive Request where
  | one (contract method : String)
  | several (contract : String) (methods : List String)
  deriving DecidableEq, Repr

def Request.contract : Request → String
  | .one contract _ | .several contract _ => contract

def Request.methods : Request → List String
  | .one _ method => [method]
  | .several _ methods => methods

def grant (ps : Permissions) : Request → Permissions
  | .one contract method => ps.add contract method
  | .several contract methods => ps.addAll contract methods

def ofRequests (requests : List Request) : Permissions := requests.foldl grant {}

/-- The methods of a contract that were asked for, one request after the other. -/
def requested (contract : String) (requests : List Request) : List String :=
  requests.flatMap fun r => if r.contract = contract then r.methods else []

variable {requests others : List Request} {contract method : String}

theorem mem_requested :
    method ∈ requested contract requests ↔
      ∃ r ∈ requests, r.contract = contract ∧ method ∈ r.methods := by
  unfold requested
  rw [List.mem_flatMap]
  apply exists_congr
  intro r
  by_cases heq : r.contract = contract <;> simp [heq]

theorem requested_concat (contract : String) (requests : List Request) (r : Request) :
    requested contract (requests ++ [r]) =
      requested contract requests ++ if r.contract = contract then r.methods else [] := by
  rw [requested, requested, List.flatMap_append, List.flatMap_singleton]

theorem requested_eq_nil (h : contract ∉ requests.map Request.contract) :
    requested contract requests = [] := by
  apply List.eq_nil_iff_forall_not_mem.2
  intro method hmem
  obtain ⟨r, hr, rfl, -⟩ := mem_requested.1 hmem
  exact h (List.mem_map_of_mem hr)

theorem entries_grant (ps : Permissions) (r : Request) :
    (ps.grant r).entries = addTo r.contract r.methods ps.entries := by
  cases r <;> rfl

theorem addTo_map {contracts : List String} (hnodup : contracts.Nodup) (set : String → NameSet)
    (contract : String) (methods : List String)
    (hnew : contract ∉ contracts → set contract = .only []) :
    addTo contract methods (contracts.map fun c => ⟨c, set c⟩) =
      (if contract ∈ contracts then contracts else contracts ++ [contract]).map fun c =>
        ⟨c, if c = contract then methods.foldl NameSet.insert (set c) else set c⟩ := by
  induction contracts with
  | nil => simp [addTo, insertAll, hnew]
  | cons first rest ih =>
    obtain ⟨hfirst, hrest⟩ := List.nodup_cons.1 hnodup
    rw [List.map_cons, addTo]
    by_cases heq : first = contract
    · subst heq
      -- It is not listed again, so all entries behind it stay as they are.
      have hsame : rest.map (fun c => (⟨c, set c⟩ : Permission)) = rest.map fun c =>
          ⟨c, if c = first then methods.foldl NameSet.insert (set c) else set c⟩ := by
        apply List.map_congr_left
        intro c hc
        rw [if_neg fun hcf : c = first => hfirst (hcf ▸ hc)]
      rw [if_pos rfl, if_pos List.mem_cons_self, List.map_cons, if_pos rfl, hsame, insertAll]
    · rw [if_neg heq, ih hrest fun hmem => hnew (by simpa [Ne.symm heq] using hmem)]
      by_cases hmem : contract ∈ rest
      · simp [hmem, heq]
      · simp [hmem, heq, Ne.symm heq]

/-- Each contract once, where it is first mentioned, with all that was asked for it. -/
theorem entries_ofRequests (requests : List Request) :
    (ofRequests requests).entries = (requests.map Request.contract).eraseDups.map fun contract =>
      ⟨contract, .ofNames (requested contract requests)⟩ := by
  induction requests using List.reverseRecOn with
  | nil => rfl
  | append_singleton requests r ih =>
    -- Nothing was asked for a contract that is not mentioned yet.
    have hnew : r.contract ∉ (requests.map Request.contract).eraseDups →
        NameSet.ofNames (requested r.contract requests) = .only [] := by
      rw [List.mem_eraseDups]
      intro hmem
      rw [requested_eq_nil hmem]
      rfl
    rw [ofRequests, List.foldl_concat, entries_grant, ← ofRequests, ih,
      addTo_map (nodup_eraseDups _) (fun c => .ofNames (requested c requests)) _ _ hnew,
      List.map_append, List.map_singleton, eraseDups_concat]
    simp only [List.mem_eraseDups]
    apply List.map_congr_left
    intro contract _
    rw [requested_concat]
    by_cases heq : r.contract = contract
    · rw [if_pos heq.symm, if_pos heq, NameSet.foldl_insert_ofNames]
    · rw [if_neg (Ne.symm heq), if_neg heq, List.append_nil]

theorem contracts_ofRequests (requests : List Request) :
    (ofRequests requests).entries.map Permission.contract =
      (requests.map Request.contract).eraseDups := by
  rw [entries_ofRequests, List.map_map]
  exact List.map_id _

theorem methods_ofRequests {p : Permission} (hp : p ∈ (ofRequests requests).entries) :
    p.methods = .ofNames (requested p.contract requests) := by
  rw [entries_ofRequests] at hp
  obtain ⟨contract, -, rfl⟩ := List.mem_map.1 hp
  rfl

theorem exists_allowing (hsubset : requests ⊆ others) {p : Permission}
    (hp : p ∈ (ofRequests requests).entries) :
    ∃ q ∈ (ofRequests others).entries, q.contract = p.contract ∧
      ∀ method, p.methods.allows method → q.methods.allows method := by
  have hlisted : p.contract ∈ (ofRequests others).entries.map Permission.contract := by
    have hcontract := List.mem_map_of_mem (f := Permission.contract) hp
    rw [contracts_ofRequests, List.mem_eraseDups] at hcontract ⊢
    exact List.map_subset _ hsubset hcontract
  obtain ⟨q, hq, heq⟩ := List.mem_map.1 hlisted
  have hmono (name : String) (hname : name ∈ requested p.contract requests) :
      name ∈ requested p.contract others := by
    obtain ⟨r, hr, hname⟩ := mem_requested.1 hname
    exact mem_requested.2 ⟨r, hsubset hr, hname⟩
  refine ⟨q, hq, heq, fun method hallows => ?_⟩
  rw [methods_ofRequests hq, heq, NameSet.allows_ofNames]
  rw [methods_ofRequests hp, NameSet.allows_ofNames] at hallows
  exact hallows.imp (hmono method) (hmono NameSet.wildcard)

theorem eq_of_contract {p q : Permission} (hp : p ∈ (ofRequests requests).entries)
    (hq : q ∈ (ofRequests requests).entries) (heq : q.contract = p.contract) : q = p := by
  have hmethods : q.methods = p.methods := by
    rw [methods_ofRequests hq, methods_ofRequests hp, heq]
  cases p
  cases q
  simp_all

/-- Every contract that is mentioned is listed once, in the order of first mention. Its set is all
methods if `*` was asked for, and otherwise the methods that were asked for, each once and in the
order in which they came. What is allowed is what was asked for: it is the same for requests in
another order or made more than once, and further requests take nothing away. -/
theorem ofRequests_merges (requests : List Request) :
    (ofRequests requests).entries.map Permission.contract =
      (requests.map Request.contract).eraseDups ∧
    ((ofRequests requests).entries.map Permission.contract).Nodup ∧
    (∀ p ∈ (ofRequests requests).entries,
      (NameSet.wildcard ∈ requested p.contract requests → p.methods = .all) ∧
      (NameSet.wildcard ∉ requested p.contract requests → ∃ names, p.methods = .only names ∧
        names = (requested p.contract requests).eraseDups ∧ names.Nodup ∧
        NameSet.wildcard ∉ names) ∧
      ∀ method, p.methods.allows method ↔ method ∈ requested p.contract requests ∨
        NameSet.wildcard ∈ requested p.contract requests) ∧
    (∀ others, (∀ r, r ∈ others ↔ r ∈ requests) → ∀ p ∈ (ofRequests requests).entries,
      ∃ q ∈ (ofRequests others).entries, q.contract = p.contract ∧
        ∀ method, q.methods.allows method = p.methods.allows method) ∧
    ∀ more, ∀ p ∈ (ofRequests requests).entries,
      ∃ q ∈ (ofRequests (requests ++ more)).entries, q.contract = p.contract ∧
        ∀ method, p.methods.allows method → q.methods.allows method := by
  refine ⟨contracts_ofRequests requests, ?_, ?_, ?_, ?_⟩
  · rw [contracts_ofRequests]
    exact nodup_eraseDups _
  · intro p hp
    rw [methods_ofRequests hp]
    refine ⟨fun hall => if_pos hall, fun hnone => ⟨_, if_neg hnone, rfl, nodup_eraseDups _, ?_⟩, ?_⟩
    · rwa [List.mem_eraseDups]
    · exact fun method => NameSet.allows_ofNames
  · intro others hsame p hp
    obtain ⟨q, hq, heq, hmore⟩ := exists_allowing (fun r hr => (hsame r).2 hr) hp
    -- The other way round the entry found is `p` again, since no contract is listed twice.
    obtain ⟨p', hp', heq', hless⟩ := exists_allowing (fun r hr => (hsame r).1 hr) hq
    obtain rfl := eq_of_contract hp hp' (heq'.trans heq)
    exact ⟨q, hq, heq, fun method => Bool.eq_iff_iff.2 ⟨hless method, hmore method⟩⟩
  · intro more p hp
    exact exists_allowing (List.subset_append_left requests more) hp

/-- Two methods of one contract and all of another, and what the first contract allows when the same
requests come the other way round and one of them twice. -/
theorem ofRequests_merges_reversed :
    (ofRequests [.one "a" "f", .several "b" ["g", "*"], .several "a" ["h", "f"]]).entries =
      [⟨"a", .only ["f", "h"]⟩, ⟨"b", .all⟩] ∧
    ∃ q ∈ (ofRequests [.several "a" ["h", "f"], .several "b" ["g", "*"], .one "a" "f",
        .several "b" ["g", "*"]]).entries,
      q.contract = "a" ∧ q.methods.allows "h" ∧ ¬ q.methods.allows "g" := by
  have hentries : (ofRequests [.one "a" "f", .several "b" ["g", "*"],
      .several "a" ["h", "f"]]).entries = [⟨"a", .only ["f", "h"]⟩, ⟨"b", .all⟩] := by decide
  obtain ⟨-, -, -, hsame, -⟩ :=
    ofRequests_merges [.one "a" "f", .several "b" ["g", "*"], .several "a" ["h", "f"]]
  rw [hentries] at hsame
  obtain ⟨q, hq, hcontract, hallows⟩ := hsame [.several "a" ["h", "f"], .several "b" ["g", "*"],
    .one "a" "f", .several "b" ["g", "*"]] (fun r => by simp; tauto) _ List.mem_cons_self
  refine ⟨hentries, q, hq, hcontract, ?_, ?_⟩
  · rw [hallows]
    decide
  · rw [hallows]
    decide

end Permissions
end ContractLinker
