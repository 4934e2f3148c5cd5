namespace ContractLinker

/-- The answer of an operation together with the state it leaves, also where it fails. -/
abbrev Outcome (ε σ α : Type) := Except ε α × σ

namespace Outcome

/-- For a caller that gives up with the operation, and drops what a failed one leaves. -/
def onSuccess : Outcome ε σ α → Except ε (α × σ)
  | (.ok a, s) => .ok (a, s)
  | (.error e, _) => .error e

@[simp] theorem onSuccess_ok (a : α) (s : σ) :
    (onSuccess (.ok a, s) : Except ε (α × σ)) = .ok (a, s) := rfl

@[simp] theorem onSuccess_error (e : ε) (s : σ) :
    (onSuccess (.error e, s) : Except ε (α × σ)) = .error e := rfl

theorem onSuccess_eq_ok_iff {x : Outcome ε σ α} {a : α} {s : σ} :
    x.onSuccess = .ok (a, s) ↔ x = (.ok a, s) := by
  obtain ⟨r, t⟩ := x
  cases r <;> simp

theorem onSuccess_eq_error_iff {x : Outcome ε σ α} {e : ε} :
    x.onSuccess = .error e ↔ x.1 = .error e := by
  obtain ⟨r, t⟩ := x
  cases r <;> simp

end Outcome
end ContractLinker
