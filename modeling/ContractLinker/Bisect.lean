namespace ContractLinker.Bisect

/-- Halves the `size` positions from `base` on until one is left. -/
def narrow (before : Nat → Bool) (base size : Nat) : Nat :=
  if 1 < size then
    let half := size / 2
    narrow before (if before (base + half) then base + half else base) (size - half)
  else base
termination_by size

/-- How many of `size` positions pass the test, which fails everywhere behind them. -/
def count (before : Nat → Bool) (size : Nat) : Nat :=
  let base := narrow before 0 size
  if before base then base + 1 else base

theorem narrow_bounds {before : Nat → Bool} {n : Nat} (hn : ∀ i, before i = true ↔ i < n)
    (base size : Nat) (hb : base < n ∨ base = 0) (hs : n ≤ base + max size 1) :
    let r := narrow before base size
    (r < n ∨ r = 0) ∧ n ≤ r + 1 := by
  -- The place is not in front of `base`, and not behind what is left to halve.
  fun_induction narrow before base size with
  | case1 base size hsize half ih =>
    apply ih
    · split
      · exact .inl ((hn _).1 ‹_›)
      · exact hb
    · split
      · omega
      · have hfail : ¬ base + half < n := fun h => ‹¬ _› ((hn _).2 h)
        omega
  | case2 base size hsize =>
    have : max size 1 = 1 := by omega
    exact ⟨hb, by omega⟩

theorem count_eq {before : Nat → Bool} {n size : Nat} (hn : ∀ i, before i = true ↔ i < n)
    (hs : n ≤ size) : count before size = n := by
  obtain ⟨hlow, hhigh⟩ := narrow_bounds hn 0 size (.inr rfl) (by omega)
  simp only [count]
  split
  · have := (hn _).1 ‹_›
    omega
  · have hfail : ¬ narrow before 0 size < n := fun h => ‹¬ _› ((hn _).2 h)
    omega

end ContractLinker.Bisect
