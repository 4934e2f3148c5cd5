import ContractLinker.Codec.Cursor
import ContractLinker.Proofs.LittleEndian

namespace ContractLinker

section Run

variable {ε σ α β : Type} {m : EStateM ε σ α} {f : α → EStateM ε σ β} {s s' : σ} {a : α} {b : β}

theorem bind_apply :
    (m >>= f) s = match m s with
      | .ok a t => f a t
      | .error e t => .error e t := rfl

theorem bind_of_ok {t : σ} (h : m s = .ok a t) : (m >>= f) s = f a t := by
  rw [bind_apply, h]

theorem bind_eq_ok_iff :
    (m >>= f) s = .ok b s' ↔ ∃ a t, m s = .ok a t ∧ f a t = .ok b s' := by
  rw [bind_apply]
  cases m s with
  | ok a t =>
    constructor
    · intro h
      exact ⟨a, t, rfl, h⟩
    · intro h
      obtain ⟨_, _, hm, hf⟩ := h
      cases hm
      exact hf
  | error e t =>
    constructor
    · intro h
      cases h
    · intro h
      obtain ⟨_, _, hm, _⟩ := h
      cases hm

theorem unless_throw_eq_ok_iff {c : Prop} [Decidable c] {e : ε} {k : PUnit → EStateM ε σ β} :
    (if c then throw e >>= k else k ⟨⟩) s = .ok b s' ↔ ¬ c ∧ k ⟨⟩ s = .ok b s' := by
  by_cases h : c
  · rw [if_pos h]
    exact ⟨nofun, fun hand => absurd h hand.1⟩
  · rw [if_neg h]
    exact ⟨fun hk => ⟨h, hk⟩, And.right⟩

@[simp] theorem pure_apply : (pure a : EStateM ε σ α) s = .ok a s := rfl

@[simp] theorem get_apply : (get : EStateM ε σ σ) s = .ok s s := rfl

@[simp] theorem throw_apply (e : ε) : (throw e : EStateM ε σ α) s = .error e s := rfl

end Run

namespace Read

variable {c c' : Cursor}

theorem bytes_eq_ok_iff {size : Nat} {b : Bytes} :
    bytes size c = .ok b c' ↔
      c.rest = b ++ c'.rest ∧ b.length = size ∧ c'.position = c.position + size := by
  obtain ⟨position, rest⟩ := c
  obtain ⟨position', rest'⟩ := c'
  simp only [bytes]
  constructor
  · intro h
    split at h
    · rename_i hlen
      cases h
      exact ⟨(List.take_append_drop _ _).symm, hlen, rfl⟩
    · cases h
  · rintro ⟨hrest, rfl, hpos⟩
    subst hrest hpos
    simp

theorem natLE_eq_ok_iff {width n : Nat} :
    natLE width c = .ok n c' ↔
      c.rest = Bytes.ofNatLE width n ++ c'.rest ∧ n < Bytes.bound width ∧
        c'.position = c.position + width := by
  unfold natLE
  rw [bind_eq_ok_iff]
  constructor
  · rintro ⟨b, t, hb, hn⟩
    cases hn
    obtain ⟨hrest, rfl, hpos⟩ := bytes_eq_ok_iff.1 hb
    exact ⟨by rw [Bytes.ofNatLE_toNatLE, hrest], Bytes.toNatLE_lt b, hpos⟩
  · rintro ⟨hrest, hn, hpos⟩
    refine ⟨_, c', bytes_eq_ok_iff.2 ⟨hrest, Bytes.length_ofNatLE width n, hpos⟩, ?_⟩
    rw [Bytes.toNatLE_ofNatLE_of_lt hn]
    rfl

theorem byte_eq_ok_iff {b : UInt8} :
    byte c = .ok b c' ↔ c.rest = b :: c'.rest ∧ c'.position = c.position + 1 := by
  unfold byte
  rw [bind_eq_ok_iff]
  constructor
  · rintro ⟨n, t, hn, hb⟩
    cases hb
    obtain ⟨hrest, -, hpos⟩ := natLE_eq_ok_iff.1 hn
    exact ⟨hrest, hpos⟩
  · rintro ⟨hrest, hpos⟩
    have hb : b.toNat < Bytes.bound 1 := b.toNat_lt
    refine ⟨b.toNat, c', natLE_eq_ok_iff.2 ⟨?_, hb, hpos⟩, ?_⟩
    · simpa [Bytes.ofNatLE] using hrest
    · rw [UInt8.ofNat_toNat]
      rfl

end Read
end ContractLinker
