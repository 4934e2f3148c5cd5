import ContractLinker.Proofs.References

namespace ContractLinker.FirstUse

variable {α : Type}

/-- What the use of a key can come to: the number that it has, if any, and the keys afterwards. -/
inductive Step (capacity : Nat) (keys : List α) (key : α) : Option Nat → List α → Prop
  | known {i : Nat} (hold : keys[i]? = some key) : Step capacity keys key (some i) keys
  | fresh (hnew : key ∉ keys) (hroom : keys.length < capacity) :
    Step capacity keys key (some keys.length) (keys ++ [key])
  | full (hnew : key ∉ keys) (hfull : capacity ≤ keys.length) : Step capacity keys key none keys

namespace Step

variable {capacity i : Nat} {keys after after' : List α} {key : α} {answer answer' : Option Nat}

theorem getElem?_after (h : Step capacity keys key (some i) after) : after[i]? = some key := by
  cases h with
  | known hold => exact hold
  | fresh hnew hroom => exact List.getElem?_concat_length

theorem unique (hnodup : keys.Nodup) (h : Step capacity keys key answer after)
    (h' : Step capacity keys key answer' after') : answer = answer' ∧ after = after' := by
  cases h with
  | known hold =>
    have hmem := List.mem_of_getElem? hold
    cases h' with
    | known hold' =>
      have hlt := (List.getElem?_eq_some_iff.1 hold).1
      rw [(List.getElem?_inj hlt hnodup).1 (hold.trans hold'.symm)]
      exact ⟨rfl, rfl⟩
    | fresh hnew hroom => exact absurd hmem hnew
    | full hnew hfull => exact absurd hmem hnew
  | fresh hnew hroom =>
    cases h' with
    | known hold' => exact absurd (List.mem_of_getElem? hold') hnew
    | fresh hnew' hroom' => exact ⟨rfl, rfl⟩
    | full hnew' hfull => omega
  | full hnew hfull =>
    cases h' with
    | known hold' => exact absurd (List.mem_of_getElem? hold') hnew
    | fresh hnew' hroom => omega
    | full hnew' hfull' => exact ⟨rfl, rfl⟩

end Step

section Keys

variable [DecidableEq α]

/-- The keys that have a number after `uses`, in the order of their numbers. -/
def keys (capacity : Nat) (uses : List α) : List α := uses.eraseDups.take capacity

theorem nodup_keys (capacity : Nat) (uses : List α) : (keys capacity uses).Nodup :=
  (nodup_eraseDups uses).sublist (List.take_sublist capacity _)

theorem length_keys_le (capacity : Nat) (uses : List α) : (keys capacity uses).length ≤ capacity :=
  List.length_take_le capacity _

theorem keys_append (capacity : Nat) (uses later : List α) :
    keys capacity uses <+: keys capacity (uses ++ later) := by
  have hdups := eraseDups_prefix uses later
  exact hdups.take capacity

theorem Step.keys_concat {capacity : Nat} {uses after : List α} {key : α} {answer : Option Nat}
    (h : Step capacity (keys capacity uses) key answer after) :
    after = keys capacity (uses ++ [key]) := by
  cases h with
  | known hold =>
    have hmem : key ∈ uses.eraseDups := List.mem_of_mem_take (List.mem_of_getElem? hold)
    rw [List.mem_eraseDups] at hmem
    rw [keys, keys, eraseDups_concat, if_pos hmem]
  | fresh hnew hroom =>
    -- With numbers left over, every key that was used has one.
    have hlength : uses.eraseDups.length < capacity := by
      rw [keys, List.length_take] at hroom
      omega
    have hkeys : keys capacity uses = uses.eraseDups := List.take_of_length_le hlength.le
    rw [hkeys, List.mem_eraseDups] at hnew
    rw [hkeys, keys, eraseDups_concat, if_neg hnew, List.take_of_length_le]
    rw [List.length_append, List.length_singleton]
    exact hlength
  | full hnew hfull =>
    have hextends := keys_append capacity uses [key]
    apply hextends.eq_of_length_le
    exact (length_keys_le capacity _).trans hfull

end Keys

/-- The state that a sequence of calls leads to, whatever they answer. -/
def run {σ ρ : Type} (call : σ → α → ρ × σ) (init : σ) (uses : List α) : σ :=
  uses.foldl (fun state key => (call state key).2) init

/-- Calls that number their keys by first use, seen through the list of keys in the state. -/
structure Numbering {σ ρ : Type} (capacity : Nat) (call : σ → α → ρ × σ) (init : σ) where
  keysOf : σ → List α
  number : ρ → Option Nat
  Valid : σ → Prop
  keysOf_init : keysOf init = []
  valid_init : Valid init
  valid_call {state : σ} (key : α) (h : Valid state) : Valid (call state key).2
  step {state : σ} (key : α) (h : Valid state) :
    Step capacity (keysOf state) key (number (call state key).1) (keysOf (call state key).2)

namespace Numbering

variable {σ ρ : Type} {capacity : Nat} {call : σ → α → ρ × σ} {init : σ}
  (N : Numbering capacity call init)

/-- Call number `k` of a run is of `key` and gives it the number `i`. -/
def Gives (uses : List α) (k : Nat) (key : α) (i : Nat) : Prop :=
  uses[k]? = some key ∧ N.number (call (run call init (uses.take k)) key).1 = some i

theorem valid_run (uses : List α) : N.Valid (run call init uses) := by
  induction uses using List.reverseRecOn with
  | nil => exact N.valid_init
  | append_singleton uses key ih =>
    rw [run, List.foldl_concat]
    exact N.valid_call key ih

variable {uses : List α} {k k' i i' : Nat} {key key' : α}

theorem Gives.append {N : Numbering capacity call init} (h : N.Gives uses k key i)
    (later : List α) : N.Gives (uses ++ later) k key i := by
  have hlt := (List.getElem?_eq_some_iff.1 h.1).1
  rw [Gives, List.getElem?_append_left hlt, List.take_append_of_le_length hlt.le]
  exact h

variable [DecidableEq α]

theorem keysOf_run (uses : List α) : N.keysOf (run call init uses) = keys capacity uses := by
  induction uses using List.reverseRecOn with
  | nil => exact N.keysOf_init.trans List.take_nil.symm
  | append_singleton uses key ih =>
    have hstep := N.step key (N.valid_run uses)
    rw [ih] at hstep
    rw [run, List.foldl_concat]
    exact hstep.keys_concat

theorem step_run (uses : List α) (key : α) : Step capacity (keys capacity uses) key
    (N.number (call (run call init uses) key).1) (keys capacity (uses ++ [key])) := by
  have hstep := N.step key (N.valid_run uses)
  rw [keysOf_run] at hstep
  have hafter := hstep.keys_concat
  rwa [hafter] at hstep

theorem Gives.getElem? {N : Numbering capacity call init} (h : N.Gives uses k key i)
    (later : List α) : (keys capacity (uses ++ later))[i]? = some key := by
  obtain ⟨hkey, hnumber⟩ := h
  have hstep := N.step_run (uses.take k) key
  rw [hnumber] at hstep
  have hsplit : uses.take k ++ [key] ++ (uses.drop (k + 1) ++ later) = uses ++ later := by
    have htake : uses.take (k + 1) = uses.take k ++ [key] := by rw [List.take_add_one, hkey]; rfl
    rw [← htake, ← List.append_assoc, List.take_append_drop]
  have hextends := keys_append capacity (uses.take k ++ [key]) (uses.drop (k + 1) ++ later)
  rw [hsplit] at hextends
  exact getElem?_of_prefix hextends hstep.getElem?_after

theorem exists_gives_iff : (∃ k, N.Gives uses k key i) ↔ (keys capacity uses)[i]? = some key := by
  constructor
  · rintro ⟨k, h⟩
    have hget := h.getElem? []
    rwa [List.append_nil] at hget
  · intro hget
    induction uses using List.reverseRecOn with
    | nil => simp [keys] at hget
    | append_singleton uses last ih =>
      by_cases hold : (keys capacity uses)[i]? = some key
      · obtain ⟨k, h⟩ := ih hold
        exact ⟨k, h.append [last]⟩
      · -- Only the last call can have brought the key.
        refine ⟨uses.length, ?_⟩
        have hstep := N.step_run uses last
        generalize hanswer : N.number (call (run call init uses) last).1 = answer at hstep
        generalize hafter : keys capacity (uses ++ [last]) = after at hstep hget
        cases hstep with
        | known _ => exact absurd hget hold
        | full _ _ => exact absurd hget hold
        | fresh hnew hroom =>
          obtain ⟨rfl, rfl⟩ := (getElem?_concat_iff.1 hget).resolve_left hold
          refine ⟨List.getElem?_concat_length, ?_⟩
          rw [List.take_left, hanswer]

theorem Gives.eq_iff {N : Numbering capacity call init} (h : N.Gives uses k key i)
    (h' : N.Gives uses k' key' i') : i = i' ↔ key = key' := by
  have hget := N.exists_gives_iff.1 ⟨k, h⟩
  have hget' := N.exists_gives_iff.1 ⟨k', h'⟩
  constructor
  · rintro rfl
    exact Option.some.inj (hget.symm.trans hget')
  · rintro rfl
    have hlt := (List.getElem?_eq_some_iff.1 hget).1
    exact (List.getElem?_inj hlt (nodup_keys capacity uses)).1 (hget.trans hget'.symm)

end Numbering
end ContractLinker.FirstUse
