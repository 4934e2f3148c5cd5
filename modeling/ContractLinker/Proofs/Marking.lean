import ContractLinker.Proofs.Reachability

namespace ContractLinker

namespace Marks

/-- Control can come to the first of these waypoints. It starts at the first waypoint from offset 0
or from an entry point on, goes on behind all that falls through, and to the first waypoint from a
target on. -/
inductive Arrives (entries : List Int) (code : Array Waypoint) : List Waypoint → Prop
  | start : Arrives entries code (ahead code 0)
  | entry {x : Int} (hx : x ∈ entries) : Arrives entries code (ahead code x)
  | next {w : Waypoint} {rest : List Waypoint} (h : Arrives entries code (w :: rest))
      (hterm : w.opcode.isTerminator = false) : Arrives entries code rest
  | target {w : Waypoint} {rest : List Waypoint} {t : Int} (h : Arrives entries code (w :: rest))
      (hnop : w.opcode ≠ .nop) (ht : t ∈ w.targets) : Arrives entries code (ahead code t)

/-- Why an offset is marked. -/
def Reason (entries : List Int) (code : Array Waypoint) (x : Int) : Prop :=
  x ∈ entries ∨ ∃ w rest, Arrives entries code (w :: rest) ∧ w.opcode ≠ .nop ∧
    (x = w.offset ∨ x ∈ w.targets)

/-- Everything that is marked or planned has its reason. -/
structure Sound (entries : List Int) (code : Array Waypoint) (m : Marks) : Prop where
  touched : ∀ x ∈ m.touched, Reason entries code x
  pending : ∀ x ∈ m.pending, Arrives entries code (ahead code x)

variable {entries : List Int} {code : Array Waypoint} {m : Marks}

theorem Arrives.suffix {l : List Waypoint} (h : Arrives entries code l) : l <:+ code.toList := by
  induction h with
  | start => exact List.drop_suffix _ _
  | entry => exact List.drop_suffix _ _
  | next _ _ ih => exact (List.suffix_cons _ _).trans ih
  | target => exact List.drop_suffix _ _

theorem Sound.reach {x : Int} (h : Sound entries code m) (hreason : Reason entries code x)
    (harrives : Arrives entries code (ahead code x)) : Sound entries code (m.reach x) := by
  constructor
  · intro y hy
    rcases (mem_touched_reach m x y).1 hy with rfl | hold
    · exact hreason
    · exact h.touched y hold
  · intro y hy
    unfold Marks.reach at hy
    split at hy
    · exact h.pending y hy
    · rcases List.mem_cons.1 hy with rfl | hold
      · exact harrives
      · exact h.pending y hold

theorem Sound.foldl_reach {targets : List Int} (h : Sound entries code m)
    (hreason : ∀ t ∈ targets, Reason entries code t ∧ Arrives entries code (ahead code t)) :
    Sound entries code (targets.foldl Marks.reach m) := by
  induction targets generalizing m with
  | nil => exact h
  | cons t rest ih =>
    rw [List.forall_mem_cons] at hreason
    exact ih (h.reach hreason.1.1 hreason.1.2) hreason.2

theorem Sound.visit {w : Waypoint} {rest : List Waypoint} (h : Sound entries code m)
    (harrives : Arrives entries code (w :: rest)) (hnop : w.opcode ≠ .nop) :
    Sound entries code (m.visit w) := by
  have hmark : Sound entries code { m with touched := m.touched.insert w.offset } := by
    refine ⟨fun x hx => ?_, h.pending⟩
    rcases Std.HashSet.mem_insert.1 hx with heq | hold
    · exact .inr ⟨w, rest, harrives, hnop, .inl (eq_of_beq heq).symm⟩
    · exact h.touched x hold
  apply hmark.foldl_reach
  intro t ht
  exact ⟨.inr ⟨w, rest, harrives, hnop, .inr ht⟩, harrives.target hnop ht⟩

section Walks

variable (hsorted : code.toList.Pairwise fun v w => v.offset < w.offset)
include hsorted

theorem Reason.arrives {x : Int} (h : Reason entries code x) :
    Arrives entries code (ahead code x) := by
  rcases h with hentry | ⟨w, rest, harrives, hnop, rfl | htarget⟩
  · exact .entry hentry
  · rwa [ahead_of_suffix hsorted harrives.suffix]
  · exact harrives.target hnop htarget

/-- A walk that marks only goes where control can come to, and one that does not mark starts to at
an offset that has its reason. -/
theorem Sound.foldl_step {rest : List Waypoint} {marking : Bool} (h : Sound entries code m)
    (hsuffix : rest <:+ code.toList) (hmarking : marking = true → Arrives entries code rest) :
    Sound entries code (rest.foldl step (marking, m)).2 := by
  -- A walk that marks has come to where it stands; one that does not mark adds nothing.
  induction rest generalizing marking m with
  | nil => exact h
  | cons w rest ih =>
    have hrest : rest <:+ code.toList := (List.suffix_cons w rest).trans hsuffix
    rw [List.foldl_cons]
    cases marking with
    | true =>
      have harrives := hmarking rfl
      have hnext : (!w.opcode.isTerminator) = true → Arrives entries code rest := by
        intro hfalls
        exact harrives.next (by simpa using hfalls)
      by_cases hnop : w.opcode = .nop
      · rw [show step (true, m) w = (!w.opcode.isTerminator, m) by simp [step, hnop]]
        exact ih h hrest hnext
      · rw [show step (true, m) w = (!w.opcode.isTerminator, m.visit w) by simp [step, hnop]]
        exact ih (h.visit harrives hnop) hrest hnext
    | false =>
      by_cases hstay : w.opcode.isTerminator || !m.touched.contains w.offset
      · rw [show step (false, m) w = (false, m) by simp [step, hstay]]
        exact ih h hrest fun hfalse => absurd hfalse Bool.false_ne_true
      · rw [show step (false, m) w = (true, m) by simp [step, hstay]]
        simp only [Bool.or_eq_true, Bool.not_eq_true', not_or, Bool.not_eq_true,
          Bool.not_eq_false] at hstay
        have harrives := (h.touched w.offset (Std.HashSet.mem_iff_contains.2 hstay.2)).arrives hsorted
        rw [ahead_of_suffix hsorted hsuffix] at harrives
        exact ih h hrest fun _ => harrives.next hstay.1

theorem Sound.drain {fuel : Nat} (h : Sound entries code m) :
    ∀ x ∈ drain code fuel m, Reason entries code x := by
  -- Each walk starts at an offset that was planned, and so has its reason.
  induction fuel generalizing m with
  | zero => exact h.touched
  | succ fuel ih =>
    unfold Marks.drain
    split
    · exact h.touched
    · rename_i start pending hpending
      rw [walk_eq]
      apply ih
      have hplanned := h.pending
      rw [hpending, List.forall_mem_cons] at hplanned
      exact Sound.foldl_step hsorted ⟨h.touched, hplanned.2⟩ (List.drop_suffix _ _)
        fun _ => hplanned.1

end Walks

end Marks

section Reachable

variable {entries : List Nat} {instructions : List Instruction}

abbrev Arrives (entries : List Nat) (instructions : List Instruction) : List Waypoint → Prop :=
  Marks.Arrives (entries.map fun entry : Nat => Instruction.signed64 entry)
    (instructions.map Instruction.waypoint).toArray

theorem sound_initial (entries : List Nat) (code : Array Waypoint) :
    Marks.Sound (entries.map fun entry : Nat => Instruction.signed64 entry) code
      (Marks.initial entries) := by
  have hempty : Marks.Sound (entries.map fun entry : Nat => Instruction.signed64 entry) code
      { pending := [0] } := by
    refine ⟨fun x hx => absurd hx Std.HashSet.not_mem_empty, ?_⟩
    exact List.forall_mem_singleton.2 .start
  apply hempty.foldl_reach
  intro t ht
  exact ⟨.inl ht, .entry ht⟩

variable (hsorted : instructions.Pairwise fun a b => a.signedOffset < b.signedOffset)
include hsorted

theorem reason_of_mem_reachable {x : Int} (hx : x ∈ reachable entries instructions) :
    Marks.Reason (entries.map fun entry : Nat => Instruction.signed64 entry)
      (instructions.map Instruction.waypoint).toArray x := by
  rw [reachable_eq] at hx
  exact (sound_initial entries _).drain (pairwise_waypoints hsorted) x hx

theorem Arrives.swept {l : List Waypoint} (h : Arrives entries instructions l) :
    Marks.Swept (reachable entries instructions) l := by
  induction h with
  | start => exact swept_reachable hsorted 0 (.inr rfl)
  | entry hx =>
    obtain ⟨entry, hentry, rfl⟩ := List.mem_map.1 hx
    exact swept_reachable hsorted _ (.inl (mem_reachable_of_mem_entries hentry))
  | next _ hterm ih => exact ih.2 hterm
  | target _ hnop ht ih =>
    rcases ih.1 with hskip | ⟨-, htargets⟩
    · exact absurd hskip hnop
    · exact swept_reachable hsorted _ (.inl (htargets _ ht))

end Reachable

end ContractLinker
