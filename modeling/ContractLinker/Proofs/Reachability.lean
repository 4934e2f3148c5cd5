import ContractLinker.Bisect
import ContractLinker.Script.Reachability

namespace ContractLinker

theorem Instruction.waypoint_offset (ins : Instruction) :
    ins.waypoint.offset = ins.signedOffset := by
  simp only [waypoint]

namespace Marks

/-- Control that comes to the first of these waypoints meets only what is marked, and `NOP`. -/
def Swept (touched : Std.HashSet Int) : List Waypoint → Prop
  | [] => True
  | w :: rest =>
    (w.opcode = .nop ∨ w.offset ∈ touched ∧ ∀ t ∈ w.targets, t ∈ touched) ∧
      (w.opcode.isTerminator = false → Swept touched rest)

theorem Swept.mono {s t : Std.HashSet Int} (hsub : ∀ x ∈ s, x ∈ t) {code : List Waypoint}
    (h : Swept s code) : Swept t code := by
  induction code with
  | nil => trivial
  | cons w rest ih =>
    refine ⟨h.1.imp_right ?_, fun hnext => ih (h.2 hnext)⟩
    exact fun hw => ⟨hsub _ hw.1, fun x hx => hsub x (hw.2 x hx)⟩

/-- `m'` has all marks of `m`, and each new one is planned for a walk or is one of `visited`. -/
structure Extends (m m' : Marks) (visited : Int → Prop) : Prop where
  touched : ∀ x ∈ m.touched, x ∈ m'.touched
  pending : ∀ x ∈ m.pending, x ∈ m'.pending
  fresh : ∀ x ∈ m'.touched, x ∈ m.touched ∨ x ∈ m'.pending ∨ visited x

namespace Extends

variable {m m' m'' : Marks} {visited visited' : Int → Prop}

theorem refl (m : Marks) (visited : Int → Prop) : Extends m m visited :=
  ⟨fun _ => id, fun _ => id, fun _ => .inl⟩

theorem trans (h : Extends m m' visited) (h' : Extends m' m'' visited') :
    Extends m m'' fun x => visited x ∨ visited' x where
  touched x hx := h'.touched x (h.touched x hx)
  pending x hx := h'.pending x (h.pending x hx)
  fresh x hx := by
    rcases h'.fresh x hx with hold | hplanned | hseen
    · rcases h.fresh x hold with hold | hplanned | hseen
      · exact .inl hold
      · exact .inr (.inl (h'.pending x hplanned))
      · exact .inr (.inr (.inl hseen))
    · exact .inr (.inl hplanned)
    · exact .inr (.inr (.inr hseen))

theorem weaken (h : Extends m m' visited) (himp : ∀ x, visited x → visited' x) :
    Extends m m' visited' :=
  ⟨h.touched, h.pending, fun x hx => (h.fresh x hx).imp_right (·.imp_right (himp x))⟩

end Extends

theorem mem_touched_reach (m : Marks) (o x : Int) :
    x ∈ (m.reach o).touched ↔ x = o ∨ x ∈ m.touched := by
  unfold reach
  split
  · rename_i h
    have ho : o ∈ m.touched := Std.HashSet.mem_iff_contains.2 h
    exact ⟨.inr, fun hx => hx.elim (fun heq => heq ▸ ho) id⟩
  · rw [Std.HashSet.mem_insert, beq_iff_eq]
    exact or_congr eq_comm .rfl

theorem extends_reach (m : Marks) (o : Int) : Extends m (m.reach o) fun _ => False where
  touched x hx := (mem_touched_reach m o x).2 (.inr hx)
  pending x hx := by
    unfold reach
    split
    · exact hx
    · exact List.mem_cons_of_mem _ hx
  fresh x hx := by
    rcases (mem_touched_reach m o x).1 hx with rfl | hold
    · unfold reach
      split
      · rename_i h
        exact .inl (Std.HashSet.mem_iff_contains.2 h)
      · exact .inr (.inl List.mem_cons_self)
    · exact .inl hold

theorem extends_foldl_reach (offsets : List Int) (m : Marks) :
    (Extends m (offsets.foldl reach m) fun _ => False) ∧
      ∀ x ∈ offsets, x ∈ (offsets.foldl reach m).touched := by
  induction offsets generalizing m with
  | nil => exact ⟨.refl m _, nofun⟩
  | cons o rest ih =>
    obtain ⟨hext, hmem⟩ := ih (m.reach o)
    refine ⟨((extends_reach m o).trans hext).weaken (fun _ h => h.elim id id), ?_⟩
    exact List.forall_mem_cons.2 ⟨hext.touched o ((mem_touched_reach m o o).2 (.inl rfl)), hmem⟩

theorem extends_visit (m : Marks) (w : Waypoint) :
    Extends m (m.visit w) (· = w.offset) ∧ w.offset ∈ (m.visit w).touched ∧
      ∀ t ∈ w.targets, t ∈ (m.visit w).touched := by
  have hmark : Extends m { m with touched := m.touched.insert w.offset } (· = w.offset) := by
    refine ⟨fun x hx => Std.HashSet.mem_insert.2 (.inr hx), fun _ => id, fun x hx => ?_⟩
    rcases Std.HashSet.mem_insert.1 hx with heq | hold
    · exact .inr (.inr (eq_of_beq heq).symm)
    · exact .inl hold
  obtain ⟨hext, hmem⟩ := extends_foldl_reach w.targets { m with touched := m.touched.insert w.offset }
  refine ⟨(hmark.trans hext).weaken (fun _ h => h.elim id False.elim), ?_, hmem⟩
  exact hext.touched _ Std.HashSet.mem_insert_self

/-- A walk over `code`: what it marks anew is planned, or control is swept from there on, and when
it starts out marking then control is swept from its start. -/
theorem foldl_step_swept (code : List Waypoint) (marking : Bool) (m : Marks) :
    let final := (code.foldl step (marking, m)).2
    (Extends m final fun x => ∃ w after,
      w :: after <:+ code ∧ x = w.offset ∧ Swept final.touched (w :: after)) ∧
    (marking = true → Swept final.touched code) := by
  induction code generalizing marking m with
  | nil => exact ⟨.refl m _, fun _ => trivial⟩
  | cons w rest ih =>
    have hwiden : ∀ final : Marks, ∀ x, (∃ v after, v :: after <:+ rest ∧ x = v.offset ∧
        Swept final.touched (v :: after)) → ∃ v after, v :: after <:+ w :: rest ∧ x = v.offset ∧
        Swept final.touched (v :: after) := by
      rintro final x ⟨v, after, hsuffix, hrest⟩
      exact ⟨v, after, hsuffix.trans (List.suffix_cons w rest), hrest⟩
    cases marking with
    | false =>
      -- A walk that does not mark may start to, but changes no mark by that.
      rw [List.foldl_cons]
      have hstep : (step (false, m) w).2 = m := by
        simp only [step, Bool.false_eq_true, if_false]
        split <;> rfl
      obtain ⟨hext, -⟩ := ih (step (false, m) w).1 m
      rw [show step (false, m) w = ((step (false, m) w).1, m) from Prod.ext rfl hstep]
      exact ⟨hext.weaken (hwiden _), nofun⟩
    | true =>
      rw [List.foldl_cons]
      have hstep : step (true, m) w =
          (!w.opcode.isTerminator, if w.opcode = .nop then m else m.visit w) := rfl
      rw [hstep]
      obtain ⟨hext, hsweep⟩ := ih (!w.opcode.isTerminator)
        (if w.opcode = .nop then m else m.visit w)
      -- What the walk leaves behind `w` is swept unless control never gets there.
      by_cases hnop : w.opcode = .nop
      · simp only [hnop, if_true] at hext hsweep ⊢
        refine ⟨hext.weaken (hwiden _), fun _ => ⟨.inl hnop, fun _ => hsweep rfl⟩⟩
      · simp only [hnop, if_false] at hext hsweep ⊢
        obtain ⟨hvisit, hself, htargets⟩ := extends_visit m w
        have hswept : Swept _ (w :: rest) :=
          ⟨.inr ⟨hext.touched _ hself, fun t ht => hext.touched t (htargets t ht)⟩,
            fun hterm => hsweep (by rw [hterm]; rfl)⟩
        refine ⟨(hvisit.trans hext).weaken ?_, fun _ => hswept⟩
        rintro x (rfl | hseen)
        · exact ⟨w, rest, List.suffix_rfl, rfl, hswept⟩
        · exact hwiden _ x hseen

section Potential

variable {offsets : List Int} {m : Marks}

/-- Walks that are planned or may still be planned, when only `offsets` can be marked with a plan. -/
def potential (offsets : List Int) (m : Marks) : Nat :=
  m.pending.length + (offsets.filter fun x => !m.touched.contains x).length

theorem filter_insert (offsets : List Int) (touched : Std.HashSet Int) (o : Int) :
    (offsets.filter fun x => !(touched.insert o).contains x) =
      (offsets.filter fun x => !touched.contains x).filter fun x => !(o == x) := by
  rw [List.filter_filter]
  apply List.filter_congr
  intro x _
  rw [Std.HashSet.contains_insert, Bool.not_or]

theorem potential_insert_le (offsets : List Int) (m : Marks) (o : Int) :
    potential offsets { m with touched := m.touched.insert o } ≤ potential offsets m := by
  simp only [potential, filter_insert]
  exact Nat.add_le_add_left (List.length_filter_le _ _) _

theorem potential_reach_le {o : Int} (ho : o ∈ offsets) :
    potential offsets (m.reach o) ≤ potential offsets m := by
  unfold reach
  split
  · exact Nat.le_refl _
  · rename_i hnew
    -- The plan for `o` is paid for by `o` itself, which had no mark before.
    have hlt : (offsets.filter fun x => !(m.touched.insert o).contains x).length <
        (offsets.filter fun x => !m.touched.contains x).length := by
      rw [filter_insert]
      apply List.length_filter_lt_length_iff_exists.2
      exact ⟨o, List.mem_filter.2 ⟨ho, by simpa using hnew⟩, by simp⟩
    simp only [potential, List.length_cons]
    omega

theorem potential_foldl_reach_le {targets : List Int} (h : ∀ t ∈ targets, t ∈ offsets) :
    potential offsets (targets.foldl reach m) ≤ potential offsets m := by
  induction targets generalizing m with
  | nil => exact Nat.le_refl _
  | cons t rest ih =>
    rw [List.forall_mem_cons] at h
    exact Nat.le_trans (ih h.2) (potential_reach_le h.1)

theorem potential_foldl_step_le {code : List Waypoint}
    (h : ∀ w ∈ code, ∀ t ∈ w.targets, t ∈ offsets) (marking : Bool) :
    potential offsets (code.foldl step (marking, m)).2 ≤ potential offsets m := by
  induction code generalizing marking m with
  | nil => exact Nat.le_refl _
  | cons w rest ih =>
    rw [List.forall_mem_cons] at h
    -- A new mark takes as much from what may still be planned as it adds to what is planned.
    have hstep : potential offsets (step (marking, m) w).2 ≤ potential offsets m := by
      unfold step
      split
      · dsimp only
        split
        · exact Nat.le_refl _
        · exact Nat.le_trans (potential_foldl_reach_le h.1) (potential_insert_le offsets m w.offset)
      · split <;> exact Nat.le_refl _
    exact Nat.le_trans (ih h.2 _) hstep

end Potential

section Drain

variable {code : Array Waypoint}

def ahead (code : Array Waypoint) (start : Int) : List Waypoint :=
  code.toList.drop (firstFrom code start)

theorem walk_eq (start : Int) (m : Marks) :
    walk code start m = ((ahead code start).foldl step (true, m)).2 := by
  have hall : (code.toList.drop (firstFrom code start)).take (code.size - firstFrom code start) =
      code.toList.drop (firstFrom code start) :=
    List.take_of_length_le (by simp)
  rw [walk, ahead, Array.foldl_eq_foldl_extract, ← Array.foldl_toList, Array.toList_extract,
    List.extract_eq_take_drop, hall]

theorem ahead_eq {before behind : List Waypoint} {start : Int}
    (hcode : code.toList = before ++ behind) (hbefore : ∀ w ∈ before, w.offset < start)
    (hbehind : ∀ w ∈ behind, start ≤ w.offset) : ahead code start = behind := by
  have hsize : code.size = before.length + behind.length := by
    rw [← Array.length_toList, hcode, List.length_append]
  have hfirst : firstFrom code start = before.length := by
    unfold firstFrom
    refine Bisect.count_eq (fun i => ?_) (by omega)
    rw [← Array.getElem?_toList, hcode]
    by_cases hi : i < before.length
    · have hlt := hbefore _ (List.getElem_mem hi)
      simp [List.getElem?_append_left hi, hlt, hi]
    · rw [List.getElem?_append_right (by omega)]
      cases hw : behind[i - before.length]? with
      | none => simp [hi]
      | some w =>
        have hge := hbehind w (List.mem_of_getElem? hw)
        simp [hi, hge]
  rw [ahead, hfirst, hcode, List.drop_left]

theorem ahead_of_suffix (hsorted : code.toList.Pairwise fun v w => v.offset < w.offset)
    {w : Waypoint} {after : List Waypoint} (h : w :: after <:+ code.toList) :
    ahead code w.offset = w :: after := by
  obtain ⟨before, hcode⟩ := h
  rw [← hcode, List.pairwise_append, List.pairwise_cons] at hsorted
  obtain ⟨-, ⟨hafter, -⟩, hcross⟩ := hsorted
  apply ahead_eq hcode.symm
  · exact fun v hv => hcross v hv w List.mem_cons_self
  · exact List.forall_mem_cons.2 ⟨Int.le_refl _, fun v hv => Int.le_of_lt (hafter v hv)⟩

/-- A walk from `x` is planned, or there is nothing left for it to mark. -/
def Settled (code : Array Waypoint) (m : Marks) (x : Int) : Prop :=
  x ∈ m.pending ∨ Swept m.touched (ahead code x)

theorem Settled.swept {m : Marks} {x : Int} (h : Settled code m x) (hnone : m.pending = []) :
    Swept m.touched (ahead code x) := by
  rcases h with hplanned | hswept
  · rw [hnone] at hplanned
    cases hplanned
  · exact hswept

theorem settled_walk (hsorted : code.toList.Pairwise fun v w => v.offset < w.offset)
    {m : Marks} {start : Int} {pending : List Int} (hpending : m.pending = start :: pending)
    (h : ∀ x, x ∈ m.touched ∨ x = 0 → Settled code m x) :
    ∀ x, x ∈ (walk code start { m with pending }).touched ∨ x = 0 →
      Settled code (walk code start { m with pending }) x := by
  obtain ⟨hext, hsweep⟩ := foldl_step_swept (ahead code start) true { m with pending }
  rw [← walk_eq] at hext hsweep
  have hkeep : ∀ x, Settled code m x → Settled code (walk code start { m with pending }) x := by
    rintro x (hplanned | hswept)
    · rw [hpending, List.mem_cons] at hplanned
      rcases hplanned with rfl | hplanned
      · exact .inr (hsweep rfl)
      · exact .inl (hext.pending x hplanned)
    · exact .inr (hswept.mono hext.touched)
  rintro x (hx | hzero)
  · rcases hext.fresh x hx with hold | hplanned | ⟨w, after, hsuffix, rfl, hswept⟩
    · exact hkeep x (h x (.inl hold))
    · exact .inl hplanned
    · right
      rwa [ahead_of_suffix hsorted (hsuffix.trans (List.drop_suffix _ _))]
  · exact hkeep x (h x (.inr hzero))

theorem touched_subset_drain (fuel : Nat) (m : Marks) :
    ∀ x ∈ m.touched, x ∈ drain code fuel m := by
  induction fuel generalizing m with
  | zero => exact fun _ => id
  | succ fuel ih =>
    unfold drain
    split
    · exact fun _ => id
    · rename_i start pending hpending
      obtain ⟨hext, -⟩ := foldl_step_swept (ahead code start) true { m with pending }
      rw [← walk_eq] at hext
      exact fun x hx => ih _ x (hext.touched x hx)

/-- The loop over the planned walks comes to its end, with these marks. -/
inductive Drains (code : Array Waypoint) : Marks → Std.HashSet Int → Prop
  | done {m : Marks} (hnone : m.pending = []) : Drains code m m.touched
  | next {m : Marks} {start : Int} {pending : List Int} {touched : Std.HashSet Int}
      (hpending : m.pending = start :: pending)
      (hrest : Drains code (walk code start { m with pending }) touched) : Drains code m touched

/-- With fuel for the potential, the walks end only when none is planned any more. -/
theorem drains_drain (offsets : List Int) (hoffsets : ∀ w ∈ code.toList, ∀ t ∈ w.targets, t ∈ offsets)
    {fuel : Nat} {m : Marks} (hfuel : potential offsets m ≤ fuel) :
    Drains code m (drain code fuel m) := by
  induction fuel generalizing m with
  | zero =>
    apply Drains.done
    apply List.length_eq_zero_iff.1
    unfold potential at hfuel
    omega
  | succ fuel ih =>
    unfold drain
    split
    · rename_i hnone
      exact .done hnone
    · rename_i start pending hpending
      apply Drains.next hpending
      apply ih
      -- The walk adds nothing to the potential, and the plan it was started from is gone.
      have hwalk : potential offsets (walk code start { m with pending }) ≤
          potential offsets { m with pending } := by
        rw [walk_eq]
        apply potential_foldl_step_le
        exact fun w hw => hoffsets w (List.mem_of_mem_drop hw)
      have hpop : potential offsets m = potential offsets { m with pending } + 1 := by
        simp only [potential, hpending, List.length_cons]
        omega
      omega

theorem Drains.swept (hsorted : code.toList.Pairwise fun v w => v.offset < w.offset) {m : Marks}
    {touched : Std.HashSet Int} (hdrains : Drains code m touched)
    (h : ∀ x, x ∈ m.touched ∨ x = 0 → Settled code m x) :
    ∀ x, x ∈ touched ∨ x = 0 → Swept touched (ahead code x) := by
  induction hdrains with
  | done hnone => exact fun x hx => (h x hx).swept hnone
  | next hpending _ ih => exact ih (settled_walk hsorted hpending h)

end Drain

end Marks

section Reachable

variable {entries : List Nat} {instructions : List Instruction}

theorem walkBound_eq (entries : List Nat) (instructions : List Instruction) :
    walkBound entries instructions =
      1 + entries.length + (instructions.flatMap Instruction.targets).length := by
  have hfold (n : Nat) : instructions.foldl (fun n ins => n + ins.addressCount) n =
      n + (instructions.flatMap Instruction.targets).length := by
    induction instructions generalizing n with
    | nil => rfl
    | cons ins rest ih =>
      have hcount : ins.targets.length = ins.addressCount := by
        simp [Instruction.targets, Instruction.displacements]
      rw [List.foldl_cons, ih, List.flatMap_cons, List.length_append, hcount, Nat.add_assoc]
  exact hfold _

def Marks.initial (entries : List Nat) : Marks :=
  (entries.map fun entry : Nat => Instruction.signed64 entry).foldl Marks.reach { pending := [0] }

theorem reachable_eq (entries : List Nat) (instructions : List Instruction) :
    reachable entries instructions =
      (Marks.initial entries).drain (instructions.map Instruction.waypoint).toArray
        (walkBound entries instructions) := by
  rw [reachable, Marks.initial, List.foldl_map]

theorem mem_reachable_of_mem_entries {entry : Nat} (h : entry ∈ entries) :
    Instruction.signed64 entry ∈ reachable entries instructions := by
  rw [reachable_eq]
  apply Marks.touched_subset_drain
  exact (Marks.extends_foldl_reach _ _).2 _ (List.mem_map.2 ⟨entry, h, rfl⟩)

theorem settled_initial (code : Array Waypoint) (entries : List Nat) (x : Int)
    (hx : x ∈ (Marks.initial entries).touched ∨ x = 0) :
    Marks.Settled code (Marks.initial entries) x := by
  obtain ⟨hext, -⟩ := Marks.extends_foldl_reach
    (entries.map fun entry : Nat => Instruction.signed64 entry) { pending := [0] }
  left
  rcases hx with hx | rfl
  · rcases hext.fresh x hx with hempty | hplanned | hfalse
    · exact absurd hempty Std.HashSet.not_mem_empty
    · exact hplanned
    · exact hfalse.elim
  · exact hext.pending 0 List.mem_cons_self

theorem potential_initial_le (entries : List Nat) (targets : List Int) :
    Marks.potential (entries.map (fun entry : Nat => Instruction.signed64 entry) ++ targets)
      (Marks.initial entries) ≤ 1 + entries.length + targets.length := by
  apply Nat.le_trans (Marks.potential_foldl_reach_le fun t ht => List.mem_append_left _ ht)
  have hfilter := List.length_filter_le (fun x => !(∅ : Std.HashSet Int).contains x)
    (entries.map (fun entry : Nat => Instruction.signed64 entry) ++ targets)
  rw [List.length_append, List.length_map] at hfilter
  simp only [Marks.potential, List.length_singleton]
  omega

theorem drains_reachable (entries : List Nat) (instructions : List Instruction) :
    Marks.Drains (instructions.map Instruction.waypoint).toArray (Marks.initial entries)
      (reachable entries instructions) := by
  rw [reachable_eq]
  apply Marks.drains_drain (entries.map (fun entry : Nat => Instruction.signed64 entry) ++
    instructions.flatMap Instruction.targets)
  · intro w hw t ht
    obtain ⟨ins, hins, rfl⟩ := List.mem_map.1 hw
    exact List.mem_append_right _ (List.mem_flatMap.2 ⟨ins, hins, ht⟩)
  · rw [walkBound_eq]
    exact potential_initial_le entries _

variable (hsorted : instructions.Pairwise fun a b => a.signedOffset < b.signedOffset)
include hsorted

theorem pairwise_waypoints : (instructions.map Instruction.waypoint).toArray.toList.Pairwise
    fun v w => v.offset < w.offset := by
  rw [List.toList_toArray, List.pairwise_map]
  simpa only [Instruction.waypoint_offset] using hsorted

theorem swept_reachable (x : Int) (hx : x ∈ reachable entries instructions ∨ x = 0) :
    Marks.Swept (reachable entries instructions)
      (Marks.ahead (instructions.map Instruction.waypoint).toArray x) :=
  (drains_reachable entries instructions).swept (pairwise_waypoints hsorted)
    (settled_initial _ entries) x hx

/-- Control that comes to a reached instruction only meets reached ones and `NOP` from there on. -/
theorem swept_of_mem_reachable {before behind : List Instruction} {ins : Instruction}
    (hsplit : instructions = before ++ ins :: behind)
    (hmem : ins.signedOffset ∈ reachable entries instructions) :
    Marks.Swept (reachable entries instructions) ((ins :: behind).map Instruction.waypoint) := by
  have hsuffix : ins.waypoint :: behind.map Instruction.waypoint <:+
      (instructions.map Instruction.waypoint).toArray.toList := by
    rw [List.toList_toArray, hsplit, List.map_append]
    exact List.suffix_append _ _
  have hswept := swept_reachable hsorted _ (.inl hmem)
  rwa [← Instruction.waypoint_offset,
    Marks.ahead_of_suffix (pairwise_waypoints hsorted) hsuffix] at hswept

theorem swept_from_start (hnonneg : ∀ ins ∈ instructions, 0 ≤ ins.signedOffset) :
    Marks.Swept (reachable entries instructions) (instructions.map Instruction.waypoint) := by
  have hall : Marks.ahead (instructions.map Instruction.waypoint).toArray 0 =
      instructions.map Instruction.waypoint := by
    apply Marks.ahead_eq (List.nil_append _).symm nofun
    intro w hw
    obtain ⟨ins, hins, rfl⟩ := List.mem_map.1 hw
    rw [Instruction.waypoint_offset]
    exact hnonneg ins hins
  rw [← hall]
  exact swept_reachable hsorted 0 (.inr rfl)

end Reachable

end ContractLinker
