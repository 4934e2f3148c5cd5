import Mathlib
import ContractLinker.Proofs.Addresses
import ContractLinker.Proofs.Marking
import ContractLinker.Script.DeadCode

namespace ContractLinker

namespace Instruction

/-- A place that an address of code below `2 ^ 63` can point at, or an entry point, is its own word
or lies behind all code, and then its word is negative. -/
theorem signed64_cases {place : Int} (hlow : -2 ^ 63 ≤ place) (hhigh : place < 2 ^ 64) :
    signed64 place = place ∨ 2 ^ 63 ≤ place ∧ signed64 place < 0 := by
  have hbound : Bytes.bound 8 = 18446744073709551616 := rfl
  unfold signed64
  rw [hbound]
  obtain ⟨hmin, hmax, k, hk⟩ := (Int.bmod_eq_iff (by decide)).1
    (rfl : place.bmod 18446744073709551616 = place.bmod 18446744073709551616)
  generalize place.bmod 18446744073709551616 = word at *
  by_cases hsmall : place < 2 ^ 63
  · left
    omega
  · right
    omega

theorem place_bounds {ins : Instruction} {index : Nat} {d : Int} (hoffset : ins.offset < 2 ^ 63)
    (hread : ins.readAddress index = .ok d) :
    -2 ^ 63 ≤ (ins.offset : Int) + d ∧ (ins.offset : Int) + d < 2 ^ 64 := by
  have hbound : Bytes.bound 4 = 4294967296 := rfl
  have hfits := fitsSigned_readAddress hread
  rw [Bytes.FitsSigned, hbound] at hfits
  omega

end Instruction

namespace Script

def firstFrom? (code : List Instruction) (offset : Int) : Option Instruction :=
  code.find? fun ins => offset ≤ ins.offset

/-- Control can come to the instruction. It starts at the first instruction from offset 0 or from an
entry point on. It goes on to the next instruction unless it stands at one that never falls through,
and to the first instruction from each place on that an address points at. -/
inductive Reaches (entries : List Nat) (code : List Instruction) : Instruction → Prop
  | start {ins : Instruction} (hfirst : firstFrom? code 0 = some ins) : Reaches entries code ins
  | entry {entry : Nat} {ins : Instruction} (hentry : entry ∈ entries)
      (hfirst : firstFrom? code entry = some ins) : Reaches entries code ins
  | next {ins other : Instruction} (h : Reaches entries code ins)
      (hterm : ins.opcode.isTerminator = false) (hnext : [ins, other] <:+: code) :
      Reaches entries code other
  | target {ins other : Instruction} {index : Nat} {d : Int} (h : Reaches entries code ins)
      (hnop : ins.opcode ≠ .nop) (hread : ins.readAddress index = .ok d)
      (hfirst : firstFrom? code (ins.offset + d) = some other) : Reaches entries code other

/-- The instruction is one that control comes to and no `NOP`, an entry point, or exactly where an
address of such an instruction points. -/
def Needed (entries : List Nat) (code : List Instruction) (ins : Instruction) : Prop :=
  ins.opcode ≠ .nop ∧ Reaches entries code ins ∨ ins.offset ∈ entries ∨
    ∃ origin index d, Reaches entries code origin ∧ origin.opcode ≠ .nop ∧
      origin.readAddress index = .ok d ∧ (origin.offset : Int) + d = ins.offset

theorem Reaches.mono {entries entries' : List Nat} {code : List Instruction} {ins : Instruction}
    (hsub : entries ⊆ entries') (h : Reaches entries code ins) : Reaches entries' code ins := by
  induction h with
  | start hfirst => exact .start hfirst
  | entry hentry hfirst => exact .entry (hsub hentry) hfirst
  | next _ hterm hnext ih => exact .next ih hterm hnext
  | target _ hnop hread hfirst ih => exact .target ih hnop hread hfirst

theorem Needed.mono {entries entries' : List Nat} {code : List Instruction} {ins : Instruction}
    (hsub : entries ⊆ entries') (h : Needed entries code ins) : Needed entries' code ins := by
  rcases h with ⟨hnop, hreaches⟩ | hentry | ⟨origin, index, d, hreaches, hrest⟩
  · exact .inl ⟨hnop, hreaches.mono hsub⟩
  · exact .inr (.inl (hsub hentry))
  · exact .inr (.inr ⟨origin, index, d, hreaches.mono hsub, hrest⟩)

/-- The code from the first instruction on that is not in front of `offset`. -/
def codeFrom (code : List Instruction) (offset : Int) : List Instruction :=
  code.dropWhile fun ins => ins.offset < offset

theorem firstFrom?_eq (code : List Instruction) (offset : Int) :
    firstFrom? code offset = (codeFrom code offset).head? := by
  rw [firstFrom?, codeFrom, List.find?_eq_head?_dropWhile_not]
  congr 2
  funext ins
  rw [← decide_not, decide_eq_decide]
  omega

theorem codeFrom_of_firstFrom? {code : List Instruction} {offset : Int} {ins : Instruction}
    (h : firstFrom? code offset = some ins) : ∃ behind, codeFrom code offset = ins :: behind := by
  rw [firstFrom?_eq] at h
  exact List.head?_eq_some_iff.1 h

theorem codeFrom_of_nonpos (code : List Instruction) {offset : Int} (h : offset ≤ 0) :
    codeFrom code offset = code := by
  unfold codeFrom
  cases code with
  | nil => rfl
  | cons ins rest =>
    apply List.dropWhile_cons_of_neg
    rw [decide_eq_true_eq]
    omega

section Sorted

variable {code : List Instruction} (hsorted : code.Pairwise fun a b => a.offset < b.offset)

include hsorted in
theorem le_of_mem_codeFrom {offset : Int} {ins : Instruction} (h : ins ∈ codeFrom code offset) :
    offset ≤ ins.offset := by
  unfold codeFrom at h
  induction code with
  | nil => cases h
  | cons first rest ih =>
    rw [List.pairwise_cons] at hsorted
    by_cases hbefore : (first.offset : Int) < offset
    · rw [List.dropWhile_cons_of_pos (by simpa using hbefore)] at h
      exact ih hsorted.2 h
    · rw [List.dropWhile_cons_of_neg (by simpa using hbefore)] at h
      rcases List.mem_cons.1 h with rfl | hrest
      · omega
      · have hlt := hsorted.1 ins hrest
        omega

include hsorted in
theorem codeFrom_of_suffix {ins : Instruction} {behind : List Instruction}
    (h : ins :: behind <:+ code) : codeFrom code ins.offset = ins :: behind := by
  obtain ⟨before, rfl⟩ := h
  rw [List.pairwise_append] at hsorted
  have hbefore : ∀ other ∈ before, decide ((other.offset : Int) < ins.offset) = true := by
    intro other hother
    have hlt := hsorted.2.2 other hother ins List.mem_cons_self
    apply decide_eq_true
    omega
  rw [codeFrom, List.dropWhile_append_of_pos hbefore]
  apply List.dropWhile_cons_of_neg
  simp

include hsorted in
theorem eq_of_offset {a b : Instruction} (ha : a ∈ code) (hb : b ∈ code)
    (hoffset : a.offset = b.offset) : a = b := by
  obtain ⟨before, behind, hsplit⟩ := List.append_of_mem ha
  obtain ⟨before', behind', hsplit'⟩ := List.append_of_mem hb
  have hfirst := codeFrom_of_suffix hsorted ⟨before, hsplit.symm⟩
  rw [hoffset, codeFrom_of_suffix hsorted ⟨before', hsplit'.symm⟩] at hfirst
  exact (List.cons.inj hfirst).1.symm

variable (hoffsets : ∀ ins ∈ code, ins.offset < 2 ^ 63)
include hsorted hoffsets

/-- A walk goes over the code from its start on. -/
theorem ahead_eq_codeFrom (offset : Int) :
    Marks.ahead (code.map Instruction.waypoint).toArray offset =
      (codeFrom code offset).map Instruction.waypoint := by
  have hwaypoint (ins : Instruction) (hmem : ins ∈ code) : ins.waypoint.offset = ins.offset :=
    (Instruction.waypoint_offset ins).trans (Instruction.signed64_of_lt (hoffsets ins hmem))
  have hsplit : (code.map Instruction.waypoint).toArray.toList =
      (code.takeWhile fun ins => ins.offset < offset).map Instruction.waypoint ++
        (codeFrom code offset).map Instruction.waypoint := by
    rw [List.toList_toArray, ← List.map_append, codeFrom, List.takeWhile_append_dropWhile]
  apply Marks.ahead_eq hsplit
  · intro w hw
    obtain ⟨ins, hins, rfl⟩ := List.mem_map.1 hw
    rw [hwaypoint ins ((List.takeWhile_subset _) hins)]
    simpa using List.mem_takeWhile_imp hins
  · intro w hw
    obtain ⟨ins, hins, rfl⟩ := List.mem_map.1 hw
    rw [hwaypoint ins ((List.dropWhile_subset _) hins)]
    exact le_of_mem_codeFrom hsorted hins

/-- The walk planned for a place starts at the first instruction from there on. Where the word of the
place has wrapped around there is none, and the walk goes over all code. -/
theorem ahead_word {place : Int} (hlow : -2 ^ 63 ≤ place) (hhigh : place < 2 ^ 64) :
    Marks.ahead (code.map Instruction.waypoint).toArray (Instruction.signed64 place) =
        (codeFrom code place).map Instruction.waypoint ∨
      firstFrom? code place = none ∧
        Marks.ahead (code.map Instruction.waypoint).toArray (Instruction.signed64 place) =
          (codeFrom code 0).map Instruction.waypoint := by
  rcases Instruction.signed64_cases hlow hhigh with hself | ⟨hbehind, hnegative⟩
  · left
    rw [hself, ahead_eq_codeFrom hsorted hoffsets]
  · right
    constructor
    · apply List.find?_eq_none.2
      intro ins hmem
      have hlt := hoffsets ins hmem
      simp only [decide_eq_true_eq]
      omega
    · rw [ahead_eq_codeFrom hsorted hoffsets, codeFrom_of_nonpos code (by omega),
        codeFrom_of_nonpos code (Int.le_refl 0)]

theorem ahead_of_firstFrom? {place : Int} {ins : Instruction} (hlow : -2 ^ 63 ≤ place)
    (hhigh : place < 2 ^ 64) (hfirst : firstFrom? code place = some ins) :
    ∃ behind, ins :: behind <:+ code ∧
      Marks.ahead (code.map Instruction.waypoint).toArray (Instruction.signed64 place) =
        (ins :: behind).map Instruction.waypoint := by
  obtain ⟨behind, hbehind⟩ := codeFrom_of_firstFrom? hfirst
  refine ⟨behind, hbehind ▸ List.dropWhile_suffix _, ?_⟩
  rcases ahead_word hsorted hoffsets hlow hhigh with hahead | ⟨hnone, -⟩
  · rw [hahead, hbehind]
  · rw [hnone] at hfirst
    cases hfirst

end Sorted

/-- These are the waypoints of an end of the code, and control can come to its first instruction if
it has one. -/
def Views (entries : List Nat) (code : List Instruction) (l : List Waypoint) : Prop :=
  ∃ tail, tail <:+ code ∧ l = tail.map Instruction.waypoint ∧
    ∀ ins behind, tail = ins :: behind → Reaches entries code ins

section Exact

variable {entries : List Nat} {code : List Instruction}

theorem views_codeFrom {place : Int}
    (h : ∀ ins, firstFrom? code place = some ins → Reaches entries code ins) :
    Views entries code ((codeFrom code place).map Instruction.waypoint) := by
  refine ⟨codeFrom code place, List.dropWhile_suffix _, rfl, ?_⟩
  intro ins behind htail
  apply h
  rw [firstFrom?_eq, htail]
  rfl

theorem Views.cons {w : Waypoint} {rest : List Waypoint} (h : Views entries code (w :: rest)) :
    ∃ ins behind, ins :: behind <:+ code ∧ w = ins.waypoint ∧
      rest = behind.map Instruction.waypoint ∧ Reaches entries code ins := by
  obtain ⟨tail, hsuffix, hmap, hreaches⟩ := h
  obtain ⟨ins, behind, rfl, rfl, rfl⟩ := List.map_eq_cons_iff.1 hmap.symm
  exact ⟨ins, behind, hsuffix, rfl, rfl, hreaches ins behind rfl⟩

variable (hsorted : code.Pairwise fun a b => a.offset < b.offset)
  (hoffsets : ∀ ins ∈ code, ins.offset < 2 ^ 63)
include hsorted hoffsets

theorem views_word {place : Int} (hlow : -2 ^ 63 ≤ place) (hhigh : place < 2 ^ 64)
    (h : ∀ ins, firstFrom? code place = some ins → Reaches entries code ins) :
    Views entries code
      (Marks.ahead (code.map Instruction.waypoint).toArray (Instruction.signed64 place)) := by
  rcases ahead_word hsorted hoffsets hlow hhigh with hahead | ⟨-, hahead⟩
  · rw [hahead]
    exact views_codeFrom h
  · rw [hahead]
    exact views_codeFrom fun ins => .start

variable (hentries : ∀ entry ∈ entries, entry < 2 ^ 64)
include hentries

theorem views_of_arrives {l : List Waypoint} (h : Arrives entries code l) :
    Views entries code l := by
  -- Walks speak of words and the graph of places, so each start is taken from the one to the other.
  induction h with
  | start =>
    rw [ahead_eq_codeFrom hsorted hoffsets]
    exact views_codeFrom fun ins => .start
  | entry hx =>
    obtain ⟨entry, hentry, rfl⟩ := List.mem_map.1 hx
    have hlt := hentries entry hentry
    apply views_word hsorted hoffsets (by omega) (by omega)
    exact fun ins => .entry hentry
  | next _ hterm ih =>
    obtain ⟨ins, behind, hsuffix, rfl, rfl, hreaches⟩ := ih.cons
    refine ⟨behind, (List.suffix_cons ins behind).trans hsuffix, rfl, ?_⟩
    rintro other rest rfl
    apply hreaches.next hterm
    exact (List.prefix_append [ins, other] rest).isInfix.trans hsuffix.isInfix
  | target _ hnop ht ih =>
    obtain ⟨ins, behind, hsuffix, rfl, rfl, hreaches⟩ := ih.cons
    obtain ⟨index, hindex⟩ := List.getElem?_of_mem ht
    obtain ⟨d, hread, rfl⟩ := Instruction.getElem?_targets.1 hindex
    obtain ⟨hlow, hhigh⟩ :=
      Instruction.place_bounds (hoffsets ins (hsuffix.mem List.mem_cons_self)) hread
    apply views_word hsorted hoffsets hlow hhigh
    exact fun other => hreaches.target hnop hread

theorem arrives_of_reaches {ins : Instruction} (h : Reaches entries code ins) :
    ∃ behind, ins :: behind <:+ code ∧
      Arrives entries code ((ins :: behind).map Instruction.waypoint) := by
  induction h with
  | start hfirst =>
    obtain ⟨behind, hbehind⟩ := codeFrom_of_firstFrom? hfirst
    refine ⟨behind, hbehind ▸ List.dropWhile_suffix _, ?_⟩
    rw [← hbehind, ← ahead_eq_codeFrom hsorted hoffsets]
    exact .start
  | @entry entry ins hentry hfirst =>
    have hlt := hentries entry hentry
    obtain ⟨behind, hsuffix, hahead⟩ :=
      ahead_of_firstFrom? hsorted hoffsets (by omega) (by omega) hfirst
    refine ⟨behind, hsuffix, ?_⟩
    rw [← hahead]
    exact .entry (List.mem_map_of_mem hentry)
  | @next ins other _ hterm hnext ih =>
    obtain ⟨behind, hsuffix, harrives⟩ := ih
    obtain ⟨before, rest, hsplit⟩ := hnext
    have hsuffix' : ins :: other :: rest <:+ code := ⟨before, by simpa using hsplit⟩
    -- The instruction stands at one place only, so the other one follows it there.
    have hbehind := (codeFrom_of_suffix hsorted hsuffix).symm.trans
      (codeFrom_of_suffix hsorted hsuffix')
    rw [List.cons.injEq] at hbehind
    obtain ⟨-, rfl⟩ := hbehind
    exact ⟨rest, (List.suffix_cons ins _).trans hsuffix, harrives.next hterm⟩
  | @target ins other index d _ hnop hread hfirst ih =>
    obtain ⟨behind, hsuffix, harrives⟩ := ih
    obtain ⟨hlow, hhigh⟩ :=
      Instruction.place_bounds (hoffsets ins (hsuffix.mem List.mem_cons_self)) hread
    obtain ⟨behind', hsuffix', hahead⟩ := ahead_of_firstFrom? hsorted hoffsets hlow hhigh hfirst
    refine ⟨behind', hsuffix', ?_⟩
    rw [← hahead]
    apply harrives.target hnop
    exact List.mem_of_getElem? (Instruction.getElem?_targets.2 ⟨d, hread, rfl⟩)

/-- A mark at an instruction has its reason in the graph, and every reason there leaves a mark. -/
theorem mem_reachable_iff {ins : Instruction} (hmem : ins ∈ code) :
    (ins.offset : Int) ∈ reachable entries code ↔ Needed entries code ins := by
  have hword (other : Instruction) (hother : other ∈ code) : other.signedOffset = other.offset :=
    Instruction.signed64_of_lt (hoffsets other hother)
  have hsigned : code.Pairwise fun a b => a.signedOffset < b.signedOffset := by
    apply hsorted.imp_of_mem
    intro a b ha hb hlt
    rw [hword a ha, hword b hb]
    omega
  -- From the marks to the graph by the reason of each mark, and back by the closure of the marks.
  constructor
  · intro hmarked
    rcases reason_of_mem_reachable hsigned hmarked with
      hentry | ⟨w, rest, harrives, hnop, hreason⟩
    · obtain ⟨entry, hentry, hsame⟩ := List.mem_map.1 hentry
      have hlt := hentries entry hentry
      have hcases := Instruction.signed64_cases (show -2 ^ 63 ≤ (entry : Int) by omega) (by omega)
      have heq : entry = ins.offset := by omega
      exact .inr (.inl (heq ▸ hentry))
    · obtain ⟨origin, behind, hsuffix, rfl, -, hreaches⟩ :=
        (views_of_arrives hsorted hoffsets hentries harrives).cons
      have horigin : origin ∈ code := hsuffix.mem List.mem_cons_self
      rcases hreason with hself | htarget
      · rw [Instruction.waypoint_offset, hword origin horigin] at hself
        have heq : ins = origin := eq_of_offset hsorted hmem horigin (by omega)
        exact .inl (heq ▸ ⟨hnop, hreaches⟩)
      · obtain ⟨index, hindex⟩ := List.getElem?_of_mem htarget
        obtain ⟨d, hread, hplace⟩ := Instruction.getElem?_targets.1 hindex
        have hexact := Instruction.eq_of_signed64_eq (hoffsets origin horigin)
          (Instruction.fitsSigned_readAddress hread) hplace.symm
        exact .inr (.inr ⟨origin, index, d, hreaches, hnop, hread, hexact⟩)
  · rintro (⟨hnop, hreaches⟩ | hentry | ⟨origin, index, d, hreaches, hnop, hread, hplace⟩)
    · obtain ⟨behind, hsuffix, harrives⟩ := arrives_of_reaches hsorted hoffsets hentries hreaches
      rcases (harrives.swept hsigned).1 with hskip | ⟨hmarked, -⟩
      · exact absurd hskip hnop
      · rwa [Instruction.waypoint_offset, hword ins hmem] at hmarked
    · rw [← hword ins hmem]
      exact mem_reachable_of_mem_entries hentry
    · obtain ⟨behind, hsuffix, harrives⟩ := arrives_of_reaches hsorted hoffsets hentries hreaches
      rcases (harrives.swept hsigned).1 with hskip | ⟨-, htargets⟩
      · exact absurd hskip hnop
      · rw [← hword ins hmem, Instruction.signedOffset, ← hplace]
        apply htargets
        exact List.mem_of_getElem? (Instruction.getElem?_targets.2 ⟨d, hread, rfl⟩)

end Exact

open Classical in
/-- The walks come to an end, and they mark exactly the instructions that are needed; so it does not
matter how the entry points are ordered or how often one is given, and what is kept are the needed
instructions in their order. Offsets into bytes in memory are below `2 ^ 63`, and entry points are
words of 64 bits. -/
theorem reachable_exact {entries : List Nat} {code : List Instruction}
    (hsorted : code.Pairwise fun a b => a.offset < b.offset)
    (hoffsets : ∀ ins ∈ code, ins.offset < 2 ^ 63) (hentries : ∀ entry ∈ entries, entry < 2 ^ 64) :
    Marks.Drains (code.map Instruction.waypoint).toArray (Marks.initial entries)
        (reachable entries code) ∧
      (∀ ins ∈ code, (ins.offset : Int) ∈ reachable entries code ↔ Needed entries code ins) ∧
      (∀ entries', (∀ entry, entry ∈ entries' ↔ entry ∈ entries) → ∀ ins ∈ code,
        (ins.offset : Int) ∈ reachable entries' code ↔ (ins.offset : Int) ∈ reachable entries code) ∧
      live entries code = code.filter fun ins => Needed entries code ins := by
  have hexact (ins : Instruction) (hmem : ins ∈ code) :=
    mem_reachable_iff hsorted hoffsets hentries hmem
  refine ⟨drains_reachable entries code, hexact, ?_, ?_⟩
  · intro entries' hsame ins hmem
    have hentries' : ∀ entry ∈ entries', entry < 2 ^ 64 :=
      fun entry hentry => hentries entry ((hsame entry).1 hentry)
    rw [hexact ins hmem, mem_reachable_iff hsorted hoffsets hentries' hmem]
    constructor
    · exact Needed.mono fun entry => (hsame entry).1
    · exact Needed.mono fun entry => (hsame entry).2
  · apply List.filter_congr
    intro ins hmem
    rw [Bool.eq_iff_iff, decide_eq_true_eq, ← hexact ins hmem, Std.HashSet.mem_iff_contains,
      Instruction.signedOffset, Instruction.signed64_of_lt (hoffsets ins hmem)]

/-- The first jump leads to the second one, and that one back to code in between, which is passed over
at first. -/
def backward : List Instruction :=
  [⟨.jmp, [4], 0⟩, ⟨.push1, [], 2⟩, ⟨.ret, [], 3⟩, ⟨.jmp, [0xFE], 4⟩, ⟨.push2, [], 6⟩]

theorem reachable_exact_backward :
    live [] backward = [⟨.jmp, [4], 0⟩, ⟨.push1, [], 2⟩, ⟨.ret, [], 3⟩, ⟨.jmp, [0xFE], 4⟩] ∧
      Needed [] backward ⟨.ret, [], 3⟩ ∧ ¬ Needed [] backward ⟨.push2, [], 6⟩ := by
  have hlive : live [] backward =
      [⟨.jmp, [4], 0⟩, ⟨.push1, [], 2⟩, ⟨.ret, [], 3⟩, ⟨.jmp, [0xFE], 4⟩] := by cbv
  have hfilter := (@reachable_exact [] backward (by decide) (by decide) (by simp)).2.2.2
  rw [hlive] at hfilter
  have hneeded (ins : Instruction) (hmem : ins ∈ backward) : Needed [] backward ins ↔
      ins ∈ [⟨.jmp, [4], 0⟩, ⟨.push1, [], 2⟩, ⟨.ret, [], 3⟩, ⟨.jmp, [0xFE], 4⟩] := by
    rw [hfilter, List.mem_filter]
    simp [hmem]
  refine ⟨hlive, (hneeded _ (by decide)).2 (by decide), ?_⟩
  rw [hneeded _ (by decide)]
  decide

end Script
end ContractLinker
