import ContractLinker.Proofs.Lowering

namespace ContractLinker

theorem Targets.slots_reshape (targets : Targets) (opcode : Opcode) :
    (targets.reshape opcode).slots.length = opcode.addressClass.elim 0 AddressClass.count := by
  unfold reshape
  cases opcode.addressClass with
  | none => rfl
  | some cls => cases cls <;> rfl

namespace Lowering

/-- What a slot holds afterwards: what the name stands for, if one is given. -/
def Binds (s : Lowering) (name : Option String) (old new : Option InstructionId) : Prop :=
  match name with
  | none => new = old
  | some name => ∃ id, s.resolve name = .ok id ∧ new = some id

/-- `ins'` is `ins` with the targets that `b` has waited for. -/
structure Retargets (s : Lowering) (b : PendingBranch) (ins ins' : Unlinked) : Prop where
  rest : ins' = { ins with targets := ins'.targets }
  shape : ins'.targets.slots.length = ins.targets.slots.length
  first : s.Binds b.target ins.targets.first ins'.targets.first
  second : s.Binds b.target2 ins.targets.second ins'.targets.second

/-- At most the instruction `id` was changed. -/
structure Touches (id : InstructionId) (c c' : Compilation) : Prop where
  rest : c' = { c with arena := c'.arena }
  size : c'.arena.size = c.arena.size
  other : ∀ other, other ≠ id → c'.arena.get other = c.arena.get other

theorem Touches.refl (id : InstructionId) (c : Compilation) : Touches id c c :=
  ⟨rfl, rfl, fun _ _ => rfl⟩

theorem Touches.trans {id : InstructionId} {c c' c'' : Compilation} (h : Touches id c c')
    (h' : Touches id c' c'') : Touches id c c'' := by
  refine ⟨?_, h'.size.trans h.size, fun other hne => (h'.other other hne).trans (h.other other hne)⟩
  rw [h'.rest, h.rest]

theorem modifyInstruction_ok {c c' : Compilation} {id : InstructionId} {ins : Unlinked}
    {change : Unlinked → Outcome CompileError Unlinked Unit} (hget : c.arena.get id = .ok ins)
    (h : c.modifyInstruction id change = (.ok (), c')) :
    Touches id c c' ∧ ∃ ins', change ins = (.ok (), ins') ∧ c'.arena.get id = .ok ins' := by
  simp only [Compilation.modifyInstruction, Arena.modify, hget, Prod.mk.injEq] at h
  obtain ⟨hchange, rfl⟩ := h
  refine ⟨⟨rfl, Array.size_setIfInBounds, fun other hne => Arena.get_set_of_ne hne⟩, _,
    Prod.ext hchange rfl, ?_⟩
  exact Arena.get_set_self hget

theorem bindSlot_ok {s : Lowering} {c c' : Compilation} {id : InstructionId}
    {target : Option String} {set : Unlinked → InstructionId → Outcome CompileError Unlinked Unit}
    {ins : Unlinked} (hget : c.arena.get id = .ok ins)
    (h : s.bindSlot id target set c = .ok c') :
    Touches id c c' ∧ ∃ ins', c'.arena.get id = .ok ins' ∧
      (target = none ∧ ins' = ins ∨ ∃ name there, target = some name ∧
        s.resolve name = .ok there ∧ set ins there = (.ok (), ins')) := by
  unfold bindSlot at h
  cases target with
  | none =>
    cases h
    exact ⟨.refl id c, ins, hget, .inl ⟨rfl, rfl⟩⟩
  | some name =>
    obtain ⟨there, hresolve, hset⟩ := Except.bind_eq_ok_iff.1 h
    obtain ⟨⟨_, c₁⟩, hmodify, hpure⟩ := Except.bind_eq_ok_iff.1 hset
    cases hpure
    obtain ⟨htouches, ins', hins', hget'⟩ :=
      modifyInstruction_ok hget (orFail_onSuccess_eq_ok_iff.1 hmodify)
    exact ⟨htouches, ins', hget', .inr ⟨name, there, rfl, hresolve, hins'⟩⟩

theorem setTarget_ok {ins ins' : Unlinked} {target : InstructionId}
    (h : ins.setTarget target = (.ok (), ins')) :
    ins' = { ins with targets := ins'.targets } ∧
      ins'.targets.slots.length = ins.targets.slots.length ∧
      ins'.targets.first = some target ∧ ins'.targets.second = ins.targets.second := by
  unfold Unlinked.setTarget at h
  split at h
  · cases h
  · rename_i hsingle
    cases h
    simp [hsingle, Targets.slots, Targets.first, Targets.second]
  · rename_i hdual
    cases h
    simp [hdual, Targets.slots, Targets.first, Targets.second]

theorem setTarget2_ok {ins ins' : Unlinked} {target : InstructionId}
    (h : ins.setTarget2 target = (.ok (), ins')) :
    ins' = { ins with targets := ins'.targets } ∧
      ins'.targets.slots.length = ins.targets.slots.length ∧
      ins'.targets.first = ins.targets.first ∧ ins'.targets.second = some target := by
  unfold Unlinked.setTarget2 at h
  split at h
  · rename_i hdual
    cases h
    simp [hdual, Targets.slots, Targets.first, Targets.second]
  · cases h

theorem bindBranch_ok {s : Lowering} {c c' : Compilation} {b : PendingBranch} {ins : Unlinked}
    (hget : c.arena.get b.id = .ok ins) (h : s.bindBranch c b = .ok c') :
    Touches b.id c c' ∧ ∃ ins', c'.arena.get b.id = .ok ins' ∧ Retargets s b ins ins' := by
  obtain ⟨c₁, hfirst, hsecond⟩ := Except.bind_eq_ok_iff.1 h
  obtain ⟨htouches, ins₁, hget₁, hins₁⟩ := bindSlot_ok hget hfirst
  obtain ⟨htouches', ins', hget', hins'⟩ := bindSlot_ok hget₁ hsecond
  refine ⟨htouches.trans htouches', ins', hget', ?_⟩
  -- Binding one slot leaves the other alone.
  have hone : Retargets s ⟨b.id, b.target, none⟩ ins ins₁ := by
    rcases hins₁ with ⟨htarget, rfl⟩ | ⟨name, there, htarget, hresolve, hset⟩
    · rw [htarget]
      exact ⟨rfl, rfl, rfl, rfl⟩
    · obtain ⟨hrest, hshape, hset_first, hset_second⟩ := setTarget_ok hset
      rw [htarget]
      exact ⟨hrest, hshape, ⟨there, hresolve, hset_first⟩, hset_second⟩
  rcases hins' with ⟨htarget, rfl⟩ | ⟨name, there, htarget, hresolve, hset⟩
  · refine ⟨hone.rest, hone.shape, hone.first, ?_⟩
    rw [htarget]
    exact hone.second
  · obtain ⟨hrest, hshape, hset_first, hset_second⟩ := setTarget2_ok hset
    refine ⟨?_, hshape.trans hone.shape, ?_, ?_⟩
    · rw [hrest, hone.rest]
    · rw [hset_first]
      exact hone.first
    · rw [htarget]
      exact ⟨there, hresolve, hset_second⟩

/-- Binding a list of branches, none of them twice, changes each of these and nothing else. -/
theorem bindAll_ok {s : Lowering} {c c' : Compilation} {pending : List PendingBranch}
    (hdistinct : (pending.map (·.id)).Nodup)
    (hplaced : ∀ b ∈ pending, ∃ ins, c.arena.get b.id = .ok ins)
    (h : pending.foldlM s.bindBranch c = .ok c') :
    c' = { c with arena := c'.arena } ∧ c'.arena.size = c.arena.size ∧
      ∀ id ins, c.arena.get id = .ok ins → ∃ ins', c'.arena.get id = .ok ins' ∧
        ((∀ b ∈ pending, b.id ≠ id) ∧ ins' = ins ∨
          ∃ b ∈ pending, b.id = id ∧ Retargets s b ins ins') := by
  induction pending generalizing c with
  | nil =>
    cases h
    exact ⟨rfl, rfl, fun id ins hget => ⟨ins, hget, .inl ⟨nofun, rfl⟩⟩⟩
  | cons b pending ih =>
    rw [List.map_cons, List.nodup_cons] at hdistinct
    rw [List.forall_mem_cons] at hplaced
    rw [List.foldlM_cons] at h
    obtain ⟨c₁, hfirst, hrest⟩ := Except.bind_eq_ok_iff.1 h
    obtain ⟨ins, hget⟩ := hplaced.1
    obtain ⟨htouches, ins₁, hget₁, hretargets⟩ := bindBranch_ok hget hfirst
    -- No later branch touches this instruction again, so what is bound here stays.
    have hother : ∀ b' ∈ pending, b'.id ≠ b.id := by
      intro b' hb' heq
      exact hdistinct.1 (heq ▸ List.mem_map_of_mem hb')
    have hplaced₁ : ∀ b' ∈ pending, ∃ ins, c₁.arena.get b'.id = .ok ins := by
      intro b' hb'
      rw [htouches.other _ (hother b' hb')]
      exact hplaced.2 b' hb'
    obtain ⟨hkeep, hsize, hall⟩ := ih hdistinct.2 hplaced₁ hrest
    refine ⟨?_, hsize.trans htouches.size, ?_⟩
    · rw [hkeep, htouches.rest]
    · intro id old hold
      by_cases heq : id = b.id
      · subst heq
        rw [hget] at hold
        cases hold
        obtain ⟨ins', hget', ⟨-, rfl⟩ | ⟨b', hb', hid, -⟩⟩ := hall _ _ hget₁
        · exact ⟨ins', hget', .inr ⟨b, List.mem_cons_self, rfl, hretargets⟩⟩
        · exact absurd hid (hother b' hb')
      · rw [← htouches.other id heq] at hold
        obtain ⟨ins', hget', ⟨hnone, rfl⟩ | ⟨b', hb', hid, hretargets'⟩⟩ := hall id old hold
        · refine ⟨ins', hget', .inl ⟨?_, rfl⟩⟩
          exact List.forall_mem_cons.2 ⟨fun hid => heq hid.symm, hnone⟩
        · exact ⟨ins', hget', .inr ⟨b', List.mem_cons_of_mem _ hb', hid, hretargets'⟩⟩

/-- What stands in the arena for a definition in the end. -/
structure Bound (s : Lowering) (d : InstructionDef) (ins : Unlinked) : Prop where
  opcode : Opcode.ofMnemonic? d.opcode = some ins.opcode
  operand : ∀ digits, d.operand = some digits → Hex.Writes digits.toList ins.operand
  shape : ins.targets.slots.length = ins.opcode.addressClass.elim 0 AddressClass.count
  first : s.Binds d.target none ins.targets.first
  second : s.Binds d.target2 none ins.targets.second

theorem reshape_none (opcode : Opcode) :
    (Targets.reshape opcode .none).first = none ∧ (Targets.reshape opcode .none).second = none := by
  unfold Targets.reshape
  cases opcode.addressClass with
  | none => exact ⟨rfl, rfl⟩
  | some cls => cases cls <;> exact ⟨rfl, rfl⟩

theorem Lowered.bound {s : Lowering} {d : InstructionDef} {ins : Unlinked} (h : Lowered d ins)
    (htarget : d.target = none) (htarget2 : d.target2 = none) : Bound s d ins := by
  obtain ⟨hfirst, hsecond⟩ := reshape_none ins.opcode
  have hshape := Targets.none.slots_reshape ins.opcode
  rw [← h.targets] at hfirst hsecond hshape
  refine ⟨h.opcode, h.operand, hshape, ?_, ?_⟩
  · rw [htarget]
    exact hfirst
  · rw [htarget2]
    exact hsecond

theorem Lowered.retargets {s : Lowering} {d : InstructionDef} {b : PendingBranch}
    {ins ins' : Unlinked} (h : Lowered d ins) (hwaits : Waits d b) (hre : Retargets s b ins ins') :
    Bound s d ins' := by
  obtain ⟨hfirst, hsecond⟩ := reshape_none ins.opcode
  have hshape := Targets.none.slots_reshape ins.opcode
  rw [← h.targets] at hfirst hsecond hshape
  obtain ⟨htarget, htarget2, -⟩ := hwaits
  have hopcode : ins'.opcode = ins.opcode := by rw [hre.rest]
  have hoperand : ins'.operand = ins.operand := by rw [hre.rest]
  refine ⟨?_, ?_, ?_, ?_, ?_⟩
  · rw [hopcode]
    exact h.opcode
  · rw [hoperand]
    exact h.operand
  · rw [hopcode, hre.shape]
    exact hshape
  · rw [← htarget, ← hfirst]
    exact hre.first
  · rw [← htarget2, ← hsecond]
    exact hre.second

/-- All that waits is bound, and nothing else changes. -/
theorem Tracks.bindAll_ok {names : List String} {sites : List Site} {s : Lowering} {c : Compilation}
    (h : Tracks names sites s)
    (hrun : s.pending.reverse.foldlM s.bindBranch s.compilation = .ok c) :
    c = { s.compilation with arena := c.arena } ∧ c.arena.size = s.compilation.arena.size ∧
      ∀ id ins, s.compilation.arena.get id = .ok ins → ∃ ins', c.arena.get id = .ok ins' ∧
        ((∀ b ∈ s.pending.reverse, b.id ≠ id) ∧ ins' = ins ∨
          ∃ b ∈ s.pending.reverse, b.id = id ∧ Retargets s b ins ins') := by
  apply Lowering.bindAll_ok ?_ ?_ hrun
  · rw [List.map_reverse, List.nodup_reverse]
    exact h.distinct
  · intro b hb
    obtain ⟨site, hsite, -⟩ := (h.pending b).1 (List.mem_reverse.1 hb)
    obtain ⟨ins, hget, -⟩ := h.cells b.id site hsite
    exact ⟨ins, hget⟩

/-- Once all branches are bound, every definition has its instruction. -/
theorem Tracks.bindAll {names : List String} {sites : List Site} {s : Lowering} {c : Compilation}
    (h : Tracks names sites s)
    (hrun : s.pending.reverse.foldlM s.bindBranch s.compilation = .ok c) :
    c = { s.compilation with arena := c.arena } ∧ c.arena.size = sites.length ∧
      ∀ id site, sites[id]? = some site →
        ∃ ins, c.arena.get id = .ok ins ∧ Bound s site.definition ins := by
  obtain ⟨hrest, hsize, hall⟩ := h.bindAll_ok hrun
  refine ⟨hrest, hsize.trans h.size, ?_⟩
  intro id site hsite
  obtain ⟨ins, hget, hlowered⟩ := h.cells id site hsite
  obtain ⟨ins', hget', ⟨hnone, rfl⟩ | ⟨b, hb, rfl, hre⟩⟩ := hall id ins hget
  · -- A definition with a target would wait for it.
    have hsilent : ¬ (site.definition.target.isSome || site.definition.target2.isSome) = true := by
      intro hsome
      refine hnone ⟨id, site.definition.target, site.definition.target2⟩ ?_ rfl
      rw [List.mem_reverse, h.pending]
      exact ⟨site, hsite, rfl, rfl, hsome⟩
    simp only [Bool.or_eq_true, not_or, Option.not_isSome_iff_eq_none] at hsilent
    exact ⟨ins', hget', hlowered.bound hsilent.1 hsilent.2⟩
  · obtain ⟨found, hfound, hwaits⟩ := (h.pending b).1 (List.mem_reverse.1 hb)
    rw [hsite] at hfound
    cases hfound
    exact ⟨ins', hget', hlowered.retargets hwaits hre⟩

end Lowering

namespace Compilation

theorem place_eq {c : Compilation} {method : MethodId} {id : InstructionId} {ins : Unlinked}
    (hget : c.arena.get id = .ok ins) (hmethod : method < c.methods.size) :
    c.place method id = (.ok (), { c with methods := c.methods.modify method (·.append id) }) := by
  simp only [place, hget, if_pos hmethod]

theorem push_eq {c : Compilation} {method : MethodId} (hmethod : method < c.methods.size)
    (ins : Unlinked) : c.push method ins = (.ok c.arena.size, { c with
      arena := ⟨c.arena.cells.push ins⟩
      methods := c.methods.modify method (·.append c.arena.size) }) := by
  have hget : (c.alloc ins).2.arena.get (c.alloc ins).1 = .ok ins :=
    Arena.get_eq_ok_iff.2 Array.getElem?_push_size
  simp only [push, place_eq hget hmethod]
  rfl

def withInitializer (c : Compilation) (count : UInt8) : Compilation :=
  { c with
    methods := c.methods.push ⟨initializerName, #[c.arena.size, c.arena.size + 1]⟩
    arena := ⟨c.arena.cells ++ #[⟨.initSSlot, [count], .none, none⟩, ⟨.ret, [], .none, none⟩]⟩
    exports := c.exports.push { method := c.methods.size, name := initializerName } }

theorem defineInitializer_eq {c : Compilation} (hfind : c.method? initializerName = none)
    (count : UInt8) :
    c.defineInitializer count = (.ok (some c.methods.size), c.withInitializer count) := by
  have hsize : Unlinked.withOperand .initSSlot [count] =
      .ok ⟨.initSSlot, [count], .none, none⟩ := rfl
  have hret : Unlinked.new .ret = ⟨.ret, [], .none, none⟩ := rfl
  simp only [defineInitializer, defineMethod, hfind, hsize, hret]
  rw [push_eq (by simp)]
  simp only [modify_push_size]
  rw [push_eq (by simp)]
  simp only [modify_push_size, Arena.size, Array.size_push, withInitializer, exportMethod]
  rfl

/-- Nothing is emitted where there is nothing to size or a body of that name. -/
theorem emitInitializer_cases (c : Compilation) :
    c.statics.keys = [] ∧ c.emitInitializer = (.ok none, c) ∨
    (∃ id, c.statics.keys ≠ [] ∧ c.method? initializerName = some id ∧
      c.emitInitializer = (.ok (some id), c)) ∨
    c.statics.keys ≠ [] ∧ c.method? initializerName = none ∧ 255 < c.statics.keys.length ∧
      c.emitInitializer =
        (.error (.staticSlotOverflow s!"{c.statics.keys.length} static fields"), c) ∨
    c.statics.keys ≠ [] ∧ c.method? initializerName = none ∧ c.statics.keys.length ≤ 255 ∧
      c.emitInitializer = (.ok (some c.methods.size),
        c.withInitializer (UInt8.ofNat c.statics.keys.length)) := by
  unfold emitInitializer
  by_cases hcount : c.statics.keys.length = 0
  · rw [if_pos hcount]
    exact .inl ⟨List.length_eq_zero_iff.1 hcount, rfl⟩
  · have hsome : c.statics.keys ≠ [] := fun hnil => hcount (List.length_eq_zero_iff.2 hnil)
    rw [if_neg hcount]
    cases hfind : c.method? initializerName with
    | some found => exact .inr (.inl ⟨found, hsome, rfl, rfl⟩)
    | none =>
      by_cases hroom : c.statics.keys.length > 255
      · exact .inr (.inr (.inl ⟨hsome, rfl, hroom, if_pos hroom⟩))
      · refine .inr (.inr (.inr ⟨hsome, rfl, Nat.le_of_not_lt hroom, ?_⟩))
        exact (if_neg hroom).trans (defineInitializer_eq hfind _)

theorem emitInitializer_ok {c c' : Compilation} {id : Option MethodId}
    (h : c.emitInitializer = (.ok id, c')) :
    c' = c ∧ (c.statics.keys = [] ∧ id = none ∨ c.method? initializerName = id ∧ id ≠ none) ∨
      c.statics.keys ≠ [] ∧ c.method? initializerName = none ∧ c.statics.keys.length ≤ 255 ∧
        id = some c.methods.size ∧ c' = c.withInitializer (UInt8.ofNat c.statics.keys.length) := by
  rcases emitInitializer_cases c with
    ⟨hnone, heq⟩ | ⟨found, -, hfind, heq⟩ | ⟨-, -, -, heq⟩ | ⟨hsome, hfind, hroom, heq⟩ <;>
    rw [heq] at h <;> cases h
  · exact .inl ⟨rfl, .inl ⟨hnone, rfl⟩⟩
  · exact .inl ⟨rfl, .inr ⟨hfind, nofun⟩⟩
  · exact .inr ⟨hsome, hfind, hroom, rfl, rfl⟩

end Compilation

namespace Program

def names (p : Program) : List String := (p.methods.map (·.name)).eraseDups

/-- An initializer is generated: there are static fields, and no method has its name. -/
def Generates (p : Program) : Prop :=
  Lowering.staticsOf p.sites ≠ [] ∧ Compilation.initializerName ∉ p.names

/-- The bodies behind those of the program: that of the initializer, if it is generated. -/
def Initializer (p : Program) (c : Compilation) (bodies : List MethodBody) : Prop :=
  ¬ p.Generates ∧ bodies = [] ∨
    p.Generates ∧ bodies =
        [⟨Compilation.initializerName, #[p.sites.length, p.sites.length + 1]⟩] ∧
      c.arena.get p.sites.length =
        .ok ⟨.initSSlot, [UInt8.ofNat (Lowering.staticsOf p.sites).length], .none, none⟩ ∧
      c.arena.get (p.sites.length + 1) = .ok ⟨.ret, [], .none, none⟩

/-- The compilation that a program is lowered to; `s` knows what its names stand for. -/
structure Lowers (p : Program) (s : Lowering) (c : Compilation) : Prop where
  labels : ∀ label id, s.labels[label]? = some id ↔
    ∃ site : Site, p.sites[id]? = some site ∧ site.definition.label = some label
  cells : ∀ id site, p.sites[id]? = some site →
    ∃ ins, c.arena.get id = .ok ins ∧ s.Bound site.definition ins
  bodies : ∃ generated, c.methods.toList = p.names.map (Lowering.bodyOf p.sites) ++ generated ∧
    p.Initializer c generated

/-- What `lower` runs: all methods are read, what waits is bound, and the initializer is added. -/
theorem lower_eq_ok {p : Program} {c : Compilation} (h : p.lower = .ok c) :
    ∃ s c₁ id, p.methods.foldlM Lowering.lowerMethod { compilation := p.header } = .ok s ∧
      Lowering.Tracks (p.methods.map (·.name)) p.sites s ∧
      s.pending.reverse.foldlM s.bindBranch s.compilation = .ok c₁ ∧
      c₁.emitInitializer = (.ok id, c) := by
  obtain ⟨s, hmethods, hrest⟩ := Except.bind_eq_ok_iff.1 h
  obtain ⟨c₁, hbind, hemit⟩ := Except.bind_eq_ok_iff.1 hrest
  obtain ⟨⟨id, c₂⟩, hemitted, hpure⟩ := Except.bind_eq_ok_iff.1 hemit
  cases hpure
  exact ⟨s, c₁, id, hmethods, Lowering.Tracks.kept.lowerMethods p.tracks_header hmethods, hbind,
    orFail_onSuccess_eq_ok_iff.1 hemitted⟩

theorem generates_iff {p : Program} {s : Lowering} {c : Compilation}
    (htracks : Lowering.Tracks (p.methods.map (·.name)) p.sites s)
    (hkeep : c = { s.compilation with arena := c.arena }) :
    c.statics.keys ≠ [] ∧ c.method? Compilation.initializerName = none ↔ p.Generates := by
  rw [Compilation.method?_eq_none_iff, hkeep, htracks.names_eq, htracks.statics]
  rfl

/-- What the end of a lowering makes of what was read. -/
theorem lowers_of_tracks {p : Program} {s : Lowering} {c₁ c : Compilation} {id : Option MethodId}
    (htracks : Lowering.Tracks (p.methods.map (·.name)) p.sites s)
    (hbind : s.pending.reverse.foldlM s.bindBranch s.compilation = .ok c₁)
    (hemitted : c₁.emitInitializer = (.ok id, c)) : Lowers p s c := by
  obtain ⟨hkeep, hsize, hcells⟩ := htracks.bindAll hbind
  have hgenerates := generates_iff htracks hkeep
  have hstatics : c₁.statics.keys = Lowering.staticsOf p.sites := by
    rw [hkeep]
    exact htracks.statics
  have hbodies : c₁.methods.toList = p.names.map (Lowering.bodyOf p.sites) := by
    rw [hkeep]
    exact htracks.methods
  rcases Compilation.emitInitializer_ok hemitted with
    ⟨rfl, hnone⟩ | ⟨hsome, hmissing, -, -, rfl⟩
  · refine ⟨htracks.labels, hcells, [], ?_, .inl ⟨?_, rfl⟩⟩
    · rw [hbodies, List.append_nil]
    · rw [← hgenerates]
      rintro ⟨hfields, hmissing⟩
      rcases hnone with ⟨hempty, -⟩ | ⟨hfind, hid⟩
      · exact hfields hempty
      · exact hid (hfind.symm.trans hmissing)
  · have happend : (c₁.withInitializer (UInt8.ofNat c₁.statics.keys.length)).arena.cells =
      c₁.arena.cells ++ _ := rfl
    obtain ⟨hold, hnew⟩ := Arena.get_append happend
    rw [hsize, hstatics] at hnew
    rw [hstatics] at hold ⊢
    refine ⟨htracks.labels, ?_, _, ?_,
      .inr ⟨hgenerates.1 ⟨hsome, hmissing⟩, rfl, hnew 0 _ rfl, hnew 1 _ rfl⟩⟩
    · intro id site hsite
      obtain ⟨ins, hins, hbound⟩ := hcells id site hsite
      exact ⟨ins, hold id ins hins, hbound⟩
    · rw [← hbodies, ← hsize]
      exact Array.toList_push

theorem lower_ok {p : Program} {c : Compilation} (h : p.lower = .ok c) : ∃ s, Lowers p s c := by
  obtain ⟨s, c₁, id, -, htracks, hbind, hemitted⟩ := lower_eq_ok h
  exact ⟨s, lowers_of_tracks htracks hbind hemitted⟩

/-- What evaluating a program says about its contract; `g` is done to the compilation before. -/
theorem exists_compile {β : Type} (p : Program) (g : Compilation → Compilation)
    (f : Contract → β) (b : β)
    (h : (p.lower.map fun c => (g c).compile.map f) = .ok (.ok b)) :
    ∃ c contract, p.lower = .ok c ∧ (g c).compile = .ok contract ∧ f contract = b := by
  obtain ⟨c, hlower, hview⟩ := Except.map_eq_ok_iff.1 h
  obtain ⟨contract, hcompile, hb⟩ := Except.map_eq_ok_iff.1 hview
  exact ⟨c, contract, hlower, hcompile, hb⟩

end Program
end ContractLinker
