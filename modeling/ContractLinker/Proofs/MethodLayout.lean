import ContractLinker.Proofs.Sessions
import ContractLinker.Proofs.Translation

namespace ContractLinker

/-- What a session has asked for and got, in order. -/
structure Journal where
  opened : List String := []
  placed : List (MethodId × InstructionId) := []
  exported : List ExportedMethod := []
  events : List AbiEvent := []

namespace Journal

def names (j : Journal) : List String := j.opened.eraseDups

def body (j : Journal) (method : MethodId) : List InstructionId :=
  (j.placed.filter (·.1 = method)).map (·.2)

/-- One body for each method, in the order of definition. -/
def bodies (j : Journal) : List (List InstructionId) := (List.range j.names.length).map j.body

/-- The initializer is a method, its two instructions and an export, if it is emitted. -/
def noteInitializer (j : Journal) (c : Compilation) : Journal :=
  match c.emitInitializer.1, c.method? Compilation.initializerName with
  | .ok (some method), none => { j with
      opened := j.opened ++ [Compilation.initializerName]
      placed := j.placed ++ [(method, c.arena.size)] ++ [(method, c.arena.size + 1)]
      exported := j.exported ++ [{ method, name := Compilation.initializerName }] }
  | _, _ => j

def note (j : Journal) (c : Compilation) : Operation → Journal
  | .defineMethod name => { j with opened := j.opened ++ [name] }
  | .push method ins =>
    match (c.push method ins).1 with
    | .ok id => { j with placed := j.placed ++ [(method, id)] }
    | .error _ => j
  | .place method id =>
    match (c.place method id).1 with
    | .ok () => { j with placed := j.placed ++ [(method, id)] }
    | .error _ => j
  | .exportMethod method => { j with exported := j.exported ++ [method] }
  | .exportEvent event => { j with events := j.events ++ [event] }
  | .emitInitializer => j.noteInitializer c
  | _ => j

def record (j : Journal) (c : Compilation) : List Operation → Journal
  | [] => j
  | op :: ops => (j.note c op).record (c.perform op) ops

theorem body_placed (j : Journal) (method other : MethodId) (id : InstructionId) :
    { j with placed := j.placed ++ [(method, id)] }.body other =
      j.body other ++ if method = other then [id] else [] := by
  simp only [body, List.filter_append, List.map_append]
  by_cases h : method = other <;> simp [h]

/-- The compilation holds what the journal says. -/
structure Keeps (j : Journal) (c : Compilation) : Prop where
  methods : c.methods.toList = j.names.mapIdx fun k name => ⟨name, (j.body k).toArray⟩
  known : ∀ x ∈ j.placed, x.1 < j.names.length
  exported : c.exports.toList = j.exported
  events : c.events.toList = j.events

namespace Keeps

variable {j : Journal} {c c' : Compilation}

theorem congr (h : j.Keeps c) (hmethods : c'.methods = c.methods)
    (hexports : c'.exports = c.exports) (hevents : c'.events = c.events) : j.Keeps c' :=
  ⟨by rw [hmethods, h.methods], h.known, by rw [hexports, h.exported], by rw [hevents, h.events]⟩

theorem names_eq (h : j.Keeps c) : c.methods.toList.map (·.name) = j.names := by
  rw [h.methods]
  simp [List.mapIdx_eq_zipIdx_map, Function.comp_def]

theorem size_eq (h : j.Keeps c) : c.methods.size = j.names.length := by
  rw [← h.names_eq, List.length_map, Array.length_toList]

theorem bodies_eq (h : j.Keeps c) :
    c.methods.toList.map (·.instructions.toList) = j.bodies := by
  rw [h.methods, bodies]
  apply List.ext_getElem
  · simp
  · intro k hk hk'
    simp

theorem order_eq (h : j.Keeps c) : c.order = j.bodies.flatten := by
  rw [← h.bodies_eq, Compilation.order, List.flatMap_def]

theorem defineMethod (h : j.Keeps c) (name : String) :
    { j with opened := j.opened ++ [name] }.Keeps (c.defineMethod name).2 := by
  unfold Compilation.defineMethod
  cases hfind : c.method? name with
  | some id =>
    have hmem : name ∈ j.opened := by
      rw [← List.mem_eraseDups, ← names, ← h.names_eq]
      exact List.mem_of_getElem? (Compilation.getElem?_of_method? hfind)
    have hnames : { j with opened := j.opened ++ [name] }.names = j.names := by
      rw [names, eraseDups_concat, if_pos hmem, names]
    exact ⟨by rw [hnames]; exact h.methods, by rw [hnames]; exact h.known, h.exported, h.events⟩
  | none =>
    have hnew : name ∉ j.opened := by
      rwa [← List.mem_eraseDups, ← names, ← h.names_eq, ← Compilation.method?_eq_none_iff]
    have hnames : { j with opened := j.opened ++ [name] }.names = j.names ++ [name] := by
      rw [names, eraseDups_concat, if_neg hnew, names]
    -- Nothing can have been placed in a method that was not there.
    have hempty : j.body j.names.length = [] := by
      rw [body, List.map_eq_nil_iff, List.filter_eq_nil_iff]
      intro x hx heq
      exact Nat.ne_of_lt (h.known x hx) (of_decide_eq_true heq)
    refine ⟨?_, ?_, h.exported, h.events⟩
    · rw [hnames, List.mapIdx_concat, Array.toList_push, h.methods]
      change _ = _ ++ [MethodBody.mk name (j.body j.names.length).toArray]
      rw [hempty]
      rfl
    · rw [hnames, List.length_append]
      intro x hx
      exact Nat.lt_add_right 1 (h.known x hx)

theorem place {method : MethodId} (h : j.Keeps c) (hlt : method < c.methods.size)
    (id : InstructionId) : { j with placed := j.placed ++ [(method, id)] }.Keeps
      { c with methods := c.methods.modify method (·.append id) } := by
  refine ⟨?_, ?_, h.exported, h.events⟩
  · apply List.ext_getElem?
    intro k
    rw [Array.toList_modify, List.getElem?_modify, h.methods, List.getElem?_mapIdx,
      List.getElem?_mapIdx]
    change _ = j.names[k]?.map _
    cases j.names[k]? with
    | none => rfl
    | some name =>
      simp only [Option.map_some, Option.map_eq_map, body_placed]
      by_cases heq : method = k <;> simp [heq, MethodBody.append]
  · intro x hx
    rcases List.mem_append.1 hx with hold | hnew
    · exact h.known x hold
    · rw [List.mem_singleton.1 hnew]
      exact h.size_eq ▸ hlt

theorem alloc (h : j.Keeps c) (ins : Unlinked) : j.Keeps (c.alloc ins).2 := h.congr rfl rfl rfl

theorem exportMethod (h : j.Keeps c) (e : ExportedMethod) :
    { j with exported := j.exported ++ [e] }.Keeps (c.exportMethod e) := by
  refine ⟨h.methods, h.known, ?_, h.events⟩
  rw [Compilation.exportMethod, Array.toList_push, h.exported]

theorem exportEvent (h : j.Keeps c) (e : AbiEvent) :
    { j with events := j.events ++ [e] }.Keeps (c.exportEvent e) := by
  refine ⟨h.methods, h.known, h.exported, ?_⟩
  rw [Compilation.exportEvent, Array.toList_push, h.events]

theorem emitInitializer (h : j.Keeps c) : (j.noteInitializer c).Keeps c.emitInitializer.2 := by
  unfold noteInitializer
  rcases c.emitInitializer_cases with
    ⟨-, heq⟩ | ⟨id, -, hfind, heq⟩ | ⟨-, -, -, heq⟩ | ⟨-, hfind, -, heq⟩
  · rw [heq]
    exact h
  · rw [heq, hfind]
    exact h
  · rw [heq]
    exact h
  · have hopened := h.defineMethod Compilation.initializerName
    simp only [Compilation.defineMethod, hfind] at hopened
    have hlt : c.methods.size < (c.methods.push { name := Compilation.initializerName }).size := by
      simp
    have hfirst := hopened.place hlt c.arena.size
    have hsecond := hfirst.place (by rwa [Array.size_modify]) (c.arena.size + 1)
    simp only [modify_push_size] at hsecond
    rw [heq, hfind]
    exact (hsecond.exportMethod _).congr rfl rfl rfl

theorem perform (h : j.Keeps c) (op : Operation) : (j.note c op).Keeps (c.perform op) := by
  -- The journal notes an operation only as far as it was done.
  cases op with
  | defineMethod name => exact h.defineMethod name
  | alloc ins => exact h.alloc ins
  | push method ins =>
    simp only [note, Compilation.perform, Compilation.push]
    rcases (c.alloc ins).2.place_cases method (c.alloc ins).1 with ⟨e, heq⟩ | ⟨hlt, heq⟩
    · rw [heq]
      exact h.alloc ins
    · rw [heq]
      exact (h.alloc ins).place hlt _
  | place method id =>
    simp only [note, Compilation.perform]
    rcases c.place_cases method id with ⟨e, heq⟩ | ⟨hlt, heq⟩
    · rw [heq]
      exact h
    · rw [heq]
      exact h.place hlt id
  | exportMethod method => exact h.exportMethod method
  | exportEvent event => exact h.exportEvent event
  | addStandard standard =>
    simp only [note, Compilation.perform, Compilation.addStandard]
    split
    · exact h
    · exact h.congr rfl rfl rfl
  | addToken token =>
    obtain ⟨hmethods, hexports, hevents⟩ := c.addToken_code token
    exact h.congr hmethods hexports hevents
  | emitInitializer => exact h.emitInitializer
  | setSource _ | modify _ _ | addPermission _ _ | setExtra _ _ | addStatic _ =>
    exact h.congr rfl rfl rfl

theorem record (h : j.Keeps c) (ops : List Operation) :
    (j.record c ops).Keeps (c.performAll ops) := by
  induction ops generalizing j c with
  | nil => exact h
  | cons op ops ih => exact ih (h.perform op)

end Keeps

/-- The interface enters `e` where its body starts, behind the bodies of all methods that were
defined before. -/
structure Enters (code : List (List Instruction)) (e : ExportedMethod) (m : AbiMethod) : Prop where
  described : m = ⟨e.name, m.offset, e.safe, e.returnType, e.parameters⟩
  offset : m.offset = (Script.encodeAll (code.take e.method).flatten).length
  first : ∃ ins rest, code[e.method]? = some (ins :: rest) ∧ ins.offset = m.offset

/-- The contract holds the code of all bodies, one after the other, and its interface what was
exported. -/
structure LaysOut (j : Journal) (arena : Arena) (contract : Contract)
    (code : List (List Instruction)) : Prop where
  decodes : Script.instructionsOf contract.script = .ok code.flatten
  bodies : List.Forall₂ (List.Forall₂ fun id ins => ∃ old, arena.get id = .ok old ∧
    Emits j.bodies.flatten code.flatten old ins) j.bodies code
  methods : List.Forall₂ (Enters code) j.exported contract.abi.methods
  events : contract.abi.events = j.events

namespace Keeps

variable {j : Journal} {c : Compilation}

theorem enters (h : j.Keeps c) {R : InstructionId → Instruction → Prop}
    {code : List (List Instruction)} (hbodies : List.Forall₂ (List.Forall₂ R) j.bodies code)
    (hlaid : Script.LaidOut 0 code.flatten) (hnodup : c.order.Nodup) {e : ExportedMethod}
    {m : AbiMethod} (hexports : c.Exports code.flatten e m) : Enters code e m := by
  obtain ⟨body, first, rest, i, ins, hbody, hfirst, hi, hins, rfl⟩ := hexports
  have hgroup : j.bodies[e.method]? = some (first :: rest) := by
    rw [← h.bodies_eq, List.getElem?_map, Array.getElem?_toList, hbody, Option.map_some, hfirst]
  obtain ⟨part, hpart, hrel⟩ := forall₂_getElem? hbodies hgroup
  obtain ⟨ins', rest', -, -, rfl⟩ := List.forall₂_cons_left_iff.1 hrel
  -- An instruction is placed once, so `i` is where the body starts.
  have hbefore : (j.bodies.take e.method).flatten.length = (code.take e.method).flatten.length :=
    (List.rel_flatten (List.forall₂_take e.method hbodies)).length_eq
  have hplaced : c.order[(j.bodies.take e.method).flatten.length]? = some first := by
    rw [h.order_eq]
    exact getElem?_flatten_head hgroup
  have hsame : i = (j.bodies.take e.method).flatten.length :=
    (List.getElem?_inj (List.getElem?_eq_some_iff.1 hi).1 hnodup).1 (hi.trans hplaced.symm)
  have hhead : ins = ins' := by
    rw [hsame, hbefore, getElem?_flatten_head hpart] at hins
    exact (Option.some.inj hins).symm
  subst hhead
  rw [flatten_split hpart, Script.laidOut_append] at hlaid
  refine ⟨rfl, ?_, ins, rest', hpart, rfl⟩
  rw [Script.length_encodeAll]
  exact hlaid.2.1.trans (Nat.zero_add _)

theorem laysOut (h : j.Keeps c) {contract : Contract} (hcompile : c.compile = .ok contract) :
    ∃ code, j.LaysOut c.arena contract code := by
  obtain ⟨decoded, hcompiles⟩ := Compilation.compile_ok hcompile
  have hemits := hcompiles.emits
  rw [h.order_eq] at hemits
  obtain ⟨code, rfl, hbodies⟩ := forall₂_of_flatten hemits
  have hlaid := (Script.instructionsOf_eq_ok_iff.1 hcompiles.decodes).2.1
  refine ⟨code, hcompiles.decodes, hbodies, ?_, ?_⟩
  · rw [← h.exported]
    exact hcompiles.exported.imp fun e m hm => h.enters hbodies hlaid hcompiles.nodup hm
  · rw [← h.events]
    exact congrArg (·.abi.events) (Compilation.compile_manifest hcompile).2

theorem compile_empty (h : j.Keeps c) (hempty : [] ∈ j.bodies) :
    ∃ (k : Nat) (method : String), j.names[k]? = some method ∧ j.bodies[k]? = some [] ∧
      (∀ i < k, j.bodies[i]? ≠ some []) ∧ c.compile = .error (.emptyMethod method) := by
  obtain ⟨before, behind, hsplit, hfirst⟩ := List.eq_append_cons_of_mem hempty
  have hmap := h.bodies_eq.trans hsplit
  obtain ⟨full, rest, hmethods, hfull, hrest⟩ := List.map_eq_append_iff.1 hmap
  obtain ⟨body, others, rfl, hbody, -⟩ := List.map_eq_cons_iff.1 hrest
  have hlength : full.length = before.length := by rw [← hfull, List.length_map]
  refine ⟨before.length, body.name, ?_, ?_, ?_, ?_⟩
  · rw [← h.names_eq, hmethods, ← hlength]
    simp
  · rw [hsplit, List.getElem?_append_right (Nat.le_refl _), Nat.sub_self]
    rfl
  · intro i hi heq
    rw [hsplit, List.getElem?_append_left hi] at heq
    exact hfirst (List.mem_of_getElem? heq)
  · have hnonempty : ∀ b ∈ full, b.instructions.toList ≠ [] := by
      intro b hb heq
      apply hfirst
      rw [← hfull, ← heq]
      exact List.mem_map_of_mem hb
    rw [Compilation.compile, hmethods, Compilation.placement_empty hnonempty hbody]
    rfl

end Keeps

def ofSession (name : String) (ops : List Operation) : Journal := record {} { name } ops

theorem keeps_session (name : String) (ops : List Operation) :
    (ofSession name ops).Keeps (.session name ops) :=
  Keeps.record ⟨rfl, fun _ hx => absurd hx List.not_mem_nil, rfl, rfl⟩ ops

end Journal

/-- Whatever a session does and in whatever order, a contract that it compiles to holds the bodies
in the order of definition and enters each exported method at the start of its body, and the first
body that is left empty is an error. -/
theorem compile_session_layout (name : String) (ops : List Operation) :
    (∀ contract, (Compilation.session name ops).compile = .ok contract →
      ∃ code, (Journal.ofSession name ops).LaysOut (Compilation.session name ops).arena contract
        code) ∧
    ([] ∈ (Journal.ofSession name ops).bodies →
      ∃ (k : Nat) (method : String), (Journal.ofSession name ops).names[k]? = some method ∧
        (Journal.ofSession name ops).bodies[k]? = some [] ∧
        (∀ i < k, (Journal.ofSession name ops).bodies[i]? ≠ some []) ∧
        (Compilation.session name ops).compile = .error (.emptyMethod method)) :=
  ⟨fun _ h => (Journal.keeps_session name ops).laysOut h,
    (Journal.keeps_session name ops).compile_empty⟩

/-- Two bodies that are filled in turn, with a call from the first to the second that is bound late;
exported in the other order. -/
def interleaved : List Operation :=
  [.defineMethod "main", .defineMethod "helper", .push 0 (.new .call), .push 1 (.new .ret),
    .push 0 (.new .ret), .push 7 (.new .nop), .modify 0 (·.setTarget 1),
    .exportMethod { method := 1, name := "helper" }, .exportMethod { method := 0, name := "main" }]

theorem compile_session_layout_interleaved :
    (∃ contract code, (Compilation.session "pair" interleaved).compile = .ok contract ∧
      contract.script = [0x34, 3, 0x40, 0x40] ∧ contract.abi.methods.map (·.offset) = [3, 0] ∧
      (Journal.ofSession "pair" interleaved).bodies = [[0, 2], [1]] ∧
      (Journal.ofSession "pair" interleaved).LaysOut (Compilation.session "pair" interleaved).arena
        contract code) ∧
    (Compilation.session "hollow" [.defineMethod "main"]).compile =
      .error (.emptyMethod "main") := by
  constructor
  · have hview : (Compilation.session "pair" interleaved).compile.map
        (fun contract => (contract.script, contract.abi.methods.map (·.offset))) =
          .ok ([0x34, 3, 0x40, 0x40], [3, 0]) := by cbv
    cases hcompile : (Compilation.session "pair" interleaved).compile with
    | error e =>
      rw [hcompile] at hview
      cases hview
    | ok contract =>
      rw [hcompile] at hview
      obtain ⟨hscript, hoffsets⟩ := Prod.mk.inj (Except.ok.inj hview)
      obtain ⟨code, hlays⟩ := (compile_session_layout "pair" interleaved).1 contract hcompile
      exact ⟨contract, code, rfl, hscript, hoffsets, by cbv, hlays⟩
  · have hbodies : (Journal.ofSession "hollow" [.defineMethod "main"]).bodies = [[]] := by cbv
    have hnames : (Journal.ofSession "hollow" [.defineMethod "main"]).names = ["main"] := by cbv
    have hempty : [] ∈ (Journal.ofSession "hollow" [.defineMethod "main"]).bodies := by
      rw [hbodies]
      exact List.mem_singleton_self []
    obtain ⟨k, method, hmethod, -, -, herror⟩ :=
      (compile_session_layout "hollow" [.defineMethod "main"]).2 hempty
    rw [hnames] at hmethod
    rwa [List.mem_singleton.1 (List.mem_of_getElem? hmethod)] at herror

end ContractLinker
