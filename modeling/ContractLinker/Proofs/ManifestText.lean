import ContractLinker.Proofs.Binding
import ContractLinker.Proofs.Decoding

namespace ContractLinker

open Json (Decode Number Sorted TidyMembers itemNumbers memberNumbers)
open Json.Decode (Gives gives_string gives_bool gives_nat gives_oneOf)

section Parts

variable {depth : Nat}

theorem Json.mapM_string? (names : List String) :
    (names.map Json.string).mapM Json.string? = some names := by
  induction names with
  | nil => rfl
  | cons name names ih =>
    rw [List.map_cons, List.mapM_cons, ih]
    rfl

theorem NameSet.decode_json (what : String) (set : NameSet) (hdepth : depth + 1 < 128) :
    Gives (decode what) depth set.json set := by
  cases set with
  | all => rfl
  | only names =>
    have htidy : Json.Tidy depth (Json.strings names) := by
      refine ⟨hdepth, Json.tidyItems_iff.2 fun item hitem => ?_⟩
      obtain ⟨name, -, rfl⟩ := List.mem_map.1 hitem
      trivial
    rw [Gives, json, decode, Json.Doc.keep_docOf _ htidy]
    simp only [bind, Except.bind, Json.strings, Json.mapM_string?]
    rfl

theorem Parameter.decode_json (p : Parameter) (hdepth : depth + 1 < 128) :
    Gives decode depth p.json p :=
  Json.Decode.Fills.gives hdepth (by decide)
    (.field (gives_string _ _) (.field (gives_oneOf p.kind.ofName?_name) .nil))

theorem Json.gives_parameters (ps : List Parameter) (hdepth : depth + 2 < 128) :
    Gives (.list Parameter.decode) depth (Json.parameters ps) ps :=
  .list (by omega) fun p _ => p.decode_json hdepth

theorem AbiMethod.decode_json (m : AbiMethod) (hoffset : m.offset ≤ 0xFFFFFFFF)
    (hdepth : depth + 3 < 128) : Gives decode depth m.json m :=
  Json.Decode.Fills.gives (by omega) (by decide)
    (.field (gives_string _ _) (.field (gives_nat hoffset) (.field (gives_bool _ _)
      (.field (gives_oneOf m.returnType.ofName?_name)
        (.field (Json.gives_parameters m.parameters (by omega)) .nil)))))

theorem AbiEvent.decode_json (e : AbiEvent) (hdepth : depth + 3 < 128) :
    Gives decode depth e.json e :=
  Json.Decode.Fills.gives (by omega) (by decide)
    (.field (gives_string _ _) (.field (Json.gives_parameters e.parameters (by omega)) .nil))

theorem Abi.decode_json (abi : Abi) (hoffsets : ∀ m ∈ abi.methods, m.offset ≤ 0xFFFFFFFF)
    (hdepth : depth + 5 < 128) : Gives decode depth abi.json abi :=
  Json.Decode.Fills.gives (by omega) (by decide)
    (.field (.list (by omega) fun m hm => m.decode_json (hoffsets m hm) (by omega))
      (.field (.list (by omega) fun e _ => e.decode_json (by omega)) .nil))

theorem Group.decode_json (g : Group) (hdepth : depth + 1 < 128) : Gives decode depth g.json g :=
  Json.Decode.Fills.gives hdepth (by decide)
    (.field (gives_string _ _) (.field (gives_string _ _) .nil))

theorem Permission.decode_json (p : Permission) (hdepth : depth + 2 < 128) :
    Gives decode depth p.json p :=
  Json.Decode.Fills.gives (by omega) (by decide)
    (.field (gives_string _ _) (.field (NameSet.decode_json _ _ (by omega)) .nil))

theorem Json.gives_strings (names : List String) (hdepth : depth + 1 < 128) :
    Gives (.list .string) depth (Json.strings names) names :=
  .list hdepth fun _ _ => rfl

end Parts

/-- The metadata stands in the second object from the outside, so its members are at depth two. -/
theorem Manifest.decode_json (m : Manifest)
    (hoffsets : ∀ method ∈ m.abi.methods, method.offset ≤ 0xFFFFFFFF) (hsorted : Sorted m.extra)
    (htidy : TidyMembers 2 m.extra) : Gives decode 0 m.json m :=
  Json.Decode.Fills.gives (by decide) (by decide)
    (.field (gives_string _ _)
      (.field (.list (by decide) fun g _ => g.decode_json (by decide))
        (.field (Json.gives_strings m.standards (by decide))
          (.field (m.abi.decode_json hoffsets (by decide))
            (.field (.list (by decide) fun p _ => p.decode_json (by decide))
              (.field (m.trusts.decode_json _ (by decide))
                (.field (Json.Decode.gives_members (by decide) hsorted htidy).optional .nil)))))))

section Numbers

theorem Json.numbers_map {α : Type} {write : α → Json} (h : ∀ a, (write a).numbers = [])
    (as : List α) : (Json.array (as.map write)).numbers = [] := by
  rw [numbers, List.eq_nil_iff_forall_not_mem]
  intro n hn
  obtain ⟨_, hitem, hn⟩ := mem_itemNumbers.1 hn
  obtain ⟨a, -, rfl⟩ := List.mem_map.1 hitem
  rw [h a] at hn
  cases hn

theorem Json.numbers_strings (names : List String) : (Json.strings names).numbers = [] :=
  numbers_map (fun _ => rfl) names

theorem NameSet.numbers_json (set : NameSet) : set.json.numbers = [] := by
  cases set with
  | all => rfl
  | only names => exact Json.numbers_strings names

theorem Json.numbers_parameters (ps : List Parameter) : (Json.parameters ps).numbers = [] :=
  numbers_map (fun _ => rfl) ps

theorem AbiMethod.numbers_json (m : AbiMethod) : m.json.numbers = [.int m.offset] := by
  simp [json, Json.nat, Json.numbers, memberNumbers, Json.numbers_parameters]

theorem AbiEvent.numbers_json (e : AbiEvent) : e.json.numbers = [] := by
  simp [json, Json.numbers, memberNumbers, Json.numbers_parameters]

theorem Permission.numbers_json (p : Permission) : p.json.numbers = [] := by
  simp [json, Json.numbers, memberNumbers, NameSet.numbers_json]

theorem Abi.mem_numbers_json {abi : Abi} {n : Number} :
    n ∈ abi.json.numbers ↔ ∃ m ∈ abi.methods, n = .int m.offset := by
  simp [json, Json.numbers, memberNumbers, Json.mem_itemNumbers, AbiMethod.numbers_json,
    AbiEvent.numbers_json]

theorem Manifest.mem_numbers_json {m : Manifest} {n : Number} : n ∈ m.json.numbers ↔
    (∃ method ∈ m.abi.methods, n = .int method.offset) ∨ n ∈ memberNumbers m.extra := by
  have hgroup (g : Group) : g.json.numbers = [] := rfl
  simp [json, Json.numbers, memberNumbers, Json.mem_itemNumbers, Json.numbers_strings, hgroup,
    Abi.mem_numbers_json, Permission.numbers_json, NameSet.numbers_json]

end Numbers

/-- Metadata as texts have it: sorted, not nested too deeply, and with integers of 64 bits. -/
structure Metadata (members : List (String × Json)) : Prop where
  sorted : Sorted members
  tidy : TidyMembers 2 members
  fits : ∀ n ∈ memberNumbers members, n.Fits

theorem Metadata.nil : Metadata [] := ⟨.nil, trivial, nofun⟩

/-- Members that stand in an object right below the top. -/
theorem Metadata.of_members {doc : Json.Doc} {members : List (String × Json)}
    (hfits : ∀ n ∈ doc.numbers, n.Fits) (h : Decode.members 1 doc = .ok members) :
    Metadata members := by
  obtain ⟨hsorted, htidy, hnumbers⟩ := Decode.members_ok h
  exact ⟨hsorted, htidy, fun n hn => hfits n (hnumbers hn)⟩

namespace Manifest

/-- What a manifest needs to be read back from its text. -/
structure Readable (m : Manifest) : Prop where
  offsets : ∀ method ∈ m.abi.methods, method.offset ≤ 0xFFFFFFFF
  metadata : Metadata m.extra

theorem Readable.reads_back {m : Manifest} (h : m.Readable)
    (hwhole : ∀ n ∈ memberNumbers m.extra, ∃ v, n = .int v) : ofText m.toText = .ok m := by
  -- All numbers in the text are integers that are read exactly.
  have hexact : ∀ n ∈ m.json.numbers, n.Exact := by
    intro n hn
    rcases mem_numbers_json.1 hn with ⟨method, hmethod, rfl⟩ | hextra
    · have hoffset := h.offsets method hmethod
      exact ⟨_, rfl, by omega, by omega⟩
    · obtain ⟨v, rfl⟩ := hwhole n hextra
      exact ⟨v, rfl, h.metadata.fits _ hextra⟩
  rw [ofText, toText, Decode.ofText_pretty hexact]
  exact m.decode_json h.offsets h.metadata.sorted h.metadata.tidy

end Manifest

theorem AbiMethod.decode_ok {depth : Nat} {doc : Json.Doc} {m : AbiMethod}
    (h : decode depth doc = .ok m) : m.offset ≤ 0xFFFFFFFF := by
  refine Decode.record_keeps (P := fun m => m.offset ≤ 0xFFFFFFFF) (Nat.zero_le _) ?_ h
  simp only [List.forall_mem_cons]
  refine ⟨?_, ?offset, ?_, ?_, ?_, nofun⟩
  case offset => exact Decode.keeps_field fun _ _ _ _ hread _ => Decode.nat_ok hread
  all_goals exact Decode.keeps_field fun _ _ _ _ _ hm => hm

theorem Abi.decode_ok {depth : Nat} {doc : Json.Doc} {abi : Abi} (h : decode depth doc = .ok abi) :
    ∀ m ∈ abi.methods, m.offset ≤ 0xFFFFFFFF := by
  refine Decode.record_keeps (P := fun abi => ∀ m ∈ abi.methods, m.offset ≤ 0xFFFFFFFF) (by simp)
    ?_ h
  simp only [List.forall_mem_cons]
  refine ⟨?_, ?_, nofun⟩
  · refine Decode.keeps_field fun _ methods _ _ hread _ m hm => ?_
    obtain ⟨_, hmethod⟩ := Decode.list_ok hread m hm
    exact AbiMethod.decode_ok hmethod
  · exact Decode.keeps_field fun _ _ _ _ _ habi => habi

theorem Manifest.readable_of_ofText {text : String} {m : Manifest} (h : ofText text = .ok m) :
    m.Readable := by
  refine Decode.record_keeps (P := Readable) ⟨by simp, .nil⟩ ?_ (Decode.ofText_ok h)
  -- Only the interface and the metadata matter; the other fields leave both alone.
  simp only [List.forall_mem_cons]
  refine ⟨?_, ?_, ?_, ?abi, ?_, ?_, ?extra, nofun⟩
  case abi =>
    exact Decode.keeps_field fun _ _ _ _ hread hm => ⟨Abi.decode_ok hread, hm.metadata⟩
  case extra =>
    refine Decode.keeps_field fun inner extra _ hinner hread hm => ⟨hm.offsets, ?_⟩
    rcases Decode.optional_ok hread with rfl | ⟨members, rfl, hmembers⟩
    · exact .nil
    · exact .of_members (fun n hn => Json.Doc.fits_parse text n (hinner hn)) hmembers
  all_goals exact Decode.keeps_field fun _ _ _ _ _ hm => ⟨hm.offsets, hm.metadata⟩

theorem Program.metadata_of_ofText {text : String} {p : Program} (h : ofText text = .ok p) :
    Metadata p.extra := by
  refine Decode.record_keeps (P := fun p => Metadata p.extra) .nil ?_ (Decode.ofText_ok h)
  simp only [List.forall_mem_cons]
  refine ⟨?_, ?_, ?_, ?_, ?_, ?extra, nofun⟩
  case extra =>
    refine Decode.keeps_optionalField fun inner members _ hinner hread _ => ?_
    exact .of_members (fun n hn => Json.Doc.fits_parse text n (hinner hn)) hread
  all_goals first
    | exact Decode.keeps_field fun _ _ _ _ _ hp => hp
    | exact Decode.keeps_optionalField fun _ _ _ _ _ hp => hp

section Compiled

variable {c : Compilation} {contract : Contract}

theorem Link.assignOffsets_lt {cursor length : Nat} {id : InstructionId}
    {before behind : List InstructionId} {s s' : Linker}
    (h : assignOffsets cursor (before ++ id :: behind) s = .ok length s') :
    cursor + s.arena.span before < Bytes.bound 4 := by
  induction before generalizing cursor s with
  | nil =>
    rw [List.nil_append, assignOffsets_cons] at h
    split at h
    · cases h
    · split_ifs at h with hplaced hlarge
      exact Nat.lt_of_not_le hlarge
  | cons first before ih =>
    rw [List.cons_append, assignOffsets_cons] at h
    split at h
    · cases h
    · rename_i ins hget
      split_ifs at h with hplaced hlarge
      have hspan : (s.arena.set first { ins with offset := some cursor }).span before =
          s.arena.span before := Arena.span_set hget rfl
      have hnext := ih h
      rwa [hspan, Nat.add_assoc, ← Arena.span_cons hget] at hnext

theorem Arena.offset_lt_of_link {arena linked : Arena} {order : List InstructionId} {script : Bytes}
    {id : InstructionId} {o : Nat} (h : arena.link order = (.ok script, linked)) (hid : id ∈ order)
    (ho : linked.offset? id = some o) : o < Bytes.bound 4 := by
  unfold link at h
  split at h
  · rename_i hrun
    cases h
    unfold Link.run at hrun
    obtain ⟨length, t, hassign, hrest⟩ := bind_eq_ok_iff.1 hrun
    obtain ⟨-, hstamps⟩ := Link.assignOffsets_ok hassign
    obtain ⟨chunks, u, hencode, hcheck⟩ := bind_eq_ok_iff.1 hrest
    obtain ⟨code, -, hcode⟩ := Link.encodeAll_ok hstamps.nodup hencode
    obtain ⟨-, hpure⟩ := unless_throw_eq_ok_iff.1 hcheck
    cases hpure
    -- The second pass leaves the offsets of the first one as they are.
    obtain ⟨before, behind, rfl⟩ := List.append_of_mem hid
    obtain ⟨ins, -, hstamped⟩ := hstamps.stamped before id behind rfl
    rw [hcode.offset, offset?, hstamped] at ho
    cases ho
    exact Link.assignOffsets_lt hassign
  · cases h

theorem Compilation.offset_lt (h : c.compile = .ok contract) :
    ∀ m ∈ contract.abi.methods, m.offset < Bytes.bound 4 := by
  intro m hm
  obtain ⟨linked, -, hlink, -⟩ := compile_eq_ok h
  obtain ⟨decoded, hcompiles⟩ := compile_ok h
  obtain ⟨i, hi⟩ := List.getElem?_of_mem hm
  obtain ⟨e, -, body, first, rest, k, ins, -, -, hfirst, hins, rfl⟩ :=
    forall₂_getElem? hcompiles.exported.flip hi
  obtain ⟨-, decoded', hdecodes, hemits⟩ := Arena.link_emits hlink
  obtain rfl : decoded' = decoded := Except.ok.inj (hdecodes.symm.trans hcompiles.decodes)
  obtain ⟨ins', hins', old, -, hoffset, -⟩ := forall₂_getElem? hemits hfirst
  obtain rfl : ins' = ins := Option.some.inj (hins'.symm.trans hins)
  exact Arena.offset_lt_of_link hlink (List.mem_of_getElem? hfirst) hoffset

theorem Compilation.extra_foldl {members : List (String × Json)}
    (h : Sorted (c.extra ++ members)) :
    (members.foldl (fun c (key, value) => c.setExtra key value) c).extra = c.extra ++ members := by
  induction members generalizing c with
  | nil => exact (List.append_nil _).symm
  | cons m members ih =>
    -- What comes last by name goes to the end.
    have hlast : (c.setExtra m.1 m.2).extra = c.extra ++ [m] := by
      apply Json.insertMember_last
      intro earlier hearlier
      exact (List.pairwise_append.1 h).2.2 earlier hearlier m List.mem_cons_self
    rw [List.append_cons, ← hlast] at h ⊢
    exact ih h

theorem Program.extra_header {p : Program} (h : Sorted p.extra) : p.header.extra = p.extra := by
  have hstart : ∀ c : Compilation, c.extra = [] →
      (p.extra.foldl (fun c (key, value) => c.setExtra key value) c).extra = p.extra := by
    intro c hc
    rw [Compilation.extra_foldl (by rwa [hc]), hc, List.nil_append]
  apply hstart
  rw [foldl_keeps Compilation.extra, foldl_keeps Compilation.extra, foldl_keeps Compilation.extra]
  · intro c standard
    unfold Compilation.addStandard
    split <;> rfl
  · exact fun _ _ => rfl
  · intro c q
    split <;> rfl

/-- Only the header speaks of metadata. -/
theorem Lowering.keeps_extra (extra : List (String × Json)) :
    Kept fun _ _ s => s.compilation.extra = extra where
  opens {_ _ s} h name := by
    rw [← h]
    unfold Compilation.defineMethod
    split <;> rfl
  reads h _ hreads := by
    obtain ⟨ins, c, hins, hcompilation⟩ := hreads.instruction
    rw [← h, hcompilation, (lowerInstruction_ok hins).2.rest]
  exports h _ := h

theorem Program.extra_lower {p : Program} (hsorted : Sorted p.extra) (h : p.lower = .ok c) :
    c.extra = p.extra := by
  obtain ⟨s, c₁, id, hmethods, htracks, hbind, hemit⟩ := lower_eq_ok h
  have hread : s.compilation.extra = p.extra :=
    @Lowering.Kept.lowerMethods _ (Lowering.keeps_extra p.extra) [] [] _ s p.methods
      (extra_header hsorted) hmethods
  have hbound : c₁.extra = p.extra := by
    rw [(htracks.bindAll_ok hbind).1]
    exact hread
  rw [← hbound]
  rcases Compilation.emitInitializer_ok hemit with ⟨rfl, -⟩ | ⟨-, -, -, -, rfl⟩ <;> rfl

theorem Program.readable_of_compile {text source : String} {p : Program} (hp : ofText text = .ok p)
    (hlower : p.lower = .ok c) (hcompile : { c with source }.compile = .ok contract) :
    contract.manifest.Readable := by
  have hmetadata := metadata_of_ofText hp
  refine ⟨fun m hm => Nat.le_of_lt_succ (Compilation.offset_lt hcompile m hm), ?_⟩
  rwa [(Compilation.compile_manifest hcompile).2, extra_lower hmetadata.sorted hlower]

end Compiled

namespace Manifest

/-- The manifests there are: those that are read from a text, and those of compiled programs that
were read from one. -/
inductive Obtained : Manifest → Prop
  | read {text : String} {m : Manifest} (h : ofText text = .ok m) : Obtained m
  | compiled {text source : String} {p : Program} {c : Compilation} {contract : Contract}
      (hread : Program.ofText text = .ok p) (hlower : p.lower = .ok c)
      (hcompile : { c with source }.compile = .ok contract) : Obtained contract.manifest

/-- A manifest without fractions in its metadata is read back from its own text. -/
theorem ofText_toText {m : Manifest} (h : m.Obtained)
    (hwhole : ∀ n ∈ memberNumbers m.extra, ∃ v, n = .int v) : ofText m.toText = .ok m := by
  cases h with
  | read htext => exact (readable_of_ofText htext).reads_back hwhole
  | compiled hread hlower hcompile =>
    exact (Program.readable_of_compile hread hlower hcompile).reads_back hwhole

def starred : Manifest where
  name := "x"
  permissions := [⟨"*", .only ["a"]⟩]
  trusts := .all
  extra := [("a", .number (.int (-2))), ("b", .array [.number (.int 1)])]

/-- Its fields in order, with the metadata out of order. -/
def starredText : String :=
  "[\"x\",[],[],[[],[]],[[\"*\",[\"a\"]]],\"*\",\x7b\"b\":[1],\"a\":-2\x7d]"

theorem ofText_starred : ofText starredText = .ok starred := by
  have hwords : Json.Lexeme.lex starredText.toList = (Json.array [.string "x", .array [],
      .array [], .array [.array [], .array []], .array [.array [.string "*", .array [.string "a"]]],
      .string "*",
      .object [("b", .array [.number (.int 1)]), ("a", .number (.int (-2)))]]).words := by cbv
  rw [ofText, Decode.ofText, Json.Doc.parse_of_words hwords]
  rfl

theorem ofText_toText_starred : ofText starred.toText = .ok starred := by
  refine ofText_toText (.read ofText_starred) ?_
  simp [starred, memberNumbers, Json.numbers, itemNumbers]

end Manifest
end ContractLinker
