import Mathlib.Data.String.Basic
import ContractLinker.Proofs.Compiling
import ContractLinker.Proofs.JsonWords

namespace ContractLinker.Json

open Decode (docOf docsOf membersOf)

namespace Doc

mutual

/-- The words of a value are taken in as its document. -/
theorem build_words (stack : List Frame) (more : List Lexeme) : (v : Json) → (first : Bool) →
    build (.value first) stack (v.words ++ more) = build (.after (docOf v)) stack more
  | .null, _ => rfl
  | .bool _, _ => rfl
  | .number _, _ => rfl
  | .string _, _ => rfl
  | .array [], _ => rfl
  | .array (item :: items), _ => by
    rw [words, List.cons_append, List.append_assoc]
    exact (build_words (.array [] :: stack) _ item true).trans
      (build_itemWords stack more items (docOf item) [])
  | .object [], _ => rfl
  | .object ((name, value) :: members), _ => by
    rw [words, List.cons_append, List.cons_append, List.cons_append, List.append_assoc]
    exact (build_words (.member [] (.ok name) :: stack) _ value false).trans
      (build_memberWords stack more members (.ok name) (docOf value) [])

theorem build_itemWords (stack : List Frame) (more : List Lexeme) : (items : List Json) →
    (value : Doc) → (done : List Doc) →
    build (.after value) (.array done :: stack) (itemWords items ++ more) =
      build (.after (.array ((value :: done).reverse ++ docsOf items) none)) stack more
  | [], value, done => by
    rw [docsOf, List.append_nil]
    rfl
  | item :: items, value, done => by
    rw [itemWords, List.cons_append, List.append_assoc, docsOf]
    refine (build_words (.array (value :: done) :: stack) _ item false).trans ?_
    rw [build_itemWords stack more items (docOf item) (value :: done), List.reverse_cons,
      List.append_assoc, List.singleton_append]

theorem build_memberWords (stack : List Frame) (more : List Lexeme) :
    (members : List (String × Json)) → (key : Except Fault String) → (value : Doc) →
    (done : List (Option (Except Fault String) × Doc)) →
    build (.after value) (.member done key :: stack) (memberWords members ++ more) =
      build (.after (.object (((some key, value) :: done).reverse ++ membersOf members) none))
        stack more
  | [], key, value, done => by
    rw [membersOf, List.append_nil]
    rfl
  | (name, next) :: members, key, value, done => by
    rw [memberWords, List.cons_append, List.cons_append, List.cons_append, List.append_assoc,
      membersOf]
    refine (build_words (.member ((some key, value) :: done) (.ok name) :: stack) _ next
      false).trans ?_
    rw [build_memberWords stack more members (.ok name) (docOf next) ((some key, value) :: done),
      List.reverse_cons, List.append_assoc, List.singleton_append]

end

theorem parse_of_words {text : String} {v : Json} (h : Lexeme.lex text.toList = v.words) :
    parse text = ⟨docOf v, false⟩ := by
  have hbuild := build_words [] [] v false
  rw [List.append_nil] at hbuild
  rw [parse, h, hbuild]
  rfl

end Doc

theorem Decode.ofText_pretty {α : Type} {v : Json} (h : ∀ n ∈ v.numbers, n.Exact)
    (item : Decode α) : item.ofText v.pretty = item 0 (docOf v) := by
  rw [ofText, Doc.parse_of_words (lex_pretty h)]
  cases item 0 (docOf v) <;> rfl

/-- Members stand in the order of their names, each name once. -/
def Sorted (members : List (String × Json)) : Prop := members.Pairwise fun a b => a.1 < b.1

mutual

/-- The value can stand at this depth: its members are sorted and it is not nested too deeply. -/
def Tidy (depth : Nat) : Json → Prop
  | .array items => depth + 1 < 128 ∧ TidyItems (depth + 1) items
  | .object members => depth + 1 < 128 ∧ Sorted members ∧ TidyMembers (depth + 1) members
  | _ => True

def TidyItems (depth : Nat) : List Json → Prop
  | [] => True
  | item :: items => Tidy depth item ∧ TidyItems depth items

def TidyMembers (depth : Nat) : List (String × Json) → Prop
  | [] => True
  | (_, value) :: members => Tidy depth value ∧ TidyMembers depth members

end

section Insertion

variable {name : String} {value : Json} {members : List (String × Json)}

theorem insertMember_last (h : ∀ m ∈ members, m.1 < name) :
    insertMember name value members = members ++ [(name, value)] := by
  induction members with
  | nil => rfl
  | cons m members ih =>
    obtain ⟨hm, hrest⟩ := List.forall_mem_cons.1 h
    rw [insertMember, if_neg hm.ne', if_neg hm.asymm, ih hrest, List.cons_append]

theorem mem_insertMember {m : String × Json} (h : m ∈ insertMember name value members) :
    m = (name, value) ∨ m ∈ members := by
  induction members with
  | nil => exact .inl (List.mem_singleton.1 h)
  | cons old members ih =>
    rw [insertMember] at h
    split_ifs at h
    · exact (List.mem_cons.1 h).imp_right (List.mem_cons_of_mem old)
    · exact List.mem_cons.1 h
    · rcases List.mem_cons.1 h with rfl | hrest
      · exact .inr List.mem_cons_self
      · exact (ih hrest).imp_right (List.mem_cons_of_mem old)

theorem Sorted.insertMember (h : Sorted members) : Sorted (insertMember name value members) := by
  induction members with
  | nil => exact List.pairwise_singleton _ _
  | cons old members ih =>
    obtain ⟨hold, hrest⟩ := List.pairwise_cons.1 h
    rw [Json.insertMember]
    -- The member replaces one of its name, goes in front of a greater one, or goes further back.
    split_ifs with heq hlt
    · exact List.pairwise_cons.2 ⟨fun m hm => heq ▸ hold m hm, hrest⟩
    · refine List.pairwise_cons.2 ⟨?_, h⟩
      intro m hm
      rcases List.mem_cons.1 hm with rfl | hm
      · exact hlt
      · exact hlt.trans (hold m hm)
    · refine List.pairwise_cons.2 ⟨?_, ih hrest⟩
      intro m hm
      rcases mem_insertMember hm with rfl | hm
      · exact lt_of_le_of_ne (not_lt.1 hlt) (Ne.symm heq)
      · exact hold m hm

end Insertion

theorem tidyItems_iff {depth : Nat} {items : List Json} :
    TidyItems depth items ↔ ∀ item ∈ items, Tidy depth item := by
  induction items with
  | nil => simp [TidyItems]
  | cons item items ih => rw [TidyItems, ih, List.forall_mem_cons]

theorem tidyMembers_iff {depth : Nat} {members : List (String × Json)} :
    TidyMembers depth members ↔ ∀ m ∈ members, Tidy depth m.2 := by
  induction members with
  | nil => simp [TidyMembers]
  | cons m members ih => rw [TidyMembers, ih, List.forall_mem_cons]

theorem mem_itemNumbers {items : List Json} {n : Number} :
    n ∈ itemNumbers items ↔ ∃ item ∈ items, n ∈ item.numbers := by
  induction items with
  | nil => simp [itemNumbers]
  | cons item items ih => rw [itemNumbers, List.mem_append, ih, List.exists_mem_cons_iff]

theorem mem_memberNumbers {members : List (String × Json)} {n : Number} :
    n ∈ memberNumbers members ↔ ∃ m ∈ members, n ∈ m.2.numbers := by
  induction members with
  | nil => simp [memberNumbers]
  | cons m members ih => rw [memberNumbers, List.mem_append, ih, List.exists_mem_cons_iff]

namespace Doc

theorem enter_eq_ok_iff {depth : Nat} : enter depth = .ok () ↔ depth + 1 < 128 := by
  unfold enter
  split <;> simp_all

mutual

theorem keep_docOf {depth : Nat} : (v : Json) → Tidy depth v → keep depth (docOf v) = .ok v
  | .null, _ => rfl
  | .bool _, _ => rfl
  | .number _, _ => rfl
  | .string _, _ => rfl
  | .array items, ⟨hdepth, hitems⟩ => by
    rw [docOf, keep, enter_eq_ok_iff.2 hdepth]
    exact keepItems_docsOf [] items hitems
  | .object members, ⟨hdepth, hsorted, hmembers⟩ => by
    rw [docOf, keep, enter_eq_ok_iff.2 hdepth]
    simp only [bind, Except.bind, keepMembers_membersOf [] members hmembers hsorted]
    rfl

theorem keepItems_docsOf {depth : Nat} (done : List Json) : (items : List Json) →
    TidyItems depth items →
      keepItems depth done none (docsOf items) = .ok (.array (done.reverse ++ items))
  | [], _ => by
    rw [List.append_nil]
    rfl
  | item :: items, ⟨hitem, hitems⟩ => by
    rw [docsOf, keepItems, keep_docOf item hitem]
    exact (keepItems_docsOf (item :: done) items hitems).trans (by simp)

theorem keepMembers_membersOf {depth : Nat} (done : List (String × Json)) :
    (members : List (String × Json)) → TidyMembers depth members → Sorted (done ++ members) →
      keepMembers depth done none (membersOf members) = .ok (done ++ members)
  | [], _, _ => by
    rw [List.append_nil]
    rfl
  | (name, value) :: members, ⟨hvalue, hmembers⟩, hsorted => by
    -- The next name is the largest so far.
    have hlast : insertMember name value done = done ++ [(name, value)] :=
      insertMember_last fun m hm => (List.pairwise_append.1 hsorted).2.2 m hm _ List.mem_cons_self
    rw [List.append_cons] at hsorted
    rw [membersOf, keepMembers]
    simp only [bind, Except.bind, keep_docOf value hvalue, hlast]
    rw [keepMembers_membersOf _ members hmembers hsorted, ← List.append_cons]

end

mutual

def numbers : Doc → List Number
  | .number (.ok n) => [n]
  | .array items _ => itemNumbers items
  | .object members _ => memberNumbers members
  | _ => []

def itemNumbers : List Doc → List Number
  | [] => []
  | item :: items => numbers item ++ itemNumbers items

def memberNumbers : List (Option (Except Fault String) × Doc) → List Number
  | [] => []
  | (_, value) :: members => numbers value ++ memberNumbers members

end

mutual

theorem keep_ok {depth : Nat} : (doc : Doc) → (v : Json) → keep depth doc = .ok v →
    Tidy depth v ∧ ∀ n ∈ v.numbers, n ∈ doc.numbers
  | .null, _, h => by
    cases h
    exact ⟨trivial, nofun⟩
  | .bool _, _, h => by
    cases h
    exact ⟨trivial, nofun⟩
  | .number (.ok n), _, h => by
    cases h
    exact ⟨trivial, fun _ hn => hn⟩
  | .number (.error _), _, h => nomatch h
  | .string (.ok s), _, h => by
    cases h
    exact ⟨trivial, nofun⟩
  | .string (.error _), _, h => nomatch h
  | .array items cut, v, h => by
    obtain ⟨_, hdepth, hitems⟩ := Except.bind_eq_ok_iff.1 h
    obtain ⟨values, rfl, hvalues⟩ := keepItems_ok items [] v hitems
    refine ⟨⟨enter_eq_ok_iff.1 hdepth,
      tidyItems_iff.2 fun value hmem => (hvalues value hmem).1⟩, ?_⟩
    intro n hn
    obtain ⟨value, hmem, hin⟩ := Json.mem_itemNumbers.1 hn
    exact (hvalues value hmem).2 n hin
  | .object members cut, v, h => by
    obtain ⟨_, hdepth, hrest⟩ := Except.bind_eq_ok_iff.1 h
    obtain ⟨kept, hkept, hpure⟩ := Except.bind_eq_ok_iff.1 hrest
    cases hpure
    obtain ⟨hsorted, hall⟩ := keepMembers_ok members [] kept hkept .nil
    have hvalues := fun m hm => (hall m hm).resolve_left List.not_mem_nil
    refine ⟨⟨enter_eq_ok_iff.1 hdepth, hsorted,
      tidyMembers_iff.2 fun m hmem => (hvalues m hmem).1⟩, ?_⟩
    intro n hn
    obtain ⟨m, hmem, hin⟩ := Json.mem_memberNumbers.1 hn
    exact (hvalues m hmem).2 n hin
  | .brokenString _ _, _, h => nomatch h
  | .broken _ _, _, h => nomatch h
  | .missing _, _, h => nomatch h

theorem keepItems_ok {depth : Nat} {cut : Option Fault} : (items : List Doc) →
    (done : List Json) → (v : Json) → keepItems depth done cut items = .ok v →
      ∃ values, v = .array (done.reverse ++ values) ∧ ∀ value ∈ values,
        Tidy depth value ∧ ∀ n ∈ value.numbers, n ∈ itemNumbers items
  | [], done, v, h => by
    obtain ⟨_, -, hpure⟩ := Except.bind_eq_ok_iff.1 h
    cases hpure
    exact ⟨[], by simp, nofun⟩
  | item :: items, done, v, h => by
    obtain ⟨value, hvalue, hrest⟩ := Except.bind_eq_ok_iff.1 h
    obtain ⟨htidy, hnumbers⟩ := keep_ok item value hvalue
    obtain ⟨values, rfl, hvalues⟩ := keepItems_ok items (value :: done) v hrest
    refine ⟨value :: values, by simp, List.forall_mem_cons.2 ⟨?_, ?_⟩⟩
    · exact ⟨htidy, fun n hn => List.mem_append_left _ (hnumbers n hn)⟩
    · intro other hmem
      obtain ⟨htidy', hnumbers'⟩ := hvalues other hmem
      exact ⟨htidy', fun n hn => List.mem_append_right _ (hnumbers' n hn)⟩

theorem keepMembers_ok {depth : Nat} {cut : Option Fault} :
    (members : List (Option (Except Fault String) × Doc)) → (done kept : List (String × Json)) →
    keepMembers depth done cut members = .ok kept → Sorted done →
    Sorted kept ∧ ∀ m ∈ kept, m ∈ done ∨
      Tidy depth m.2 ∧ ∀ n ∈ m.2.numbers, n ∈ memberNumbers members
  | [], done, kept, h, hsorted => by
    obtain ⟨_, -, hpure⟩ := Except.bind_eq_ok_iff.1 h
    cases hpure
    exact ⟨hsorted, fun m hm => .inl hm⟩
  | (none, found) :: members, done, kept, h, hsorted => nomatch h
  | (some key, doc) :: members, done, kept, h, hsorted => by
    obtain ⟨name, -, hvalue⟩ := Except.bind_eq_ok_iff.1 h
    obtain ⟨value, hkeep, hrest⟩ := Except.bind_eq_ok_iff.1 hvalue
    obtain ⟨htidy, hnumbers⟩ := keep_ok doc value hkeep
    obtain ⟨hsorted', hall⟩ := keepMembers_ok members _ kept hrest hsorted.insertMember
    refine ⟨hsorted', fun m hm => ?_⟩
    rcases hall m hm with hnew | ⟨htidy', hnumbers'⟩
    · rcases mem_insertMember hnew with rfl | hold
      · exact .inr ⟨htidy, fun n hn => List.mem_append_left _ (hnumbers n hn)⟩
      · exact .inl hold
    · exact .inr ⟨htidy', fun n hn => List.mem_append_right _ (hnumbers' n hn)⟩

end

theorem mem_itemNumbers {items : List Doc} {n : Number} :
    n ∈ itemNumbers items ↔ ∃ item ∈ items, n ∈ item.numbers := by
  induction items with
  | nil => simp [itemNumbers]
  | cons item items ih => rw [itemNumbers, List.mem_append, ih, List.exists_mem_cons_iff]

theorem mem_memberNumbers {members : List (Option (Except Fault String) × Doc)} {n : Number} :
    n ∈ memberNumbers members ↔ ∃ m ∈ members, n ∈ m.2.numbers := by
  induction members with
  | nil => simp [memberNumbers]
  | cons m members ih => rw [memberNumbers, List.mem_append, ih, List.exists_mem_cons_iff]

end Doc

namespace Literal

theorem absorb_lt {significand : Nat} (h : significand < 0x10000000000000000) (taken : Nat)
    (ds : List Char) : (absorb significand taken ds).1 < 0x10000000000000000 := by
  induction ds generalizing significand taken with
  | nil => exact h
  | cons c ds ih =>
    unfold absorb
    dsimp only
    split_ifs with hnext
    · exact ih hnext _
    · exact h

theorem fits_of_value {lit : Literal} {n : Number} (h : lit.value = some n) : n.Fits := by
  have hlt := absorb_lt (show 0 < 0x10000000000000000 by decide) 0 lit.whole
  have hfloat {x : Option Binary64} (hx : x.map Number.float = some n) : n.Fits := by
    obtain ⟨_, -, rfl⟩ := Option.map_eq_some_iff.1 hx
    trivial
  unfold value at h
  dsimp only at h
  split_ifs at h with hneg hwhole hwhole
  · cases h
    obtain ⟨-, -, -, hrange⟩ := hwhole
    constructor <;> omega
  · exact hfloat h
  · cases h
    constructor <;> omega
  · exact hfloat h

end Literal

namespace Lexeme

def numbers : Lexeme → List Number
  | .number (.ok n) => [n]
  | _ => []

theorem fits_scanNumber (cs : List Char) : ∀ n ∈ (scanNumber cs).1.numbers, n.Fits := by
  unfold scanNumber
  split
  · simp [numbers]
  · split
    · rename_i hvalue
      intro n hn
      rw [List.mem_singleton.1 hn]
      exact Literal.fits_of_value hvalue
    · simp [numbers]

theorem numbers_scanString (size : Nat) (cs : List Char) : (scanString size cs).1.numbers = [] := by
  unfold scanString
  split
  · rfl
  · split <;> rfl

theorem numbers_scanWord (word : String) (meaning : Lexeme) (cs : List Char)
    (h : meaning.numbers = []) : (scanWord word meaning cs).1.numbers = [] := by
  unfold scanWord
  split
  · exact h
  · rfl

theorem fits_scan (size : Nat) (c : Char) (rest : List Char) :
    ∀ n ∈ (scan size c rest).1.numbers, n.Fits := by
  unfold scan
  split
  · simp [numbers]
  · simp [numbers]
  · simp [numbers]
  · simp [numbers]
  · simp [numbers]
  · simp [numbers]
  · simp [numbers_scanString]
  · simp [numbers_scanWord _ _ _ (show Lexeme.null.numbers = [] from rfl)]
  · simp [numbers_scanWord _ _ _ (show (Lexeme.bool true).numbers = [] from rfl)]
  · simp [numbers_scanWord _ _ _ (show (Lexeme.bool false).numbers = [] from rfl)]
  · split_ifs
    · exact fits_scanNumber _
    · simp [numbers]

theorem fits_lexFrom {size fuel : Nat} {done : List Lexeme} {cs : List Char}
    (hdone : ∀ w ∈ done, ∀ n ∈ w.numbers, n.Fits) :
    ∀ w ∈ lexFrom size fuel done cs, ∀ n ∈ w.numbers, n.Fits := by
  fun_induction lexFrom size fuel done cs with
  | case1 done cs => exact fun w hw => hdone w (List.mem_reverse.1 hw)
  | case2 fuel done => exact fun w hw => hdone w (List.mem_reverse.1 hw)
  | case3 done fuel c rest hblank ih => exact ih hdone
  | case4 done fuel c rest hblank word rest' hscan ih =>
    have hword := fits_scan size c rest
    rw [hscan] at hword
    exact ih (List.forall_mem_cons.2 ⟨hword, hdone⟩)
  | case5 done fuel c rest hblank word hscan =>
    have hword := fits_scan size c rest
    rw [hscan] at hword
    exact fun w hw => List.forall_mem_cons.2 ⟨hword, hdone⟩ w (List.mem_reverse.1 hw)

end Lexeme

namespace Doc

def Frame.numbers : Frame → List Number
  | .array items => itemNumbers items
  | .object members | .member members _ => memberNumbers members

@[simp]
theorem Frame.numbers_array (items : List Doc) : (Frame.array items).numbers = itemNumbers items :=
  rfl

@[simp]
theorem Frame.numbers_object (members : List (Option (Except Fault String) × Doc)) :
    (Frame.object members).numbers = memberNumbers members := rfl

@[simp]
theorem Frame.numbers_member (members : List (Option (Except Fault String) × Doc))
    (key : Except Fault String) : (Frame.member members key).numbers = memberNumbers members := rfl

def Mode.numbers : Mode → List Number
  | .after doc => doc.numbers
  | _ => []

theorem mem_numbers_cut {fault : Fault} {value : Doc} {frame : Frame} {n : Number}
    (h : n ∈ (frame.cut fault value).numbers) : n ∈ value.numbers ∨ n ∈ frame.numbers := by
  cases frame <;>
    simpa [Frame.cut, numbers, Frame.numbers, mem_itemNumbers, mem_memberNumbers, or_comm] using h

theorem mem_numbers_breakOff {fault : Fault} {value : Doc} {stack : List Frame} {n : Number}
    (h : n ∈ (breakOff fault value stack).root.numbers) :
    n ∈ value.numbers ∨ ∃ frame ∈ stack, n ∈ frame.numbers := by
  induction stack generalizing value with
  | nil => exact .inl h
  | cons frame stack ih =>
    rw [List.exists_mem_cons_iff]
    rcases ih h with hcut | hstack
    · exact (mem_numbers_cut hcut).imp_right .inl
    · exact .inr (.inr hstack)

theorem numbers_ofLexeme? (word : Lexeme) :
    ((ofLexeme? word).getD (.missing .malformed)).numbers = word.numbers := by
  cases word with
  | number n => cases n <;> rfl
  | _ => rfl

theorem mem_numbers_badKey {word : Lexeme} {n : Number} (h : n ∈ (badKey word).numbers) :
    n ∈ word.numbers := by
  cases word with
  | openArray | openObject | closeObject => exact h
  | _ => exact numbers_ofLexeme? _ ▸ h

/-- All numbers of a document come from its words. -/
theorem mem_numbers_build {mode : Mode} {stack : List Frame} {words : List Lexeme} {n : Number}
    (h : n ∈ (build mode stack words).root.numbers) :
    n ∈ mode.numbers ∨ (∃ frame ∈ stack, n ∈ frame.numbers) ∨ ∃ w ∈ words, n ∈ w.numbers := by
  -- Every step breaks off or goes on, with the numbers of the next word put somewhere else.
  fun_induction build mode stack words
  case case5 first stack words word _ _ value _ _ _ =>
    have hvalue : value.numbers = word.numbers := numbers_ofLexeme? word
    have hbreak := mem_numbers_breakOff h
    grind
  case case6 first stack words word _ _ value _ _ ih =>
    have hvalue : value.numbers = word.numbers := numbers_ofLexeme? word
    have hnext := ih h
    grind [Mode.numbers]
  case case11 =>
    have hbreak := mem_numbers_breakOff h
    grind [→ mem_numbers_badKey]
  case case16 => exact .inl h
  case case1 | case7 | case10 | case13 | case14 | case15 | case21 | case22 =>
    have hbreak := mem_numbers_breakOff h
    simp only [numbers, Mode.numbers, List.not_mem_nil, List.exists_mem_cons_iff,
      Frame.numbers_object, Frame.numbers_member] at hbreak ⊢
    grind
  case case2 ih | case3 ih | case4 ih | case8 ih | case9 ih | case12 ih | case17 ih | case18 ih |
      case19 ih | case20 ih =>
    have hnext := ih h
    simp only [numbers, Mode.numbers, List.not_mem_nil, List.exists_mem_cons_iff,
      Frame.numbers_array, Frame.numbers_object, Frame.numbers_member] at hnext ⊢
    grind [itemNumbers, memberNumbers, mem_itemNumbers, mem_memberNumbers]

theorem fits_parse (text : String) : ∀ n ∈ (parse text).root.numbers, n.Fits := by
  intro n hn
  obtain hmode | ⟨_, hframe, -⟩ | ⟨word, hword, hn⟩ := mem_numbers_build hn
  · cases hmode
  · cases hframe
  · exact Lexeme.fits_lexFrom (by simp) word hword n hn

end Doc

end ContractLinker.Json
