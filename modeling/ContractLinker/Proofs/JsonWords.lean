import Mathlib.Data.List.TakeDrop
import Mathlib.Tactic.IntervalCases
import ContractLinker.Json.Decode

namespace ContractLinker.Json

namespace Text

theorem hexValue?_digitChar {n : Nat} (h : n < 16) : hexValue? (Nat.digitChar n) = some n := by
  interval_cases n <;> decide

theorem unicodeEscape_control {c : Char} (hcontrol : isControl c = true) (rest : List Char) :
    unicodeEscape ('0' :: '0' :: Nat.digitChar (c.toNat / 16) :: Nat.digitChar (c.toNat % 16) ::
      rest) = .ok (c, rest) := by
  have hlt : c.toNat < 0x20 := by simpa [isControl] using hcontrol
  have hzero : hexValue? '0' = some 0 := by decide
  have hhigh := hexValue?_digitChar (show c.toNat / 16 < 16 by omega)
  have hlow := hexValue?_digitChar (show c.toNat % 16 < 16 by omega)
  have hunit : ((0 * 16 + 0) * 16 + c.toNat / 16) * 16 + c.toNat % 16 = c.toNat := by omega
  have hsurrogates : isLowSurrogate c.toNat = false ∧ isHighSurrogate c.toNat = false := by
    simp only [isLowSurrogate, isHighSurrogate, Bool.and_eq_false_iff, decide_eq_false_iff_not]
    omega
  simp only [unicodeEscape, hexUnit, hzero, hhigh, hlow, hunit, hsurrogates, Bool.false_eq_true,
    if_false, Char.ofNat_toNat]

theorem readFrom_escape (fuel : Nat) (done rest : List Char) (c : Char) :
    readFrom (fuel + 1) done (escape c ++ rest) = readFrom fuel (c :: done) rest := by
  unfold escape
  split_ifs with hquote hback hb hf hn hr ht hcontrol
  · rw [hquote]
    rfl
  · rw [hback]
    rfl
  · rw [hb]
    rfl
  · rw [hf]
    rfl
  · rw [hn]
    rfl
  · rw [hr]
    rfl
  · rw [ht]
    rfl
  · have hread := unicodeEscape_control hcontrol rest
    simp only [List.cons_append, List.nil_append, readFrom, hread]
    rfl
  · conv_lhs => rw [List.singleton_append]; unfold readFrom
    simp only [if_neg hquote, if_neg hback, if_neg hcontrol]

theorem readFrom_escapes {fuel : Nat} {cs : List Char} (hfuel : cs.length < fuel)
    (done rest : List Char) : readFrom fuel done (cs.flatMap escape ++ '"' :: rest) =
      .ok (String.ofList (done.reverse ++ cs), rest) := by
  induction cs generalizing fuel done with
  | nil =>
    obtain ⟨fuel, rfl⟩ := Nat.exists_eq_succ_of_ne_zero (Nat.ne_zero_of_lt hfuel)
    simp [readFrom]
  | cons c cs ih =>
    obtain ⟨fuel, rfl⟩ := Nat.exists_eq_succ_of_ne_zero (Nat.ne_zero_of_lt hfuel)
    rw [List.flatMap_cons, List.append_assoc, readFrom_escape,
      ih (Nat.lt_of_succ_lt_succ hfuel) (c :: done)]
    simp

theorem length_le_length_flatMap_escape (cs : List Char) :
    cs.length ≤ (cs.flatMap escape).length := by
  induction cs with
  | nil => exact Nat.le_refl 0
  | cons c cs ih =>
    have hpos : 0 < (escape c).length := by
      unfold escape
      split_ifs <;> exact Nat.succ_pos _
    rw [List.flatMap_cons, List.length_append, List.length_cons]
    omega

end Text

def Number.Fits : Number → Prop
  | .int value => -0x8000000000000000 ≤ value ∧ value < 0x10000000000000000
  | .float _ => True

/-- Nothing that a number could go on with stands at the start. -/
def Delimited (rest : List Char) : Prop :=
  ∀ c ∈ rest.head?, c.isDigit = false ∧ c ≠ '.' ∧ c ≠ 'e' ∧ c ≠ 'E'

namespace Literal

variable {rest : List Char}

theorem digits_append {ds : List Char} (hds : ∀ c ∈ ds, c.isDigit = true) (hrest : Delimited rest) :
    digits (ds ++ rest) = (ds, rest) := by
  have hnone : rest.takeWhile Char.isDigit = [] ∧ rest.dropWhile Char.isDigit = rest := by
    cases rest with
    | nil => exact ⟨rfl, rfl⟩
    | cons c rest =>
      have hc := (hrest c rfl).1
      exact ⟨List.takeWhile_cons_of_neg (by simp [hc]), List.dropWhile_cons_of_neg (by simp [hc])⟩
  rw [digits, List.span_eq_takeWhile_dropWhile, List.takeWhile_append_of_pos hds,
    List.dropWhile_append_of_pos hds, hnone.1, hnone.2, List.append_nil]

theorem scanFraction_of_delimited (lit : Literal) (hrest : Delimited rest) :
    scanFraction lit rest = .ok (lit, rest) := by
  cases rest with
  | nil => rfl
  | cons c rest =>
    obtain ⟨-, hpoint, hlower, hupper⟩ := hrest c rfl
    unfold scanFraction
    split
    · rename_i heq
      cases heq
      exact absurd rfl hpoint
    · unfold scanExponent
      exact if_neg (by simp [hlower, hupper])

theorem head?_toDigits {n : Nat} (hpos : 0 < n) : (Nat.toDigits 10 n).head? ≠ some '0' := by
  induction n using Nat.strong_induction_on with
  | _ n ih =>
    rw [Nat.toDigits_eq_if (by decide)]
    split_ifs with hlt
    · rw [List.head?_cons]
      interval_cases n <;> decide
    · have hfront := ih (n / 10) (by omega) (by omega)
      cases hdigits : Nat.toDigits 10 (n / 10) with
      | nil => exact absurd hdigits Nat.toDigits_ne_nil
      | cons d ds =>
        rw [hdigits] at hfront
        exact hfront

theorem scanUnsigned_toDigits (negative : Bool) (n : Nat) (hrest : Delimited rest) :
    scanUnsigned negative (Nat.toDigits 10 n ++ rest) =
      .ok ({ negative, whole := Nat.toDigits 10 n }, rest) := by
  have hdigits : ∀ c ∈ Nat.toDigits 10 n, c.isDigit = true := fun c hc =>
    Nat.isDigit_of_mem_toDigits (by decide) (by decide) hc
  unfold scanUnsigned
  rw [digits_append hdigits hrest]
  split
  · rename_i heq
    exact absurd (Prod.mk.inj heq).1 Nat.toDigits_ne_nil
  · -- A zero in front of other digits is refused.
    rename_i heq
    have hzero := (Prod.mk.inj heq).1
    rcases Nat.eq_zero_or_pos n with rfl | hpos
    · cases hzero
    · exact absurd (by rw [hzero]; rfl) (head?_toDigits hpos)
  · rename_i heq
    obtain ⟨rfl, rfl⟩ := Prod.mk.inj heq
    exact scanFraction_of_delimited _ hrest

theorem absorb_eq {ds : List Char} {significand : Nat} (taken : Nat)
    (hfits : Nat.ofDigitChars 10 ds significand < 0x10000000000000000) :
    absorb significand taken ds = (Nat.ofDigitChars 10 ds significand, taken + ds.length) := by
  induction ds generalizing significand taken with
  | nil => rfl
  | cons c ds ih =>
    have hstep : significand * 10 + digitValue c = 10 * significand + (c.toNat - '0'.toNat) := by
      rw [digitValue, Nat.mul_comm]
    rw [Nat.ofDigitChars_cons] at hfits
    -- The number only grows with further digits, so it fits at every step on the way.
    have hle (init : Nat) : init ≤ Nat.ofDigitChars 10 ds init := by
      clear ih hfits
      induction ds generalizing init with
      | nil => exact Nat.le_refl init
      | cons d ds ihd =>
        rw [Nat.ofDigitChars_cons]
        exact le_trans (by omega) (ihd _)
    rw [absorb, hstep, if_pos (lt_of_le_of_lt (hle _) hfits), ih (taken + 1) hfits,
      Nat.ofDigitChars_cons, List.length_cons]
    congr 1
    omega

theorem value_toDigits (negative : Bool) (n : Nat)
    (hfits : if negative then 0 < n ∧ n ≤ 0x8000000000000000 else n < 0x10000000000000000) :
    value { negative, whole := Nat.toDigits 10 n } =
      some (.int (if negative then -n else n)) := by
  have hvalue : Nat.ofDigitChars 10 (Nat.toDigits 10 n) 0 = n :=
    Nat.ofDigitChars_toDigits (by decide) (by decide)
  have hroom : Nat.ofDigitChars 10 (Nat.toDigits 10 n) 0 < 0x10000000000000000 := by
    rw [hvalue]
    split at hfits <;> omega
  have habsorb := absorb_eq 0 hroom
  rw [hvalue] at habsorb
  cases negative with
  | true => simp_all [value]
  | false => simp_all [value]

end Literal

namespace Lexeme

theorem toList_toString (v : Int) : (toString v).toList =
    if v < 0 then '-' :: Nat.toDigits 10 v.natAbs else Nat.toDigits 10 v.natAbs := by
  rw [Int.toString_eq_repr]
  cases v with
  | ofNat n =>
    rw [if_neg (by simp)]
    exact Nat.toList_repr
  | negSucc n =>
    rw [if_pos (Int.negSucc_lt_zero n), Int.repr, String.toList_append, Nat.toList_repr]
    rfl

theorem scanNumber_toString {v : Int} (hfits : (Number.int v).Fits) {rest : List Char}
    (hrest : Delimited rest) :
    scanNumber ((toString v).toList ++ rest) = (.number (.ok (.int v)), some rest) := by
  obtain ⟨hlow, hhigh⟩ := hfits
  rw [toList_toString]
  split_ifs with hneg
  · have hvalue := Literal.value_toDigits true v.natAbs
      (by rw [if_pos rfl]; omega)
    rw [if_pos rfl, show -(v.natAbs : Int) = v by omega] at hvalue
    simp only [scanNumber, List.cons_append, Literal.scan,
      Literal.scanUnsigned_toDigits true v.natAbs hrest, hvalue]
  · have hvalue := Literal.value_toDigits false v.natAbs
      (by rw [if_neg (by decide)]; omega)
    rw [if_neg (by decide), show (v.natAbs : Int) = v by omega] at hvalue
    -- Digits do not start with a sign.
    have hscan : Literal.scan (Nat.toDigits 10 v.natAbs ++ rest) =
        Literal.scanUnsigned false (Nat.toDigits 10 v.natAbs ++ rest) := by
      unfold Literal.scan
      split
      · rename_i heq
        rcases List.cons_eq_append_iff.1 heq.symm with ⟨hnil, -⟩ | ⟨ds, hds, -⟩
        · exact absurd hnil Nat.toDigits_ne_nil
        · have hminus : '-' ∈ Nat.toDigits 10 v.natAbs := hds ▸ List.mem_cons_self
          have hdigit := Nat.isDigit_of_mem_toDigits (by decide) (by decide) hminus
          cases hdigit
      · rfl
    simp only [scanNumber, hscan, Literal.scanUnsigned_toDigits false v.natAbs hrest, hvalue]

def Numeric (c : Char) : Prop := c = '-' ∨ c.isDigit = true

theorem exists_numeric (v : Int) : ∃ c cs, (toString v).toList = c :: cs ∧ Numeric c := by
  rw [toList_toString]
  split_ifs
  · exact ⟨'-', _, rfl, .inl rfl⟩
  · obtain ⟨d, ds, hds⟩ :=
      List.exists_cons_of_ne_nil (Nat.toDigits_ne_nil (n := v.natAbs) (b := 10))
    have hmem : d ∈ Nat.toDigits 10 v.natAbs := hds ▸ List.mem_cons_self
    exact ⟨d, ds, hds, .inr (Nat.isDigit_of_mem_toDigits (by decide) (by decide) hmem)⟩

theorem not_blank_of_numeric {c : Char} (h : Numeric c) : isBlank c = false := by
  by_contra hblank
  simp only [isBlank, Bool.not_eq_false, Bool.or_eq_true, decide_eq_true_eq] at hblank
  rcases hblank with ((rfl | rfl) | rfl) | rfl <;> rcases h with h | h <;> cases h

theorem scan_numeric {c : Char} (h : Numeric c) (size : Nat) (cs : List Char) :
    scan size c cs = scanNumber (c :: cs) := by
  unfold scan
  split
  all_goals first
    | exact if_pos h
    | rcases h with h | h <;> cases h

/-- Reading words from `cs` on gives `words`, with `rest` behind them. -/
def Lexes (size : Nat) (cs : List Char) (words : List Lexeme) (rest : List Char) : Prop :=
  ∀ fuel done, cs.length ≤ fuel → ∃ fuel', rest.length ≤ fuel' ∧
    lexFrom size fuel done cs = lexFrom size fuel' (words.reverse ++ done) rest

namespace Lexes

variable {size : Nat} {cs mid rest : List Char} {words more : List Lexeme}

theorem refl (cs : List Char) : Lexes size cs [] cs := fun fuel _ hfuel => ⟨fuel, hfuel, rfl⟩

theorem trans (h : Lexes size cs words mid) (h' : Lexes size mid more rest) :
    Lexes size cs (words ++ more) rest := by
  intro fuel done hfuel
  obtain ⟨fuel', hfuel', hfirst⟩ := h fuel done hfuel
  obtain ⟨fuel'', hfuel'', hsecond⟩ := h' fuel' (words.reverse ++ done) hfuel'
  refine ⟨fuel'', hfuel'', ?_⟩
  rw [hfirst, hsecond, List.reverse_append, List.append_assoc]

theorem blank {c : Char} (hblank : isBlank c = true) : Lexes size (c :: rest) [] rest := by
  intro fuel done hfuel
  obtain ⟨fuel, rfl⟩ := Nat.exists_eq_succ_of_ne_zero (Nat.ne_zero_of_lt hfuel)
  exact ⟨fuel, Nat.le_of_succ_le_succ hfuel, by rw [lexFrom, if_pos hblank]; rfl⟩

theorem blanks {bs : List Char} (hblanks : ∀ b ∈ bs, isBlank b = true) :
    Lexes size (bs ++ rest) [] rest := by
  induction bs with
  | nil => exact refl rest
  | cons b bs ih =>
    rw [List.forall_mem_cons] at hblanks
    exact (blank hblanks.1).trans (ih hblanks.2)

theorem word {c : Char} {word : Lexeme} (hblank : isBlank c = false)
    (hscan : scan size c cs = (word, some rest)) (hle : rest.length ≤ cs.length) :
    Lexes size (c :: cs) [word] rest := by
  intro fuel done hfuel
  obtain ⟨fuel, rfl⟩ := Nat.exists_eq_succ_of_ne_zero (Nat.ne_zero_of_lt hfuel)
  refine ⟨fuel, hle.trans (Nat.le_of_succ_le_succ hfuel), ?_⟩
  rw [lexFrom, if_neg (by simp [hblank]), hscan]
  rfl

theorem openArray : Lexes size ('[' :: rest) [.openArray] rest := word rfl rfl (Nat.le_refl _)

theorem closeArray : Lexes size (']' :: rest) [.closeArray] rest := word rfl rfl (Nat.le_refl _)

theorem openObject : Lexes size ('\x7b' :: rest) [.openObject] rest :=
  word rfl rfl (Nat.le_refl _)

theorem closeObject : Lexes size ('\x7d' :: rest) [.closeObject] rest :=
  word rfl rfl (Nat.le_refl _)

theorem comma : Lexes size (',' :: rest) [.comma] rest := word rfl rfl (Nat.le_refl _)

theorem colon : Lexes size (':' :: rest) [.colon] rest := word rfl rfl (Nat.le_refl _)

theorem quoted (s : String) (hsize : (Text.quoted s).toList.length + rest.length ≤ size) :
    Lexes size ((Text.quoted s).toList ++ rest) [.string (.ok s)] rest := by
  have htext : (Text.quoted s).toList = '"' :: (s.toList.flatMap Text.escape ++ ['"']) := by
    rw [Text.quoted, String.toList_ofList]
  rw [htext] at hsize ⊢
  have hfuel := Text.length_le_length_flatMap_escape s.toList
  simp only [List.length_cons, List.length_append, List.length_nil] at hsize
  rw [List.cons_append, List.append_assoc, List.singleton_append]
  refine word rfl ?_ ?_
  · change scanString size _ = _
    rw [scanString, Text.readFrom_escapes (by omega), List.reverse_nil, List.nil_append,
      String.ofList_toList]
  · simp only [List.length_append, List.length_cons]
    omega

theorem number {v : Int} (hfits : (Number.int v).Fits) (hrest : Delimited rest) :
    Lexes size ((toString v).toList ++ rest) [.number (.ok (.int v))] rest := by
  obtain ⟨c, cs, hcs, hc⟩ := exists_numeric v
  have hscan := scanNumber_toString hfits hrest
  rw [hcs, List.cons_append] at hscan ⊢
  refine word (not_blank_of_numeric hc) ((scan_numeric hc size _).trans hscan) ?_
  rw [List.length_append]
  exact Nat.le_add_left _ _

theorem null : Lexes size ("null".toList ++ rest) [.null] rest :=
  word rfl rfl (Nat.le_add_right _ 3)

theorem true : Lexes size ("true".toList ++ rest) [.bool Bool.true] rest :=
  word rfl rfl (Nat.le_add_right _ 3)

theorem false : Lexes size ("false".toList ++ rest) [.bool Bool.false] rest :=
  word rfl rfl (Nat.le_add_right _ 4)

theorem newline (depth : Nat) : Lexes size ((Json.newline depth).toList ++ rest) [] rest := by
  apply blanks
  intro c hc
  rw [Json.newline, String.toList_ofList, List.mem_cons, List.mem_replicate] at hc
  rcases hc with rfl | ⟨-, rfl⟩ <;> rfl

end Lexes

theorem lex_eq {cs : List Char} {words : List Lexeme} (h : Lexes cs.length cs words []) :
    lex cs = words := by
  obtain ⟨fuel, -, hlex⟩ := h cs.length [] (Nat.le_refl _)
  rw [lex, hlex]
  cases fuel <;> simp [lexFrom]

end Lexeme

open Lexeme (Lexes)

mutual

/-- The words that a value is written with. -/
def words : Json → List Lexeme
  | .null => [.null]
  | .bool b => [.bool b]
  | .number n => [.number (.ok n)]
  | .string s => [.string (.ok s)]
  | .array [] => [.openArray, .closeArray]
  | .array (item :: items) => .openArray :: (words item ++ itemWords items)
  | .object [] => [.openObject, .closeObject]
  | .object ((name, value) :: members) =>
    .openObject :: .string (.ok name) :: .colon :: (words value ++ memberWords members)

def itemWords : List Json → List Lexeme
  | [] => [.closeArray]
  | item :: items => .comma :: (words item ++ itemWords items)

def memberWords : List (String × Json) → List Lexeme
  | [] => [.closeObject]
  | (name, value) :: members =>
    .comma :: .string (.ok name) :: .colon :: (words value ++ memberWords members)

end

mutual

def numbers : Json → List Number
  | .number n => [n]
  | .array items => itemNumbers items
  | .object members => memberNumbers members
  | _ => []

def itemNumbers : List Json → List Number
  | [] => []
  | item :: items => numbers item ++ itemNumbers items

def memberNumbers : List (String × Json) → List Number
  | [] => []
  | (_, value) :: members => numbers value ++ memberNumbers members

end

def Number.Exact (n : Number) : Prop := ∃ v, n = .int v ∧ n.Fits

theorem delimited_newline (depth : Nat) (rest : List Char) :
    Delimited ((newline depth).toList ++ rest) := by
  intro c hc
  rw [newline, String.toList_ofList] at hc
  cases hc
  decide

theorem delimited_comma (rest : List Char) : Delimited (',' :: rest) := by
  intro c hc
  cases hc
  decide

/-- `cs` is a text of these words, whatever is written behind it. -/
def Spells (cs : List Char) (ws : List Lexeme) : Prop :=
  ∀ size rest, Delimited rest → cs.length + rest.length ≤ size → Lexes size (cs ++ rest) ws rest

/-- `cs` is a text of these words if a new line and `close` follow. -/
structure Closes (close : Char) (cs : List Char) (ws : List Lexeme) : Prop where
  delimited : ∀ depth rest, Delimited (cs ++ ((newline depth).toList ++ close :: rest))
  lexes : ∀ size depth rest,
    cs.length + ((newline depth).toList ++ close :: rest).length ≤ size →
      Lexes size (cs ++ ((newline depth).toList ++ close :: rest)) ws rest

theorem Closes.last {close : Char} {word : Lexeme}
    (hclose : ∀ size rest, Lexes size (close :: rest) [word] rest) : Closes close [] [word] where
  delimited depth _ := delimited_newline depth _
  lexes _ depth rest _ := (Lexes.newline depth).trans (hclose _ rest)

theorem Closes.item {close : Char} {cs ds : List Char} {ws ws' : List Lexeme} (hcs : Spells cs ws)
    (hds : Closes close ds ws') (depth : Nat) :
    Closes close (',' :: ((newline depth).toList ++ (cs ++ ds))) (.comma :: (ws ++ ws')) where
  delimited _ _ := delimited_comma _
  lexes size outer rest hsize := by
    simp only [List.cons_append, List.append_assoc, List.length_cons, List.length_append] at hsize ⊢
    have hitem := hcs size _ (hds.delimited outer rest)
      (by simp only [List.length_cons, List.length_append]; omega)
    have hrest := hds.lexes size outer rest
      (by simp only [List.length_cons, List.length_append]; omega)
    exact Lexes.comma.trans ((Lexes.newline depth).trans (hitem.trans hrest))

theorem Spells.member {cs : List Char} {ws : List Lexeme} (hcs : Spells cs ws) (name : String) :
    Spells ((Text.quoted name).toList ++ ':' :: ' ' :: cs)
      (.string (.ok name) :: .colon :: ws) := by
  intro size rest hrest hsize
  simp only [List.append_assoc, List.cons_append, List.length_append, List.length_cons] at hsize ⊢
  have hname : Lexes size ((Text.quoted name).toList ++ ':' :: ' ' :: (cs ++ rest))
      [.string (.ok name)] (':' :: ' ' :: (cs ++ rest)) :=
    Lexes.quoted name (by simp only [List.length_cons, List.length_append]; omega)
  have hvalue := hcs size rest hrest (by omega)
  exact hname.trans (Lexes.colon.trans ((Lexes.blank rfl).trans hvalue))

/-- The text of an array or an object that is not empty. -/
theorem Spells.enclose {first close : Char} {word : Lexeme} {cs ds : List Char}
    {ws ws' : List Lexeme} (hopen : ∀ size rest, Lexes size (first :: rest) [word] rest)
    (hcs : Spells cs ws) (hds : Closes close ds ws') (depth : Nat) :
    Spells (first :: ((newline (depth + 1)).toList ++ (cs ++ (ds ++
      ((newline depth).toList ++ [close]))))) (word :: (ws ++ ws')) := by
  intro size rest _ hsize
  simp only [List.cons_append, List.append_assoc, List.nil_append, List.length_cons,
    List.length_append, List.length_nil] at hsize ⊢
  have hitem := hcs size _ (hds.delimited depth rest)
    (by simp only [List.length_cons, List.length_append]; omega)
  have hrest := hds.lexes size depth rest
    (by simp only [List.length_cons, List.length_append]; omega)
  exact (hopen size _).trans ((Lexes.newline (depth + 1)).trans (hitem.trans hrest))

mutual

theorem exists_spells (depth : Nat) : (v : Json) → (∀ n ∈ v.numbers, n.Exact) →
    ∃ cs, (∀ out, (write depth out v).toList = out.toList ++ cs) ∧ Spells cs v.words
  | .null, _ => ⟨"null".toList, fun _ => String.toList_append, fun _ _ _ _ => Lexes.null⟩
  | .bool true, _ => ⟨"true".toList, fun _ => String.toList_append, fun _ _ _ _ => Lexes.true⟩
  | .bool false, _ => ⟨"false".toList, fun _ => String.toList_append, fun _ _ _ _ => Lexes.false⟩
  | .number n, hexact => by
    obtain ⟨v, rfl, hfits⟩ := hexact n List.mem_cons_self
    exact ⟨(toString v).toList, fun _ => String.toList_append, fun _ _ hrest _ =>
      Lexes.number hfits hrest⟩
  | .string s, _ => ⟨(Text.quoted s).toList, fun _ => String.toList_append, fun _ _ _ hsize =>
      Lexes.quoted s hsize⟩
  | .array [], _ => ⟨"[]".toList, fun _ => String.toList_append, fun _ _ _ _ =>
      Lexes.openArray.trans Lexes.closeArray⟩
  | .array (item :: items), hexact => by
    obtain ⟨hitem, hitems⟩ := List.forall_mem_append.1 hexact
    obtain ⟨cs, hwrite, hcs⟩ := exists_spells (depth + 1) item hitem
    obtain ⟨ds, hrest, hds⟩ := exists_closes_items (depth + 1) items hitems
    refine ⟨_, fun out => ?_, hcs.enclose (fun _ _ => Lexes.openArray) hds depth⟩
    rw [write]
    simp [hwrite, hrest]
  | .object [], _ => ⟨"\x7b\x7d".toList, fun _ => String.toList_append, fun _ _ _ _ =>
      Lexes.openObject.trans Lexes.closeObject⟩
  | .object ((name, value) :: members), hexact => by
    obtain ⟨hvalue, hmembers⟩ := List.forall_mem_append.1 hexact
    obtain ⟨cs, hwrite, hcs⟩ := exists_spells (depth + 1) value hvalue
    obtain ⟨ds, hrest, hds⟩ := exists_closes_members (depth + 1) members hmembers
    refine ⟨_, fun out => ?_,
      (hcs.member name).enclose (fun _ _ => Lexes.openObject) hds depth⟩
    rw [write]
    simp [hwrite, hrest]

theorem exists_closes_items (depth : Nat) : (items : List Json) →
    (∀ n ∈ itemNumbers items, n.Exact) → ∃ cs,
      (∀ out, (writeItems depth out items).toList = out.toList ++ cs) ∧
        Closes ']' cs (itemWords items)
  | [], _ => ⟨[], fun out => (List.append_nil out.toList).symm, .last fun _ _ => Lexes.closeArray⟩
  | item :: items, hexact => by
    obtain ⟨hitem, hitems⟩ := List.forall_mem_append.1 hexact
    obtain ⟨cs, hwrite, hcs⟩ := exists_spells depth item hitem
    obtain ⟨ds, hrest, hds⟩ := exists_closes_items depth items hitems
    refine ⟨_, fun out => ?_, .item hcs hds depth⟩
    rw [writeItems]
    simp [hwrite, hrest]

theorem exists_closes_members (depth : Nat) : (members : List (String × Json)) →
    (∀ n ∈ memberNumbers members, n.Exact) → ∃ cs,
      (∀ out, (writeMembers depth out members).toList = out.toList ++ cs) ∧
        Closes '\x7d' cs (memberWords members)
  | [], _ => ⟨[], fun out => (List.append_nil out.toList).symm, .last fun _ _ => Lexes.closeObject⟩
  | (name, value) :: members, hexact => by
    obtain ⟨hvalue, hmembers⟩ := List.forall_mem_append.1 hexact
    obtain ⟨cs, hwrite, hcs⟩ := exists_spells depth value hvalue
    obtain ⟨ds, hrest, hds⟩ := exists_closes_members depth members hmembers
    refine ⟨_, fun out => ?_, .item (hcs.member name) hds depth⟩
    rw [writeMembers]
    simp [hwrite, hrest]

end

/-- A value without floating-point numbers is written in its words. -/
theorem lex_pretty {v : Json} (h : ∀ n ∈ v.numbers, n.Exact) :
    Lexeme.lex v.pretty.toList = v.words := by
  obtain ⟨cs, hwrite, hcs⟩ := exists_spells 0 v h
  have htext : v.pretty.toList = cs := hwrite ""
  have hlexes := hcs cs.length [] nofun (Nat.le_refl _)
  rw [List.append_nil] at hlexes
  rw [htext]
  exact Lexeme.lex_eq hlexes

end ContractLinker.Json
