import Mathlib.Data.List.Basic
import Mathlib.Tactic.SplitIfs
import ContractLinker.Bytes.Hex
import ContractLinker.Proofs.Utf8

namespace ContractLinker

/-- The items can be told apart from the front of a text, whatever follows them. -/
def Separable {β : Type} (f : β → List Char) : Prop :=
  ∀ a b r s, f a ++ r = f b ++ s → a = b ∧ r = s

theorem Separable.flatMap_injective {β : Type} {f : β → List Char} (h : Separable f)
    (hne : ∀ a, f a ≠ []) : Function.Injective fun l : List β => l.flatMap f := by
  intro l l' heq
  dsimp only at heq
  induction l generalizing l' with
  | nil =>
    cases l' with
    | nil => rfl
    | cons b l' =>
      rw [List.flatMap_nil, List.flatMap_cons, eq_comm, List.append_eq_nil_iff] at heq
      exact absurd heq.1 (hne b)
  | cons a l ih =>
    cases l' with
    | nil =>
      rw [List.flatMap_nil, List.flatMap_cons, List.append_eq_nil_iff] at heq
      exact absurd heq.1 (hne a)
    | cons b l' =>
      rw [List.flatMap_cons, List.flatMap_cons] at heq
      obtain ⟨rfl, hrest⟩ := h _ _ _ _ heq
      rw [ih hrest]

namespace Hex

/-- The hexadecimal digits of either case, those in lower case in the order of their values. -/
def alphabet : List Char :=
  ['0', '1', '2', '3', '4', '5', '6', '7', '8', '9', 'a', 'b', 'c', 'd', 'e', 'f',
    'A', 'B', 'C', 'D', 'E', 'F']

theorem digit_inj {m n : Nat} (hm : m < 16) (hn : n < 16) (h : digit m = digit n) : m = n := by
  have hall : ∀ m : Fin 16, ∀ n : Fin 16, digit m = digit n → m = n := by decide
  exact Fin.val_eq_of_eq (hall ⟨m, hm⟩ ⟨n, hn⟩ h)

theorem separable_pair : Separable pair := by
  intro a b r s h
  have ha := a.toNat_lt
  have hb := b.toNat_lt
  obtain ⟨hhigh, hlow, hrest⟩ := by
    simpa only [pair, List.cons_append, List.nil_append, List.cons.injEq] using h
  have hhigh := digit_inj (by omega) (by omega) hhigh
  have hlow := digit_inj (by omega) (by omega) hlow
  exact ⟨UInt8.toNat_inj.1 (by omega), hrest⟩

theorem flatMap_pair_injective : Function.Injective fun bytes : Bytes => bytes.flatMap pair :=
  separable_pair.flatMap_injective fun _ => List.cons_ne_nil _ _

variable {c : Char} {ds : List Char}

theorem value?_of_mem (h : c ∈ alphabet) : String.utf8EncodeChar c = [UInt8.ofNat c.toNat] ∧
    ∃ n, value? (UInt8.ofNat c.toNat) = some n ∧ digit n = c.toLower := by
  have hall : alphabet.all fun c => String.utf8EncodeChar c = [UInt8.ofNat c.toNat] ∧
      (value? (UInt8.ofNat c.toNat)).map digit = some c.toLower := by decide
  obtain ⟨hbyte, hvalue⟩ := of_decide_eq_true (List.all_eq_true.1 hall c h)
  exact ⟨hbyte, Option.map_eq_some_iff.1 hvalue⟩

theorem digit_mem {n : Nat} (h : n < 16) : digit n ∈ alphabet ∧ (digit n).toLower = digit n ∧
    alphabet.idxOf (digit n) = n := by
  have hall : ∀ n < 16, digit n ∈ alphabet ∧ (digit n).toLower = digit n ∧
      alphabet.idxOf (digit n) = n := by decide
  exact hall n h

theorem value?_bounds {b : UInt8} {n : Nat} (h : value? b = some n) : n < 16 ∧ b.toNat < 128 := by
  simp only [value?, UInt8.le_iff_toNat_le, UInt8.reduceToNat] at h
  split_ifs at h <;> cases h <;> omega

/-- A character of more than one byte does not start with a digit. -/
theorem mem_of_values (h : ∀ b ∈ String.utf8EncodeChar c, value? b ≠ none) : c ∈ alphabet := by
  have hascii : ∀ n < 128, value? (UInt8.ofNat n) ≠ none → Char.ofNat n ∈ alphabet := by decide
  have hlow (b : UInt8) (hb : b ∈ String.utf8EncodeChar c) : b.toNat < 128 := by
    obtain ⟨n, hn⟩ := Option.ne_none_iff_exists'.1 (h b hb)
    exact (value?_bounds hn).2
  have hform := Utf8.form_encodeChar c
  generalize hv : c.toNat = v at hform
  generalize String.utf8EncodeChar c = bytes at hform h hlow
  cases hform with
  | @one a hsmall ha =>
    have hdigit := hascii v hsmall
    rw [← ha, UInt8.ofNat_toNat, ha, ← hv, Char.ofNat_toNat] at hdigit
    exact hdigit (h a List.mem_cons_self)
  | @two a b _ ha _ =>
    have hfirst := hlow a List.mem_cons_self
    omega
  | @three a b c _ ha _ _ =>
    have hfirst := hlow a List.mem_cons_self
    omega
  | @four a b c d _ ha _ _ _ =>
    have hfirst := hlow a List.mem_cons_self
    omega

theorem flatMap_digits (h : ∀ c ∈ ds, c ∈ alphabet) :
    ds.flatMap String.utf8EncodeChar = ds.map fun c => UInt8.ofNat c.toNat := by
  rw [List.map_eq_flatMap]
  exact List.flatMap_congr fun c hc => (value?_of_mem (h c hc)).1

theorem pair_ofNat {high low : Nat} (hhigh : high < 16) (hlow : low < 16) :
    pair (UInt8.ofNat (16 * high + low)) = [digit high, digit low] := by
  have hbyte : (UInt8.ofNat (16 * high + low)).toNat = 16 * high + low :=
    UInt8.toNat_ofNat_of_lt (show 16 * high + low < 256 by omega)
  have hdiv : (16 * high + low) / 16 = high := by omega
  have hmod : (16 * high + low) % 16 = low := by omega
  rw [pair, hbyte, hdiv, hmod]

/-- Any even number of digits is read as bytes that are written as the same digits in lower case. -/
theorem exists_decodePairs {size : Nat} (hlength : ds.length = 2 * size)
    (h : ∀ c ∈ ds, c ∈ alphabet) : ∃ bytes : Bytes, bytes.length = size ∧
      bytes.flatMap pair = ds.map Char.toLower ∧ ∀ position done,
        decodePairs position done (ds.flatMap String.utf8EncodeChar) =
          .ok (done.reverse ++ bytes) := by
  -- Two digits at a time, as the reader takes them.
  induction size generalizing ds with
  | zero =>
    rw [List.length_eq_zero_iff.1 hlength]
    exact ⟨[], rfl, rfl, fun position done => by simp [decodePairs]⟩
  | succ size ih =>
    obtain ⟨high, tail, rfl⟩ := List.exists_cons_of_length_eq_add_one hlength
    obtain ⟨low, rest, rfl⟩ := List.exists_cons_of_length_eq_add_one (Nat.succ.inj hlength)
    obtain ⟨hhigh, hlow, hrest⟩ : high ∈ alphabet ∧ low ∈ alphabet ∧ ∀ c ∈ rest, c ∈ alphabet := by
      simpa using h
    obtain ⟨hhighByte, m, hm, hmDigit⟩ := value?_of_mem hhigh
    obtain ⟨hlowByte, n, hn, hnDigit⟩ := value?_of_mem hlow
    have hsize : rest.length = 2 * size := by
      simp only [List.length_cons] at hlength
      omega
    obtain ⟨bytes, hbytes, hpairs, hdecode⟩ := ih hsize hrest
    refine ⟨UInt8.ofNat (16 * m + n) :: bytes, by rw [List.length_cons, hbytes], ?_, ?_⟩
    · rw [List.flatMap_cons, pair_ofNat (value?_bounds hm).1 (value?_bounds hn).1, hpairs, hmDigit,
        hnDigit]
      rfl
    · intro position done
      simp only [List.flatMap_cons, hhighByte, hlowByte, List.cons_append, List.nil_append,
        decodePairs, digitAt, hm, hn, bind, Except.bind, hdecode, List.reverse_cons,
        List.append_assoc]

theorem value?_of_decodePairs {text bytes done : Bytes} {position : Nat}
    (heven : text.length % 2 = 0) (h : decodePairs position done text = .ok bytes) :
    ∀ b ∈ text, value? b ≠ none := by
  fun_induction decodePairs position done text with
  | case1 position done high low rest ih =>
    cases hhigh : value? high with
    | none =>
      rw [digitAt, hhigh] at h
      cases h
    | some m =>
      cases hlow : value? low with
      | none =>
        rw [digitAt, hhigh, digitAt, hlow] at h
        cases h
      | some n =>
        rw [digitAt, hhigh, digitAt, hlow] at h
        have hrestEven : rest.length % 2 = 0 := by
          simp only [List.length_cons] at heven
          omega
        have hrest := ih m n hrestEven h
        simpa [hhigh, hlow] using hrest
  | case2 text position done hshort =>
    -- A last digit alone would make the length odd.
    cases text with
    | nil => simp
    | cons high tail =>
      cases tail with
      | nil => simp at heven
      | cons low rest => exact absurd rfl (hshort high low rest)

theorem length_flatMap_pair (bytes : Bytes) : (bytes.flatMap pair).length = 2 * bytes.length := by
  induction bytes with
  | nil => rfl
  | cons b bytes ih =>
    rw [List.flatMap_cons, List.length_append, ih, List.length_cons, pair]
    simp only [List.length_cons, List.length_nil]
    omega

/-- The digits write the bytes: two for each byte, the higher half first, in either case. -/
def Writes (ds : List Char) (bytes : Bytes) : Prop :=
  (∀ c ∈ ds, c ∈ alphabet) ∧ ds.map Char.toLower = bytes.flatMap pair

theorem Writes.length_eq {bytes : Bytes} (h : Writes ds bytes) :
    ds.length = 2 * bytes.length := by
  have hcount := congrArg List.length h.2
  rwa [List.length_map, length_flatMap_pair] at hcount

theorem decodePairs_eq_ok_iff {bytes : Bytes}
    (heven : (ds.flatMap String.utf8EncodeChar).length % 2 = 0) :
    decodePairs 0 [] (ds.flatMap String.utf8EncodeChar) = .ok bytes ↔ Writes ds bytes := by
  constructor
  · intro h
    have hvalues := value?_of_decodePairs heven h
    have hdigits : ∀ c ∈ ds, c ∈ alphabet := by
      intro c hc
      apply mem_of_values
      intro b hb
      exact hvalues b (List.mem_flatMap.2 ⟨c, hc, hb⟩)
    rw [flatMap_digits hdigits, List.length_map] at heven
    obtain ⟨size, hsize⟩ := Nat.dvd_of_mod_eq_zero heven
    obtain ⟨found, -, hpairs, hdecode⟩ := exists_decodePairs hsize hdigits
    rw [hdecode] at h
    cases h
    exact ⟨hdigits, hpairs.symm⟩
  · intro h
    obtain ⟨found, -, hpairs, hdecode⟩ := exists_decodePairs h.length_eq h.1
    rw [hdecode, flatMap_pair_injective (hpairs.trans h.2)]
    rfl

/-- A text is read as the bytes that its characters write, and as nothing else. -/
theorem decode_eq_ok_iff {text : String} {bytes : Bytes} :
    decode (Utf8.encode text) = .ok bytes ↔ Writes text.toList bytes := by
  unfold decode Utf8.encode
  constructor
  · intro h
    split_ifs at h with hodd
    exact (decodePairs_eq_ok_iff (by omega)).1 h
  · intro h
    have heven : (text.toList.flatMap String.utf8EncodeChar).length % 2 = 0 := by
      rw [flatMap_digits h.1, List.length_map, h.length_eq, Nat.mul_mod_right]
    rw [if_neg (by omega)]
    exact (decodePairs_eq_ok_iff heven).2 h

theorem decodeExactly_eq_ok_iff {size : Nat} {bytes : Bytes} :
    decodeExactly size (ds.flatMap String.utf8EncodeChar) = .ok bytes ↔
      Writes ds bytes ∧ bytes.length = size := by
  unfold decodeExactly
  constructor
  · intro h
    split_ifs at h with hodd hsize
    have hwrites := (decodePairs_eq_ok_iff (by omega)).1 h
    refine ⟨hwrites, ?_⟩
    rw [flatMap_digits hwrites.1, List.length_map, hwrites.length_eq] at hsize
    omega
  · rintro ⟨hwrites, rfl⟩
    have hcount : (ds.flatMap String.utf8EncodeChar).length = 2 * bytes.length := by
      rw [flatMap_digits hwrites.1, List.length_map, hwrites.length_eq]
    rw [hcount, if_neg (by omega), if_neg (by omega)]
    exact (decodePairs_eq_ok_iff (by omega)).2 hwrites

theorem mem_flatMap_pair {bytes : Bytes} (h : c ∈ bytes.flatMap pair) :
    c ∈ alphabet ∧ c.toLower = c := by
  obtain ⟨b, -, hc⟩ := List.mem_flatMap.1 h
  have hb := b.toNat_lt
  simp only [pair, List.mem_cons, List.not_mem_nil, or_false] at hc
  rcases hc with rfl | rfl
  · have hdigit := digit_mem (show b.toNat / 16 < 16 by omega)
    exact ⟨hdigit.1, hdigit.2.1⟩
  · have hdigit := digit_mem (show b.toNat % 16 < 16 by omega)
    exact ⟨hdigit.1, hdigit.2.1⟩

end Hex
end ContractLinker
