import Mathlib
import ContractLinker.Hash160
import ContractLinker.Proofs.HexDigits
import ContractLinker.Proofs.LittleEndian

namespace ContractLinker

namespace Hex

def number (digits : List Char) : Nat :=
  digits.foldl (fun n c => 16 * n + alphabet.idxOf c) 0

/-- Read as one number, the digits of the bytes from last to first are those of the little-endian
number. -/
theorem number_flatMap_reverse (bytes : Bytes) :
    number (bytes.reverse.flatMap pair) = Bytes.toNatLE bytes := by
  induction bytes with
  | nil => rfl
  | cons b bytes ih =>
    have hb := b.toNat_lt
    have hhigh := (digit_mem (show b.toNat / 16 < 16 by omega)).2.2
    have hlow := (digit_mem (show b.toNat % 16 < 16 by omega)).2.2
    unfold number at ih ⊢
    rw [List.reverse_cons, List.flatMap_append, List.foldl_append, ih, List.flatMap_singleton, pair,
      List.foldl_cons, List.foldl_cons, List.foldl_nil, hhigh, hlow, Bytes.toNatLE]
    omega

end Hex

namespace Hash160

/-- The text consists of forty hexadecimal digits `ds`, behind `0x` or without it. -/
structure Written (text : String) (ds : List Char) : Prop where
  length : ds.length = 40
  digits : ∀ c ∈ ds, c ∈ Hex.alphabet
  text : text.toList = ds ∨ text.toList = '0' :: 'x' :: ds

variable {h : Hash160} {s : String} {ds : List Char}

theorem toList_digits (s : String) : s.toList = digits s ∨ s.toList = '0' :: 'x' :: digits s := by
  unfold digits
  split
  · rename_i rest htext
    exact .inr htext
  · exact .inl rfl

theorem Written.digits_eq (h : Written s ds) : Hash160.digits s = ds := by
  have hx : 'x' ∉ Hex.alphabet := by decide
  unfold Hash160.digits
  rcases h.text with hplain | hprefixed
  · rw [hplain]
    split
    · rename_i rest
      exact absurd (h.digits 'x' (by simp)) hx
    · rfl
  · rw [hprefixed]
    rfl

theorem toList_text (h : Hash160) :
    h.text.toList = '0' :: 'x' :: h.bytes.reverse.flatMap Hex.pair := by
  rw [text, String.toList_append, Hex.encode, String.toList_ofList, String.toList_ofList]
  rfl

theorem text_injective : Function.Injective text := by
  intro h h' heq
  have hlist := congrArg String.toList heq
  rw [toList_text, toList_text, List.cons.injEq, List.cons.injEq] at hlist
  have hbytes := List.reverse_injective (Hex.flatMap_pair_injective hlist.2.2)
  obtain ⟨bytes, hlength⟩ := h
  obtain ⟨bytes', hlength'⟩ := h'
  cases hbytes
  rfl

theorem text_eq_iff : h.text = "0x" ++ String.ofList (ds.map Char.toLower) ↔
    h.bytes.reverse.flatMap Hex.pair = ds.map Char.toLower := by
  rw [text, Hex.encode, String.append_right_inj, String.ofList_inj]

theorem ofText_eq_ok_iff : ofText s = .ok h ↔
    ∃ ds, Written s ds ∧ h.text = "0x" ++ String.ofList (ds.map Char.toLower) := by
  simp only [text_eq_iff]
  constructor
  · intro hread
    unfold ofText at hread
    split at hread
    · cases hread
    · rename_i bytes hdecode
      cases hread
      obtain ⟨hwrites, hlength⟩ := Hex.decodeExactly_eq_ok_iff.1 hdecode
      have htwenty : bytes.reverse.length = 20 := by rw [List.length_reverse, hlength]
      have hforty : (digits s).length = 40 := by rw [hwrites.length_eq, hlength]
      refine ⟨digits s, ⟨hforty, hwrites.1, toList_digits s⟩, ?_⟩
      rw [bytes_ofBytes htwenty, List.reverse_reverse, hwrites.2]
  · rintro ⟨ds, hwritten, hpairs⟩
    have hdecode : Hex.decodeExactly 20 (ds.flatMap String.utf8EncodeChar) = .ok h.bytes.reverse :=
      Hex.decodeExactly_eq_ok_iff.2
        ⟨⟨hwritten.digits, hpairs.symm⟩, by rw [List.length_reverse, h.length_eq]⟩
    unfold ofText
    rw [hwritten.digits_eq, hdecode]
    dsimp only
    rw [List.reverse_reverse, ofBytes_bytes]

/-- The text of an identifier is one of those it is read from. -/
theorem written_text (h : Hash160) : Written h.text (h.bytes.reverse.flatMap Hex.pair) := by
  refine ⟨?_, fun c hc => (Hex.mem_flatMap_pair hc).1, .inr (toList_text h)⟩
  rw [Hex.length_flatMap_pair, List.length_reverse, h.length_eq]

theorem exists_of_written (h : Written s ds) : ∃ found, ofText s = .ok found := by
  have hforty : ds.length = 2 * 20 := h.length
  obtain ⟨bytes, hlength, hpairs, -⟩ := Hex.exists_decodePairs hforty h.digits
  have hreverse : bytes.reverse.length = 20 := by rw [List.length_reverse, hlength]
  refine ⟨⟨bytes.reverse, hreverse⟩, ofText_eq_ok_iff.2 ⟨ds, h, text_eq_iff.2 ?_⟩⟩
  rw [List.reverse_reverse, hpairs]

/-- Identifiers and texts. Each identifier is read back from its text, so no two have the same. A
text is read exactly when it is forty hexadecimal digits, behind one `0x` or without it, and what is
read has these digits in lower case as its text; as a number they are what its bytes hold, lowest
first. -/
theorem text_canonical :
    (∀ h : Hash160, ofText h.text = .ok h) ∧ Function.Injective text ∧
    ∀ s : String, ((∃ h, ofText s = .ok h) ↔ ∃ ds, Written s ds) ∧
      ∀ ds h, Written s ds → ofText s = .ok h →
        h.text = "0x" ++ String.ofList (ds.map Char.toLower) ∧
        Bytes.toNatLE h.bytes = Hex.number (ds.map Char.toLower) := by
  refine ⟨?_, text_injective, ?_⟩
  · intro h
    refine ofText_eq_ok_iff.2 ⟨_, written_text h, text_eq_iff.2 ?_⟩
    rw [List.map_congr_left fun c hc => (Hex.mem_flatMap_pair hc).2, List.map_id']
  · intro s
    refine ⟨⟨?_, ?_⟩, ?_⟩
    · rintro ⟨h, hread⟩
      obtain ⟨ds, hwritten, -⟩ := ofText_eq_ok_iff.1 hread
      exact ⟨ds, hwritten⟩
    · rintro ⟨ds, hwritten⟩
      exact exists_of_written hwritten
    · intro ds h hwritten hread
      obtain ⟨ds', hwritten', htext⟩ := ofText_eq_ok_iff.1 hread
      rw [← hwritten'.digits_eq, hwritten.digits_eq] at htext
      refine ⟨htext, ?_⟩
      rw [← text_eq_iff.1 htext, Hex.number_flatMap_reverse]

/-- Zeros and `aB` behind the prefix are read as 171 and written in lower case. -/
theorem text_canonical_mixed_case : ∃ h : Hash160,
    ofText (String.ofList ('0' :: 'x' :: (List.replicate 38 '0' ++ ['a', 'B']))) = .ok h ∧
    h.text = "0x" ++ String.ofList (List.replicate 38 '0' ++ ['a', 'b']) ∧
    Bytes.toNatLE h.bytes = 171 := by
  have hwritten : Written (String.ofList ('0' :: 'x' :: (List.replicate 38 '0' ++ ['a', 'B'])))
      (List.replicate 38 '0' ++ ['a', 'B']) := by
    refine ⟨rfl, ?_, .inr String.toList_ofList⟩
    intro c hc
    simp only [List.mem_append, List.mem_replicate, List.mem_cons, List.not_mem_nil, or_false] at hc
    rcases hc with ⟨-, rfl⟩ | rfl | rfl <;> decide
  obtain ⟨hreads, hshows⟩ := text_canonical.2.2
    (String.ofList ('0' :: 'x' :: (List.replicate 38 '0' ++ ['a', 'B'])))
  obtain ⟨h, hread⟩ := hreads.2 ⟨_, hwritten⟩
  obtain ⟨htext, hnumber⟩ := hshows _ h hwritten hread
  exact ⟨h, hread, htext, hnumber⟩

end Hash160

end ContractLinker
