import ContractLinker.Bytes.Utf8

namespace ContractLinker.Utf8

/-- What the first byte of a longer character allows. At the ends of the ranges of first bytes the
range of the second is narrower, so that no character has two forms and none is a surrogate. -/
structure Lead (a : UInt8) (more : Nat) (low high : UInt8) : Prop where
  count : more = 1 ∧ 0xC2 ≤ a.toNat ∧ a.toNat ≤ 0xDF ∨
    more = 2 ∧ 0xE0 ≤ a.toNat ∧ a.toNat ≤ 0xEF ∨ more = 3 ∧ 0xF0 ≤ a.toNat ∧ a.toNat ≤ 0xF4
  allows : ∀ b : UInt8, ¬ (b < low ∨ high < b) ↔ 0x80 ≤ b.toNat ∧ b.toNat ≤ 0xBF ∧
    (a.toNat = 0xE0 → 0xA0 ≤ b.toNat) ∧ (a.toNat = 0xED → b.toNat ≤ 0x9F) ∧
    (a.toNat = 0xF0 → 0x90 ≤ b.toNat) ∧ (a.toNat = 0xF4 → b.toNat ≤ 0x8F)

theorem lead_of_eq_some {a : UInt8} {more : Nat} {low high : UInt8}
    (h : lead a = some (more, low, high)) : Lead a more low high := by
  simp only [lead, UInt8.le_iff_toNat_le, ← UInt8.toNat_inj, UInt8.reduceToNat] at h
  repeat' split at h
  all_goals cases h <;> refine ⟨by omega, fun b => ?_⟩ <;>
    simp only [UInt8.lt_iff_toNat_lt, UInt8.reduceToNat] <;> omega

theorem exists_lead {a : UInt8} (hlow : 0xC2 ≤ a.toNat) (hhigh : a.toNat ≤ 0xF4) :
    ∃ more low high, lead a = some (more, low, high) ∧ Lead a more low high := by
  cases h : lead a with
  | some found => exact ⟨found.1, found.2.1, found.2.2, rfl, lead_of_eq_some h⟩
  | none =>
    simp only [lead, UInt8.le_iff_toNat_le, ← UInt8.toNat_inj, UInt8.reduceToNat] at h
    grind

theorem lt_ascii_iff {a : UInt8} : a < 0x80 ↔ a.toNat < 0x80 := UInt8.lt_iff_toNat_lt

theorem isTail_iff {b : UInt8} : isTail b = true ↔ 0x80 ≤ b.toNat ∧ b.toNat ≤ 0xBF := by
  simp [isTail, UInt8.le_iff_toNat_le]

/-- The bytes of the character with number `v`: six bits in each byte behind the first. -/
inductive Form (v : Nat) : Bytes → Prop
  | one {a : UInt8} (hv : v < 0x80) (ha : a.toNat = v) : Form v [a]
  | two {a b : UInt8} (hv : 0x80 ≤ v ∧ v < 0x800) (ha : a.toNat = 0xC0 + v / 64)
      (hb : b.toNat = 0x80 + v % 64) : Form v [a, b]
  | three {a b c : UInt8} (hv : 0x800 ≤ v ∧ v < 0x10000) (ha : a.toNat = 0xE0 + v / 4096)
      (hb : b.toNat = 0x80 + v / 64 % 64) (hc : c.toNat = 0x80 + v % 64) : Form v [a, b, c]
  | four {a b c d : UInt8} (hv : 0x10000 ≤ v ∧ v < 0x110000) (ha : a.toNat = 0xF0 + v / 262144)
      (hb : b.toNat = 0x80 + v / 4096 % 64) (hc : c.toNat = 0x80 + v / 64 % 64)
      (hd : d.toNat = 0x80 + v % 64) : Form v [a, b, c, d]

theorem form_encodeChar (c : Char) : Form c.toNat (String.utf8EncodeChar c) := by
  have hlt : c.val.toNat < 0x110000 := by
    rcases c.valid with h | h <;> omega
  change Form c.val.toNat _
  simp only [String.utf8EncodeChar]
  generalize c.val.toNat = v at hlt ⊢
  split
  · refine .one (by omega) ?_
    rw [UInt8.toNat_ofNat']
    omega
  · split
    · refine .two (by omega) ?_ ?_ <;> rw [UInt8.toNat_ofNat'] <;> omega
    · split
      · refine .three (by omega) ?_ ?_ ?_ <;> rw [UInt8.toNat_ofNat'] <;> omega
      · refine .four (by omega) ?_ ?_ ?_ ?_ <;> rw [UInt8.toNat_ofNat'] <;> omega

theorem Form.unique {v : Nat} {bytes bytes' : Bytes} (h : Form v bytes) (h' : Form v bytes') :
    bytes = bytes' := by
  cases h <;> cases h' <;> simp only [List.cons.injEq, ← UInt8.toNat_inj, and_true] <;> omega

theorem Form.encodeChar {v : Nat} {bytes : Bytes} (h : Form v bytes) (hvalid : v.isValidChar) :
    String.utf8EncodeChar (Char.ofNat v) = bytes := by
  have haux : (Char.ofNatAux v hvalid).toNat = v := rfl
  have hv : (Char.ofNat v).toNat = v := by
    have hchar := Char.ofNat_toNat (Char.ofNatAux v hvalid)
    rw [haux] at hchar
    rw [hchar, haux]
  have hform := form_encodeChar (Char.ofNat v)
  rw [hv] at hform
  exact hform.unique h

/-- The first two bytes of a longer form are a first byte that asks for as many bytes as follow it,
and a second byte in its range. -/
theorem Form.lead {v : Nat} {a b : UInt8} {tail : Bytes} (h : Form v (a :: b :: tail))
    (hvalid : v.isValidChar) :
    ¬ a < 0x80 ∧ ∃ low high, Utf8.lead a = some (tail.length + 1, low, high) ∧
      ¬ (b < low ∨ high < b) := by
  have ha : 0xC2 ≤ a.toNat ∧ a.toNat ≤ 0xF4 := by
    cases h <;> omega
  obtain ⟨more, low, high, hlead, hok⟩ := exists_lead ha.1 ha.2
  have hmore : more = tail.length + 1 := by
    have hcount := hok.count
    cases h <;> simp only [List.length_cons, List.length_nil] <;> omega
  have hrange : ¬ (b < low ∨ high < b) := by
    rw [hok.allows b]
    cases h <;> omega
  refine ⟨?_, low, high, hmore ▸ hlead, hrange⟩
  rw [lt_ascii_iff]
  omega

theorem decodeFrom_form {v start : Nat} {done : List Char} {bytes : Bytes} (rest : Bytes)
    (h : Form v bytes) (hvalid : v.isValidChar) :
    decodeFrom start done (bytes ++ rest) =
      decodeFrom (start + bytes.length) (Char.ofNat v :: done) rest := by
  cases h with
  | @one a hv ha =>
    have hascii : a < 0x80 := lt_ascii_iff.2 (ha ▸ hv)
    simp only [List.cons_append, List.nil_append, decodeFrom, hascii, if_true, ha]
    rfl
  | @two a b hv ha hb =>
    obtain ⟨hascii, low, high, hlead, hrange⟩ := (Form.two hv ha hb).lead hvalid
    have hbits : bits 32 a * 64 + bits 64 b = v := by
      unfold bits
      omega
    simp only [List.cons_append, List.nil_append, decodeFrom, hascii, hlead, hrange, if_false,
      hbits]
    rfl
  | @three a b c hv ha hb hc =>
    obtain ⟨hascii, low, high, hlead, hrange⟩ := (Form.three hv ha hb hc).lead hvalid
    have htail : isTail c = true := isTail_iff.2 (by omega)
    have hbits : (bits 16 a * 64 + bits 64 b) * 64 + bits 64 c = v := by
      unfold bits
      omega
    simp only [List.cons_append, List.nil_append, decodeFrom, hascii, hlead, hrange, htail,
      if_false, hbits]
    rfl
  | @four a b c d hv ha hb hc hd =>
    obtain ⟨hascii, low, high, hlead, hrange⟩ := (Form.four hv ha hb hc hd).lead hvalid
    have htail : isTail c = true := isTail_iff.2 (by omega)
    have htail' : isTail d = true := isTail_iff.2 (by omega)
    have hbits : ((bits 8 a * 64 + bits 64 b) * 64 + bits 64 c) * 64 + bits 64 d = v := by
      unfold bits
      omega
    simp only [List.cons_append, List.nil_append, decodeFrom, hascii, hlead, hrange, htail,
      htail', if_false, hbits]
    rfl

theorem bits_tail {b : UInt8} (h : 0x80 ≤ b.toNat ∧ b.toNat ≤ 0xBF) :
    bits 64 b = b.toNat - 0x80 := by
  unfold bits
  omega

theorem form_two {a b : UInt8} (ha : 0xC2 ≤ a.toNat ∧ a.toNat ≤ 0xDF)
    (hb : 0x80 ≤ b.toNat ∧ b.toNat ≤ 0xBF) : Form (bits 32 a * 64 + bits 64 b) [a, b] := by
  have ha' : bits 32 a = a.toNat - 0xC0 := by
    unfold bits
    omega
  have hb' := bits_tail hb
  refine .two ?_ ?_ ?_ <;> omega

theorem form_three {a b c : UInt8} (ha : 0xE0 ≤ a.toNat ∧ a.toNat ≤ 0xEF)
    (hb : 0x80 ≤ b.toNat ∧ b.toNat ≤ 0xBF) (hc : 0x80 ≤ c.toNat ∧ c.toNat ≤ 0xBF)
    (hlow : a.toNat = 0xE0 → 0xA0 ≤ b.toNat) :
    Form ((bits 16 a * 64 + bits 64 b) * 64 + bits 64 c) [a, b, c] := by
  have ha' : bits 16 a = a.toNat - 0xE0 := by
    unfold bits
    omega
  have hb' := bits_tail hb
  have hc' := bits_tail hc
  refine .three ?_ ?_ ?_ ?_ <;> omega

theorem form_four {a b c d : UInt8} (ha : 0xF0 ≤ a.toNat ∧ a.toNat ≤ 0xF4)
    (hb : 0x80 ≤ b.toNat ∧ b.toNat ≤ 0xBF) (hc : 0x80 ≤ c.toNat ∧ c.toNat ≤ 0xBF)
    (hd : 0x80 ≤ d.toNat ∧ d.toNat ≤ 0xBF) (hlow : a.toNat = 0xF0 → 0x90 ≤ b.toNat)
    (hhigh : a.toNat = 0xF4 → b.toNat ≤ 0x8F) :
    Form (((bits 8 a * 64 + bits 64 b) * 64 + bits 64 c) * 64 + bits 64 d) [a, b, c, d] := by
  have ha' : bits 8 a = a.toNat - 0xF0 := by
    unfold bits
    omega
  have hb' := bits_tail hb
  have hc' := bits_tail hc
  have hd' := bits_tail hd
  refine .four ?_ ?_ ?_ ?_ ?_ <;> omega

theorem Form.zero_mem_iff {v : Nat} {bytes : Bytes} (h : Form v bytes) : 0 ∈ bytes ↔ v = 0 := by
  cases h <;> simp only [List.mem_cons, List.not_mem_nil, or_false, ← UInt8.toNat_inj,
    UInt8.reduceToNat] <;> omega

theorem zero_mem_encode_iff {text : String} : 0 ∈ encode text ↔ '\x00' ∈ text.toList := by
  have hzero (c : Char) : 0 ∈ String.utf8EncodeChar c ↔ c = '\x00' := by
    rw [(form_encodeChar c).zero_mem_iff, ← Char.toNat_inj]
    rfl
  simp only [encode, List.mem_flatMap, hzero, exists_eq_right]

/-- The text is `done`, last character first, and what `bytes` encode. -/
def Continues (done : List Char) (bytes : Bytes) (text : String) : Prop :=
  ∃ cs, text = String.ofList (done.reverse ++ cs) ∧ cs.flatMap String.utf8EncodeChar = bytes

theorem Continues.cons {v : Nat} {done : List Char} {bytes rest : Bytes} {text : String}
    (h : Continues (Char.ofNat v :: done) rest text) (hform : Form v bytes)
    (hvalid : v.isValidChar) : Continues done (bytes ++ rest) text := by
  obtain ⟨cs, rfl, rfl⟩ := h
  exact ⟨Char.ofNat v :: cs, by simp, by rw [List.flatMap_cons, hform.encodeChar hvalid]⟩

theorem continues_of_decodeFrom {start : Nat} {done : List Char} {bytes : Bytes} {text : String}
    (h : decodeFrom start done bytes = .ok text) : Continues done bytes text := by
  fun_induction decodeFrom start done bytes with
  | case1 start done =>
    cases h
    exact ⟨[], by simp, rfl⟩
  | case2 start done a rest hascii ih =>
    rw [lt_ascii_iff] at hascii
    exact (ih h).cons (.one hascii rfl) (by omega)
  -- Two, three and four bytes; in all other cases the decoder refuses.
  | case6 start done a hascii low high b rest hrange v hlead ih =>
    have hok := lead_of_eq_some hlead
    have ha : 0xC2 ≤ a.toNat ∧ a.toNat ≤ 0xDF := by have := hok.count; omega
    obtain ⟨hb, hb', -⟩ := (hok.allows b).1 hrange
    have hform := form_two ha ⟨hb, hb'⟩
    exact (ih h).cons hform (.inl (by cases hform; omega))
  | case9 start done a hascii low high b hrange c rest hc v hlead _ ih =>
    have hok := lead_of_eq_some hlead
    have ha : 0xE0 ≤ a.toNat ∧ a.toNat ≤ 0xEF := by have := hok.count; omega
    obtain ⟨hb, hb', hlow, hhigh, -⟩ := (hok.allows b).1 hrange
    have hform := form_three ha ⟨hb, hb'⟩ (isTail_iff.1 (by simpa using hc)) hlow
    refine (ih h).cons hform ?_
    cases hform with
    | three hv ha' hb' hc' =>
      -- Only behind `0xED` could the number be a surrogate.
      omega
  | case12 start done a hascii more low high hlead b hrange h1 c hc h2 d rest hd v ih =>
    have hok := lead_of_eq_some hlead
    have ha : 0xF0 ≤ a.toNat ∧ a.toNat ≤ 0xF4 := by have := hok.count; omega
    obtain ⟨hb, hb', -, -, hlow, hhigh⟩ := (hok.allows b).1 hrange
    have hform := form_four ha ⟨hb, hb'⟩ (isTail_iff.1 (by simpa using hc))
      (isTail_iff.1 (by simpa using hd)) hlow hhigh
    exact (ih h).cons hform (.inr (by cases hform; omega))
  | case3 | case4 | case5 | case7 | case8 | case10 | case11 => cases h

theorem decodeFrom_flatMap {start : Nat} {done cs : List Char} :
    decodeFrom start done (cs.flatMap String.utf8EncodeChar) =
      .ok (String.ofList (done.reverse ++ cs)) := by
  induction cs generalizing start done with
  | nil => simp [decodeFrom]
  | cons c cs ih =>
    rw [List.flatMap_cons, decodeFrom_form _ (form_encodeChar c) c.valid, Char.ofNat_toNat, ih]
    simp

theorem decode_eq_ok_iff {bytes : Bytes} {text : String} :
    decode bytes = .ok text ↔ bytes = encode text := by
  constructor
  · intro h
    obtain ⟨cs, rfl, rfl⟩ := continues_of_decodeFrom h
    simp [encode]
  · intro h
    rw [h, decode, encode, decodeFrom_flatMap]
    simp

end ContractLinker.Utf8
