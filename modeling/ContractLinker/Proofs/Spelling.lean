import Mathlib
import ContractLinker.Proofs.Container

namespace ContractLinker

namespace VarInt

/-- The forms of a number: one byte, or two, four or eight bytes behind a mark. -/
inductive Spells (value : Nat) : Bytes → Prop
  | one (h : value < 0xFD) : Spells value (Bytes.ofNatLE 1 value)
  | two (h : value < Bytes.bound 2) : Spells value (0xFD :: Bytes.ofNatLE 2 value)
  | four (h : value < Bytes.bound 4) : Spells value (0xFE :: Bytes.ofNatLE 4 value)
  | eight (h : value < Bytes.bound 8) : Spells value (0xFF :: Bytes.ofNatLE 8 value)

variable {value : Nat} {form : Bytes}

theorem Spells.length_encode_lt (h : Spells value form) (hne : form ≠ encode value) :
    (encode value).length < form.length := by
  rw [length_encode]
  unfold encode at hne
  unfold size
  -- A form that is not the one written is wider than the number needs.
  cases h with
  | one hlt =>
    rw [if_pos hlt] at hne
    exact absurd rfl hne
  | two hlt =>
    have hmax : value ≤ 0xFFFF := Nat.le_of_lt_succ hlt
    have hsmall : value < 0xFD := by
      by_contra hlarge
      rw [if_neg hlarge, if_pos hmax] at hne
      exact hne rfl
    simp [hsmall, Bytes.length_ofNatLE]
  | four hlt =>
    have hmax : value ≤ 0xFFFFFFFF := Nat.le_of_lt_succ hlt
    have hsmall : value ≤ 0xFFFF := by
      by_contra hlarge
      rw [if_neg (by omega), if_neg hlarge, if_pos hmax] at hne
      exact hne rfl
    simp only [List.length_cons, Bytes.length_ofNatLE, if_pos hsmall]
    split <;> omega
  | eight hlt =>
    have hsmall : value ≤ 0xFFFFFFFF := by
      by_contra hlarge
      rw [if_neg (by omega), if_neg (by omega), if_neg hlarge] at hne
      exact hne rfl
    simp only [List.length_cons, Bytes.length_ofNatLE, if_pos hsmall]
    split
    · omega
    · split <;> omega

theorem Spells.length_encode_le (h : Spells value form) : (encode value).length ≤ form.length := by
  by_cases heq : form = encode value
  · exact Nat.le_of_eq (congrArg List.length heq.symm)
  · exact Nat.le_of_lt (h.length_encode_lt heq)

end VarInt

/-- Whatever `read` accepts, the bytes that it has taken are a `form` of the value. -/
def Takes {α : Type} (read : Read α) (form : α → Bytes → Prop) : Prop :=
  ∀ c a c', read c = .ok a c' →
    ∃ taken, form a taken ∧ c.rest = taken ++ c'.rest ∧ c'.position = c.position + taken.length

namespace Takes

variable {α β : Type} {m : Read α} {f : α → Read β} {form : α → Bytes → Prop}
  {more : α → β → Bytes → Prop} {result : β → Bytes → Prop}

theorem bind (h : Takes m form) (hf : ∀ a, Takes (f a) (more a))
    (hjoin : ∀ a b taken taken', form a taken → more a b taken' → result b (taken ++ taken')) :
    Takes (m >>= f) result := by
  intro c b c' hrun
  obtain ⟨a, t, hm, hrest⟩ := bind_eq_ok_iff.1 hrun
  obtain ⟨taken, hform, hdata, hposition⟩ := h c a t hm
  obtain ⟨taken', hmore, hdata', hposition'⟩ := hf a t b c' hrest
  refine ⟨taken ++ taken', hjoin a b taken taken' hform hmore, ?_, ?_⟩
  · rw [hdata, hdata', List.append_assoc]
  · rw [hposition', hposition, List.length_append, Nat.add_assoc]

theorem weaken {form' : α → Bytes → Prop} (h : Takes m form)
    (himp : ∀ a taken, form a taken → form' a taken) : Takes m form' := by
  intro c a c' hrun
  obtain ⟨taken, hform, hdata⟩ := h c a c' hrun
  exact ⟨taken, himp a taken hform, hdata⟩

theorem pure {a : α} : Takes (pure a) fun b taken => b = a ∧ taken = [] := by
  intro c b c' hrun
  cases hrun
  exact ⟨[], ⟨rfl, rfl⟩, rfl, rfl⟩

theorem refuse {cause : FormatError} : Takes (Read.refuse cause : Read α) form := nofun

theorem bytes {size : Nat} : Takes (Read.bytes size) fun b taken => taken = b ∧ b.length = size := by
  intro c b c' hrun
  obtain ⟨hdata, hsize, hposition⟩ := Read.bytes_eq_ok_iff.1 hrun
  exact ⟨b, ⟨rfl, hsize⟩, hdata, by rw [hposition, hsize]⟩

theorem natLE {width : Nat} :
    Takes (Read.natLE width) fun n taken => taken = Bytes.ofNatLE width n ∧ n < Bytes.bound width := by
  intro c n c' hrun
  obtain ⟨hdata, hlt, hposition⟩ := Read.natLE_eq_ok_iff.1 hrun
  exact ⟨_, ⟨rfl, hlt⟩, hdata, by rw [hposition, Bytes.length_ofNatLE]⟩

theorem byte : Takes Read.byte fun b taken => taken = [b] := by
  intro c b c' hrun
  obtain ⟨hdata, hposition⟩ := Read.byte_eq_ok_iff.1 hrun
  exact ⟨[b], rfl, hdata, hposition⟩

theorem payload (first : UInt8) :
    Takes (Read.payload first) fun value tail => VarInt.Spells value (first :: tail) := by
  have hword {width : Nat} {mark : UInt8}
      (hspells : ∀ value < Bytes.bound width, VarInt.Spells value (mark :: Bytes.ofNatLE width value)) :
      Takes (Read.natLE width) fun value tail => VarInt.Spells value (mark :: tail) := by
    apply natLE.weaken
    rintro value taken ⟨rfl, hlt⟩
    exact hspells value hlt
  unfold Read.payload
  by_cases htwo : first = 0xFD
  · rw [if_pos htwo, htwo]
    exact hword fun _ => .two
  · rw [if_neg htwo]
    by_cases hfour : first = 0xFE
    · rw [if_pos hfour, hfour]
      exact hword fun _ => .four
    · rw [if_neg hfour]
      by_cases height : first = 0xFF
      · rw [if_pos height, height]
        exact hword fun _ => .eight
      · rw [if_neg height]
        apply pure.weaken
        rintro value tail ⟨rfl, rfl⟩
        -- The three marks are the only first bytes that are no number themselves.
        have hsmall : first.toNat < 0xFD := by
          have hlt := first.toNat_lt
          simp only [← UInt8.toNat_inj, UInt8.reduceToNat] at htwo hfour height
          omega
        have hone := VarInt.Spells.one hsmall
        rwa [Bytes.ofNatLE, Bytes.ofNatLE, UInt8.ofNat_toNat] at hone

theorem varInt {max : Nat} :
    Takes (Read.varInt max) fun value taken => VarInt.Spells value taken ∧ value ≤ max := by
  have hlimit (value : Nat) : Takes (if value > max then Read.refuse (.varIntLimit value max)
      else Pure.pure value) fun b taken => b = value ∧ taken = [] ∧ b ≤ max := by
    by_cases hlarge : value > max
    · rw [if_pos hlarge]
      exact refuse
    · rw [if_neg hlarge]
      apply pure.weaken
      rintro b taken ⟨rfl, rfl⟩
      exact ⟨rfl, rfl, by omega⟩
  have hbehind (first : UInt8) : Takes (Read.payload first >>= fun value =>
      if value > max then Read.refuse (.varIntLimit value max) else Pure.pure value)
      fun b taken => VarInt.Spells b (first :: taken) ∧ b ≤ max := by
    apply (payload first).bind hlimit
    rintro value b taken taken' hspells ⟨rfl, rfl, hmax⟩
    exact ⟨by rwa [List.append_nil], hmax⟩
  rw [Read.varInt_eq]
  apply byte.bind hbehind
  rintro first b taken taken' rfl hand
  exact hand

theorem varBytes {max : Nat} :
    Takes (Read.varBytes max) fun b taken => b.length ≤ max ∧
      ∃ form, VarInt.Spells b.length form ∧ taken = form ++ b := by
  refine varInt.bind (fun _ => bytes) ?_
  rintro size b taken taken' ⟨hspells, hmax⟩ ⟨rfl, rfl⟩
  exact ⟨hmax, taken, hspells, rfl⟩

theorem varText {max : Nat} :
    Takes (Read.varText max) fun text taken => (Utf8.encode text).length ≤ max ∧
      ∃ form, VarInt.Spells (Utf8.encode text).length form ∧ taken = form ++ Utf8.encode text := by
  apply @bind _ _ _ _ _ (fun b text taken => b = Utf8.encode text ∧ taken = []) _ varBytes
  · intro b
    cases hdecode : Utf8.decode b with
    | error cause => exact refuse
    | ok found =>
      apply pure.weaken
      rintro text taken ⟨rfl, rfl⟩
      exact ⟨Utf8.decode_eq_ok_iff.1 hdecode, rfl⟩
  · rintro b text taken taken' ⟨hmax, form, hspells, rfl⟩ ⟨rfl, rfl⟩
    exact ⟨hmax, form, hspells, by rw [List.append_nil]⟩

end Takes

theorem CallFlags.bits_of_ofBits {b : UInt8} {flags : CallFlags} (h : ofBits b = .ok flags) :
    flags.bits = b := by
  have hall : ∀ n : Fin 256, ∀ flags ∈ ofBits? (UInt8.ofNat n), flags.bits = UInt8.ofNat n := by
    decide +kernel
  unfold ofBits at h
  split at h
  · rename_i found hfound
    cases h
    simpa using hall ⟨b.toNat, b.toNat_lt⟩ flags (by simpa using hfound)
  · cases h

namespace Token

/-- The fields with the length of the name in a form of its own. -/
def spelled (t : Token) (form : Bytes) : Bytes :=
  t.hash.bytes ++ (form ++ Utf8.encode t.method) ++ Bytes.ofNatLE 2 t.parameterCount.toNat ++
    [if t.returnsValue then 1 else 0, t.callFlags.bits]

theorem fields_eq_spelled (t : Token) :
    t.fields = t.spelled (VarInt.encode (Utf8.encode t.method).length) := rfl

theorem takes_hash : Takes readHash fun h taken => taken = h.bytes := by
  apply Takes.bytes.bind fun _ => Takes.pure
  rintro b h taken taken' ⟨rfl, hsize⟩ ⟨rfl, rfl⟩
  rw [List.append_nil, Hash160.bytes_ofBytes hsize]

theorem takes_bool : Takes readBool fun b taken => taken = [if b then 1 else 0] := by
  intro c b c' hrun
  obtain ⟨byte, t, hbyte, hvalue⟩ := bind_eq_ok_iff.1 hrun
  obtain ⟨taken, rfl, hdata⟩ := Takes.byte c byte t hbyte
  split at hvalue
  · rename_i hzero
    cases hvalue
    exact ⟨[0], rfl, hzero ▸ hdata⟩
  · split at hvalue
    · rename_i hone
      cases hvalue
      exact ⟨[1], rfl, hone ▸ hdata⟩
    · cases hvalue

theorem takes_token : Takes read fun t taken => t.validate = .ok () ∧
    ∃ form, VarInt.Spells (Utf8.encode t.method).length form ∧ taken = t.spelled form := by
  intro c t c' hrun
  unfold read at hrun
  obtain ⟨hash, c₁, hhash, h₁⟩ := bind_eq_ok_iff.1 hrun
  obtain ⟨method, c₂, hmethod, h₂⟩ := bind_eq_ok_iff.1 h₁
  obtain ⟨count, c₃, hcount, h₃⟩ := bind_eq_ok_iff.1 h₂
  obtain ⟨returns, c₄, hreturns, h₄⟩ := bind_eq_ok_iff.1 h₃
  obtain ⟨flagBits, c₅, hflagBits, h₅⟩ := bind_eq_ok_iff.1 h₄
  obtain ⟨_, rfl, hdata₁, hpos₁⟩ := takes_hash c hash c₁ hhash
  obtain ⟨_, ⟨-, form, hspells, rfl⟩, hdata₂, hpos₂⟩ := Takes.varText c₁ method c₂ hmethod
  obtain ⟨_, ⟨rfl, hlt⟩, hdata₃, hpos₃⟩ := Takes.natLE c₂ count c₃ hcount
  obtain ⟨_, rfl, hdata₄, hpos₄⟩ := takes_bool c₃ returns c₄ hreturns
  obtain ⟨_, rfl, hdata₅, hpos₅⟩ := Takes.byte c₄ flagBits c₅ hflagBits
  have hstored : (UInt16.ofNat count).toNat = count := UInt16.toNat_ofNat_of_lt hlt
  cases hvalid : validate ⟨hash, method, UInt16.ofNat count, returns, {}⟩ with
  | error e =>
    simp only [hvalid] at h₅
    cases h₅
  | ok =>
    cases hflags : CallFlags.ofBits flagBits with
    | error e =>
      simp only [hvalid, hflags] at h₅
      cases h₅
    | ok flags =>
      simp only [hvalid, hflags] at h₅
      cases h₅
      refine ⟨_, ⟨hvalid, form, hspells, rfl⟩, ?_, ?_⟩
      · rw [hdata₁, hdata₂, hdata₃, hdata₄, hdata₅]
        simp only [spelled, hstored, CallFlags.bits_of_ofBits hflags, List.append_assoc,
          List.cons_append, List.nil_append]
      · simp only [spelled, List.length_append, List.length_cons, List.length_nil, hstored] at *
        omega

end Token

namespace Executable

theorem takes_tokens (n : Nat) : Takes (readTokens n) fun tokens taken =>
    tokens.length = n ∧ (∀ t ∈ tokens, t.validate = .ok ()) ∧
      ∃ forms, List.Forall₂ (fun t form => VarInt.Spells (Utf8.encode t.method).length form)
        tokens forms ∧ taken = (List.zipWith Token.spelled tokens forms).flatten := by
  induction n with
  | zero =>
    apply Takes.pure.weaken
    rintro tokens taken ⟨rfl, rfl⟩
    exact ⟨rfl, nofun, [], .nil, rfl⟩
  | succ n ih =>
    -- The tokens behind the first one, each with the form of its length.
    have hrest (t : Token) : Takes (readTokens n >>= fun more => Pure.pure (t :: more))
        fun tokens taken => ∃ more, tokens = t :: more ∧ more.length = n ∧
          (∀ t ∈ more, t.validate = .ok ()) ∧
          ∃ forms, List.Forall₂ (fun t form => VarInt.Spells (Utf8.encode t.method).length form)
            more forms ∧ taken = (List.zipWith Token.spelled more forms).flatten := by
      apply ih.bind fun _ => Takes.pure
      rintro more tokens taken taken' hmore ⟨rfl, rfl⟩
      rw [List.append_nil]
      exact ⟨more, rfl, hmore⟩
    apply Token.takes_token.bind hrest
    rintro t tokens taken taken' ⟨hvalid, form, hspells, rfl⟩
      ⟨more, rfl, hlength, hall, forms, hforms, rfl⟩
    refine ⟨congrArg Nat.succ hlength, List.forall_mem_cons.2 ⟨hvalid, hall⟩, form :: forms, ?_, rfl⟩
    exact .cons hspells hforms

theorem takes_compiler : Takes readCompiler fun compiler taken =>
    (Utf8.encode compiler).length ≤ compilerField ∧
      taken = Bytes.resize compilerField (Utf8.encode compiler) := by
  intro c compiler c' hrun
  obtain ⟨raw, t, hraw, hname⟩ := bind_eq_ok_iff.1 hrun
  obtain ⟨_, ⟨htaken, hsize⟩, hdata⟩ := Takes.bytes c raw t hraw
  rw [htaken] at hdata
  split at hname
  · cases hname
  · rename_i hpadding
    cases hdecode : Utf8.decode (raw.takeWhile (· ≠ 0)) with
    | error cause =>
      simp only [hdecode] at hname
      cases hname
    | ok text =>
      simp only [hdecode] at hname
      cases hname
      have htext : Utf8.encode compiler = raw.takeWhile (· ≠ 0) :=
        (Utf8.decode_eq_ok_iff.1 hdecode).symm
      have hsplit : raw.takeWhile (· ≠ 0) ++ raw.dropWhile (· ≠ 0) = raw :=
        List.takeWhile_append_dropWhile
      have hlength := congrArg List.length hsplit
      rw [List.length_append, hsize] at hlength
      -- Behind the name there are only zeros, as many as are missing to the size of the field.
      have hzeros : raw.dropWhile (· ≠ 0) =
          List.replicate (compilerField - (raw.takeWhile (· ≠ 0)).length) 0 := by
        apply List.eq_replicate_iff.2
        refine ⟨by omega, fun b hb => ?_⟩
        simpa using List.any_eq_false.1 (Bool.eq_false_iff.2 hpadding) b hb
      refine ⟨raw, ⟨by rw [htext]; omega, ?_⟩, hdata⟩
      rw [htext, Bytes.resize, List.take_of_length_le (by omega), ← hzeros, hsplit]

/-- How the numbers of a container are written: the lengths of the source, of the name of each token
and of the script, and how many tokens there are. -/
structure Spelling where
  source : Bytes
  count : Bytes
  names : List Bytes
  script : Bytes

namespace Spelling

structure Fits (w : Spelling) (x : Executable) : Prop where
  source : VarInt.Spells (Utf8.encode x.source).length w.source
  count : VarInt.Spells x.tokens.length w.count
  names : List.Forall₂ (fun t form => VarInt.Spells (Utf8.encode t.method).length form)
    x.tokens w.names
  script : VarInt.Spells x.script.length w.script

def shortest (x : Executable) : Spelling where
  source := VarInt.encode (Utf8.encode x.source).length
  count := VarInt.encode x.tokens.length
  names := x.tokens.map fun t => VarInt.encode (Utf8.encode t.method).length
  script := VarInt.encode x.script.length

end Spelling

/-- Everything but the checksum, with the numbers written in a given way. -/
def spelled (x : Executable) (w : Spelling) : Bytes :=
  Bytes.ofNatLE 4 magic.toNat ++ (Bytes.resize compilerField (Utf8.encode x.compiler) ++
    (w.source ++ Utf8.encode x.source ++ ([0] ++ (w.count ++
      ((List.zipWith Token.spelled x.tokens w.names).flatten ++ ([0, 0] ++
        (w.script ++ x.script)))))))

theorem takes_body : Takes readBody fun parts taken =>
    ∀ sum, let x : Executable := ⟨parts.1, parts.2.1, parts.2.2.1, parts.2.2.2, sum⟩
    checkSizes (Utf8.encode x.compiler) (Utf8.encode x.source) x.tokens.length x.script = .ok () ∧
      (∀ t ∈ x.tokens, t.validate = .ok ()) ∧
      ∃ w : Spelling, w.Fits x ∧ taken = x.spelled w := by
  rintro c ⟨compiler, source, tokens, script⟩ c' hrun
  obtain ⟨c₁, c₂, c₃, c₄, c₅, c₆, c₇, count, hmagic, hcompiler, hsource, hzero, hcount, htokens,
    hfield, hscript, hne⟩ := readBody_ok hrun
  obtain ⟨_, ⟨rfl, -⟩, hdata₁, hpos₁⟩ := Takes.natLE c _ c₁ hmagic
  obtain ⟨_, ⟨hname, rfl⟩, hdata₂, hpos₂⟩ := takes_compiler c₁ compiler c₂ hcompiler
  obtain ⟨_, ⟨htext, form, hform, rfl⟩, hdata₃, hpos₃⟩ := Takes.varText c₂ source c₃ hsource
  obtain ⟨_, rfl, hdata₄, hpos₄⟩ := Takes.byte c₃ 0 c₄ hzero
  obtain ⟨form', ⟨hform', hmany⟩, hdata₅, hpos₅⟩ := Takes.varInt c₄ count c₅ hcount
  obtain ⟨_, ⟨rfl, hvalid, names, hnames, rfl⟩, hdata₆, hpos₆⟩ := takes_tokens count c₅ tokens c₆ htokens
  obtain ⟨_, ⟨rfl, -⟩, hdata₇, hpos₇⟩ := Takes.natLE c₆ 0 c₇ hfield
  obtain ⟨_, ⟨hlong, form'', hform'', rfl⟩, hdata₈, hpos₈⟩ := Takes.varBytes c₇ script c' hscript
  refine ⟨spelled ⟨compiler, source, tokens, script, 0⟩ ⟨form, form', names, form''⟩, ?_, ?_, ?_⟩
  · intro sum
    refine ⟨checkSizes_eq_ok_iff.2 ⟨hname, htext, hmany, hne, hlong⟩, hvalid, ?_⟩
    exact ⟨⟨form, form', names, form''⟩, ⟨hform, hform', hnames, hform''⟩, rfl⟩
  · rw [hdata₁, hdata₂, hdata₃, hdata₄, hdata₅, hdata₆, hdata₇, hdata₈]
    simp only [spelled, Bytes.ofNatLE, List.append_assoc, List.cons_append, List.nil_append]
    rfl
  · simp only [spelled, List.length_append, Bytes.length_ofNatLE, List.length_cons,
      List.length_nil] at *
    omega

theorem mapM_encode {tokens : List Token} (h : ∀ t ∈ tokens, t.validate = .ok ()) :
    tokens.mapM Token.encode = .ok (tokens.map Token.fields) := by
  induction tokens with
  | nil => rfl
  | cons t rest ih =>
    rw [List.forall_mem_cons] at h
    rw [List.mapM_cons, Token.encode_eq_ok_iff.2 ⟨h.1, rfl⟩, ih h.2]
    rfl

theorem body_of_valid {x : Executable} (hsizes : checkSizes (Utf8.encode x.compiler)
      (Utf8.encode x.source) x.tokens.length x.script = .ok ())
    (hvalid : ∀ t ∈ x.tokens, t.validate = .ok ()) : x.body = .ok (x.spelled (.shortest x)) := by
  have htokens : List.zipWith Token.spelled x.tokens (Spelling.shortest x).names =
      x.tokens.map Token.fields := by
    simp only [Spelling.shortest, List.zipWith_map_right, List.zipWith_self, ← Token.fields_eq_spelled]
  simp only [body, hsizes, mapM_encode hvalid, spelled, htokens]
  simp only [Spelling.shortest, VarInt.encodeBytes, bind, Except.bind, pure, Except.pure,
    List.append_assoc]

theorem length_names {tokens : List Token} {names : List Bytes}
    (h : List.Forall₂ (fun t form => VarInt.Spells (Utf8.encode t.method).length form) tokens names) :
    let least := tokens.map fun t => VarInt.encode (Utf8.encode t.method).length
    least.flatten.length ≤ names.flatten.length ∧
      (names ≠ least → least.flatten.length < names.flatten.length) := by
  induction h with
  | nil => exact ⟨Nat.le_refl _, fun hne => absurd rfl hne⟩
  | @cons t form tokens names hform _ ih =>
    have hle := hform.length_encode_le
    simp only [List.map_cons, List.flatten_cons, List.length_append]
    refine ⟨by omega, fun hne => ?_⟩
    by_cases hhead : form = VarInt.encode (Utf8.encode t.method).length
    · have htail := ih.2 fun heq => hne (by rw [hhead, heq])
      omega
    · have hlt := hform.length_encode_lt hhead
      omega

theorem length_zipWith_spelled {tokens : List Token} {names : List Bytes}
    (h : names.length = tokens.length) :
    (List.zipWith Token.spelled tokens names).flatten.length =
      (tokens.map (Token.spelled · [])).flatten.length + names.flatten.length := by
  induction tokens generalizing names with
  | nil =>
    rw [List.length_eq_zero_iff.1 h]
    rfl
  | cons t tokens ih =>
    obtain ⟨form, names, rfl⟩ := List.exists_cons_of_length_eq_add_one h
    have hrest := ih (Nat.succ.inj h)
    simp only [List.zipWith_cons_cons, List.map_cons, List.flatten_cons, List.length_append,
      Token.spelled, List.length_nil] at hrest ⊢
    omega

theorem length_spelled_lt {x : Executable} {w : Spelling} (h : w.Fits x) (hne : w ≠ .shortest x) :
    (x.spelled (.shortest x)).length < (x.spelled w).length := by
  have hsource := h.source.length_encode_le
  have hcount := h.count.length_encode_le
  have hscript := h.script.length_encode_le
  obtain ⟨hnames, hnames_lt⟩ := length_names h.names
  have htokens := length_zipWith_spelled h.names.length_eq.symm
  have hleast : (Spelling.shortest x).names.length = x.tokens.length := List.length_map _
  have htokens' := length_zipWith_spelled hleast
  -- No part is shorter than in the shortest spelling, and one that differs is longer.
  have hlonger : (Spelling.shortest x).source.length < w.source.length ∨
      (Spelling.shortest x).count.length < w.count.length ∨
      (Spelling.shortest x).names.flatten.length < w.names.flatten.length ∨
      (Spelling.shortest x).script.length < w.script.length := by
    by_contra hall
    simp only [not_or] at hall
    obtain ⟨hsource', hcount', hnames', hscript'⟩ := hall
    apply hne
    have h₁ : w.source = (Spelling.shortest x).source := by
      by_contra hdiff
      exact hsource' (h.source.length_encode_lt hdiff)
    have h₂ : w.count = (Spelling.shortest x).count := by
      by_contra hdiff
      exact hcount' (h.count.length_encode_lt hdiff)
    have h₃ : w.names = (Spelling.shortest x).names := by
      by_contra hdiff
      exact hnames' (hnames_lt hdiff)
    have h₄ : w.script = (Spelling.shortest x).script := by
      by_contra hdiff
      exact hscript' (h.script.length_encode_lt hdiff)
    cases w
    simp_all [Spelling.shortest]
  simp only [spelled, List.length_append, htokens, htokens']
  simp only [Spelling.shortest] at *
  omega

theorem ofBytes_ok {data : Bytes} {x : Executable} (h : ofBytes data = .ok x) :
    ∃ w : Spelling, w.Fits x ∧ data = x.spelled w ++ Bytes.ofNatLE 4 x.checksum.toNat ∧
      x.checksum = checksumOf (x.spelled w) ∧ x.body = .ok (x.spelled (.shortest x)) ∧
      '\x00' ∉ x.compiler.toList := by
  obtain ⟨c, hread⟩ := ofBytes_eq_ok_iff.1 h
  obtain ⟨t, hparts, hstored, hrest, hsum⟩ := readFrom_eq_ok_iff.1 hread
  obtain ⟨_, _, _, _, _, _, _, _, -, hcompiler, -⟩ := readBody_ok hparts
  obtain ⟨taken, hbody, hdata, hposition⟩ := takes_body _ _ _ hparts
  obtain ⟨hsizes, hvalid, w, hfits, rfl⟩ := hbody x.checksum
  obtain ⟨_, ⟨rfl, -⟩, hdata', -⟩ := Takes.natLE _ _ _ hstored
  rw [hdata', hrest, List.append_nil] at hdata
  change data = _ at hdata
  rw [hposition, hdata, Cursor.start, Nat.zero_add, List.take_left] at hsum
  exact ⟨w, hfits, hdata, hsum, body_of_valid hsizes hvalid, nul_not_mem_of_readCompiler hcompiler⟩

/-- Saving what was loaded gives the same bytes exactly when every number in them stood in its
shortest form. Then the stored checksum is that of the content, and the saved file loads again; a
longer form anywhere makes the saved file shorter. -/
theorem toBytes_ofBytes {data : Bytes} {x : Executable} (h : ofBytes data = .ok x) :
    ∃ (w : Spelling) (saved : Bytes), w.Fits x ∧
      data = x.spelled w ++ Bytes.ofNatLE 4 x.checksum.toNat ∧ x.toBytes = .ok saved ∧
      (saved = data ↔ w = .shortest x) ∧
      (w = .shortest x → x.computeChecksum = .ok x.checksum ∧ ofBytes saved = .ok x) ∧
      (w ≠ .shortest x → saved.length < data.length) := by
  obtain ⟨w, hfits, hdata, hsum, hbody, -⟩ := ofBytes_ok h
  have hsave := toBytes_eq_ok_iff.2 ⟨_, hbody, rfl⟩
  have hsame (hw : w = .shortest x) :
      x.spelled (.shortest x) ++ Bytes.ofNatLE 4 x.checksum.toNat = data := by rw [hdata, hw]
  have hshorter (hw : w ≠ .shortest x) :
      (x.spelled (.shortest x) ++ Bytes.ofNatLE 4 x.checksum.toNat).length < data.length := by
    have hlt := length_spelled_lt hfits hw
    rw [hdata, List.length_append, List.length_append]
    omega
  refine ⟨w, _, hfits, hdata, hsave, ⟨fun heq => ?_, hsame⟩, fun hw => ⟨?_, ?_⟩, hshorter⟩
  · by_contra hw
    exact Nat.lt_irrefl _ (heq ▸ hshorter hw)
  · rw [computeChecksum_of_body hbody, ← hw, ← hsum]
  · rw [hsame hw, h]

theorem ofBytes_of_readBody {body : Bytes} {compiler source : String} {tokens : List Token}
    {script : Bytes} (h : ∀ tail, readBody ⟨0, body ++ tail⟩ =
      .ok (compiler, source, tokens, script) ⟨body.length, tail⟩) :
    ofBytes (body ++ Bytes.ofNatLE 4 (checksumOf body).toNat) =
      .ok ⟨compiler, source, tokens, script, checksumOf body⟩ := by
  have hstored : Read.natLE 4 ⟨body.length, Bytes.ofNatLE 4 (checksumOf body).toNat⟩ =
      .ok (checksumOf body).toNat ⟨body.length + 4, []⟩ :=
    Read.natLE_eq_ok_iff.2 ⟨(List.append_nil _).symm, (checksumOf body).toNat_lt, rfl⟩
  refine ofBytes_eq_ok_iff.2 ⟨_, readFrom_eq_ok_iff.2 ⟨_, h _, hstored, rfl, ?_⟩⟩
  rw [List.take_left]

theorem toBytes_ofBytes_token :
    ∃ (data : Bytes) (x : Executable), ofBytes data = .ok x ∧ x.source = "s" ∧
      x.tokens = [⟨⟨List.replicate 20 7, rfl⟩, "f", 2, true, { readStates := true }⟩] ∧
      x.toBytes = .ok data ∧ x.computeChecksum = .ok x.checksum := by
  have hread (tail : Bytes) : readBody ⟨0, ([0x4E, 0x45, 0x46, 0x33, 0x61, 0x62] ++
      List.replicate 62 0 ++ [1, 0x73, 0, 1] ++ List.replicate 20 7 ++
      [1, 0x66, 2, 0, 1, 1, 0, 0, 1, 0x40]) ++ tail⟩ = .ok ("ab", "s",
        [⟨⟨List.replicate 20 7, rfl⟩, "f", 2, true, { readStates := true }⟩], [0x40]) ⟨102, tail⟩ := by
    cbv
  have hbody (sum : UInt32) : Executable.body ⟨"ab", "s",
      [⟨⟨List.replicate 20 7, rfl⟩, "f", 2, true, { readStates := true }⟩], [0x40], sum⟩ =
      .ok ([0x4E, 0x45, 0x46, 0x33, 0x61, 0x62] ++ List.replicate 62 0 ++ [1, 0x73, 0, 1] ++
        List.replicate 20 7 ++ [1, 0x66, 2, 0, 1, 1, 0, 0, 1, 0x40]) := by cbv
  have hload := ofBytes_of_readBody hread
  obtain ⟨w, saved, -, -, hsave, hsame, hshortest, -⟩ := toBytes_ofBytes hload
  obtain ⟨_, hbody', rfl⟩ := toBytes_eq_ok_iff.1 hsave
  rw [hbody] at hbody'
  cases hbody'
  exact ⟨_, _, hload, rfl, rfl, hsave, (hshortest (hsame.1 rfl)).1⟩

/-- The body of a file without source that has the length of it in three bytes. -/
def longForm : Bytes :=
  [0x4E, 0x45, 0x46, 0x33, 0x61, 0x62] ++ List.replicate 62 0 ++ [0xFD, 0, 0, 0, 0, 0, 0, 1, 0x40]

theorem toBytes_ne_of_long_form :
    ∃ x, ofBytes (longForm ++ Bytes.ofNatLE 4 (checksumOf longForm).toNat) = .ok x ∧
      x.toBytes ≠ .ok (longForm ++ Bytes.ofNatLE 4 (checksumOf longForm).toNat) := by
  have hread (tail : Bytes) : readBody ⟨0, longForm ++ tail⟩ =
      .ok ("ab", "", [], [0x40]) ⟨longForm.length, tail⟩ := by cbv
  have hbody (sum : UInt32) : Executable.body ⟨"ab", "", [], [0x40], sum⟩ =
      .ok ([0x4E, 0x45, 0x46, 0x33, 0x61, 0x62] ++ List.replicate 62 0 ++
        [0, 0, 0, 0, 0, 1, 0x40]) := by cbv
  refine ⟨_, ofBytes_of_readBody hread, fun hsave => ?_⟩
  obtain ⟨_, hbody', heq⟩ := toBytes_eq_ok_iff.1 hsave
  rw [hbody] at hbody'
  cases hbody'
  have hlength := congrArg List.length heq
  simp [longForm, Bytes.length_ofNatLE] at hlength

end Executable
end ContractLinker
