import ContractLinker.Proofs.JsonDocuments

namespace ContractLinker.Json.Decode

variable {α : Type} {depth : Nat}

/-- The value `v`, where it stands at that depth, is read as `a`. -/
def Gives (item : Decode α) (depth : Nat) (v : Json) (a : α) : Prop := item depth (docOf v) = .ok a

theorem docsOf_eq_map (items : List Json) : docsOf items = items.map docOf := by
  induction items with
  | nil => rfl
  | cons item items ih => rw [docsOf, ih, List.map_cons]

theorem gives_string (depth : Nat) (s : String) : Gives string depth (.string s) s := rfl

theorem gives_bool (depth : Nat) (b : Bool) : Gives bool depth (.bool b) b := rfl

theorem gives_nat {max n : Nat} (h : n ≤ max) : Gives (nat max) depth (.number (.int n)) n := by
  have hrange : 0 ≤ (n : Int) ∧ (n : Int) ≤ max := ⟨n.cast_nonneg, Int.ofNat_le.2 h⟩
  rw [Gives, docOf, nat, Doc.asNat, if_pos hrange, Int.toNat_natCast]

theorem gives_oneOf {values : String → Option α} {name : String} {a : α}
    (h : values name = some a) : Gives (oneOf values) depth (.string name) a := by
  change named values name = .ok a
  rw [named, h]

theorem gives_members {members : List (String × Json)} (hdepth : depth + 1 < 128)
    (hsorted : Sorted members) (htidy : TidyMembers (depth + 1) members) :
    Gives Decode.members depth (.object members) members := by
  rw [Gives, docOf, Decode.members, Doc.enter_eq_ok_iff.2 hdepth]
  exact Doc.keepMembers_membersOf [] members htidy hsorted

theorem Gives.optional {item : Decode α} {members : List (String × Json)} {a : α}
    (h : Gives item depth (.object members) a) :
    Gives (optional item) depth (.object members) (some a) := by
  change some <$> item depth (docOf (.object members)) = _
  rw [h]
  rfl

theorem Gives.list {item : Decode α} {write : α → Json} {as : List α} (hdepth : depth + 1 < 128)
    (h : ∀ a ∈ as, Gives item (depth + 1) (write a) a) :
    Gives (list item) depth (.array (as.map write)) as := by
  have hitems : (docsOf (as.map write)).mapM (item (depth + 1)) = .ok as := by
    rw [docsOf_eq_map, List.map_map, Except.mapM_eq_ok_iff, List.forall₂_map_left_iff,
      List.forall₂_same]
    exact h
  rw [Gives, docOf, Decode.list, Doc.enter_eq_ok_iff.2 hdepth]
  simp only [bind, Except.bind, hitems]
  rfl

/-- The members, one for each field and in the same order, turn the record `a` into `b`. -/
inductive Fills (depth : Nat) : α → List (Field α) → List (String × Json) → α → Prop
  | nil {a : α} : Fills depth a [] [] a
  | field {β : Type} {name : String} {item : Decode β} {put : α → β → α} {v : Json} {x : β}
      {a b : α} {fields : List (Field α)} {members : List (String × Json)}
      (hread : Gives item depth v x) (hrest : Fills depth (put a x) fields members b) :
      Fills depth a (field name item put :: fields) ((name, v) :: members) b

theorem readMembers_of_fills (done : List (Field α)) {fields : List (Field α)}
    {members : List (String × Json)} {seen : List String} {a b : α}
    (h : Fills depth a fields members b)
    (hnames : ((done ++ fields).map (·.name)).Nodup)
    (hseen : ∀ name, name ∈ seen ↔ name ∈ done.map (·.name)) :
    readMembers (done ++ fields) depth none seen a (membersOf members) = .ok b := by
  -- The fields in `done` have been read, and nothing else has been seen.
  induction h generalizing done seen with
  | nil =>
    have hall : (done ++ []).all (fun f => !f.required || seen.contains f.name) = true := by
      rw [List.append_nil, List.all_eq_true]
      intro f hf
      rw [List.contains_iff_mem.2 ((hseen f.name).2 (List.mem_map_of_mem hf)), Bool.or_true]
    rw [membersOf, readMembers, if_pos hall]
    rfl
  | @field β name item put v x a b fields members hread hrest ih =>
    have hnew : name ∉ done.map (·.name) := by
      rw [List.map_append, List.nodup_append] at hnames
      intro hmem
      exact hnames.2.2 name hmem name List.mem_cons_self rfl
    have hfind : (done ++ field name item put :: fields).find? (·.name = name) =
        some (field name item put) := by
      rw [List.find?_append, List.find?_eq_none.2]
      · simp [field]
      · intro f hf heq
        exact hnew (List.mem_map.2 ⟨f, hf, of_decide_eq_true heq⟩)
    have hfresh : seen.contains name = false := by
      rw [← Bool.not_eq_true, List.contains_iff_mem, hseen]
      exact hnew
    have hput : (field name item put).read depth (docOf v) = .ok fun a => put a x := by
      change (fun x a => put a x) <$> item depth (docOf v) = _
      rw [hread]
      rfl
    rw [List.append_cons] at hnames
    have hseen' : ∀ other, other ∈ name :: seen ↔
        other ∈ (done ++ [field name item put]).map (·.name) := by
      intro other
      rw [List.mem_cons, hseen, List.map_append, List.mem_append, List.map_singleton,
        List.mem_singleton, or_comm]
      rfl
    rw [membersOf, readMembers]
    simp only [bind, Except.bind, hfind, hfresh, hput]
    rw [List.append_cons]
    exact ih _ hnames hseen'

/-- A record is read back from an object that holds its fields in order. -/
theorem Fills.gives {blank a : α} {fields : List (Field α)} {members : List (String × Json)}
    (hdepth : depth + 1 < 128) (hnames : (fields.map (·.name)).Nodup)
    (h : Fills (depth + 1) blank fields members a) :
    Gives (record blank fields) depth (.object members) a := by
  rw [Gives, docOf, record, Doc.enter_eq_ok_iff.2 hdepth]
  exact readMembers_of_fills [] h hnames (by simp)

/-- No value for this field, read inside of `doc`, takes the property `P` away from a record. -/
def Field.Keeps (P : α → Prop) (depth : Nat) (doc : Doc) (f : Field α) : Prop :=
  ∀ inner put a, inner.numbers ⊆ doc.numbers → f.read depth inner = .ok put → P a → P (put a)

section Keeps

variable {P : α → Prop} {doc : Doc}

theorem keeps_field {β : Type} {name : String} {item : Decode β} {put : α → β → α}
    (h : ∀ inner x a, inner.numbers ⊆ doc.numbers → item depth inner = .ok x → P a → P (put a x)) :
    (field name item put).Keeps P depth doc := by
  intro inner write a hinner hread ha
  change (fun x a => put a x) <$> item depth inner = .ok write at hread
  cases hitem : item depth inner with
  | error e =>
    rw [hitem] at hread
    cases hread
  | ok x =>
    rw [hitem] at hread
    cases hread
    exact h inner x a hinner hitem ha

theorem keeps_optionalField {β : Type} {name : String} {item : Decode β} {put : α → β → α}
    (h : ∀ inner x a, inner.numbers ⊆ doc.numbers → item depth inner = .ok x → P a → P (put a x)) :
    (optionalField name item put).Keeps P depth doc := by
  change (field name item put).Keeps P depth doc
  exact keeps_field h

theorem readMembers_keeps {fields : List (Field α)} {cut : Option Fault} {seen : List String}
    {members : List (Option (Except Fault String) × Doc)} {a b : α}
    (hkeeps : ∀ f ∈ fields, f.Keeps P depth doc)
    (hmembers : ∀ m ∈ members, m.2.numbers ⊆ doc.numbers) (ha : P a)
    (h : readMembers fields depth cut seen a members = .ok b) : P b := by
  -- The property is carried from member to member; those that are unknown change nothing.
  induction members generalizing seen a with
  | nil =>
    obtain ⟨-, -, hall⟩ := Except.bind_eq_ok_iff.1 h
    split at hall
    · cases hall
      exact ha
    · cases hall
  | cons m members ih =>
    obtain ⟨hm, hmore⟩ := List.forall_mem_cons.1 hmembers
    obtain ⟨_ | key, inner⟩ := m
    · cases h
    · obtain ⟨name, -, hrest⟩ := Except.bind_eq_ok_iff.1 h
      split at hrest
      · obtain ⟨-, -, hrest⟩ := Except.bind_eq_ok_iff.1 hrest
        exact ih hmore ha hrest
      · rename_i f hfind
        split at hrest
        · cases hrest
        · obtain ⟨put, hput, hrest⟩ := Except.bind_eq_ok_iff.1 hrest
          have hf : f ∈ fields := List.mem_of_find?_eq_some hfind
          exact ih hmore (hkeeps f hf inner put a hm hput ha) hrest

theorem readItems_keeps {fields : List (Field α)} {cut : Option Fault} {items : List Doc} {a b : α}
    (hkeeps : ∀ f ∈ fields, f.Keeps P depth doc)
    (hitems : ∀ item ∈ items, item.numbers ⊆ doc.numbers) (ha : P a)
    (h : readItems depth cut a fields items = .ok b) : P b := by
  induction fields generalizing items a with
  | nil =>
    cases items with
    | nil =>
      obtain ⟨-, -, hpure⟩ := Except.bind_eq_ok_iff.1 h
      cases hpure
      exact ha
    | cons item items => cases h
  | cons f fields ih =>
    obtain ⟨hf, hkeeps⟩ := List.forall_mem_cons.1 hkeeps
    cases items with
    | nil =>
      obtain ⟨-, -, hall⟩ := Except.bind_eq_ok_iff.1 h
      split at hall
      · cases hall
        exact ha
      · cases hall
    | cons item items =>
      obtain ⟨hitem, hitems⟩ := List.forall_mem_cons.1 hitems
      obtain ⟨put, hput, hrest⟩ := Except.bind_eq_ok_iff.1 h
      exact ih hkeeps hitems (hf item put a hitem hput ha) hrest

/-- A record has every property that a blank one has and all fields keep. -/
theorem record_keeps {blank a : α} {fields : List (Field α)} (hblank : P blank)
    (hkeeps : ∀ f ∈ fields, f.Keeps P (depth + 1) doc)
    (h : record blank fields depth doc = .ok a) : P a := by
  unfold record at h
  split at h
  · obtain ⟨-, -, hread⟩ := Except.bind_eq_ok_iff.1 h
    refine readMembers_keeps hkeeps ?_ hblank hread
    exact fun m hm n hn => Doc.mem_memberNumbers.2 ⟨m, hm, hn⟩
  · obtain ⟨-, -, hread⟩ := Except.bind_eq_ok_iff.1 h
    refine readItems_keeps hkeeps ?_ hblank hread
    exact fun item hitem n hn => Doc.mem_itemNumbers.2 ⟨item, hitem, hn⟩
  · cases h

end Keeps

theorem nat_ok {max n : Nat} {doc : Doc} (h : nat max depth doc = .ok n) : n ≤ max := by
  unfold nat Doc.asNat at h
  split at h
  · split at h
    · cases h
      omega
    · cases h
  · cases h

theorem list_ok {item : Decode α} {doc : Doc} {as : List α} (h : list item depth doc = .ok as) :
    ∀ a ∈ as, ∃ inner, item (depth + 1) inner = .ok a := by
  unfold list at h
  split at h
  · obtain ⟨-, -, hmap⟩ := Except.bind_eq_ok_iff.1 h
    obtain ⟨values, hvalues, hend⟩ := Except.bind_eq_ok_iff.1 hmap
    obtain ⟨-, -, hpure⟩ := Except.bind_eq_ok_iff.1 hend
    cases hpure
    intro a ha
    obtain ⟨i, hi⟩ := List.getElem?_of_mem ha
    obtain ⟨inner, -, hinner⟩ := forall₂_getElem? (Except.mapM_eq_ok_iff.1 hvalues).flip hi
    exact ⟨inner, hinner⟩
  · cases h

theorem members_ok {doc : Doc} {kept : List (String × Json)}
    (h : Decode.members depth doc = .ok kept) : Sorted kept ∧ TidyMembers (depth + 1) kept ∧
      memberNumbers kept ⊆ doc.numbers := by
  unfold Decode.members at h
  split at h
  · obtain ⟨-, -, hkeep⟩ := Except.bind_eq_ok_iff.1 h
    obtain ⟨hsorted, hkept⟩ := Doc.keepMembers_ok _ _ _ hkeep .nil
    refine ⟨hsorted, tidyMembers_iff.2 fun m hm => ?_, fun n hn => ?_⟩
    · exact ((hkept m hm).resolve_left List.not_mem_nil).1
    · obtain ⟨m, hm, hn⟩ := mem_memberNumbers.1 hn
      exact ((hkept m hm).resolve_left List.not_mem_nil).2 n hn
  · cases h

theorem optional_ok {item : Decode α} {doc : Doc} {x : Option α}
    (h : optional item depth doc = .ok x) :
    x = none ∨ ∃ a, x = some a ∧ item depth doc = .ok a := by
  unfold optional at h
  split at h
  · cases h
    exact .inl rfl
  · cases hitem : item depth doc with
    | error e =>
      rw [hitem] at h
      cases h
    | ok a =>
      rw [hitem] at h
      cases h
      exact .inr ⟨a, rfl, rfl⟩

theorem ofText_ok {item : Decode α} {text : String} {a : α} (h : item.ofText text = .ok a) :
    item 0 (Doc.parse text).root = .ok a := by
  obtain ⟨x, hx, hrest⟩ := Except.bind_eq_ok_iff.1 h
  split at hrest
  · cases hrest
  · cases hrest
    exact hx

end ContractLinker.Json.Decode
