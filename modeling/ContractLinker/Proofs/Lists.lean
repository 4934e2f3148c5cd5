import Mathlib.Data.Finset.Card
import Mathlib.Data.List.Forall2

namespace ContractLinker

section Positions

variable {α β : Type}

theorem getElem?_concat_iff {l : List α} {b x : α} {i : Nat} :
    (l ++ [b])[i]? = some x ↔ l[i]? = some x ∨ i = l.length ∧ x = b := by
  rcases Nat.lt_trichotomy i l.length with hlt | rfl | hgt
  · rw [List.getElem?_append_left hlt]
    exact ⟨.inl, fun h => h.resolve_right fun hand => by omega⟩
  · simp [eq_comm]
  · rw [List.getElem?_eq_none (by simp; omega), List.getElem?_eq_none (by omega)]
    simp
    omega

theorem getElem?_of_prefix {l l' : List α} (h : l <+: l') {i : Nat} {a : α}
    (ha : l[i]? = some a) : l'[i]? = some a := by
  obtain ⟨more, rfl⟩ := h
  rw [List.getElem?_append_left (List.getElem?_eq_some_iff.1 ha).1, ha]

theorem exists_of_map_eq_map_some {f : α → Option β} {as : List α} {bs : List β}
    (h : as.map f = bs.map some) {i : Nat} {a : α} (ha : as[i]? = some a) :
    ∃ b, f a = some b ∧ bs[i]? = some b := by
  have hi := congrArg (fun l : List (Option β) => l[i]?) h
  simp only [List.getElem?_map, ha, Option.map_some] at hi
  obtain ⟨b, hb, heq⟩ := Option.map_eq_some_iff.1 hi.symm
  exact ⟨b, heq.symm, hb⟩

theorem foldl_keeps {γ : Type} {f : β → α → β} (g : β → γ) (h : ∀ b a, g (f b a) = g b)
    (l : List α) (b : β) : g (l.foldl f b) = g b := by
  induction l generalizing b with
  | nil => rfl
  | cons a l ih => rw [List.foldl_cons, ih, h]

end Positions

section FirstOccurrences

variable {α : Type} [DecidableEq α]

theorem eraseDups_concat (l : List α) (a : α) :
    (l ++ [a]).eraseDups = if a ∈ l then l.eraseDups else l.eraseDups ++ [a] := by
  rw [List.eraseDups_append]
  by_cases h : a ∈ l
  · simp [List.removeAll, h]
  · simp [List.removeAll, h, List.eraseDups_cons]

theorem nodup_eraseDups (l : List α) : l.eraseDups.Nodup := by
  induction l using List.reverseRecOn with
  | nil => exact .nil
  | append_singleton l a ih =>
    rw [eraseDups_concat]
    split
    · exact ih
    · rename_i hnew
      rw [← List.concat_eq_append, List.nodup_concat]
      exact ⟨fun hmem => hnew (List.mem_eraseDups.1 hmem), ih⟩

theorem eraseDups_prefix (l more : List α) : l.eraseDups <+: (l ++ more).eraseDups := by
  rw [List.eraseDups_append]
  exact List.prefix_append _ _

theorem card_toFinset_eq (l : List α) : l.toFinset.card = l.eraseDups.length := by
  rw [← List.toFinset_card_of_nodup (nodup_eraseDups l)]
  congr 1
  ext a
  rw [List.mem_toFinset, List.mem_toFinset, List.mem_eraseDups]

end FirstOccurrences

section Pairing

variable {α β γ : Type} {R : α → β → Prop} {as : List α} {bs : List β}

theorem exists_forall₂ (h : ∀ a ∈ as, ∃ b, R a b) : ∃ bs, List.Forall₂ R as bs := by
  induction as with
  | nil => exact ⟨[], .nil⟩
  | cons a rest ih =>
    rw [List.forall_mem_cons] at h
    obtain ⟨b, hb⟩ := h.1
    obtain ⟨bs, hbs⟩ := ih h.2
    exact ⟨b :: bs, .cons hb hbs⟩

theorem forall₂_getElem? (h : List.Forall₂ R as bs) {i : Nat} {a : α} (ha : as[i]? = some a) :
    ∃ b, bs[i]? = some b ∧ R a b := by
  obtain ⟨hlt, rfl⟩ := List.getElem?_eq_some_iff.1 ha
  have hlt' : i < bs.length := h.length_eq ▸ hlt
  exact ⟨bs[i], List.getElem?_eq_getElem hlt', h.get hlt hlt'⟩

theorem forall₂_of_append {as' : List α} (h : List.Forall₂ R (as ++ as') bs) :
    List.Forall₂ R as (bs.take as.length) ∧ List.Forall₂ R as' (bs.drop as.length) :=
  ⟨(List.forall₂_take_append bs as as' h.flip).flip,
    (List.forall₂_drop_append bs as as' h.flip).flip⟩

theorem forall₂_zipWith {R : α → β → Prop} {as : List α} {bs : List β} (f : α → β → γ)
    (h : List.Forall₂ R as bs) :
    List.Forall₂ (fun a c => ∃ b, R a b ∧ c = f a b) as (as.zipWith f bs) := by
  induction h with
  | nil => exact .nil
  | cons hab _ ih => exact .cons ⟨_, hab, rfl⟩ ih

theorem forall₂_through {S : α → γ → Prop} {cs : List γ} (h : List.Forall₂ R as bs)
    (h' : List.Forall₂ S as cs) : List.Forall₂ (fun b c => ∃ a, R a b ∧ S a c) bs cs := by
  induction h generalizing cs with
  | nil =>
    cases h'
    exact .nil
  | cons hhead _ ih =>
    cases h' with
    | cons hhead' htail' => exact .cons ⟨_, hhead, hhead'⟩ (ih htail')

theorem forall₂_of_flatten {groups : List (List α)} (h : List.Forall₂ R groups.flatten bs) :
    ∃ parts, bs = parts.flatten ∧ List.Forall₂ (List.Forall₂ R) groups parts := by
  induction groups generalizing bs with
  | nil =>
    cases h
    exact ⟨[], rfl, .nil⟩
  | cons group groups ih =>
    obtain ⟨hhead, htail⟩ := forall₂_of_append h
    obtain ⟨parts, hparts, hall⟩ := ih htail
    refine ⟨bs.take group.length :: parts, ?_, .cons hhead hall⟩
    rw [List.flatten_cons, ← hparts, List.take_append_drop]

end Pairing

section Groups

variable {α β : Type}

theorem flatten_split {groups : List (List α)} {k : Nat} {group : List α}
    (h : groups[k]? = some group) :
    groups.flatten = (groups.take k).flatten ++ (group ++ (groups.drop (k + 1)).flatten) := by
  obtain ⟨hk, rfl⟩ := List.getElem?_eq_some_iff.1 h
  rw [← List.flatten_cons, ← List.drop_eq_getElem_cons hk, ← List.flatten_append,
    List.take_append_drop]

theorem getElem?_flatten_head {groups : List (List α)} {k : Nat} {a : α} {rest : List α}
    (h : groups[k]? = some (a :: rest)) :
    groups.flatten[(groups.take k).flatten.length]? = some a := by
  rw [flatten_split h, List.getElem?_append_right (Nat.le_refl _), Nat.sub_self]
  rfl

theorem flatten_dropLast_eq_nil_iff {l : List (List α)} (hnil : [] ∉ l) (hne : l ≠ []) :
    l.dropLast.flatten = [] ↔ l.length = 1 := by
  obtain ⟨first, last, rfl⟩ := (List.eq_nil_or_concat' l).resolve_left hne
  rw [List.dropLast_concat, List.length_append, List.length_singleton, List.flatten_eq_nil_iff]
  constructor
  · intro hall
    cases first with
    | nil => rfl
    | cons x first =>
      have hx := hall x List.mem_cons_self
      subst hx
      exact absurd (List.mem_append_left _ List.mem_cons_self) hnil
  · intro hlength x hx
    have hpos := List.length_pos_of_mem hx
    omega

theorem getElem?_flatMap_takeWhile [DecidableEq α] {l : List α} {a : α} (hmem : a ∈ l)
    {f : α → List β} {k : Nat} {b : β} (hk : (f a)[k]? = some b) :
    (l.flatMap f)[((l.takeWhile (· ≠ a)).flatMap f).length + k]? = some b := by
  induction l with
  | nil => cases hmem
  | cons x l ih =>
    by_cases hx : x = a
    · subst hx
      have hlt := (List.getElem?_eq_some_iff.1 hk).1
      rw [List.takeWhile_cons_of_neg (by simp), List.flatMap_nil, List.length_nil, Nat.zero_add,
        List.flatMap_cons, List.getElem?_append_left hlt, hk]
    · have hrest : a ∈ l := (List.mem_cons.1 hmem).resolve_left fun heq => hx heq.symm
      rw [List.takeWhile_cons_of_pos (by simpa using hx), List.flatMap_cons, List.flatMap_cons,
        List.length_append, Nat.add_assoc, List.getElem?_append_right (Nat.le_add_right _ _),
        Nat.add_sub_cancel_left]
      exact ih hrest

end Groups

theorem modify_push_size (xs : Array α) (x : α) (f : α → α) :
    (xs.push x).modify xs.size f = xs.push (f x) := by
  rw [← Array.toList_inj, Array.toList_modify, Array.toList_push, Array.toList_push,
    List.modify_eq_take_drop, ← Array.length_toList, List.take_left, List.drop_left]
  rfl

end ContractLinker
