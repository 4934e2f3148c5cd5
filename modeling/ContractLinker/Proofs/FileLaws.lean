import Mathlib.Order.Defs.Unbundled
import ContractLinker.Command.Line
import ContractLinker.Proofs.Utf8

namespace ContractLinker

/-- What is seen of the files from outside. A path leads to a place; several may lead to one. -/
class Files.View (m : Type → Type) where
  State : Type
  Place : Type
  /-- Started in the first state, the action can give this answer and leave the second state. -/
  Ends {α : Type} : m α → State → α → State → Prop
  /-- Where a write through the path is to go. -/
  place? : State → String → Option Place
  content? : State → Place → Option Bytes

namespace Files.View

variable {m : Type → Type} [View m] {α : Type}

def contentAt (s : State m) (path : String) : Option Bytes := (place? s path).bind (content? s)

/-- Every file is still there with its content, and there is no other. -/
def SameFiles (s s' : State m) : Prop := ∀ q : Place m, content? s' q = content? s q

instance : IsPreorder (State m) SameFiles where
  refl _ _ := rfl
  trans _ _ _ h h' q := (h' q).trans (h q)

/-- The content was put where the path leads. All paths lead to where they led before. -/
structure Puts (path : String) (content : Bytes) (s s' : State m) : Prop where
  stable : ∀ (other : String) (q : Place m), place? s other = some q → place? s' other = some q
  put : ∃ q : Place m, place? s' path = some q ∧ content? s' q = some content ∧
    ∀ other ≠ q, content? s' other = content? s other

/-- The files after writes through some paths, one after the other: where a path leads stands what
was last written there, and everywhere else what stood there before. -/
structure Wrote (writes : List (String × Bytes)) (s s' : State m) : Prop where
  led : ∀ w ∈ writes, ∃ q : Place m, place? s' w.1 = some q
  last : ∀ before path content behind, writes = before ++ (path, content) :: behind →
    ∀ q : Place m, place? s' path = some q → (∀ w ∈ behind, place? s' w.1 ≠ some q) →
      content? s' q = some content
  rest : ∀ q : Place m, (∀ w ∈ writes, place? s' w.1 ≠ some q) → content? s' q = content? s q

namespace Wrote

variable {writes : List (String × Bytes)} {path : String} {content : Bytes} {s half s' : State m}

theorem nil (h : SameFiles s s') : Wrote [] s s' := by
  refine ⟨fun _ hw => absurd hw List.not_mem_nil, ?_, fun q _ => h q⟩
  intro before path content behind heq
  cases before <;> cases heq

theorem concat (h : Wrote writes s half) (hput : Puts path content half s') :
    Wrote (writes ++ [(path, content)]) s s' := by
  obtain ⟨q, hplace, hcontent, hothers⟩ := hput.put
  have hmissed {w : String × Bytes} {r : Place m} (hr : place? s' w.1 ≠ some r) :
      place? half w.1 ≠ some r := fun hold => hr (hput.stable w.1 r hold)
  refine ⟨?_, ?_, ?_⟩
  · intro w hw
    rcases List.mem_append.1 hw with hold | hnew
    · obtain ⟨r, hr⟩ := h.led w hold
      exact ⟨r, hput.stable w.1 r hr⟩
    · rw [List.mem_singleton.1 hnew]
      exact ⟨q, hplace⟩
  · intro before other stored behind heq r hr hlater
    rcases List.eq_nil_or_concat behind with rfl | ⟨between, w, rfl⟩
    · obtain ⟨-, hw⟩ := List.append_inj' heq rfl
      cases hw
      rw [hplace] at hr
      cases hr
      exact hcontent
    · -- The path of an earlier write leads where it led then, and the last one goes elsewhere.
      rw [List.concat_eq_append] at heq hlater
      rw [← List.cons_append, ← List.append_assoc] at heq
      obtain ⟨rfl, hw⟩ := List.append_inj' heq rfl
      cases hw
      obtain ⟨r', hr'⟩ := h.led (other, stored) (by simp)
      have hsame : r' = r := Option.some.inj ((hput.stable other r' hr').symm.trans hr)
      have hne : r ≠ q := fun heq => hlater (path, content) (by simp) (heq ▸ hplace)
      rw [hothers r hne]
      exact h.last before other stored between rfl r (hsame ▸ hr') fun w hw =>
        hmissed (hlater w (List.mem_append_left _ hw))
  · intro r hnone
    have hne : r ≠ q := fun heq => hnone (path, content) (by simp) (heq ▸ hplace)
    rw [hothers r hne]
    exact h.rest r fun w hw => hmissed (hnone w (List.mem_append_left _ hw))

end Wrote

/-- All that the action does to the files is within the relation. -/
def Does (R : State m → State m → Prop) (action : m α) : Prop :=
  ∀ s a s', Ends action s a s' → R s s'

theorem Does.of_eq {R : State m → State m → Prop} [IsPreorder (State m) R] {action : m α}
    (h : Does Eq action) : Does R action := by
  intro s a s' hends
  rw [← h s a s' hends]
  exact refl_of R s

end Files.View

open Files.View

/-- The laws that commands rely on. A write may fail without a trace, or after the file was emptied
and some of the content was stored. -/
class Files.Lawful (m : Type → Type) [Monad m] [Files m] [Files.View m] : Prop where
  ends_pure {α : Type} {a b : α} {s s' : State m} :
    Ends (pure a : m α) s b s' → b = a ∧ s' = s
  ends_bind {α β : Type} {action : m α} {next : α → m β} {b : β} {s s' : State m} :
    Ends (action >>= next) s b s' → ∃ a half, Ends action s a half ∧ Ends (next a) half b s'
  ends_read {path : String} {r : Except FileError Bytes} {s s' : State m} :
    Ends (Files.read path : m _) s r s' →
      s' = s ∧ ∀ content, r = .ok content → contentAt s path = some content
  ends_workingDir {dir : String} {s s' : State m} :
    Ends (Files.workingDir : m _) s dir s' → s' = s
  ends_makeDir {path : String} {r : Except FileError Unit} {s s' : State m} :
    Ends (Files.makeDir path : m _) s r s' → SameFiles s s'
  ends_write_ok {path : String} {content : Bytes} {s s' : State m} :
    Ends (Files.write path content : m _) s (.ok ()) s' → Puts path content s s'
  ends_write_error {path : String} {content : Bytes} {e : FileError} {s s' : State m} :
    Ends (Files.write path content : m _) s (.error e) s' →
      s' = s ∨ ∃ cut, cut <+: content ∧ Puts path cut s s'

open Files.Lawful

section Actions

variable {m : Type → Type} [Monad m] [Files m] [Files.View m] [Files.Lawful m] {α β : Type}
  {R : State m → State m → Prop}

namespace Files.View.Does

theorem pure [IsPreorder (State m) R] (a : α) : Does R (pure a) := by
  intro s b s' h
  obtain ⟨-, rfl⟩ := ends_pure h
  exact refl_of R s'

theorem bind [IsPreorder (State m) R] {action : m α} {next : α → m β} (h : Does R action)
    (hnext : ∀ a, Does R (next a)) : Does R (action >>= next) := by
  intro s b s' hends
  obtain ⟨a, half, hfirst, hrest⟩ := ends_bind hends
  exact trans_of R (h s a half hfirst) (hnext a half b s' hrest)

end Files.View.Does

namespace Files

theorem does_read (path : String) : Does Eq (read path : m _) :=
  fun _ _ _ h => (ends_read h).1.symm

theorem does_isPresent (path : String) : Does Eq (isPresent path : m _) := by
  refine (does_read path).bind fun found => ?_
  split <;> exact .pure _

theorem does_isDir (path : String) : Does Eq (isDir path : m _) := by
  refine (does_read path).bind fun found => ?_
  split <;> exact .pure _

theorem does_firstPresent (paths : List String) : Does Eq (firstPresent paths : m _) := by
  induction paths with
  | nil => exact .pure _
  | cons path paths ih =>
    refine (does_isPresent path).bind fun found => ?_
    split
    · exact .pure _
    · exact ih

theorem ends_readText {path : String} {r : Except FileError String} {s s' : State m}
    (h : Ends (readText path : m _) s r s') :
    s' = s ∧ ∀ text, r = .ok text → contentAt s path = some (Utf8.encode text) := by
  obtain ⟨found, half, hread, hrest⟩ := ends_bind h
  obtain ⟨rfl, hcontent⟩ := ends_read hread
  cases found with
  | error e =>
    obtain ⟨rfl, rfl⟩ := ends_pure hrest
    exact ⟨rfl, fun _ hok => by cases hok⟩
  | ok bytes =>
    cases hdecode : Utf8.decode bytes with
    | error cause =>
      simp only [hdecode] at hrest
      obtain ⟨rfl, rfl⟩ := ends_pure hrest
      exact ⟨rfl, fun _ hok => by cases hok⟩
    | ok text =>
      simp only [hdecode] at hrest
      obtain ⟨rfl, rfl⟩ := ends_pure hrest
      refine ⟨rfl, ?_⟩
      rintro _ ⟨⟩
      rw [← Utf8.decode_eq_ok_iff.1 hdecode]
      exact hcontent bytes rfl

theorem does_readText (path : String) : Does Eq (readText path : m _) :=
  fun _ _ _ h => (ends_readText h).1.symm

theorem does_makeDir (path : String) : Does SameFiles (makeDir path : m _) :=
  fun _ _ _ h => ends_makeDir h

theorem does_ensureDir (path : String) : Does SameFiles (ensureDir path : m _) := by
  refine (does_makeDir path).bind fun made => ?_
  split
  · exact .pure _
  · refine (does_isDir path).of_eq.bind fun found => ?_
    split <;> exact .pure _

theorem does_ensureDirs (dirs : List String) : Does SameFiles (ensureDirs dirs : m _) := by
  induction dirs with
  | nil => exact .pure _
  | cons dir outer ih =>
    refine (does_ensureDir dir).bind fun made => ?_
    split
    · refine ih.bind fun made => ?_
      split
      · exact does_ensureDir dir
      · exact .pure _
    · exact .pure _

end Files

namespace Config

theorem does_readFrom (path : String) : Does Eq (readFrom path : m _) := by
  refine (Files.does_isPresent path).bind fun found => ?_
  split
  · exact .pure _
  · refine (Files.does_readText path).bind fun text => ?_
    split
    · exact .pure _
    · split <;> exact .pure _

theorem does_load (given : Option String) : Does Eq (load given : m _) := by
  have hdir : Does Eq (Files.workingDir : m String) := fun _ _ _ h => (ends_workingDir h).symm
  cases given with
  | some path => exact does_readFrom path
  | none =>
    refine .bind (hdir.bind fun dir => Files.does_firstPresent _) fun found => ?_
    split
    · exact does_readFrom _
    · exact .pure _

end Config

end Actions
end ContractLinker
