import ContractLinker.Proofs.Compiling
import ContractLinker.Proofs.FileLaws

namespace ContractLinker.Command

open Files.View Files.Lawful

variable {m : Type → Type} [Monad m] [Files m] [Files.View m] [Files.Lawful m] {α β ε : Type}
  {s s' : State m} {path : String}

/-- A step ends a command by its failure, or the next one goes on from where it ended. -/
theorem bind_cases {x : ExceptT Failure m α} {next : α → ExceptT Failure m β}
    {r : Except Failure β} (h : Ends (x >>= next).run s r s') :
    (∃ f, Ends x.run s (.error f) s' ∧ r = .error f) ∨
      ∃ a half, Ends x.run s (.ok a) half ∧ Ends (next a).run half r s' := by
  rw [ExceptT.run_bind] at h
  obtain ⟨found, half, hx, hnext⟩ := ends_bind h
  cases found with
  | error f =>
    obtain ⟨rfl, rfl⟩ := ends_pure hnext
    exact .inl ⟨f, hx, rfl⟩
  | ok a => exact .inr ⟨a, half, hx, hnext⟩

theorem pure_cases {a : α} {r : Except Failure α}
    (h : Ends (pure a : ExceptT Failure m α).run s r s') : r = .ok a ∧ s' = s := ends_pure h

theorem lift_cases {x : Except Failure α} {r : Except Failure α}
    (h : Ends (liftM x : ExceptT Failure m α).run s r s') : r = x ∧ s' = s := ends_pure h

theorem lift_bind_cases {x : Except Failure α} {next : α → ExceptT Failure m β}
    {r : Except Failure β} (h : Ends (liftM x >>= next).run s r s') :
    (∃ f, r = .error f ∧ s' = s) ∨ ∃ a, x = .ok a ∧ Ends (next a).run s r s' := by
  rcases bind_cases h with ⟨f, hx, rfl⟩ | ⟨a, half, hx, hnext⟩
  · exact .inl ⟨f, rfl, (lift_cases hx).2⟩
  · obtain ⟨rfl, rfl⟩ := lift_cases hx
    exact .inr ⟨a, rfl, hnext⟩

section Attempts

variable [LawfulMonad m]

theorem attempt_cases {purpose : String} {action : m (Except FileError α)} {r : Except Failure α}
    (h : Ends (attempt purpose action).run s r s') :
    (∃ a, Ends action s (.ok a) s' ∧ r = .ok a) ∨
      ∃ e f, Ends action s (.error e) s' ∧ r = .error f := by
  -- Lifting the action only wraps its answer.
  have hlift {found : Except Failure (Except FileError α)} {half : State m}
      (hends : Ends (liftM action : ExceptT Failure m _).run s found half) :
      ∃ a, found = .ok a ∧ Ends action s a half := by
    change Ends (Except.ok <$> action) s found half at hends
    rw [map_eq_pure_bind] at hends
    obtain ⟨a, half, hends, hpure⟩ := ends_bind hends
    obtain ⟨rfl, rfl⟩ := ends_pure hpure
    exact ⟨a, rfl, hends⟩
  rcases bind_cases h with ⟨f, hfail, -⟩ | ⟨found, half, hends, hrest⟩
  · obtain ⟨_, herror, -⟩ := hlift hfail
    cases herror
  · obtain ⟨_, hfound, hends⟩ := hlift hends
    cases hfound
    cases found with
    | error e =>
      obtain ⟨rfl, rfl⟩ := lift_cases hrest
      exact .inr ⟨e, _, hends, rfl⟩
    | ok a =>
      obtain ⟨rfl, rfl⟩ := pure_cases hrest
      exact .inl ⟨a, hends, rfl⟩

/-- A write puts all of the content, or fails with none or some of it put. -/
theorem write_cases {content : Bytes} {r : Except Failure Unit}
    (h : Ends (write path content : ExceptT Failure m Unit).run s r s') :
    (r = .ok () ∧ Puts path content s s') ∨
      ∃ f, r = .error f ∧ (s' = s ∨ ∃ cut, cut <+: content ∧ Puts path cut s s') := by
  rcases attempt_cases h with ⟨a, hends, rfl⟩ | ⟨e, f, hends, rfl⟩
  · exact .inl ⟨rfl, ends_write_ok hends⟩
  · exact .inr ⟨f, rfl, ends_write_error hends⟩

theorem read_cases {r : Except Failure Bytes}
    (h : Ends (read path : ExceptT Failure m Bytes).run s r s') :
    s' = s ∧ ∀ bytes, r = .ok bytes → contentAt s path = some bytes := by
  rcases attempt_cases h with ⟨a, hends, rfl⟩ | ⟨e, f, hends, rfl⟩
  · obtain ⟨rfl, hcontent⟩ := ends_read hends
    exact ⟨rfl, fun bytes hbytes => hcontent bytes (Except.ok.inj hbytes ▸ rfl)⟩
  · exact ⟨(ends_read hends).1, fun _ hok => by cases hok⟩

theorem readText_cases {r : Except Failure String}
    (h : Ends (readText path : ExceptT Failure m String).run s r s') :
    s' = s ∧ ∀ text, r = .ok text → contentAt s path = some (Utf8.encode text) := by
  rcases attempt_cases h with ⟨a, hends, rfl⟩ | ⟨e, f, hends, rfl⟩
  · obtain ⟨rfl, hcontent⟩ := Files.ends_readText hends
    exact ⟨rfl, fun text htext => hcontent text (Except.ok.inj htext ▸ rfl)⟩
  · exact ⟨(Files.ends_readText hends).1, fun _ hok => by cases hok⟩

end Attempts

/-- Reading a file of some form is reading and then parsing it. -/
theorem parsed_cases {source : ExceptT Failure m α} {context : String} {cause : ε → Cause}
    {parse : α → Except ε β} {r : Except Failure β} {P : α → Prop}
    (hsource : ∀ r s', Ends source.run s r s' → s' = s ∧ ∀ a, r = .ok a → P a)
    (h : Ends (source >>= fun a =>
      liftM (withContext context (orFail cause (parse a)))).run s r s') :
    s' = s ∧ ∀ b, r = .ok b → ∃ a, P a ∧ parse a = .ok b := by
  rcases bind_cases h with ⟨f, hfail, rfl⟩ | ⟨a, half, hread, hparse⟩
  · exact ⟨(hsource _ _ hfail).1, fun _ hok => by cases hok⟩
  · obtain ⟨rfl, hfound⟩ := hsource _ _ hread
    obtain ⟨rfl, rfl⟩ := lift_cases hparse
    refine ⟨rfl, fun b hb => ⟨a, hfound a rfl, ?_⟩⟩
    exact orFail_eq_ok_iff.1 (withContext_eq_ok_iff.1 hb)

/-- What a step says of an argument, where there may be none. -/
theorem mapM_cases {f : α → ExceptT Failure m β} {P : α → β → Prop} {given : Option α}
    {r : Except Failure (Option β)}
    (hf : ∀ a r s', Ends (f a).run s r s' → s' = s ∧ ∀ b, r = .ok b → P a b)
    (h : Ends (given.mapM f).run s r s') :
    s' = s ∧ ∀ found, r = .ok found → (given = none ∧ found = none) ∨
      ∃ a b, given = some a ∧ found = some b ∧ P a b := by
  cases given with
  | none =>
    obtain ⟨rfl, rfl⟩ := pure_cases h
    exact ⟨rfl, fun found hfound => .inl ⟨rfl, (Except.ok.inj hfound).symm⟩⟩
  | some a =>
    rcases bind_cases h with ⟨f, hfail, rfl⟩ | ⟨b, half, hstep, hpure⟩
    · exact ⟨(hf a _ _ hfail).1, fun _ hok => by cases hok⟩
    · obtain ⟨rfl, hb⟩ := hf a _ _ hstep
      obtain ⟨rfl, rfl⟩ := pure_cases hpure
      exact ⟨rfl, fun found hfound => .inr ⟨a, b, rfl, (Except.ok.inj hfound).symm, hb b rfl⟩⟩

theorem remapRead_cases {o : Optimized} {given : Option Manifest}
    {r : Except Failure (Option Manifest)}
    (h : Ends (given.mapM fun manifest => do
      let ((), moved) ← orFail .compile (o.remap manifest).onSuccess
      return moved : ExceptT Failure m (Option Manifest)).run s r s') :
    s' = s ∧ ∀ found, r = .ok found → (given = none ∧ found = none) ∨
      ∃ manifest moved, given = some manifest ∧ found = some moved ∧
        o.remap manifest = (.ok (), moved) := by
  refine mapM_cases (fun manifest r s' hstep => ?_) h
  rcases lift_bind_cases hstep with ⟨_, rfl, rfl⟩ | ⟨⟨_, moved⟩, hremap, hpure⟩
  · exact ⟨rfl, fun _ hok => by cases hok⟩
  · obtain ⟨rfl, rfl⟩ := pure_cases hpure
    refine ⟨rfl, ?_⟩
    rintro _ ⟨⟩
    exact Outcome.onSuccess_eq_ok_iff.1 (orFail_eq_ok_iff.1 hremap)

variable [LawfulMonad m]

theorem readProgram_cases {r : Except Failure Program}
    (h : Ends (readProgram path : ExceptT Failure m Program).run s r s') :
    s' = s ∧ ∀ program, r = .ok program →
      ∃ text, contentAt s path = some (Utf8.encode text) ∧ Program.ofText text = .ok program :=
  parsed_cases (fun _ _ hread => readText_cases hread) h

theorem readManifest_cases {r : Except Failure Manifest}
    (h : Ends (readManifest path : ExceptT Failure m Manifest).run s r s') :
    s' = s ∧ ∀ manifest, r = .ok manifest →
      ∃ text, contentAt s path = some (Utf8.encode text) ∧ Manifest.ofText text = .ok manifest :=
  parsed_cases (fun _ _ hread => readText_cases hread) h

theorem readExecutable_cases {r : Except Failure Executable}
    (h : Ends (readExecutable path : ExceptT Failure m Executable).run s r s') :
    s' = s ∧ ∀ x, r = .ok x →
      ∃ bytes, contentAt s path = some bytes ∧ Executable.ofBytes bytes = .ok x :=
  parsed_cases (fun _ _ hread => read_cases hread) h

theorem readNamed_cases {named : Option String} {r : Except Failure (Option Manifest)}
    (h : Ends (named.mapM readManifest : ExceptT Failure m (Option Manifest)).run s r s') :
    s' = s ∧ ∀ found, r = .ok found → (named = none ∧ found = none) ∨
      ∃ path manifest, named = some path ∧ found = some manifest ∧
        ∃ text, contentAt s path = some (Utf8.encode text) ∧ Manifest.ofText text = .ok manifest :=
  mapM_cases (fun _ _ _ hread => readManifest_cases hread) h

/-- Room is made by directories alone. -/
theorem makeRoom_cases {r : Except Failure Unit}
    (h : Ends (makeRoom path : ExceptT Failure m Unit).run s r s') : SameFiles s s' := by
  unfold makeRoom at h
  split at h
  · obtain ⟨-, rfl⟩ := pure_cases h
    exact refl_of SameFiles s'
  · obtain ⟨-, rfl⟩ := pure_cases h
    exact refl_of SameFiles s'
  · rcases attempt_cases h with ⟨_, hends, -⟩ | ⟨_, _, hends, -⟩
    · exact Files.does_ensureDirs _ _ _ _ hends
    · exact Files.does_ensureDirs _ _ _ _ hends

end ContractLinker.Command
