import ContractLinker.Files.Tree
import ContractLinker.Proofs.Compiling
import ContractLinker.Proofs.FileLaws

namespace ContractLinker

open Files.View

namespace FileTree

variable {t t' : FileTree} {path : String} {loc : Location} {content : Bytes}

theorem node?_setNode (hne : loc ≠ []) (node : FileNode) (other : Location) :
    (t.setNode loc node).node? other = if other = loc then some node else t.node? other := by
  unfold node? setNode
  by_cases hroot : other = []
  · rw [if_pos hroot, if_pos hroot, if_neg fun heq => hne (heq.symm.trans hroot)]
  · rw [if_neg hroot, if_neg hroot]
    by_cases heq : other = loc
    · rw [if_pos heq, List.find?_cons_of_pos (by simp [heq])]
      rfl
    · rw [if_neg heq, List.find?_cons_of_neg (by simpa [eq_comm] using heq), List.find?_filter]
      congr 2
      funext entry
      by_cases hentry : entry.1 = other
      · simp [hentry, heq]
      · simp [hentry]

theorem setNode_setNode (t : FileTree) (loc : Location) (node node' : FileNode) :
    (t.setNode loc node).setNode loc node' = t.setNode loc node' := by
  simp [setNode]

theorem lookUp_ok {dir : Location} {name : String} {found : Option FileNode}
    (h : t.lookUp dir name = .ok found) : t.node? (dir ++ [name]) = found := by
  unfold lookUp at h
  split at h
  · cases h
  · exact Except.ok.inj h

/-- The same directories, and the same one to start from. -/
structure SameDirs (t t' : FileTree) : Prop where
  workingDir : t'.workingDir = t.workingDir
  directory : ∀ loc, t'.node? loc = some .directory ↔ t.node? loc = some .directory

theorem sameDirs_setNode (hne : loc ≠ []) (hfree : t.node? loc ≠ some .directory)
    (content : Bytes) : t.SameDirs (t.setNode loc (.file content)) := by
  refine ⟨rfl, fun other => ?_⟩
  rw [node?_setNode hne]
  split
  · rename_i heq
    simp [heq, hfree]
  · rfl

namespace SameDirs

variable (h : t.SameDirs t')
include h

theorem lookUp {dir : Location} {name : String} {found : Option FileNode}
    (hlook : t.lookUp dir name = .ok found) : ∃ found', t'.lookUp dir name = .ok found' ∧
      (found' = some .directory ↔ found = some .directory) := by
  have hnode := lookUp_ok hlook
  unfold FileTree.lookUp at hlook ⊢
  split at hlook
  · cases hlook
  · rename_i hname
    refine ⟨_, if_neg hname, ?_⟩
    rw [h.directory, hnode]

theorem descend {dir dir' : Location} {names : List String}
    (hdown : t.descend dir names = .ok dir') : t'.descend dir names = .ok dir' := by
  -- A step down needs a directory, and those are the same in both trees.
  induction names generalizing dir with
  | nil => exact hdown
  | cons name names ih =>
    unfold FileTree.descend at hdown ⊢
    by_cases hdot : name = "."
    · rw [if_pos hdot] at hdown ⊢
      exact ih hdown
    rw [if_neg hdot] at hdown ⊢
    by_cases hdots : name = ".."
    · rw [if_pos hdots] at hdown ⊢
      exact ih hdown
    rw [if_neg hdots] at hdown ⊢
    split at hdown
    · cases hdown
    · cases hdown
    · cases hdown
    · rename_i hlook
      obtain ⟨found, hfound, hiff⟩ := h.lookUp hlook
      rw [hfound, hiff.2 rfl]
      exact ih hdown

theorem locate {place : Place} (hplace : t.locate path = .ok place) :
    t'.locate path = .ok place := by
  unfold FileTree.locate at hplace ⊢
  by_cases hnul : path.contains '\x00' = true
  · rw [if_pos hnul] at hplace
    cases hplace
  by_cases hlong : pathLimit < path.utf8ByteSize
  · rw [if_neg hnul, if_pos hlong] at hplace
    cases hplace
  by_cases hempty : path = ""
  · simp only [if_neg hnul, if_neg hlong, if_pos hempty] at hplace
    cases hplace
  simp only [if_neg hnul, if_neg hlong, if_neg hempty, h.workingDir] at hplace ⊢
  split at hplace
  · exact hplace
  · split at hplace
    · rename_i hdots
      obtain ⟨dir, hdown, hpure⟩ := Except.bind_eq_ok_iff.1 hplace
      rw [if_pos hdots]
      exact Except.bind_eq_ok_iff.2 ⟨dir, h.descend hdown, hpure⟩
    · rename_i hdots
      obtain ⟨dir, hdown, hpure⟩ := Except.bind_eq_ok_iff.1 hplace
      rw [if_neg hdots]
      exact Except.bind_eq_ok_iff.2 ⟨dir, h.descend hdown, hpure⟩

end SameDirs

theorem fileLocation_eq_ok_iff : t.fileLocation path = .ok loc ↔ ∃ dir name found,
    t.locate path = .ok (.entry dir name false) ∧ t.lookUp dir name = .ok found ∧
      found ≠ some .directory ∧ loc = dir ++ [name] := by
  constructor
  · intro h
    obtain ⟨place, hplace, hrest⟩ := Except.bind_eq_ok_iff.1 h
    cases place with
    | itself dir => cases hrest
    | entry dir name asDirectory =>
      cases asDirectory with
      | true => cases hrest
      | false =>
        obtain ⟨found, hlook, hfound⟩ := Except.bind_eq_ok_iff.1 hrest
        by_cases hdir : found = some .directory
        · rw [if_pos hdir] at hfound
          cases hfound
        · rw [if_neg hdir] at hfound
          cases hfound
          exact ⟨dir, name, found, hplace, hlook, hdir, rfl⟩
  · rintro ⟨dir, name, found, hplace, hlook, hdir, rfl⟩
    refine Except.bind_eq_ok_iff.2 ⟨_, hplace, Except.bind_eq_ok_iff.2 ⟨found, hlook, ?_⟩⟩
    rw [if_neg hdir]
    rfl

theorem SameDirs.fileLocation (h : t.SameDirs t') (hloc : t.fileLocation path = .ok loc) :
    t'.fileLocation path = .ok loc := by
  obtain ⟨dir, name, found, hplace, hlook, hdir, rfl⟩ := fileLocation_eq_ok_iff.1 hloc
  obtain ⟨found', hlook', hiff⟩ := h.lookUp hlook
  exact fileLocation_eq_ok_iff.2 ⟨dir, name, found', h.locate hplace, hlook', hdir ∘ hiff.1, rfl⟩

theorem fileLocation_ok (h : t.fileLocation path = .ok loc) :
    loc ≠ [] ∧ t.node? loc ≠ some .directory := by
  obtain ⟨dir, name, found, -, hlook, hdir, rfl⟩ := fileLocation_eq_ok_iff.1 h
  exact ⟨by simp, lookUp_ok hlook ▸ hdir⟩

def content? (t : FileTree) (loc : Location) : Option Bytes :=
  match t.node? loc with
  | some (.file content) => some content
  | _ => none

theorem content?_setNode (hne : loc ≠ []) (other : Location) :
    (t.setNode loc (.file content)).content? other =
      if other = loc then some content else t.content? other := by
  unfold content?
  rw [node?_setNode hne]
  by_cases heq : other = loc
  · rw [if_pos heq, if_pos heq]
  · rw [if_neg heq, if_neg heq]

/-- What a write leaves: some start of the content, all of it where the write succeeds. -/
theorem write_cases {r : Except FileError Unit} (h : t.write path content = (r, t')) :
    (∃ e, r = .error e ∧ t' = t) ∨ ∃ loc stored, t.fileLocation path = .ok loc ∧
      t' = t.setNode loc (.file stored) ∧ stored <+: content ∧ (r = .ok () → stored = content) := by
  unfold write at h
  split at h
  · cases h
    exact .inl ⟨_, rfl, rfl⟩
  · rename_i loc hloc
    cases h
    have hstart : (t.setNode loc (.file [])).fitting content <+: content := by
      unfold fitting
      split
      · exact List.prefix_refl content
      · exact List.take_prefix _ content
    refine .inr ⟨loc, _, hloc, setNode_setNode .., hstart, fun hok => ?_⟩
    by_cases hlength : ((t.setNode loc (.file [])).fitting content).length = content.length
    · exact hstart.eq_of_length hlength
    · rw [if_neg hlength] at hok
      cases hok

/-- With room for one byte, two old bytes are lost and the first of the new ones is there. -/
example : ({ nodes := [(["a"], .file [1, 2])], capacity := some 1 } : FileTree).write "a" [7, 8] =
    (.error .storageFull, { nodes := [(["a"], .file [7])], capacity := some 1 }) := by cbv

theorem write_of_fileLocation (hcapacity : t.capacity = none) (h : t.fileLocation path = .ok loc) :
    t.write path content = (.ok (), t.setNode loc (.file content)) := by
  have hall : (t.setNode loc (.file [])).fitting content = content := by
    rw [fitting, setNode, hcapacity]
  simp only [write, h, hall, setNode_setNode, if_true]

theorem makeDir_cases {r : Except FileError Unit} (h : t.makeDir path = (r, t')) :
    t' = t ∨ ∃ loc ≠ [], t.node? loc = none ∧ t' = t.setNode loc .directory := by
  unfold makeDir at h
  split at h
  · exact .inl (Prod.mk.inj h).2.symm
  · exact .inl (Prod.mk.inj h).2.symm
  · rename_i dir name _ _
    split at h
    · exact .inl (Prod.mk.inj h).2.symm
    · exact .inl (Prod.mk.inj h).2.symm
    · rename_i hlook
      exact .inr ⟨dir ++ [name], by simp, lookUp_ok hlook, (Prod.mk.inj h).2.symm⟩

theorem read_ok (h : t.read path = .ok content) :
    ∃ loc, t.fileLocation path = .ok loc ∧ t.content? loc = some content := by
  obtain ⟨place, hplace, hrest⟩ := Except.bind_eq_ok_iff.1 h
  cases place with
  | itself dir => cases hrest
  | entry dir name asDirectory =>
    obtain ⟨found, hlook, hfound⟩ := Except.bind_eq_ok_iff.1 hrest
    cases found with
    | none => cases hfound
    | some node =>
      cases node with
      | directory => cases hfound
      | file stored =>
        cases asDirectory with
        | true => cases hfound
        | false =>
          cases hfound
          refine ⟨dir ++ [name], fileLocation_eq_ok_iff.2
            ⟨dir, name, _, hplace, hlook, by simp, rfl⟩, ?_⟩
          rw [content?, lookUp_ok hlook]

instance : Files.View (StateM FileTree) where
  State := FileTree
  Place := Location
  Ends action t a t' := action t = (a, t')
  place? t path := (t.fileLocation path).toOption
  content? := content?

theorem place?_eq_some_iff :
    place? (m := StateM FileTree) t path = some loc ↔ t.fileLocation path = .ok loc := by
  change (t.fileLocation path).toOption = some loc ↔ _
  cases t.fileLocation path <;> simp [Except.toOption]

theorem puts_of_fileLocation (h : t.fileLocation path = .ok loc) :
    Puts (m := StateM FileTree) path content t (t.setNode loc (.file content)) := by
  obtain ⟨hne, hfree⟩ := fileLocation_ok h
  have hdirs := sameDirs_setNode hne hfree content
  refine ⟨?_, loc, place?_eq_some_iff.2 (hdirs.fileLocation h), ?_, ?_⟩
  · intro other q hq
    exact place?_eq_some_iff.2 (hdirs.fileLocation (place?_eq_some_iff.1 hq))
  · exact (content?_setNode hne loc).trans (if_pos rfl)
  · intro other hother
    exact (content?_setNode hne other).trans (if_neg hother)

theorem sameFiles_makeDir (hne : loc ≠ []) (hnone : t.node? loc = none) :
    SameFiles (m := StateM FileTree) t (t.setNode loc .directory) := by
  intro other
  change content? _ other = content? t other
  unfold content?
  rw [node?_setNode hne]
  by_cases heq : other = loc
  · rw [if_pos heq, heq, hnone]
  · rw [if_neg heq]

instance : Files.Lawful (StateM FileTree) where
  ends_pure h := by
    cases h
    exact ⟨rfl, rfl⟩
  ends_bind {_ _ action next _ s _} h := ⟨(action s).1, (action s).2, rfl, h⟩
  ends_read {path r s s'} h := by
    obtain ⟨hread, rfl⟩ := Prod.mk.inj h
    refine ⟨rfl, fun content hok => ?_⟩
    obtain ⟨loc, hloc, hcontent⟩ := read_ok (hread.trans hok)
    exact Option.bind_eq_some_iff.2 ⟨loc, place?_eq_some_iff.2 hloc, hcontent⟩
  ends_workingDir h := (Prod.mk.inj h).2.symm
  ends_makeDir h := by
    rcases makeDir_cases h with rfl | ⟨loc, hne, hnone, rfl⟩
    · exact refl_of SameFiles _
    · exact sameFiles_makeDir hne hnone
  ends_write_ok h := by
    rcases write_cases h with ⟨e, herror, -⟩ | ⟨loc, stored, hloc, rfl, -, hall⟩
    · cases herror
    · rw [hall rfl]
      exact puts_of_fileLocation hloc
  ends_write_error h := by
    rcases write_cases h with ⟨e, -, rfl⟩ | ⟨loc, stored, hloc, rfl, hstart, -⟩
    · exact .inl rfl
    · exact .inr ⟨stored, hstart, puts_of_fileLocation hloc⟩

end FileTree

namespace Files

variable {α β : Type} {t : FileTree}

theorem bind_apply (action : StateM FileTree α) (next : α → StateM FileTree β) (t : FileTree) :
    (action >>= next) t = next (action t).1 (action t).2 := rfl

theorem read_apply (path : String) (t : FileTree) :
    (read path : StateM FileTree _) t = (t.read path, t) := rfl

theorem write_apply (path : String) (content : Bytes) (t : FileTree) :
    (write path content : StateM FileTree _) t = t.write path content := rfl

theorem readText_of_read {path text : String} (h : t.read path = .ok (Utf8.encode text)) :
    (readText path : StateM FileTree _) t = (.ok text, t) := by
  have hdecode : Utf8.decode (Utf8.encode text) = .ok text := Utf8.decode_eq_ok_iff.2 rfl
  rw [readText, bind_apply, read_apply, h]
  simp only [hdecode]
  rfl

theorem firstPresent_none {paths : List String}
    (h : ∀ path ∈ paths, t.read path = .error .notFound) :
    (firstPresent paths : StateM FileTree (Option String)) t = (none, t) := by
  induction paths with
  | nil => rfl
  | cons path paths ih =>
    obtain ⟨hpath, hrest⟩ := List.forall_mem_cons.1 h
    have habsent : (isPresent path : StateM FileTree Bool) t = (false, t) := by
      rw [isPresent, bind_apply, read_apply, hpath]
      rfl
    rw [firstPresent, bind_apply, habsent]
    exact ih hrest

end Files
end ContractLinker
