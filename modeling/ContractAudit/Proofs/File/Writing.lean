import Mathlib.Logic.Basic
import Mathlib.Tactic.SplitIfs
import ContractAudit.File.System

/-!
Files that were written.

* `write_eq_ok_iff`: a file is written where its path leads to, unless a directory stands there.
  Nothing else changes.
* `locate_of_directories`: a path leads to the same place as long as no directory is lost.
* `read_of_write`: what was written is read.
-/

namespace ContractAudit.FileSystem

variable {fs fs' : FileSystem} {path content : Text} {place : Place}

/-- A path leads to a place that a file may have: the directories on the way are there, and the
place is not one of them. -/
def Writable (fs : FileSystem) (path : Text) : Prop :=
  ∃ place, fs.locate path = .ok place ∧ fs.entry? place ≠ some .directory

/-- The file system with a file at a place. -/
def withFile (fs : FileSystem) (place : Place) (content : Text) : FileSystem :=
  { fs with entries := fs.entries.set place (.file content) }

lemma withoutSlashes_eq (h : path.endsWith "/" = false) : withoutSlashes path = path := by
  rcases List.eq_nil_or_concat path with rfl | ⟨front, c, rfl⟩
  · rfl
  · rw [List.concat_eq_append] at h ⊢
    have hc : c ≠ Path.slash := by
      rintro rfl
      have hsuffix : Text.endsWith (front ++ [Path.slash]) "/" = true :=
        List.isSuffixOf_iff_suffix.mpr (List.suffix_append front [Path.slash])
      exact absurd (hsuffix.symm.trans h) (by decide)
    simp [withoutSlashes, hc]

lemma write_eq_ok_iff (h : path.endsWith "/" = false) :
    fs.write path content = .ok fs' ↔
      ∃ place, fs.locate path = .ok place ∧ fs.entry? place ≠ some .directory ∧
        fs' = fs.withFile place content := by
  rw [write, withoutSlashes_eq h, h]
  cases hplace : fs.locate path with
  | error cause => simp [attempting, bind, Except.bind]
  | ok place =>
    cases hentry : fs.entry? place with
    | none => simp [attempting, bind, Except.bind, hentry, withFile, eq_comm]
    | some e => cases e <;> simp [attempting, bind, Except.bind, hentry, withFile, eq_comm]

/-- The root is a directory, so no file has its place. -/
lemma ne_nil_of_not_directory (h : fs.entry? place ≠ some .directory) : place ≠ [] := by
  rintro rfl
  exact h rfl

lemma entry?_withFile (hplace : place ≠ []) (other : Place) :
    entry? (fs.withFile place content) other = if other = place then some (.file content)
      else fs.entry? other := by
  rcases eq_or_ne other [] with rfl | hother
  · rw [if_neg hplace.symm]
    rfl
  · simp [withFile, entry?, Table.get?_set, hother]

/-- Parts lead to the same place as long as no directory is lost. -/
lemma follow_of_directories (hdirs : ∀ p, fs.entry? p = some .directory →
    fs'.entry? p = some .directory)
    {start : Place} {parts : List Text} (h : fs.follow start parts = .ok place) :
    fs'.follow start parts = .ok place := by
  induction parts generalizing start with
  | nil => exact h
  | cons part rest ih =>
    rw [follow.eq_def] at h ⊢
    cases hstart : fs.entry? start with
    | none => simp [hstart] at h
    | some e =>
      cases e with
      | file _ => simp [hstart] at h
      | directory =>
        simp only [hstart, hdirs start hstart] at h ⊢
        split_ifs at h ⊢ with hidle hup hlong
        · exact ih h
        · exact ih h
        · exact ih h

lemma locate_of_directories (hdirs : ∀ p, fs.entry? p = some .directory →
    fs'.entry? p = some .directory)
    (hhere : fs'.here = fs.here) (h : fs.locate path = .ok place) :
    fs'.locate path = .ok place := by
  rw [locate] at h ⊢
  split_ifs at h ⊢ with hempty hzero hlong hrooted
  · exact follow_of_directories hdirs h
  · exact follow_of_directories hdirs (hhere ▸ h)

/-- **What was written is read.** -/
theorem read_of_write (hslash : path.endsWith "/" = false) (h : fs.write path content = .ok fs') :
    fs'.read path = .ok content := by
  obtain ⟨place, hplace, hentry, rfl⟩ := (write_eq_ok_iff hslash).mp h
  have hroot := ne_nil_of_not_directory hentry
  have hdirs : ∀ p, fs.entry? p = some .directory →
    entry? (fs.withFile place content) p = some .directory := by
    intro p hp
    have hne : p ≠ place := fun heq => hentry (heq ▸ hp)
    rw [entry?_withFile hroot, if_neg hne, hp]
  have hlook : (fs.withFile place content).look path = .ok (place, .file content) := by
    rw [look, locate_of_directories hdirs rfl hplace]
    simp [bind, Except.bind, entry?_withFile hroot]
  rw [read, hlook]
  rfl

end ContractAudit.FileSystem
