import Mathlib.Data.List.Infix
import ContractAudit.Finding.Ignore

/-!
Which files an ignore rule covers by its path.

A path without special bytes is meant as a file or a directory. It covers every file whose path
starts with it, whether it ends there at a slash or in the middle of a name.

* `Text.IsPlain`: a pattern without special bytes. It is read as one chunk (`Glob.read?_eq`) and
  matches itself only (`globMatches_iff`).
* `coversPath_iff`: so a plain path covers the files that start with it, less its trimmings.
* `coversPath_iff_within_iff`: these are the file and what lies below the directory, except where
  the path ends inside a name.
-/

namespace ContractAudit

namespace Text

/-- Whether a byte has a meaning in patterns: a star, a question mark, an opening bracket or a
backslash. -/
def isSpecial (c : UInt8) : Bool := c == 42 || c == 63 || c == 91 || c == 92

/-- A pattern in which every byte stands for itself. -/
def IsPlain (pattern : Text) : Prop := ∀ c ∈ pattern, isSpecial c = false

instance (pattern : Text) : Decidable (IsPlain pattern) :=
  List.decidableBAll (fun c => isSpecial c = false) pattern

/-! ### Trimmed texts -/

lemma after?_eq_some_iff {t p rest : Text} : t.after? p = some rest ↔ t = p ++ rest := by
  rw [after?, startsWith]
  constructor
  · intro h
    obtain ⟨hstarts, h⟩ := Option.ite_none_right_eq_some.mp h
    obtain ⟨behind, rfl⟩ := List.isPrefixOf_iff_prefix.mp hstarts
    rw [← Option.some.inj h, List.drop_left]
  · rintro rfl
    rw [if_pos (List.isPrefixOf_iff_prefix.mpr (List.prefix_append p rest)), List.drop_left]

lemma IsPlain.trimStart {t : Text} (h : IsPlain t) (p : Text) : IsPlain (t.trimStart p) := by
  rw [Text.trimStart]
  cases hafter : t.after? p with
  | none => exact h
  | some rest =>
    obtain rfl := after?_eq_some_iff.mp hafter
    exact fun c hc => h c (List.mem_append_right p hc)

lemma trimEnd_isPrefix (t s : Text) : t.trimEnd s <+: t := by
  rw [trimEnd]
  split
  · exact List.take_prefix _ _
  · exact List.prefix_refl t

/-! ### Plain patterns -/

namespace Glob

/-- A plain pattern adds its bytes to the pieces of a chunk. -/
lemma chunks?_eq {t : Text} (h : IsPlain t) {fuel : Nat} (hfuel : t.length < fuel) (star : Bool)
    (pieces : List GlobPiece) :
    chunks? fuel star pieces t = some [⟨star, pieces.reverse ++ t.map .byte⟩] := by
  induction t generalizing fuel pieces with
  | nil =>
    obtain ⟨fuel, rfl⟩ := Nat.exists_eq_succ_of_ne_zero (Nat.ne_of_gt hfuel)
    simp [chunks?]
  | cons c rest ih =>
    obtain ⟨fuel, rfl⟩ := Nat.exists_eq_succ_of_ne_zero (Nat.ne_of_gt (Nat.zero_lt_of_lt hfuel))
    obtain ⟨hc, hrest⟩ := List.forall_mem_cons.mp h
    have hrest := ih hrest (Nat.lt_of_succ_lt_succ hfuel) (.byte c :: pieces)
    simp only [isSpecial, Bool.or_eq_false_iff] at hc
    obtain ⟨⟨⟨hstar, hmark⟩, hbracket⟩, hslash⟩ := hc
    simp [chunks?, hstar, hmark, hbracket, hslash, hrest]

/-- A plain pattern is one chunk. -/
lemma read?_eq {pattern : Text} (h : IsPlain pattern) :
    read? pattern = some [⟨false, pattern.map .byte⟩] := by
  rw [read?, chunks?_eq h (by omega)]
  rfl

/-- Bytes are matched at the head of a text if they stand there. -/
lemma matchHere?_bytes (p t : Text) : matchHere? (p.map .byte) t = t.after? p := by
  induction p generalizing t with
  | nil => rfl
  | cons b rest ih =>
    cases t with
    | nil => rfl
    | cons c more =>
      rw [List.map_cons, matchHere?, ih]
      by_cases hb : b = c
      · subst hb
        simp [after?, startsWith]
      · simp [after?, startsWith, hb]

/-- A chunk without a star in front of it is matched by the whole text. -/
lemma matchChunks_singleton (pieces : List GlobPiece) (t : Text) :
    matchChunks [⟨false, pieces⟩] t = (matchHere? pieces t).any List.isEmpty := by
  rw [matchChunks]
  cases matchHere? pieces t with
  | none => rfl
  | some behind => cases behind <;> rfl

end Glob

/-- A plain pattern matches itself only. -/
lemma globMatches_iff {pattern t : Text} (h : IsPlain pattern) : globMatches pattern t = true ↔
    t = pattern := by
  have hglob : globMatches pattern t = (t.after? pattern).any List.isEmpty := by
    rw [globMatches, Glob.read?_eq h, ← Glob.matchHere?_bytes]
    exact Glob.matchChunks_singleton _ t
  rw [hglob, Option.any_eq_true]
  simp only [after?_eq_some_iff, List.isEmpty_iff]
  constructor
  · rintro ⟨rest, rfl, rfl⟩
    exact List.append_nil pattern
  · rintro rfl
    exact ⟨[], (List.append_nil t).symm, rfl⟩

end Text

namespace Exemption

/-- The file or directory that the path of an ignore rule names. -/
def base (pattern : Text) : Text := Text.trimEnd (Text.trimStart pattern "./") "/"

/-- A plain path covers the files whose paths start with it. -/
lemma coversPath_iff {pattern : Text} (h : Text.IsPlain pattern) (file : Text) :
    coversPath pattern file = true ↔ base pattern <+: file := by
  have hstarts : Text.startsWith file (base pattern) = true ↔ base pattern <+: file :=
    List.isPrefixOf_iff_prefix
  have hglob := Text.globMatches_iff (t := file) (h.trimStart "./")
  rw [← hstarts, coversPath, Bool.or_eq_true, hglob]
  refine or_iff_right_of_imp ?_
  rintro rfl
  exact hstarts.mpr (Text.trimEnd_isPrefix _ _)

/-- The file is the one that a path names, or lies below the directory that it names. -/
def Within (path file : Text) : Prop := file = path ∨ path ++ Text.ofString "/" <+: file

instance (path file : Text) : Decidable (Within path file) :=
  inferInstanceAs (Decidable (file = path ∨ path ++ Text.ofString "/" <+: file))

/-- The path ends inside a name of the file's path: there it goes on, and not with a slash. -/
def EndsInside (path file : Text) : Prop := ∃ c rest, c ≠ 47 ∧ file = path ++ c :: rest

/-- A file whose path starts with another is within that, unless it ends inside a name. -/
lemma isPrefix_iff {path file : Text} : path <+: file ↔ Within path file ∨
    EndsInside path file := by
  constructor
  · rintro ⟨rest, rfl⟩
    cases rest with
    | nil => exact .inl (.inl (List.append_nil path))
    | cons c rest =>
      by_cases hc : c = 47
      · have hslash : path ++ Text.ofString "/" ++ rest = path ++ c :: rest := by
          rw [hc, List.append_assoc]
          rfl
        exact .inl (.inr ⟨rest, hslash⟩)
      · exact .inr ⟨c, rest, hc, rfl⟩
  · rintro ((rfl | h) | ⟨c, rest, -, rfl⟩)
    · exact List.prefix_refl file
    · exact (List.prefix_append path _).trans h
    · exact List.prefix_append path _

lemma not_within_of_endsInside {path file : Text} (h : EndsInside path file) :
    ¬Within path file := by
  obtain ⟨c, rest, hc, rfl⟩ := h
  rintro (heq | hbelow)
  · simp at heq
  · have hslash := (List.prefix_append_right_inj path).mp hbelow
    exact hc (List.cons_prefix_cons.mp hslash).1.symm

/-- **Path rules stop at no directory boundary.** A plain path covers the files whose paths start
with it. Among them are the file that it names and all that lies below the directory that it names;
these are all exactly if the path does not end inside a name. -/
theorem coversPath_iff_within_iff (pattern file : Text) (h : Text.IsPlain pattern) :
    (coversPath pattern file = true ↔ base pattern <+: file) ∧
      ((coversPath pattern file = true ↔ Within (base pattern) file) ↔
        ¬EndsInside (base pattern) file) := by
  have hcovers := coversPath_iff h file
  refine ⟨hcovers, ?_⟩
  rw [hcovers, isPrefix_iff, or_iff_left_iff_imp]
  exact ⟨fun himp hinside => not_within_of_endsInside hinside (himp hinside),
    fun hnot hinside => absurd hinside hnot⟩

/-- The path of a directory with its trimmings covers what lies below, and does not end inside a
name there. -/
theorem coversPath_iff_within_trimmed :
    Text.IsPlain "./contracts/" ∧ base "./contracts/" = Text.ofString "contracts" ∧
      coversPath "./contracts/" "contracts/A.sol" = true ∧ Within (base "./contracts/")
        "contracts/A.sol" ∧
      ¬EndsInside (base "./contracts/") "contracts/A.sol" := by
  have hplain : Text.IsPlain "./contracts/" := by decide
  have hcovers : coversPath "./contracts/" "contracts/A.sol" = true := by decide
  have hwithin : Within (base "./contracts/") "contracts/A.sol" := by decide
  have hboundary := (coversPath_iff_within_iff "./contracts/" "contracts/A.sol" hplain).2
  exact ⟨hplain, by decide, hcovers, hwithin, hboundary.mp (iff_of_true hcovers hwithin)⟩

/-- The path of a directory covers what lies below another one whose name begins with it. -/
theorem coversPath_beside_directory :
    Text.IsPlain "contracts" ∧ coversPath "contracts" "contracts-old/A.sol" = true ∧
      ¬Within (base "contracts") "contracts-old/A.sol" := by
  decide

end Exemption

end ContractAudit
