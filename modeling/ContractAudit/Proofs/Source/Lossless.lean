import ContractAudit.Proofs.Source.Slices

/-!
Scanning loses no byte of an ASCII text.

A text is the texts of its tokens with gaps around them, whatever the text: literals and comments
may lack their ends, and comment marks may overlap. Only the last gap can hold a comment that has no
end.

* `Fringe`: what the end of a text can cut off.
* `Interleaved`: a text made of tokens and gaps. No token starts with what belongs to a gap.
* `scan_interleaved`: every ASCII text is made of the tokens of its scan and gaps.
-/

namespace ContractAudit.Source

/-- A comment without its end, or nothing. -/
inductive Fringe : Text → Prop where
  | nil : Fringe []
  | line {comment : Text} (hcomment : Text.newline ∉ comment) : Fringe (47 :: 47 :: comment)
  | block {comment : Text} (hcomment : ¬ [42, 47] <:+: comment) : Fringe (47 :: 42 :: comment)

/-- Neither white space nor a comment starts here. -/
def Solid (src : Text) : Prop :=
  ∃ c rest, src = c :: rest ∧ isWhite c = false ∧ (c = 47 → rest.head? ≠ some 47 ∧
    rest.head? ≠ some 42)

/-- The text consists of texts of tokens, in order, with gaps between and around them. -/
inductive Interleaved : List Text → Text → Prop where
  | last {gap fringe : Text} (hgap : Gap gap) (hfringe : Fringe fringe) : Interleaved []
      (gap ++ fringe)
  | cons {gap text src : Text} {texts : List Text} (hgap : Gap gap) (htext : text ≠ [])
      (hsolid : Solid (text ++ src)) (hsrc : Interleaved texts src) :
      Interleaved (text :: texts) (gap ++ (text ++ src))

namespace Interleaved

variable {texts : List Text} {src : Text}

/-- What can be put in front of a gap can be put in front of such a text. -/
lemma widen (front : Text) (hfront : ∀ gap, Gap gap → Gap (front ++ gap))
    (h : Interleaved texts src) :
    Interleaved texts (front ++ src) := by
  cases h with
  | last hgap hfringe =>
    rw [← List.append_assoc]
    exact .last (hfront _ hgap) hfringe
  | cons hgap htext hsolid hsrc =>
    rw [← List.append_assoc]
    exact .cons (hfront _ hgap) htext hsolid hsrc

lemma white {c : UInt8} (hc : isWhite c = true) (h : Interleaved texts src) :
    Interleaved texts (c :: src) :=
  h.widen [c] fun _ hgap => .white hc hgap

lemma line {comment : Text} (hcomment : Text.newline ∉ comment) (h : Interleaved texts src) :
    Interleaved texts (47 :: 47 :: (comment ++ Text.newline :: src)) := by
  have hwiden := h.widen (47 :: 47 :: (comment ++ [Text.newline])) fun gap hgap => by
    simpa using Gap.line hcomment hgap
  simpa using hwiden

lemma block {comment : Text} (hcomment : ¬ [42, 47] <:+: comment) (h : Interleaved texts src) :
    Interleaved texts (47 :: 42 :: (comment ++ 42 :: 47 :: src)) := by
  have hwiden := h.widen (47 :: 42 :: (comment ++ [42, 47])) fun gap hgap => by
    simpa using Gap.block hcomment hgap
  simpa using hwiden

/-- White space in front belongs to the first gap. -/
lemma of_white {c : UInt8} (hc : isWhite c = true) (h : Interleaved texts (c :: src)) :
    Interleaved texts src := by
  have hslash : c ≠ 47 := (plain_of_white hc).2.2.1
  generalize hall : c :: src = all at h
  cases h with
  | last hgap hfringe =>
    cases hgap with
    | nil => cases hfringe <;> simp_all
    | white _ hrest =>
      obtain ⟨-, rfl⟩ := List.cons.inj hall
      exact .last hrest hfringe
    | line | block => exact absurd (List.cons.inj hall).1 hslash
  | cons hgap htext hsolid hsrc =>
    cases hgap with
    | nil =>
      obtain ⟨d, rest, hstart, hwhite, -⟩ := hsolid
      rw [List.nil_append, hstart] at hall
      obtain ⟨rfl, -⟩ := List.cons.inj hall
      simp [hc] at hwhite
    | white _ hrest =>
      obtain ⟨-, rfl⟩ := List.cons.inj hall
      exact .cons hrest htext hsolid hsrc
    | line | block => exact absurd (List.cons.inj hall).1 hslash

/-- There is no token in nothing. -/
lemma eq_nil (h : Interleaved texts []) : texts = [] := by
  generalize hall : [] = all at h
  cases h with
  | last => rfl
  | cons hgap htext => simp_all

end Interleaved

/-! ### The pieces of a scan -/

/-- A block comment ends with its first closing mark, or with the text. -/
lemma commentSize_cases (rest : Text) :
    (∃ comment behind, rest = comment ++ 42 :: 47 :: behind ∧ ¬ [42, 47] <:+: comment ∧
      commentSize rest = comment.length + 2) ∨
        (¬ [42, 47] <:+: rest ∧ commentSize rest = rest.length) := by
  fun_induction commentSize rest with
  | case1 => exact .inr ⟨by simp, rfl⟩
  | case2 c =>
    refine .inr ⟨fun hclose => ?_, rfl⟩
    have hlength := hclose.length_le
    simp at hlength
  | case3 a b rest hclose =>
    obtain ⟨rfl, rfl⟩ : a = 42 ∧ b = 47 := by simpa using hclose
    exact .inl ⟨[], rest, rfl, by simp, rfl⟩
  | case4 a b rest hclose ih =>
    -- no closing mark starts with the first byte
    have hlater : ∀ {part : Text}, part <+: b :: rest → [42, 47] <:+: a :: part →
      [42, 47] <:+: part := by
      intro part hpart hinfix
      refine (List.infix_cons_iff.mp hinfix).resolve_left fun hhead => ?_
      obtain ⟨rfl, hslash⟩ := List.cons_prefix_cons.mp hhead
      obtain ⟨rfl, -⟩ := List.cons_prefix_cons.mp (hslash.trans hpart)
      exact hclose rfl
    rcases ih with ⟨comment, behind, hrest, hcomment, hsize⟩ | ⟨hcomment, hsize⟩
    · refine .inl ⟨a :: comment, behind, by rw [hrest, List.cons_append], fun hinfix => ?_, ?_⟩
      · exact hcomment (hlater ⟨_, hrest.symm⟩ hinfix)
      · rw [hsize, List.length_cons]
    · exact .inr ⟨fun hinfix => hcomment (hlater List.prefix_rfl hinfix), by rw [hsize]; rfl⟩

variable {texts : List Text} {rest : Text}

/-- A line comment goes up to the next line break, or to the end of the text. -/
lemma Interleaved.of_lineComment (h : Interleaved texts (rest.dropWhile (· != Text.newline))) :
    Interleaved texts (47 :: 47 :: rest) := by
  have hcomment : Text.newline ∉ rest.takeWhile (· != Text.newline) := fun hmem => by
    simpa using List.mem_takeWhile_imp hmem
  rw [← List.takeWhile_append_dropWhile (p := (· != Text.newline)) (l := rest)]
  generalize hbehind : rest.dropWhile (· != Text.newline) = behind at h ⊢
  cases behind with
  | nil =>
    obtain rfl := h.eq_nil
    rw [List.append_nil]
    exact .last .nil (.line hcomment)
  | cons c more =>
    obtain rfl : c = Text.newline := by
      have hhead := List.head?_dropWhile_not (· != Text.newline) rest
      simpa [hbehind] using hhead
    exact (h.of_white rfl).line hcomment

/-- A block comment goes up to its closing mark, or to the end of the text. -/
lemma Interleaved.of_blockComment (h : Interleaved texts (rest.drop (commentSize rest))) :
    Interleaved texts (47 :: 42 :: rest) := by
  rcases commentSize_cases rest with ⟨comment, behind, rfl, hcomment, hsize⟩ | ⟨hcomment, hsize⟩
  · rw [hsize, ← List.drop_drop, List.drop_left] at h
    exact h.block hcomment
  · rw [hsize, List.drop_length] at h
    obtain rfl := h.eq_nil
    exact .last .nil (.block hcomment)

/-- The first piece of a text belongs to a gap, if it is one. -/
lemma Interleaved.of_gap {c : UInt8} {size breaks : Nat} (hpiece : piece c rest = .gap size breaks)
    (h : Interleaved texts ((c :: rest).drop size)) : Interleaved texts (c :: rest) := by
  unfold piece at hpiece
  split_ifs at hpiece with hbreak hblank hline hblock
  · cases hpiece
    exact h.white (by simp [isWhite, hbreak])
  · cases hpiece
    exact h.white (by simp [isWhite, hblank])
  · cases hpiece
    obtain ⟨rfl, hhead⟩ : c = 47 ∧ rest.head? = some 47 := by simpa using hline
    obtain ⟨rest, rfl⟩ := List.head?_eq_some_iff.mp hhead
    have hdrop : rest.drop (rest.takeWhile (· != Text.newline)).length =
        rest.dropWhile (· != Text.newline) := by
      calc rest.drop (rest.takeWhile (· != Text.newline)).length
          = (rest.takeWhile (· != Text.newline) ++ rest.dropWhile (· != Text.newline)).drop
              (rest.takeWhile (· != Text.newline)).length := by rw [List.takeWhile_append_dropWhile]
        _ = rest.dropWhile (· != Text.newline) := List.drop_left
    rw [List.takeWhile_cons_of_pos (by decide), List.length_cons, Nat.add_comm, List.drop_succ_cons,
      List.drop_succ_cons, hdrop] at h
    exact of_lineComment h
  · cases hpiece
    obtain ⟨rfl, hhead⟩ : c = 47 ∧ rest.head? = some 42 := by simpa using hblock
    obtain ⟨rest, rfl⟩ := List.head?_eq_some_iff.mp hhead
    refine of_blockComment ?_
    rwa [Nat.add_comm] at h

/-- **Scanning loses no byte**: an ASCII text is made of the tokens of its scan, in order, and
gaps. -/
theorem scan_interleaved (src : Text) (hascii : ∀ c ∈ src, c < 128) :
    Interleaved ((scan src).list.map Token.text) src := by
  have hscan : ∀ line, Interleaved ((scanOn line src).list.map Token.text) src := by
    fun_induction slices src with
    | case1 => exact fun line => .last .nil .nil
    | case2 c rest ih =>
      intro line
      have hbehind := ih fun d hd => hascii d (List.mem_of_mem_drop hd)
      cases hpiece : piece c rest with
      | gap size breaks =>
        rw [scanOn_of_gap hpiece]
        rw [hpiece] at hbehind
        exact (hbehind (line + breaks)).of_gap hpiece
      | lexeme kind text =>
        obtain ⟨behind, hsplit⟩ := prefix_of_lexeme hpiece (hascii c (List.mem_cons_self ..))
        have hdrop : (c :: rest).drop text.length = behind := by rw [← hsplit, List.drop_left]
        have hne : text ≠ [] := by
          rintro rfl
          have hpos := piece_size_pos c rest
          rw [hpiece] at hpos
          exact Nat.lt_irrefl 0 hpos
        rw [hpiece, Piece.size, hdrop] at hbehind
        rw [scanOn_of_lexeme hpiece, List.map_cons, hdrop, ← hsplit]
        exact .cons .nil hne ⟨c, rest, hsplit, start_of_lexeme hpiece⟩ (hbehind line)
  exact hscan 1

/-- A text with a quote in a comment, a comment mark in a literal, a block comment that its opening
mark does not close, and a literal that a backslash keeps open up to the end. -/
def malformedSample : Text := "a/*/'*/ >>=// \"\n1.x\"/*\" b/ \t'\\"

/-- The tokens of the malformed sample. -/
def malformedTexts : List Text := Text.ofStrings ["a", ">>=", "1.x", "\"/*\"", "b", "/", "'\\"]

/-- The tokens of the malformed sample and the gaps around them are the whole text. -/
theorem scan_interleaved_malformed :
    (∀ c ∈ malformedSample, c < 128) ∧ (scan malformedSample).list.map Token.text = malformedTexts ∧
      Interleaved malformedTexts malformedSample := by
  have hascii : ∀ c ∈ malformedSample, c < 128 := by decide +kernel
  have htexts : (scan malformedSample).list.map Token.text = malformedTexts := by decide +kernel
  exact ⟨hascii, htexts, htexts ▸ scan_interleaved malformedSample hascii⟩

end ContractAudit.Source
