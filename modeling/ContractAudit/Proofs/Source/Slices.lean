import Mathlib.Data.List.Infix
import Mathlib.Data.List.TakeWhile
import ContractAudit.Proofs.Source.Spelling

/-!
A source text as the sequence of its pieces, and the lines of its tokens.

Scanning counts the line breaks of gaps and never looks into tokens. So a token is numbered too low
by the line breaks inside the tokens in front of it.

* `slices`: the pieces of a text with the bytes that scanning takes for them. No byte is left out
  (`joined_slices`), and scanning can be taken up in front of any of them
  (`exists_scanOn_of_append`).
* `lineBreaks_of_gap`: a gap counts the line breaks among its bytes.
* `Slice.SpansLines`: the tokens with a line break inside. These are string literals with an escaped
  one, and bytes outside the ASCII range right in front of one (`newline_mem_token_iff`).
* `linesRight_iff`: all lines are right exactly if there is no such token.
-/

namespace ContractAudit.Source

/-! ### Slices -/

/-- A piece of a text with the bytes that scanning takes for it. -/
structure Slice where
  piece : Piece
  bytes : Text
deriving DecidableEq, Repr

/-- The pieces of a text, in order. -/
def slices : Text → List Slice
  | [] => []
  | c :: rest =>
    ⟨piece c rest, (c :: rest).take (piece c rest).size⟩ :: slices
      ((c :: rest).drop (piece c rest).size)
termination_by src => src.length
decreasing_by
  have hpos := piece_size_pos c rest
  rw [List.length_drop, List.length_cons]
  omega

/-- The class and the text of a piece that is a token. -/
def Piece.word? : Piece → Option (TokenKind × Text)
  | .gap .. => none
  | .lexeme kind text => some (kind, text)

/-- The tokens among some slices. -/
def words (ss : List Slice) : List (TokenKind × Text) := ss.filterMap (·.piece.word?)

/-- The bytes of some slices. -/
def joined (ss : List Slice) : Text := ss.flatMap (·.bytes)

/-- The line breaks of some slices that scanning does not count: those inside tokens. -/
def hiddenBreaks (ss : List Slice) :
    Nat := Text.lineBreaks (joined (ss.filter (·.piece.word?.isSome)))

lemma lineBreaks_joined_cons (s : Slice) (ss : List Slice) :
    Text.lineBreaks (joined (s :: ss)) = Text.lineBreaks s.bytes + Text.lineBreaks (joined ss) := by
  rw [joined, List.flatMap_cons, Text.lineBreaks, List.count_append, joined]
  rfl

lemma hiddenBreaks_append (first second : List Slice) :
    hiddenBreaks (first ++ second) = hiddenBreaks first + hiddenBreaks second := by
  simp only [hiddenBreaks, joined, Text.lineBreaks, List.filter_append, List.flatMap_append,
    List.count_append]

/-- The slices of a text are the text. -/
lemma joined_slices (src : Text) : joined (slices src) = src := by
  fun_induction slices src with
  | case1 => rfl
  | case2 c rest ih =>
    rw [joined] at ih
    rw [joined, List.flatMap_cons, ih, List.take_append_drop]

variable {src rest text : Text} {s : Slice} {c : UInt8} {kind : TokenKind}

lemma mem_slices (h : s ∈ slices src) :
    ∃ c rest, s = ⟨piece c rest, (c :: rest).take (piece c rest).size⟩ := by
  fun_induction slices src with
  | case1 => contradiction
  | case2 c rest ih =>
    rcases List.mem_cons.mp h with rfl | h
    · exact ⟨c, rest, rfl⟩
    · exact ih h

lemma bytes_infix_of_mem (h : s ∈ slices src) : s.bytes <:+: src := by
  obtain ⟨before, behind, hsplit⟩ := List.append_of_mem h
  refine ⟨joined before, joined behind, ?_⟩
  rw [← joined_slices src, hsplit]
  simp [joined]

/-! ### Gaps -/

/-- A gap counts its line breaks. -/
lemma lineBreaks_of_gap {size breaks : Nat} (h : piece c rest = .gap size breaks) :
    Text.lineBreaks ((c :: rest).take size) = breaks := by
  unfold piece at h
  split_ifs at h with hbreak hblank hline hblock
  · cases h
    simp [Text.lineBreaks, beq_iff_eq.mp hbreak]
  · cases h
    simpa [Text.lineBreaks, List.count_cons] using hbreak
  · -- a line comment goes up to the next line break
    cases h
    obtain ⟨rfl, -⟩ : c = 47 ∧ _ := by simpa using hline
    have htake : rest.take (rest.takeWhile (· != Text.newline)).length = rest.takeWhile
      (· != Text.newline) := (List.prefix_iff_eq_take.mp ( List.takeWhile_prefix _)).symm
    rw [Nat.add_comm, List.take_succ_cons, htake, Text.lineBreaks, List.count_eq_zero]
    intro hmem
    rcases List.mem_cons.mp hmem with heq | hmem
    · contradiction
    · simpa using List.mem_takeWhile_imp hmem
  · cases h
    obtain ⟨rfl, hhead⟩ : c = 47 ∧ rest.head? = some 42 := by simpa using hblock
    obtain ⟨rest, rfl⟩ := List.head?_eq_some_iff.mp hhead
    rw [Nat.add_comm, List.take_succ_cons, List.take_succ_cons]
    simp [Text.lineBreaks, Text.newline]

/-! ### Tokens -/

lemma prefix_literalRest (quote : UInt8) (rest : Text) : literalRest quote rest <+: rest := by
  fun_induction literalRest quote rest with
  | case1 => exact List.prefix_rfl
  | case2 => exact List.nil_prefix
  | case3 => exact List.prefix_rfl
  | case4 c d rest => exact ⟨d :: rest, rfl⟩
  | case5 => exact List.nil_prefix
  | case6 c d rest _ _ _ ih => simpa using ih
  | case7 c d rest _ _ _ ih => simpa using ih

/-- A line break in a string literal is an escaped one. -/
lemma escaped_of_mem_literalRest {quote : UInt8} (hquote : quote ≠ Text.newline)
    (h : Text.newline ∈ literalRest quote rest) :
    [92, Text.newline] <:+: literalRest quote rest := by
  fun_induction literalRest quote rest with
  | case1 => contradiction
  | case2 => contradiction
  | case3 c hc => simp_all
  | case4 c d rest hc => simp_all
  | case5 => contradiction
  | case6 c d rest _ _ hescape ih =>
    obtain rfl : c = 92 := by simpa using hescape
    rcases List.mem_cons.mp h with heq | h
    · contradiction
    rcases List.mem_cons.mp h with rfl | h
    · exact (List.prefix_append [92, Text.newline] _).isInfix
    · exact (ih h).trans (List.suffix_append [92, d] _).isInfix
  | case7 c d rest _ hbreak _ ih =>
    rcases List.mem_cons.mp h with rfl | h
    · simp at hbreak
    · exact (ih h).trans (List.suffix_cons c _).isInfix

/-- A token is neither white space nor a comment. -/
lemma start_of_lexeme (h : piece c rest = .lexeme kind text) :
    isWhite c = false ∧ (c = 47 → rest.head? ≠ some 47 ∧ rest.head? ≠ some 42) := by
  unfold piece at h
  split_ifs at h with hbreak hblank hline hblock
  all_goals
    refine ⟨by simp [isWhite, hbreak, hblank], ?_⟩
    rintro rfl
    exact ⟨by simpa using hline, by simpa using hblock⟩

lemma length_encode_of_le (hc : 128 ≤ c) : (Text.encode c.toNat).length = 2 := by
  have hle : 128 ≤ c.toNat := UInt8.le_iff_toNat_le.mp hc
  rw [encode_toNat, if_neg (Nat.not_lt.mpr hle)]
  rfl

/-- A byte and those behind it that belong to a class without line breaks. -/
lemma cons_takeWhile_plain {p : UInt8 → Bool} (hp : p Text.newline = false) (hc : Text.newline ≠ c)
    (rest : Text) : c :: rest.takeWhile p <+: c :: rest ∧ Text.newline ∉ c :: rest.takeWhile p := by
  refine ⟨List.cons_prefix_cons.mpr ⟨rfl, List.takeWhile_prefix p⟩, fun hmem => ?_⟩
  have hbody := List.mem_takeWhile_imp ((List.mem_cons.mp hmem).resolve_left hc)
  rw [hp] at hbody
  contradiction

/-- What the text of a token is, by its class. A mark outside the ASCII range is written as two
bytes. -/
lemma lexeme_cases (h : piece c rest = .lexeme kind text) :
    (text <+: c :: rest ∧ Text.newline ∉ text ∧ kind ≠ .string) ∨
      (text = c :: literalRest c rest ∧ isQuote c = true ∧ kind = .string) ∨
      (128 ≤ c ∧ text.length = 2 ∧ kind = .punct) := by
  obtain ⟨hwhite, hcomment⟩ := start_of_lexeme h
  have hbreak : Text.newline ≠ c := by
    rintro rfl
    contradiction
  rw [piece_of_not_white hwhite hcomment] at h
  split_ifs at h with hname hdigit hquote
  · cases h
    obtain ⟨hhead, hplain⟩ := cons_takeWhile_plain (p := inName) (by decide) hbreak rest
    exact .inl ⟨hhead, hplain, by decide⟩
  · cases h
    obtain ⟨hhead, hplain⟩ := cons_takeWhile_plain (p := inNumber) (by decide) hbreak rest
    exact .inl ⟨hhead, hplain, by decide⟩
  · cases h
    exact .inr (.inl ⟨rfl, hquote, rfl⟩)
  · cases h
    rw [punctuation]
    split
    · next op hop =>
      have hplain : ∀ op ∈ operators, Text.newline ∉ op := by decide +kernel
      have hhead := List.find?_some (p := fun op : Text => op.isPrefixOf (c :: rest)) hop
      exact .inl ⟨List.isPrefixOf_iff_prefix.mp hhead, hplain op (List.mem_of_find?_eq_some hop), by
        decide⟩
    · by_cases hascii : c < 128
      · rw [Text.encode_ascii hascii]
        exact .inl ⟨⟨rest, rfl⟩, by simpa using hbreak, by decide⟩
      · exact .inr (.inr ⟨UInt8.not_lt.mp hascii, length_encode_of_le (UInt8.not_lt.mp hascii),
          rfl⟩)

/-- The text of a token that is its own source. Only a mark outside the ASCII range is not. -/
lemma prefix_of_lexeme (h : piece c rest = .lexeme kind text) (hc : c < 128) :
    text <+: c :: rest := by
  rcases lexeme_cases h with ⟨hhead, -, -⟩ | ⟨rfl, -, -⟩ | ⟨hle, -, -⟩
  · exact hhead
  · exact List.cons_prefix_cons.mpr ⟨rfl, prefix_literalRest c rest⟩
  · exact absurd hc (UInt8.not_lt.mpr hle)

/-! ### Tokens with a line break inside -/

/-- A token with a line break inside: a string literal with an escaped one, or a byte outside the
ASCII range right in front of one. -/
def Slice.SpansLines : Slice → Prop
  | ⟨.gap .., _⟩ => False
  | ⟨.lexeme kind _, bytes⟩ =>
    (kind = .string ∧ [92, Text.newline] <:+: bytes) ∨ ∃ c, 128 ≤ c ∧ bytes = [c, Text.newline]

/-- Where a token can have a line break inside. -/
lemma newline_mem_lexeme_iff (h : piece c rest = .lexeme kind text) :
    Text.newline ∈ (c :: rest).take text.length ↔
      (kind = .string ∧ [92, Text.newline] <:+: (c :: rest).take text.length) ∨
        ∃ d, 128 ≤ d ∧ (c :: rest).take text.length = [d, Text.newline] := by
  constructor
  · intro hmem
    rcases lexeme_cases h with ⟨hhead, hplain, -⟩ | ⟨rfl, hquote, rfl⟩ | ⟨hle, hlength, rfl⟩
    · rw [← List.prefix_iff_eq_take.mp hhead] at hmem
      exact absurd hmem hplain
    · have hquote' : c ≠ Text.newline := by
        rintro rfl
        contradiction
      have htake := List.prefix_iff_eq_take.mp (prefix_literalRest c rest)
      rw [List.length_cons, List.take_succ_cons, ← htake] at hmem ⊢
      have hbody :=
        escaped_of_mem_literalRest hquote' ((List.mem_cons.mp hmem).resolve_left hquote'.symm)
      exact .inl ⟨rfl, hbody.trans (List.suffix_cons c _).isInfix⟩
    · have hne : Text.newline ≠ c := by
        rintro rfl
        contradiction
      rw [hlength] at hmem ⊢
      cases rest with
      | nil => exact absurd (List.mem_singleton.mp hmem) hne
      | cons d rest =>
        obtain rfl := List.mem_singleton.mp ((List.mem_cons.mp hmem).resolve_left hne)
        exact .inr ⟨c, hle, rfl⟩
  · rintro (⟨-, hescaped⟩ | ⟨d, -, heq⟩)
    · exact hescaped.subset (by simp)
    · simp [heq]

/-- The tokens with line breaks inside are those that span lines. -/
lemma newline_mem_token_iff (hs : s ∈ slices src) :
    s.piece.word?.isSome = true ∧ Text.newline ∈ s.bytes ↔ s.SpansLines := by
  obtain ⟨c, rest, rfl⟩ := mem_slices hs
  cases hpiece : piece c rest with
  | gap size breaks => exact iff_of_false (fun h => Bool.noConfusion h.1) id
  | lexeme kind text => exact (and_iff_right rfl).trans (newline_mem_lexeme_iff hpiece)

/-! ### The lines of tokens -/

lemma endLine_scanOn_of_lexeme (h : piece c rest = .lexeme kind text) (line : Nat) :
    (scanOn line (c :: rest)).endLine = (scanOn line ((c :: rest).drop text.length)).endLine := by
  have hsize : 0 < text.length := by
    have hpos := piece_size_pos c rest
    rwa [h] at hpos
  rw [scanOn, List.length_cons, scanFrom, h]
  show (scanFrom rest.length line ((c :: rest).drop text.length)).endLine = _
  refine congrArg Tokens.endLine (scanFrom_eq_of_le ?_ _)
  rw [List.length_drop, List.length_cons]
  omega

/-- Scanning can be taken up in front of any slice. The line on which it goes on is too low by the
line breaks inside the tokens before. -/
lemma exists_scanOn_of_append {before behind : List Slice} (h : slices src = before ++ behind)
    (line : Nat) :
    ∃ (tokens : List Token) (line' : Nat), tokens.map Token.word = words before ∧
      line' + hiddenBreaks before = line + Text.lineBreaks (joined before) ∧
      (scanOn line src).list = tokens ++ (scanOn line' (joined behind)).list ∧
      (scanOn line src).endLine = (scanOn line' (joined behind)).endLine ∧
        slices (joined behind) = behind := by
  induction before generalizing src line with
  | nil =>
    obtain rfl : src = joined behind := by rw [← joined_slices src, h, List.nil_append]
    exact ⟨[], line, rfl, rfl, rfl, rfl, h⟩
  | cons s before ih =>
    cases src with
    | nil =>
      rw [slices] at h
      contradiction
    | cons c rest =>
      rw [slices, List.cons_append, List.cons.injEq] at h
      obtain ⟨rfl, h⟩ := h
      cases hpiece : piece c rest with
      | gap size breaks =>
        rw [hpiece] at h
        obtain ⟨tokens, line', hwords, hline, hlist, hend, hbehind⟩ := ih h (line + breaks)
        refine ⟨tokens, line', hwords, ?_, ?_, ?_, hbehind⟩
        · have hbreaks := lineBreaks_of_gap hpiece
          rw [hiddenBreaks, List.filter_cons_of_neg Bool.false_ne_true, ← hiddenBreaks,
            lineBreaks_joined_cons]
          simp only [Piece.size, hbreaks]
          omega
        · rw [scanOn_of_gap hpiece]
          exact hlist
        · rw [scanOn_of_gap hpiece]
          exact hend
      | lexeme kind text =>
        rw [hpiece] at h
        obtain ⟨tokens, line', hwords, hline, hlist, hend, hbehind⟩ := ih h line
        refine ⟨⟨kind, text, line⟩ :: tokens, line', congrArg _ hwords, ?_, ?_, ?_, hbehind⟩
        · rw [hiddenBreaks, List.filter_cons_of_pos rfl, lineBreaks_joined_cons, ← hiddenBreaks,
            lineBreaks_joined_cons]
          omega
        · rw [scanOn_of_lexeme hpiece]
          exact congrArg _ hlist
        · rw [endLine_scanOn_of_lexeme hpiece]
          exact hend

/-- Scanning starts with the first slice, if that is a token. -/
lemma scanOn_of_slices {behind : List Slice} (h : slices src = s :: behind)
    (hs : s.piece.word?.isSome = true) (line : Nat) :
    ∃ kind text more, (scanOn line src).list = ⟨kind, text, line⟩ :: more := by
  cases src with
  | nil =>
    rw [slices] at h
    contradiction
  | cons c rest =>
    rw [slices, List.cons.injEq] at h
    obtain ⟨rfl, -⟩ := h
    cases hpiece : piece c rest with
    | gap size breaks =>
      rw [hpiece] at hs
      contradiction
    | lexeme kind text => exact ⟨kind, text, _, scanOn_of_lexeme hpiece line⟩

/-- The lines of all tokens are right, and so is that of the end: each is one more than the number
of line breaks in front of it. -/
structure LinesRight (src : Text) : Prop where
  tokens : ∀ before s behind t, slices src = before ++ s :: behind → s.piece.word?.isSome = true →
    (scan src).list[(words before).length]? = some t → t.line = 1 + Text.lineBreaks (joined before)
  ending : (scan src).endLine = 1 + Text.lineBreaks src

/-- The words of a scan are those of the slices, and a token and the end are numbered too low by the
line breaks inside the tokens before. -/
lemma scan_drift (src : Text) :
    (scan src).list.map Token.word = words (slices src) ∧
      (∀ before s behind t, slices src = before ++ s :: behind → s.piece.word?.isSome = true →
        (scan src).list[(words before).length]? = some t →
          t.line + hiddenBreaks before = 1 + Text.lineBreaks (joined before)) ∧
      (scan src).endLine + hiddenBreaks (slices src) = 1 + Text.lineBreaks src := by
  refine ⟨?_, fun before s behind t hsplit hlexeme ht => ?_, ?_⟩
  · obtain ⟨tokens, line', hwords, -, hlist, -⟩ :=
      exists_scanOn_of_append (List.append_nil (slices src)).symm 1
    have hnone : (scanOn line' (joined [])).list = [] := rfl
    rw [hnone, List.append_nil] at hlist
    rw [← hwords, ← hlist]
    rfl
  · obtain ⟨tokens, line', hwords, hline, hlist, -, hslices⟩ := exists_scanOn_of_append hsplit 1
    obtain ⟨kind, text, more, hfirst⟩ := scanOn_of_slices hslices hlexeme line'
    have hlength : tokens.length = (words before).length := by rw [← hwords, List.length_map]
    have hlist' : (scan src).list = tokens ++ ⟨kind, text, line'⟩ :: more :=
      hlist.trans (congrArg _ hfirst)
    rw [hlist', ← hlength, List.getElem?_append_right (Nat.le_refl _), Nat.sub_self] at ht
    obtain rfl := Option.some.inj ht
    exact hline
  · obtain ⟨tokens, line', -, hline, -, hend, -⟩ :=
      exists_scanOn_of_append (List.append_nil (slices src)).symm 1
    rw [joined_slices] at hline
    have hstart : (scan src).endLine = line' := hend
    rw [hstart, hline]

lemma hiddenBreaks_eq_zero_iff :
    hiddenBreaks (slices src) = 0 ↔ ∀ s ∈ slices src, ¬ s.SpansLines := by
  rw [hiddenBreaks, Text.lineBreaks, List.count_eq_zero]
  simp only [joined, List.mem_flatMap, List.mem_filter, not_exists, not_and, and_imp]
  exact forall₂_congr fun s hs => by rw [← newline_mem_token_iff hs, not_and]

/-- A token that spans lines shows in the source: a line break right behind a backslash or a byte
outside the ASCII range. -/
lemma not_spansLines_of_plain (h : ∀ c, [c, Text.newline] <:+: src → c < 128 ∧ c ≠ 92)
    (hs : s ∈ slices src) :
    ¬ s.SpansLines := by
  have hinfix := bytes_infix_of_mem hs
  obtain ⟨_ | ⟨kind, text⟩, bytes⟩ := s
  · exact id
  · rintro (⟨-, hescaped⟩ | ⟨c, hle, rfl⟩)
    · exact (h 92 (hescaped.trans hinfix)).2 rfl
    · exact UInt8.not_lt.mpr hle (h c hinfix).1

/-- The lines of tokens are right exactly in texts without a token that spans lines. In general a
token is numbered too low by the line breaks inside the tokens in front of it. A text in which no
line break follows a backslash or a byte outside the ASCII range has no token that spans lines. -/
theorem linesRight_iff (src : Text) :
    joined (slices src) = src ∧ (scan src).list.map Token.word = words (slices src) ∧
      (∀ before s behind t, slices src = before ++ s :: behind → s.piece.word?.isSome = true →
        (scan src).list[(words before).length]? = some t →
          t.line + hiddenBreaks before = 1 + Text.lineBreaks (joined before)) ∧
      (LinesRight src ↔ ∀ s ∈ slices src, ¬ s.SpansLines) ∧
      ((∀ c, [c, Text.newline] <:+: src → c < 128 ∧ c ≠ 92) → LinesRight src) := by
  obtain ⟨hwords, hlines, hend⟩ := scan_drift src
  have hright : LinesRight src ↔ ∀ s ∈ slices src, ¬ s.SpansLines := by
    rw [← hiddenBreaks_eq_zero_iff]
    constructor
    · intro h
      have hending := h.ending
      omega
    · intro hzero
      refine ⟨fun before s behind t hsplit hlexeme ht => ?_, by omega⟩
      have hline := hlines before s behind t hsplit hlexeme ht
      have hbefore : hiddenBreaks before = 0 := by
        rw [hsplit, hiddenBreaks_append] at hzero
        exact Nat.eq_zero_of_add_eq_zero_right hzero
      omega
  exact ⟨joined_slices src, hwords, hlines, hright, fun h => hright.mpr fun s hs =>
    not_spansLines_of_plain h hs⟩

/-- The literal in front of the name has an escaped line break in it, and the name and the end are
numbered as if they were on the first line. -/
theorem not_linesRight_escapedBreak :
    (scan "'\\\n'x").list = [⟨.string, "'\\\n'", 1⟩, ⟨.ident, "x", 1⟩] ∧
      (scan "'\\\n'x").endLine = 1 ∧ ¬ LinesRight "'\\\n'x" := by
  refine ⟨by decide +kernel, by decide +kernel, fun h => ?_⟩
  have hbreaks : (scan "'\\\n'x").endLine ≠ 1 + Text.lineBreaks "'\\\n'x" := by decide +kernel
  exact hbreaks h.ending

end ContractAudit.Source
