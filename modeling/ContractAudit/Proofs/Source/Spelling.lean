import Mathlib.Data.List.Find
import Mathlib.Data.Nat.Init
import Mathlib.Tactic.SplitIfs
import ContractAudit.Proofs.Source.Lexemes
import ContractAudit.Proofs.Text.Utf8

/-!
Tokens that are written out and scanned come back.

Scanning takes the longest piece it can, so that a token written in front of another may swallow
part of it. White space between tokens keeps them apart, whatever comments follow it.

* `Spells`: the texts that are a token of a class by themselves. `Gap` and `Separator` are what may
  stand between tokens.
* `scanOn`: the scan without a bound on the number of pieces, and its equation for either kind of
  piece.
* `Ends`: what no token goes on into. `Spells.piece` says that a token in front of it is the next
  piece, and `Gap.scanOn` that gaps are passed over.
* `scan_of_spelled`: scanning tokens with separators between them gives these tokens.
-/

namespace ContractAudit.Source

/-! ### Tokens and what stands between them -/

/-- Whether `c` is white space. -/
def isWhite (c : UInt8) : Bool := c == Text.newline || isBlank c

/-- What may stand between the quotes of a string literal: neither the quote nor a line break,
unless behind a backslash, and no backslash without a byte behind it. -/
inductive LiteralBody (quote : UInt8) : Text → Prop where
  | nil : LiteralBody quote []
  | plain {c : UInt8} {rest : Text} (hquote : c ≠ quote) (hbreak : c ≠ Text.newline)
      (hescape : c ≠ 92)
      (hrest : LiteralBody quote rest) : LiteralBody quote (c :: rest)
  | escaped (c : UInt8) {rest : Text} (hrest : LiteralBody quote rest) :
      LiteralBody quote (92 :: c :: rest)

/-- The bytes that are a token alone: of the ASCII range, and neither white space nor the first byte
of a name, a number or a string literal. -/
def isMark (c : UInt8) : Bool :=
  c < 128 && !isWhite c && !opensName c && !Text.isDigit c && !isQuote c

/-- The text is a token of the given class by itself. -/
inductive Spells : TokenKind → Text → Prop where
  | ident {c : UInt8} {rest : Text} (hc : opensName c = true)
      (hrest : ∀ d ∈ rest, inName d = true) : Spells .ident (c :: rest)
  | number {c : UInt8} {rest : Text} (hc : Text.isDigit c = true)
      (hrest : ∀ d ∈ rest, inNumber d = true) : Spells .number (c :: rest)
  | string {quote : UInt8} {body : Text} (hquote : isQuote quote = true)
      (hbody : LiteralBody quote body) : Spells .string (quote :: (body ++ [quote]))
  | operator {op : Text} (hop : op ∈ operators) : Spells .punct op
  | mark {c : UInt8} (hc : isMark c = true) : Spells .punct [c]

/-- White space and comments. A line comment includes its line break, and a block comment ends with
the first closing mark in it. -/
inductive Gap : Text → Prop where
  | nil : Gap []
  | white {c : UInt8} {rest : Text} (hc : isWhite c = true) (hrest : Gap rest) : Gap (c :: rest)
  | line {comment rest : Text} (hcomment : Text.newline ∉ comment) (hrest : Gap rest) :
      Gap (47 :: 47 :: (comment ++ Text.newline :: rest))
  | block {comment rest : Text} (hcomment : ¬ [42, 47] <:+: comment) (hrest : Gap rest) :
      Gap (47 :: 42 :: (comment ++ 42 :: 47 :: rest))

/-- A gap that starts with white space. -/
inductive Separator : Text → Prop where
  | intro {c : UInt8} {rest : Text} (hc : isWhite c = true) (hrest : Gap rest) :
      Separator (c :: rest)

/-- The text consists of the given tokens with separators between neighbours. -/
inductive Spelled : List (TokenKind × Text) → Text → Prop where
  | nil : Spelled [] []
  | last {kind : TokenKind} {text : Text} (htext : Spells kind text) : Spelled [(kind, text)] text
  | cons {kind : TokenKind} {text separator src : Text} {next : TokenKind × Text}
      {more : List (TokenKind × Text)} (htext : Spells kind text) (hsep : Separator separator)
      (hsrc : Spelled (next :: more) src) :
      Spelled ((kind, text) :: next :: more) (text ++ (separator ++ src))

/-! ### Scanning without a bound -/

/-- The number of bytes of a piece. -/
def Piece.size : Piece → Nat
  | .gap size _ => size
  | .lexeme _ text => text.length

lemma length_punctuation_pos (c : UInt8) (rest : Text) : 0 < (punctuation c rest).length := by
  have hoperators : ∀ op ∈ operators, 0 < op.length := by decide
  rw [punctuation]
  split
  · next op hop => exact hoperators op (List.mem_of_find?_eq_some hop)
  · rw [Text.encode]
    split_ifs <;> simp

/-- Every piece takes a byte. -/
lemma piece_size_pos (c : UInt8) (rest : Text) : 0 < (piece c rest).size := by
  unfold piece
  split_ifs
  · exact Nat.one_pos
  · exact Nat.one_pos
  · exact Nat.lt_add_right _ Nat.one_pos
  · exact Nat.lt_add_right _ Nat.two_pos
  · exact Nat.succ_pos _
  · exact Nat.succ_pos _
  · exact Nat.succ_pos _
  · exact length_punctuation_pos c rest

/-- As many pieces as there are bytes are enough. -/
lemma scanFrom_eq_of_le {fuel : Nat} {src : Text} (h : src.length ≤ fuel) (line : Nat) :
    scanFrom fuel line src = scanFrom src.length line src := by
  induction hlength : src.length using Nat.strong_induction_on generalizing fuel line src with
  | _ length ih =>
    subst hlength
    cases src with
    | nil => cases fuel <;> rfl
    | cons c rest =>
      obtain ⟨fuel, rfl⟩ : ∃ n, fuel = n + 1 := ⟨fuel - 1, by simp at h; omega⟩
      have hshorter : ((c :: rest).drop (piece c rest).size).length < (c :: rest).length := by
        have hpos := piece_size_pos c rest
        rw [List.length_drop, List.length_cons]
        omega
      rw [List.length_cons] at h hshorter
      have hstep : ∀ line, scanFrom fuel line ((c :: rest).drop (piece c rest).size) =
          scanFrom rest.length line ((c :: rest).drop (piece c rest).size) := by
        intro line
        rw [ih _ hshorter (show _ ≤ fuel by omega) line rfl,
          ih _ hshorter (show _ ≤ rest.length by omega) line rfl]
      rw [List.length_cons, scanFrom, scanFrom]
      cases hpiece : piece c rest with
      | gap size breaks =>
        rw [hpiece] at hstep
        exact hstep _
      | lexeme kind text =>
        rw [hpiece] at hstep
        exact congrArg (fun following : Tokens =>
          { following with list := ⟨kind, text, line⟩ :: following.list }) (hstep line)

/-- The tokens of a text that starts on the given line. -/
def scanOn (line : Nat) (src : Text) : Tokens := scanFrom src.length line src

variable {c : UInt8} {rest text behind : Text} {kind : TokenKind}

lemma scanOn_of_gap {size breaks : Nat} (h : piece c rest = .gap size breaks) (line : Nat) :
    scanOn line (c :: rest) = scanOn (line + breaks) ((c :: rest).drop size) := by
  have hsize : 0 < size := by
    have hpos := piece_size_pos c rest
    rwa [h] at hpos
  rw [scanOn, List.length_cons, scanFrom, h]
  refine scanFrom_eq_of_le ?_ _
  rw [List.length_drop, List.length_cons]
  omega

lemma scanOn_of_lexeme (h : piece c rest = .lexeme kind text) (line : Nat) :
    (scanOn line (c :: rest)).list =
      ⟨kind, text, line⟩ :: (scanOn line ((c :: rest).drop text.length)).list := by
  have hsize : 0 < text.length := by
    have hpos := piece_size_pos c rest
    rwa [h] at hpos
  rw [scanOn, List.length_cons, scanFrom, h]
  refine congrArg (fun following : Tokens => _ :: following.list) (scanFrom_eq_of_le ?_ _)
  rw [List.length_drop, List.length_cons]
  omega

/-! ### Gaps -/

/-- A block comment ends with its first closing mark. -/
lemma commentSize_append {comment : Text} (h : ¬ [42, 47] <:+: comment) (rest : Text) :
    commentSize (comment ++ 42 :: 47 :: rest) = comment.length + 2 := by
  induction comment with
  | nil => rfl
  | cons a comment ih =>
    have hinner := ih fun hpart => h (hpart.trans (List.suffix_cons a comment).isInfix)
    cases comment with
    | nil => simp [commentSize]
    | cons b comment =>
      have hopen : (a == 42 && b == 47) = false := by
        rw [Bool.and_eq_false_iff, beq_eq_false_iff_ne, beq_eq_false_iff_ne, ← not_and_or]
        rintro ⟨rfl, rfl⟩
        exact h (List.prefix_append [42, 47] comment).isInfix
      rw [List.cons_append] at hinner
      rw [List.cons_append, List.cons_append, commentSize, hopen, if_neg Bool.false_ne_true, hinner]
      rfl

lemma piece_of_white (hc : isWhite c = true) (rest : Text) :
    ∃ breaks, piece c rest = .gap 1 breaks := by
  rw [isWhite, Bool.or_eq_true] at hc
  unfold piece
  by_cases hbreak : (c == Text.newline) = true
  · exact ⟨1, if_pos hbreak⟩
  · exact ⟨0, by rw [if_neg hbreak, if_pos (hc.resolve_left hbreak)]⟩

/-- Gaps are passed over. -/
lemma Gap.scanOn {gap : Text} (h : Gap gap) (src : Text) (line : Nat) :
    ∃ line', scanOn line (gap ++ src) = Source.scanOn line' src := by
  induction h generalizing line with
  | nil => exact ⟨line, rfl⟩
  | white hc _ ih =>
    obtain ⟨breaks, hpiece⟩ := piece_of_white hc _
    rw [List.cons_append, scanOn_of_gap hpiece]
    exact ih _
  | @line comment rest hcomment _ ih =>
    have htake : (47 :: (comment ++ Text.newline :: (rest ++ src))).takeWhile (· != Text.newline) =
        47 :: comment := by
      rw [List.takeWhile_cons_of_pos (by decide), List.takeWhile_append_of_pos,
        List.takeWhile_cons_of_neg, List.append_nil]
      · simp
      · exact fun c hc => bne_iff_ne.mpr fun heq => hcomment (heq ▸ hc)
    have hpiece : piece 47 (47 :: (comment ++ Text.newline :: (rest ++ src))) =
        .gap (1 + (47 :: comment).length) 0 := by
      rw [← htake]
      rfl
    -- the line break behind the comment is a piece of its own
    obtain ⟨breaks, hbreak⟩ := piece_of_white (c := Text.newline) rfl (rest ++ src)
    obtain ⟨line', hrest⟩ := ih (line + 0 + breaks)
    refine ⟨line', ?_⟩
    simp only [List.cons_append, List.append_assoc]
    rw [scanOn_of_gap hpiece, List.length_cons, Nat.add_comm 1, List.drop_succ_cons,
      List.drop_succ_cons, List.drop_left, scanOn_of_gap hbreak]
    exact hrest
  | @block comment rest hcomment _ ih =>
    have hpiece : ∃ breaks, piece 47 (42 :: (comment ++ 42 :: 47 :: (rest ++ src))) =
        .gap (2 + (comment.length + 2)) breaks := by
      rw [← commentSize_append hcomment (rest ++ src)]
      exact ⟨_, rfl⟩
    obtain ⟨breaks, hpiece⟩ := hpiece
    obtain ⟨line', hrest⟩ := ih (line + breaks)
    refine ⟨line', ?_⟩
    have hdrop : (47 :: 42 :: (comment ++ 42 :: 47 :: (rest ++ src))).drop
        (2 + (comment.length + 2)) = rest ++ src := by
      rw [Nat.add_comm 2, List.drop_succ_cons, List.drop_succ_cons, ← List.drop_drop,
        List.drop_left]
      rfl
    simp only [List.cons_append, List.append_assoc]
    rw [scanOn_of_gap hpiece, hdrop]
    exact hrest

/-! ### Tokens in front of white space -/

/-- Nothing, or a text that starts with white space. No token goes on into such a text. -/
def Ends (behind : Text) : Prop := ∀ c ∈ behind.head?, isWhite c = true

lemma Separator.ends {separator : Text} (h : Separator separator) (src : Text) :
    Ends (separator ++ src) := by
  obtain ⟨hc, -⟩ := h
  rintro d hd
  obtain rfl := Option.some.inj hd
  exact hc

/-- White space belongs to no class of bytes that tokens are made of. -/
lemma plain_of_white (hc : isWhite c = true) :
    inNumber c = false ∧ inName c = false ∧ c ≠ 47 ∧ c ≠ 42 := by
  simp only [isWhite, isBlank, Text.newline, Bool.or_eq_true, beq_iff_eq] at hc
  rcases hc with rfl | (rfl | rfl) | rfl <;> decide

lemma takeWhile_append_ends {p : UInt8 → Bool} (hp : ∀ c, isWhite c = true → p c = false)
    (hrest : ∀ c ∈ rest, p c = true) (hends : Ends behind) :
    (rest ++ behind).takeWhile p = rest := by
  rw [List.takeWhile_append_of_pos hrest]
  cases behind with
  | nil => simp
  | cons c more =>
    have hstop : ¬ p c = true := by simp [hp c (hends c rfl)]
    rw [List.takeWhile_cons_of_neg hstop, List.append_nil]

/-- A string literal goes on to its closing quote. -/
lemma literalRest_append {quote : UInt8} (hquote : isQuote quote = true) {body : Text}
    (hbody : LiteralBody quote body) (behind : Text) :
    literalRest quote (body ++ quote :: behind) = body ++ [quote] := by
  have hplain : quote ≠ Text.newline ∧ quote ≠ 92 := by
    simp only [isQuote, Bool.or_eq_true, beq_iff_eq] at hquote
    rcases hquote with rfl | rfl <;> decide
  induction hbody with
  | nil => cases behind <;> simp [literalRest, hplain.1]
  | @plain c rest hne hbreak hescape _ ih =>
    obtain ⟨d, more, hmore⟩ : ∃ d more, rest ++ quote :: behind = d :: more := by
      cases rest <;> exact ⟨_, _, rfl⟩
    rw [List.cons_append, hmore, literalRest, ← hmore, ih]
    simp [hne, hbreak, hescape]
  | escaped c _ ih =>
    rw [List.cons_append, List.cons_append, literalRest, ih]
    simp [hplain.2.symm, Text.newline]

/-- A text without white space that stands at the head of another and what is behind it, stands at
the head of that other one alone. -/
lemma isPrefixOf_append_ends {head : Text} (htext : ∀ c ∈ text, isWhite c = false)
    (hends : Ends behind) : text.isPrefixOf (head ++ behind) = text.isPrefixOf head := by
  induction head generalizing text with
  | nil =>
    cases text with
    | nil => simp
    | cons c text =>
      cases behind with
      | nil => rfl
      | cons d more =>
        have hne : (c == d) = false := by
          rw [beq_eq_false_iff_ne]
          rintro rfl
          exact absurd (hends c rfl) (by simp [htext c (List.mem_cons_self ..)])
        rw [List.nil_append, List.isPrefixOf_cons_cons, hne]
        rfl
  | cons d head ih =>
    cases text with
    | nil => rfl
    | cons c text =>
      rw [List.cons_append, List.isPrefixOf_cons_cons, List.isPrefixOf_cons_cons,
        ih fun e he => htext e (List.mem_cons_of_mem _ he)]

/-- In front of white space, only what stands in a token decides which operator it is. -/
lemma find?_operators_append {head : Text} (hends : Ends behind) :
    operators.find? (·.isPrefixOf (head ++ behind)) = operators.find? (·.isPrefixOf head) := by
  have hplain : ∀ op ∈ operators, ∀ c ∈ op, isWhite c = false := by decide +kernel
  exact List.find?_congr fun op hop => isPrefixOf_append_ends (hplain op hop) hends

/-- A byte that is no white space and opens no comment opens a token. -/
lemma piece_of_not_white (hwhite : isWhite c = false)
    (hcomment : c = 47 → rest.head? ≠ some 47 ∧ rest.head? ≠ some 42) :
    Source.piece c rest =
      if opensName c then .lexeme .ident (c :: rest.takeWhile inName)
      else if Text.isDigit c then .lexeme .number (c :: rest.takeWhile inNumber)
      else if isQuote c then .lexeme .string (c :: literalRest c rest)
      else .lexeme .punct (punctuation c rest) := by
  rw [isWhite, Bool.or_eq_false_iff] at hwhite
  have hline : ¬ (c == 47 && rest.head? == some 47) = true := by
    rw [Bool.and_eq_true, beq_iff_eq, beq_iff_eq]
    exact fun h => (hcomment h.1).1 h.2
  have hblock : ¬ (c == 47 && rest.head? == some 42) = true := by
    rw [Bool.and_eq_true, beq_iff_eq, beq_iff_eq]
    exact fun h => (hcomment h.1).2 h.2
  unfold piece
  rw [if_neg (by simp [hwhite.1]), if_neg (by simp [hwhite.2]), if_neg hline, if_neg hblock]

/-- Bytes that names and numbers start with are no white space and no slash. -/
lemma not_white_of_inName (hc : inName c = true) : isWhite c = false ∧ c ≠ 47 := by
  refine ⟨Bool.eq_false_iff.mpr fun hwhite => ?_, ?_⟩
  · rw [(plain_of_white hwhite).2.1] at hc
    contradiction
  · rintro rfl
    contradiction

lemma opensName_of_isDigit (hc : Text.isDigit c = true) : opensName c = false := by
  simp only [Text.isDigit, Bool.and_eq_true, decide_eq_true_iff, UInt8.le_iff_toNat_le,
    UInt8.reduceToNat] at hc
  simp only [opensName, Text.isLower, Text.isUpper, Bool.or_eq_false_iff, Bool.and_eq_false_iff,
    beq_eq_false_iff_ne, decide_eq_false_iff_not, UInt8.le_iff_toNat_le, ne_eq, ← UInt8.toNat_inj,
    UInt8.reduceToNat]
  omega

/-- Operators start like marks, and none of them opens a comment. -/
lemma operators_open {op : Text} (hop : op ∈ operators) :
    ∃ c d rest, op = c :: d :: rest ∧ isMark c = true ∧ (c = 47 → d ≠ 47 ∧ d ≠ 42) := by
  simp only [operators, List.mem_cons, List.not_mem_nil, or_false] at hop
  rcases hop with rfl | rfl | rfl | rfl | rfl | rfl | rfl | rfl | rfl | rfl | rfl | rfl
    | rfl | rfl |
      rfl | rfl | rfl | rfl | rfl | rfl | rfl | rfl | rfl | rfl | rfl | rfl <;>
    exact ⟨_, _, _, rfl, by decide, by decide⟩

/-- A mark opens punctuation, unless it is a slash that opens a comment. -/
lemma piece_of_mark (hc : isMark c = true)
    (hcomment : c = 47 → rest.head? ≠ some 47 ∧ rest.head? ≠ some 42) :
    Source.piece c rest = .lexeme .punct (punctuation c rest) := by
  simp only [isMark, Bool.and_eq_true, Bool.not_eq_true'] at hc
  obtain ⟨⟨⟨⟨-, hwhite⟩, hname⟩, hdigit⟩, hquote⟩ := hc
  rw [piece_of_not_white hwhite hcomment, hname, hdigit, hquote]
  rfl

/-- **A token in front of white space is the next piece**, as is one at the end of the text. -/
lemma Spells.piece (h : Spells kind text) (hends : Ends behind) :
    ∃ c rest, text = c :: rest ∧ Source.piece c (rest ++ behind) = .lexeme kind text := by
  cases h with
  | @ident c rest hc hrest =>
    have hplain := not_white_of_inName (c := c) (by rw [inName, hc, Bool.true_or])
    refine ⟨c, rest, rfl, ?_⟩
    rw [piece_of_not_white hplain.1 (absurd · hplain.2), if_pos hc,
      takeWhile_append_ends (fun c hc => (plain_of_white hc).2.1) hrest hends]
  | @number c rest hc hrest =>
    have hplain := not_white_of_inName (c := c) (by rw [inName, hc, Bool.or_true])
    have hname : ¬ opensName c = true := by simp [opensName_of_isDigit hc]
    refine ⟨c, rest, rfl, ?_⟩
    rw [piece_of_not_white hplain.1 (absurd · hplain.2), if_neg hname, if_pos hc,
      takeWhile_append_ends (fun c hc => (plain_of_white hc).1) hrest hends]
  | @string quote body hquote hbody =>
    have hplain : isWhite quote = false ∧ quote ≠ 47 ∧ opensName quote = false ∧
        Text.isDigit quote = false := by
      simp only [isQuote, Bool.or_eq_true, beq_iff_eq] at hquote
      rcases hquote with rfl | rfl <;> decide
    refine ⟨quote, body ++ [quote], rfl, ?_⟩
    rw [piece_of_not_white hplain.1 (absurd · hplain.2.1), hplain.2.2.1, hplain.2.2.2, hquote,
      List.append_assoc, List.singleton_append, literalRest_append hquote hbody]
    rfl
  | @operator op hop =>
    have hfirst : ∀ op ∈ operators, operators.find? (·.isPrefixOf op) = some op := by decide
    obtain ⟨c, d, rest, rfl, hmark, hcomment⟩ := operators_open hop
    refine ⟨c, d :: rest, rfl, ?_⟩
    rw [piece_of_mark hmark (by simpa using hcomment), punctuation, ← List.cons_append,
      find?_operators_append hends, hfirst _ hop]
  | @mark c hc =>
    have hascii : c < 128 := by
      simp only [isMark, Bool.and_eq_true, decide_eq_true_iff] at hc
      exact hc.1.1.1.1
    have hnone : operators.find? (·.isPrefixOf [c]) = none := by
      rw [List.find?_eq_none]
      intro op hop hhead
      obtain ⟨b, d, rest, rfl, -⟩ := operators_open hop
      have hlength := (List.isPrefixOf_iff_prefix.mp hhead).length_le
      simp at hlength
    refine ⟨c, [], rfl, ?_⟩
    have hcomment : c = 47 → behind.head? ≠ some 47 ∧ behind.head? ≠ some 42 := by
      intro _
      refine ⟨fun hhead => ?_, fun hhead => ?_⟩
      · exact (plain_of_white (hends _ hhead)).2.2.1 rfl
      · exact (plain_of_white (hends _ hhead)).2.2.2 rfl
    rw [List.nil_append, piece_of_mark hc hcomment, punctuation, ← List.singleton_append,
      find?_operators_append hends, hnone, Text.encode_ascii hascii]

/-! ### Whole texts -/

/-- The class and the text of a token. -/
def Token.word (t : Token) : TokenKind × Text := (t.kind, t.text)

/-- A token in front of white space is scanned first, and what is behind it after that. -/
lemma Spells.scanOn (h : Spells kind text) (hends : Ends behind) (line : Nat) :
    (scanOn line (text ++ behind)).list.map Token.word =
      (kind, text) :: (Source.scanOn line behind).list.map Token.word := by
  obtain ⟨c, rest, rfl, hpiece⟩ := h.piece hends
  rw [List.cons_append, scanOn_of_lexeme hpiece, ← List.cons_append, List.drop_left]
  rfl

/-- **Scanning undoes writing**: tokens with separators between them are scanned as these tokens, in
order and with nothing behind them. -/
theorem scan_of_spelled {words : List (TokenKind × Text)} {src : Text} (h : Spelled words src) :
    (scan src).list.map Token.word = words := by
  have hscan : ∀ line, (scanOn line src).list.map Token.word = words := by
    induction h with
    | nil => exact fun line => rfl
    | last htext =>
      intro line
      have hends : Ends [] := fun c hc => nomatch hc
      have hlast := htext.scanOn hends line
      rwa [List.append_nil] at hlast
    | cons htext hsep _ ih =>
      intro line
      rw [htext.scanOn (hsep.ends _) line]
      obtain ⟨hc, hrest⟩ := hsep
      obtain ⟨line', hgap⟩ := (Gap.white hc hrest).scanOn _ line
      rw [hgap, ih]
  exact hscan 1

/-- Tokens of every class. The slash would open a comment with the next mark, and the operator would
swallow an equals sign behind it. -/
def sampleWords : List (TokenKind × Text) :=
  [(.ident, "x1"), (.number, "0x1.f"), (.string, "'it\\'s'"), (.punct, "/"), (.punct, "*"),
    (.punct, ">>"), (.punct, "=")]

/-- The tokens are kept apart, also where a quote stands in a comment and a comment mark in a
literal. -/
theorem scan_of_spelled_sample :
    Spelled sampleWords "x1 /* ' */0x1.f\t'it\\'s' / // '\n* >>\n=" ∧
      (scan "x1 /* ' */0x1.f\t'it\\'s' / // '\n* >>\n=").list.map Token.word = sampleWords := by
  have hspace : Separator [32] := .intro rfl .nil
  have htab : Separator [9] := .intro rfl .nil
  have hblock : Separator " /* ' */" := .intro rfl (@Gap.block " ' " [] (by decide) .nil)
  have hline : Separator " // '\n" := .intro rfl (@Gap.line " '" [] (by decide) .nil)
  have hliteral : Spells .string "'it\\'s'" :=
    @Spells.string 39 "it\\'s" rfl
      (.plain (by decide) (by decide) (by decide) (.plain (by decide) (by decide) (by decide)
        (.escaped 39 (.plain (by decide) (by decide) (by decide) .nil))))
  have hspelled : Spelled sampleWords "x1 /* ' */0x1.f\t'it\\'s' / // '\n* >>\n=" :=
    .cons (.ident rfl (by decide +kernel)) hblock (.cons (.number rfl (by decide +kernel)) htab
      (.cons hliteral hspace
      (.cons (.mark rfl) hline (.cons (.mark rfl) hspace (.cons (.operator (by decide))
        (.intro rfl .nil) (.last (.mark rfl)))))))
  exact ⟨hspelled, scan_of_spelled hspelled⟩

end ContractAudit.Source
