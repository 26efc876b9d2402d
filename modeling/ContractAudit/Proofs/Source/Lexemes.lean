import Mathlib.Tactic.SplitIfs
import ContractAudit.Source.Token

/-!
What the tokens of a scan look like.

Scanning makes a token wherever `piece` finds a lexeme (`exists_piece_of_mem_scan`). The first byte
of its text tells the class of a token (`lexicalKind`), so that a token is known by its text
(`kind_of_mem_scan`).
-/

namespace ContractAudit.Source

/-! ### Tokens and pieces -/

variable {src : Text} {t : Token} {c : UInt8}

lemma exists_piece_of_mem_scanFrom {fuel line : Nat} (h : t ∈ (scanFrom fuel line src).list) :
    ∃ c rest, piece c rest = .lexeme t.kind t.text := by
  induction fuel generalizing line src with
  | zero => exact absurd h List.not_mem_nil
  | succ fuel ih =>
    cases src with
    | nil => exact absurd h List.not_mem_nil
    | cons c rest =>
      rw [scanFrom] at h
      split at h
      · exact ih h
      · next kind text hpiece =>
        rcases List.mem_cons.mp h with rfl | h
        · exact ⟨c, rest, hpiece⟩
        · exact ih h

/-- Every token of a scan is a lexeme of the source. -/
lemma exists_piece_of_mem_scan (h : t ∈ (scan src).list) :
    ∃ c rest, piece c rest = .lexeme t.kind t.text :=
  exists_piece_of_mem_scanFrom h

/-! ### Classes of tokens -/

/-- The class of a token whose text starts with `c`. -/
def kindAt (c : UInt8) : TokenKind :=
  if opensName c then .ident
  else if Text.isDigit c then .number
  else if isQuote c then .string
  else .punct

/-- The class of the token with the given text. -/
def lexicalKind : Text → TokenKind
  | [] => .punct
  | c :: _ => kindAt c

/-- A byte outside of the ASCII range is written as two bytes. -/
lemma encode_toNat (c : UInt8) :
    Text.encode c.toNat = if c.toNat < 0x80 then [c] else
      [UInt8.ofNat (0xC0 + c.toNat / 64), UInt8.ofNat (0x80 + c.toNat % 64)] := by
  have hlt := c.toNat_lt
  have hplain : ((0xD800 ≤ c.toNat && c.toNat ≤ 0xDFFF) || 0x10FFFF < c.toNat) = false := by
    simp only [Bool.or_eq_false_iff, Bool.and_eq_false_iff, decide_eq_false_iff_not]
    omega
  rw [Text.encode, hplain]
  simp only [Bool.false_eq_true, if_false, UInt8.ofNat_toNat]
  rw [if_pos (show c.toNat < 0x800 by omega)]

lemma lexicalKind_encode (hc : kindAt c = .punct) : lexicalKind (Text.encode c.toNat) = .punct := by
  have hlt := c.toNat_lt
  rw [encode_toNat]
  split
  · exact hc
  · obtain hfirst | hfirst : 0xC0 + c.toNat / 64 = 194 ∨ 0xC0 + c.toNat / 64 = 195 := by omega
    · rw [hfirst]
      rfl
    · rw [hfirst]
      rfl

lemma lexicalKind_punctuation (hc : kindAt c = .punct) (rest : Text) :
    lexicalKind (punctuation c rest) = .punct := by
  rw [punctuation]
  split
  · next op hop =>
    have hprefix : op <+: c :: rest := List.isPrefixOf_iff_prefix.mp
      (List.find?_some (p := fun op : Text => op.isPrefixOf (c :: rest)) hop)
    cases op with
    | nil => rfl
    | cons b tail =>
      obtain ⟨rfl, -⟩ := List.cons_prefix_cons.mp hprefix
      exact hc
  · exact lexicalKind_encode hc

lemma kind_eq_of_piece {rest text : Text} {kind : TokenKind}
    (h : piece c rest = .lexeme kind text) : kind = lexicalKind text := by
  unfold piece at h
  split_ifs at h with _ _ _ _ hname hdigit hquote
  · cases h
    simp [lexicalKind, kindAt, hname]
  · cases h
    simp [lexicalKind, kindAt, hname, hdigit]
  · cases h
    simp [lexicalKind, kindAt, hname, hdigit, hquote]
  · cases h
    exact (lexicalKind_punctuation (by simp [kindAt, hname, hdigit, hquote]) rest).symm

/-- The text of a token tells its class. -/
theorem kind_of_mem_scan (h : t ∈ (scan src).list) : t.kind = lexicalKind t.text := by
  obtain ⟨c, rest, hpiece⟩ := exists_piece_of_mem_scan h
  exact kind_eq_of_piece hpiece

end ContractAudit.Source
