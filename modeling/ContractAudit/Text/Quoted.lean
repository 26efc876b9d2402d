import ContractAudit.Text.Utf8
import ContractAudit.Text.Printable

/-!
Quoted texts, as they stand in error messages and graph labels.

`quoted` writes a text between double quotes. Printable code points stand for themselves, the quote
and the backslash are escaped, control characters have their usual one-letter escapes, and
everything else is written as a number: a byte as two hexadecimal digits, a code point as four or
eight.
-/

namespace ContractAudit.Text

/-- The one-letter escape of a control character. -/
def controlEscape? (code : Nat) : Option Text :=
  match code with
  | 7 => some "\\a"
  | 8 => some "\\b"
  | 9 => some "\\t"
  | 10 => some "\\n"
  | 11 => some "\\v"
  | 12 => some "\\f"
  | 13 => some "\\r"
  | _ => none

/-- One rune inside quotes. -/
def quotedRune (r : Rune) : Text :=
  if r.stray then "\\x" ++ hex 2 (r.bytes.headD 0).toNat
  else if r.code == 34 then "\\\""
  else if r.code == 92 then "\\\\"
  else if isPrintable r.code then r.bytes
  else
    match controlEscape? r.code with
    | some e => e
    | none =>
      if r.code < 32 || r.code == 127 then "\\x" ++ hex 2 r.code
      else if r.code < 0x10000 then "\\u" ++ hex 4 r.code
      else "\\U" ++ hex 8 r.code

/-- A code point below 256 between single quotes. -/
def quotedByte (c : UInt8) : Text :=
  if c == 39 then "'\\''"
  else if c == 34 then "'\"'"
  else "'" ++ quotedRune ⟨c.toNat, encode c.toNat, false⟩ ++ "'"

/-- `t` between double quotes. -/
def quoted (t : Text) : Text := "\"" ++ t.runes.flatMap quotedRune ++ "\""

end ContractAudit.Text
