import ContractAudit.Text.Basic

/-!
Number literals and 256-bit words.

A *word* is a natural number below `2 ^ 256`; arithmetic wraps around. `readNumeral?` reads a number
literal: underscores are ignored, `0x` opens a hexadecimal number, and a decimal number may carry an
exponent of ten.
-/

namespace ContractAudit.Source

/-- The number of words. -/
def wordCount : Nat := Nat.pow 2 256

/-- The word an integer wraps around to. -/
def toWord (i : Int) : Nat := (i % (wordCount : Int)).toNat

/-- `base ^ exponent` as a word, by repeated squaring over at most `fuel` bits of the exponent. -/
def wordPowerUpTo : Nat → Nat → Nat → Nat
  | 0, _, _ => 1
  | fuel + 1, base, exponent =>
    if exponent == 0 then 1
    else
      let half := wordPowerUpTo fuel (base * base % wordCount) (exponent / 2)
      if exponent % 2 == 1 then base * half % wordCount else half

/-- `base ^ exponent` as a word. -/
def wordPower (base exponent : Nat) : Nat := wordPowerUpTo (exponent.log2 + 1) base exponent

/-- Reads digits in the given base with an optional sign in front. -/
def readSigned? (base : Nat) (t : Text) : Option Int :=
  match t with
  | 45 :: digits => (Text.readBase? base digits).map fun n => -(n : Int)
  | 43 :: digits => (Text.readBase? base digits).map fun n => (n : Int)
  | digits => (Text.readBase? base digits).map fun n => (n : Int)

/-- Reads a number of at most 256 bits: hexadecimal behind `0x` or `0X`, else decimal. The empty
text is zero. -/
def readWordSized? (t : Text) : Option Int :=
  let read :=
    match t with
    | [] => some 0
    | 48 :: x :: digits => if x == 120 || x == 88 then readSigned? 16 digits else readSigned? 10 t
    | _ => readSigned? 10 t
  read.filter fun i => i.natAbs < wordCount

/-- A byte with an upper-case ASCII letter turned into the lower-case one. -/
def lowerByte (c : UInt8) : UInt8 := if Text.isUpper c then c + 32 else c

/-- Reads a number literal. A literal that does not start with `0x` and holds the letter `e` is a
mantissa with an exponent of at most sixteen bits, and wraps around; an exponent below zero counts
as zero. -/
def readNumeral? (literal : Text) : Option Int :=
  let t : Text := literal.filter (· != 95)
  match Text.cut? (t.map lowerByte) "e" with
  | some (mantissa, exponent) =>
    if t.startsWith "0x" then readWordSized? t
    else do
      let m ← readWordSized? mantissa
      let x ← readWordSized? exponent
      if x.natAbs < 65536 then return (toWord (m * Nat.pow 10 x.toNat) : Int) else none
  | none => readWordSized? t

/-- How many base units a denomination or time unit is worth. -/
def unitFactor? (unit : Text) : Option Nat :=
  let table : List (Text × Nat) :=
    [("wei", 1), ("gwei", Nat.pow 10 9), ("ether", Nat.pow 10 18), ("seconds", 1), ("minutes", 60),
      ("hours", 3600), ("days", 86400), ("weeks", 604800)]
  table.lookup unit

end ContractAudit.Source
