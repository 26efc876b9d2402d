import ContractAudit.Text.Basic

/-!
Code points of a text.

`runes` reads a text as UTF-8. A byte that starts no well-formed sequence stands for itself as a
*stray* rune, so that the bytes of all runes together are always the text. `encode` writes a code
point.
-/

namespace ContractAudit.Text

/-- The code point that stands for what cannot be read. -/
def replacement : Nat := 0xFFFD

/-- One code point of a text with the bytes it was read from. A stray rune is a single byte that
starts no well-formed sequence; its code is `replacement`. -/
structure Rune where
  code : Nat
  bytes : Text
  stray : Bool
deriving DecidableEq, Repr

/-- The UTF-8 bytes of a code point. Surrogates and numbers past the last code point are written as
`replacement`. -/
def encode (code : Nat) : Text :=
  let c := if (0xD800 ≤ code && code ≤ 0xDFFF) || 0x10FFFF < code then replacement else code
  if c < 0x80 then [UInt8.ofNat c]
  else if c < 0x800 then [UInt8.ofNat (0xC0 + c / 64), UInt8.ofNat (0x80 + c % 64)]
  else if c < 0x10000 then
    [UInt8.ofNat (0xE0 + c / 4096), UInt8.ofNat (0x80 + c / 64 % 64), UInt8.ofNat (0x80 + c % 64)]
  else
    [UInt8.ofNat (0xF0 + c / 262144), UInt8.ofNat (0x80 + c / 4096 % 64),
      UInt8.ofNat (0x80 + c / 64 % 64), UInt8.ofNat (0x80 + c % 64)]

/-- Whether `b` can follow the first byte of a sequence. -/
def isTail (b : UInt8) : Bool := 0x80 ≤ b && b ≤ 0xBF

/-- The six payload bits of a tail byte. -/
def payload (b : UInt8) : Nat := b.toNat % 64

/-- Whether `a`, `b` start a well-formed sequence of three bytes: no overlong form, no surrogate. -/
def opensThree (a b : UInt8) : Bool :=
  (a == 0xE0 && 0xA0 ≤ b && b ≤ 0xBF) || (a == 0xED && 0x80 ≤ b && b ≤ 0x9F) ||
    (0xE1 ≤ a && a ≤ 0xEF && a != 0xED && isTail b)

/-- Whether `a`, `b` start a well-formed sequence of four bytes: no overlong form, nothing past the
last code point. -/
def opensFour (a b : UInt8) : Bool :=
  (a == 0xF0 && 0x90 ≤ b && b ≤ 0xBF) || (a == 0xF4 && 0x80 ≤ b && b ≤ 0x8F) ||
    (0xF1 ≤ a && a ≤ 0xF3 && isTail b)

/-- The rune at the head of the text `a :: rest`. -/
def headRune (a : UInt8) (rest : Text) : Rune :=
  let stray : Rune := ⟨replacement, [a], true⟩
  if a < 0x80 then ⟨a.toNat, [a], false⟩
  else
    match rest with
    | [] => stray
    | [b] =>
      if 0xC2 ≤ a && a ≤ 0xDF && isTail b then
        ⟨a.toNat % 32 * 64 + payload b, [a, b], false⟩
      else stray
    | b :: c :: more =>
      if 0xC2 ≤ a && a ≤ 0xDF && isTail b then
        ⟨a.toNat % 32 * 64 + payload b, [a, b], false⟩
      else if opensThree a b && isTail c then
        ⟨(a.toNat % 16 * 64 + payload b) * 64 + payload c, [a, b, c], false⟩
      else
        match more with
        | d :: _ =>
          if opensFour a b && isTail c && isTail d then
            ⟨((a.toNat % 8 * 64 + payload b) * 64 + payload c) * 64 + payload d,
              [a, b, c, d], false⟩
          else stray
        | [] => stray

/-- The runes of a text, at most `fuel` of them. -/
def runesUpTo : Nat → Text → List Rune
  | 0, _ => []
  | _, [] => []
  | fuel + 1, a :: rest =>
    let r := headRune a rest
    r :: runesUpTo fuel (rest.drop (r.bytes.length - 1))

/-- The runes of a text. Every rune takes at least one byte, so as many as there are bytes
suffice. -/
def runes (t : Text) : List Rune := runesUpTo t.length t

/-- Whether `t` is well-formed UTF-8. -/
def isUtf8 (t : Text) : Bool := t.runes.all fun r => !r.stray

/-- `t` with every stray byte replaced by the replacement code point. -/
def scrub (t : Text) : Text := t.runes.flatMap fun r => encode r.code

/-- White space: the code points that trimming removes. -/
def isSpace (code : Nat) : Bool :=
  (9 ≤ code && code ≤ 13) || code == 0x20 || code == 0x85 || code == 0xA0 || code == 0x1680 ||
    (0x2000 ≤ code && code ≤ 0x200A) || code == 0x2028 || code == 0x2029 || code == 0x202F ||
    code == 0x205F || code == 0x3000

/-- The bytes of a run of runes. -/
def ofRunes (rs : List Rune) : Text := rs.flatMap (·.bytes)

/-- `t` without the runes at both ends that satisfy `drop`. -/
def trimBy (drop : Nat → Bool) (t : Text) : Text :=
  ofRunes (((t.runes.dropWhile fun r => drop r.code).reverse.dropWhile fun r => drop
    r.code).reverse)

/-- `t` without white space at both ends. -/
def trim (t : Text) : Text := t.trimBy isSpace

/-- The nonempty runs of `t` between white space. -/
def fields (t : Text) : List Text :=
  let step (r : Rune) (acc : List Text) : List Text :=
    if isSpace r.code then [] :: acc
    else
      match acc with
      | [] => [r.bytes]
      | word :: words => (r.bytes ++ word) :: words
  (t.runes.foldr step [[]]).filter (!·.isEmpty)

end ContractAudit.Text
