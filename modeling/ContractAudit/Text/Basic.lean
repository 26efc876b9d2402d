/-!
Texts as byte sequences.

Source files, names and messages are all `Text`: a list of bytes that is UTF-8 in practice, though
nothing here depends on it. The module holds the operations the rest of the library uses on texts:

* `ofString` writes a string as its UTF-8 bytes, and `ofString_inj` says that two strings with the
  same bytes are the same string, so comparing a text with a literal is comparing literals;
* `indexOf?`, `replaceAll`, `splitOn`, `joinWith` cut and paste at a separator;
* `le` is the lexicographic order of bytes, in which every listing of names is written.
-/

namespace ContractAudit

/-- A text is the sequence of its bytes. -/
abbrev Text := List UInt8

namespace Text

/-- The UTF-8 bytes of a string. -/
def ofString (s : String) : Text := s.toUTF8.data.toList

instance : Coe String Text := ⟨ofString⟩

/-- A list of words as texts. -/
def ofStrings (words : List String) : List Text := words.map ofString

/-- Distinct strings have distinct bytes. -/
@[simp]
theorem ofString_inj {a b : String} : ofString a = ofString b ↔ a = b := by
  constructor
  · intro h
    exact String.toByteArray_inj.mp (ByteArray.ext (Array.toList_inj.mp h))
  · rintro rfl
    rfl

/-- The byte that ends a line. -/
def newline : UInt8 := 10

/-- The decimal digits of a natural number. -/
def ofNat (n : Nat) : Text := ofString (toString n)

/-- The decimal digits of an integer, with a minus sign in front of a negative one. -/
def ofInt (i : Int) : Text := ofString (toString i)

/-- The number of line breaks in `t`. -/
def lineBreaks (t : Text) : Nat := t.count newline

/-! ### Order -/

/-- The lexicographic order of bytes. -/
def le : Text → Text → Bool
  | [], _ => true
  | _ :: _, [] => false
  | a :: as, b :: bs => a < b || (a == b && le as bs)

/-- The texts in byte order, equal ones in their given order. -/
def sorted (ts : List Text) : List Text := ts.mergeSort le

/-! ### Searching and cutting -/

/-- Whether `p` stands at the head of `t`. -/
def startsWith (t p : Text) : Bool := p.isPrefixOf t

/-- Whether `s` stands at the end of `t`. -/
def endsWith (t s : Text) : Bool := s.isSuffixOf t

/-- What follows `p` in `t`, when `t` starts with `p`. -/
def after? (t p : Text) : Option Text := if t.startsWith p then some (t.drop p.length) else none

/-- What follows `p` in `t`, or `t` itself when it does not start with `p`. -/
def trimStart (t p : Text) : Text := (t.after? p).getD t

/-- What stands before `s` in `t`, or `t` itself when it does not end with `s`. -/
def trimEnd (t s : Text) : Text := if t.endsWith s then t.take (t.length - s.length) else t

/-- The offset of the first occurrence of `needle` in `t`. -/
def indexOf? (needle : Text) : Text → Option Nat
  | [] => if needle.isEmpty then some 0 else none
  | c :: cs =>
    if needle.isPrefixOf (c :: cs) then some 0 else (indexOf? needle cs).map (· + 1)

/-- Whether `needle` occurs in `t`. -/
def contains (t needle : Text) : Bool := (indexOf? needle t).isSome

/-- What stands before and behind the first occurrence of `sep`. -/
def cut? (t sep : Text) : Option (Text × Text) :=
  (indexOf? sep t).map fun i => (t.take i, t.drop (i + sep.length))

/-- Cuts `t` at the occurrences of `sep`, left to right and without overlap, at most `n` times. -/
def splitTimes (sep : Text) : Nat → Text → List Text
  | 0, t => [t]
  | n + 1, t =>
    match cut? t sep with
    | none => [t]
    | some (before, behind) => before :: splitTimes sep n behind

/-- Cuts `t` at every occurrence of a nonempty `sep`; a text without it is its own only part. -/
def splitOn (t sep : Text) : List Text := splitTimes sep t.length t

/-- The parts of `ts` with `sep` between neighbours. -/
def joinWith (sep : Text) (ts : List Text) : Text := sep.intercalate ts

/-- `t` with every occurrence of a nonempty `old` replaced, left to right and without overlap. -/
def replaceAll (t old new : Text) : Text := joinWith new (t.splitOn old)

/-- The lines of `t`: the parts between line breaks. -/
def lines (t : Text) : List Text := t.splitOn [newline]

/-! ### Bytes of the ASCII range -/

/-- Whether `c` is a decimal digit. -/
def isDigit (c : UInt8) : Bool := 48 ≤ c && c ≤ 57

/-- Whether `c` is a lower-case ASCII letter. -/
def isLower (c : UInt8) : Bool := 97 ≤ c && c ≤ 122

/-- Whether `c` is an upper-case ASCII letter. -/
def isUpper (c : UInt8) : Bool := 65 ≤ c && c ≤ 90

/-- The value of a digit in a base up to sixteen, letters of either case standing for ten and up. -/
def digitValue? (c : UInt8) : Option Nat :=
  if isDigit c then some (c.toNat - 48)
  else if 97 ≤ c && c ≤ 102 then some (c.toNat - 87)
  else if 65 ≤ c && c ≤ 70 then some (c.toNat - 55)
  else none

/-- Reads a nonempty run of digits in the given base. -/
def readBase? (base : Nat) (t : Text) : Option Nat :=
  if t.isEmpty then none
  else t.foldl (fun acc c => acc.bind fun n =>
    match digitValue? c with
    | some d => if d < base then some (n * base + d) else none
    | none => none) (some 0)

/-- Reads a nonempty run of decimal digits. -/
def readNat? (t : Text) : Option Nat := readBase? 10 t

/-- The character of a value below sixteen. -/
def hexDigit (n : Nat) : UInt8 := if n < 10 then UInt8.ofNat (48 + n) else UInt8.ofNat (87 + n)

/-- The last `width` hexadecimal digits of `n`, in lower case. -/
def hex (width n : Nat) : Text :=
  (List.range width).reverse.map fun i => hexDigit (n / Nat.pow 16 i % 16)

/-- Every byte as two hexadecimal digits. -/
def toHex (t : Text) : Text := t.flatMap fun b => hex 2 b.toNat

/-- `t` right-aligned in at least `width` bytes, filled up with zeros. -/
def padZeros (width : Nat) (t : Text) : Text := List.replicate (width - t.length) 48 ++ t

end Text

end ContractAudit
