import ContractAudit.Text.Basic

/-!
The SHA-256 hash of a text.

A text is padded to whole blocks of 64 bytes, `padded`, and each block in turn changes the state of
eight words, `absorb`. `sha256` writes the final state as hexadecimal digits.
-/

namespace ContractAudit.Text

/-- The state of the hash: eight words. -/
structure HashState where
  a : UInt32
  b : UInt32
  c : UInt32
  d : UInt32
  e : UInt32
  f : UInt32
  g : UInt32
  h : UInt32
deriving DecidableEq, Repr

namespace HashState

/-- The first 32 bits of the fractional parts of the square roots of the first eight primes. -/
def start : HashState :=
  ⟨0x6a09e667, 0xbb67ae85, 0x3c6ef372, 0xa54ff53a,
    0x510e527f, 0x9b05688c, 0x1f83d9ab, 0x5be0cd19⟩

/-- The first 32 bits of the fractional parts of the cube roots of the first 64 primes. -/
def roundWords : List UInt32 := [
  0x428a2f98, 0x71374491, 0xb5c0fbcf, 0xe9b5dba5, 0x3956c25b, 0x59f111f1, 0x923f82a4, 0xab1c5ed5,
  0xd807aa98, 0x12835b01, 0x243185be, 0x550c7dc3, 0x72be5d74, 0x80deb1fe, 0x9bdc06a7, 0xc19bf174,
  0xe49b69c1, 0xefbe4786, 0x0fc19dc6, 0x240ca1cc, 0x2de92c6f, 0x4a7484aa, 0x5cb0a9dc, 0x76f988da,
  0x983e5152, 0xa831c66d, 0xb00327c8, 0xbf597fc7, 0xc6e00bf3, 0xd5a79147, 0x06ca6351, 0x14292967,
  0x27b70a85, 0x2e1b2138, 0x4d2c6dfc, 0x53380d13, 0x650a7354, 0x766a0abb, 0x81c2c92e, 0x92722c85,
  0xa2bfe8a1, 0xa81a664b, 0xc24b8b70, 0xc76c51a3, 0xd192e819, 0xd6990624, 0xf40e3585, 0x106aa070,
  0x19a4c116, 0x1e376c08, 0x2748774c, 0x34b0bcb5, 0x391c0cb3, 0x4ed8aa4a, 0x5b9cca4f, 0x682e6ff3,
  0x748f82ee, 0x78a5636f, 0x84c87814, 0x8cc70208, 0x90befffa, 0xa4506ceb, 0xbef9a3f7, 0xc67178f2]

/-- A word turned to the right. -/
def turn (w : UInt32) (n : UInt32) : UInt32 := (w >>> n) ||| (w <<< (32 - n))

/-- One of the 64 rounds of a block, with the word of the message and the word of the round. -/
def round (s : HashState) (w k : UInt32) : HashState :=
  let mix := turn s.e 6 ^^^ turn s.e 11 ^^^ turn s.e 25
  let choice := (s.e &&& s.f) ^^^ ((~~~ s.e) &&& s.g)
  let first := s.h + mix + choice + k + w
  let stir := turn s.a 2 ^^^ turn s.a 13 ^^^ turn s.a 22
  let majority := (s.a &&& s.b) ^^^ (s.a &&& s.c) ^^^ (s.b &&& s.c)
  ⟨first + (stir + majority), s.a, s.b, s.c, s.d + first, s.e, s.f, s.g⟩

/-- The sum of two states, word by word. -/
def add (s t : HashState) : HashState :=
  ⟨s.a + t.a, s.b + t.b, s.c + t.c, s.d + t.d, s.e + t.e, s.f + t.f, s.g + t.g, s.h + t.h⟩

/-- The words of a state in order. -/
def words (s : HashState) : List UInt32 := [s.a, s.b, s.c, s.d, s.e, s.f, s.g, s.h]

/-- Four bytes as a word, the highest first. -/
def word (a b c d : UInt8) : UInt32 :=
  (a.toUInt32 <<< 24) ||| (b.toUInt32 <<< 16) ||| (c.toUInt32 <<< 8) ||| d.toUInt32

/-- The words of a text whose length is a multiple of four. -/
def wordsOf : Text → List UInt32
  | a :: b :: c :: d :: rest => word a b c d :: wordsOf rest
  | _ => []

/-- The word of the message that follows the given ones. -/
def nextWord (ws : Array UInt32) : UInt32 :=
  let back (n : Nat) := ws.getD (ws.size - n) 0
  let near := turn (back 2) 17 ^^^ turn (back 2) 19 ^^^ (back 2 >>> 10)
  let far := turn (back 15) 7 ^^^ turn (back 15) 18 ^^^ (back 15 >>> 3)
  back 16 + far + back 7 + near

/-- The 64 words of the message that the 16 words of a block give. -/
def expand (block : List UInt32) : List UInt32 :=
  ((List.range 48).foldl (fun ws _ => ws.push (nextWord ws)) block.toArray).toList

/-- The state after one more block. -/
def absorb (s : HashState) (block : List UInt32) : HashState :=
  s.add (((expand block).zip roundWords).foldl (fun s (w, k) => s.round w k) s)

/-- The state after the first `n` blocks of the given words. -/
def absorbAll : Nat → HashState → List UInt32 → HashState
  | 0, s, _ => s
  | n + 1, s, ws => absorbAll n (s.absorb (ws.take 16)) (ws.drop 16)

end HashState

/-- The lowest eight bytes of a number, the highest first. -/
def bigEndian (n : Nat) : Text := (List.range 8).reverse.map fun i =>
    UInt8.ofNat (n / Nat.pow 256 i)

/-- A text with a mark behind it, zeros up to eight bytes before the end of a block, and its length
in bits. -/
def padded (t : Text) : Text :=
  t ++ 128 :: List.replicate ((119 - t.length % 64) % 64) 0 ++ bigEndian (8 * t.length)

/-- The SHA-256 hash of a text in hexadecimal digits. -/
def sha256 (t : Text) : Text :=
  let words := HashState.wordsOf t.padded
  (HashState.absorbAll (words.length / 16) .start words).words.flatMap fun w => hex 8 w.toNat

end ContractAudit.Text
