import ContractAudit.Text.Utf8

/-!
Patterns for paths.

In a pattern `?` stands for one code point other than a slash, `*` for any run of bytes without a
slash, and brackets for one code point out of ranges, or outside of them with a leading `^`; a
backslash takes the next byte as it is. The stars cut a pattern into chunks. Each chunk is matched
at the first place where it fits, and that choice is final.
-/

namespace ContractAudit.Text

/-- A part of a pattern without stars. -/
inductive GlobPiece where
  | byte (b : UInt8)
  | anyRune
  | oneOf (negated : Bool) (ranges : List (Nat × Nat))
deriving DecidableEq, Repr

/-- The pieces between two stars, and whether a star stands before them. -/
structure GlobChunk where
  star : Bool
  pieces : List GlobPiece
deriving DecidableEq, Repr

namespace Glob

/-- The code point of a range at the head of a text, and what follows, which may not be nothing. -/
def rangeEnd? (t : Text) : Option (Nat × Text) :=
  match t with
  | [] => none
  | c :: rest =>
    if c == 45 || c == 93 then none
    else
      match if c == 92 then rest else t with
      | [] => none
      | a :: more =>
        let r := headRune a more
        let behind := more.drop (r.bytes.length - 1)
        if r.stray || behind.isEmpty then none else some (r.code, behind)

/-- The ranges up to the closing bracket, and what follows it. `first` says that no range came
before. -/
def ranges? : Nat → Bool → Text → Option (List (Nat × Nat) × Text)
  | 0, _, _ => none
  | fuel + 1, first, t => do
    if t.head? == some 93 && !first then return ([], t.drop 1)
    else
      let (low, behind) ← rangeEnd? t
      let (high, behind) ← if behind.head? == some 45 then rangeEnd? (behind.drop 1)
        else some (low, behind)
      let (more, behind) ← ranges? fuel false behind
      return ((low, high) :: more, behind)

/-- Reads a pattern into chunks. `star` says whether a star stands before the pieces so far, which
are in reverse. -/
def chunks? : Nat → Bool → List GlobPiece → Text → Option (List GlobChunk)
  | 0, _, _, _ => none
  | _ + 1, star, pieces, [] => some [⟨star, pieces.reverse⟩]
  | fuel + 1, star, pieces, c :: rest =>
    if c == 42 then
      if star && pieces.isEmpty then chunks? fuel true [] rest
      else (chunks? fuel true [] rest).map (⟨star, pieces.reverse⟩ :: ·)
    else if c == 63 then chunks? fuel star (.anyRune :: pieces) rest
    else if c == 92 then
      match rest with
      | [] => none
      | b :: rest => chunks? fuel star (.byte b :: pieces) rest
    else if c == 91 then
      let negated := rest.head? == some 94
      match ranges? fuel true (if negated then rest.drop 1 else rest) with
      | none => none
      | some (ranges, behind) => chunks? fuel star (.oneOf negated ranges :: pieces) behind
    else chunks? fuel star (.byte c :: pieces) rest

/-- The chunks of a pattern, if it is well formed. -/
def read? (pattern : Text) : Option (List GlobChunk) :=
  chunks? (2 * pattern.length + 1) false [] pattern

/-- What is left of a text behind pieces that match at its head. -/
def matchHere? : List GlobPiece → Text → Option Text
  | [], t => some t
  | _ :: _, [] => none
  | .byte b :: ps, c :: rest => if b == c then matchHere? ps rest else none
  | .anyRune :: ps, c :: rest =>
    if c == 47 then none
    else matchHere? ps (rest.drop ((headRune c rest).bytes.length - 1))
  | .oneOf negated ranges :: ps, c :: rest =>
    let r := headRune c rest
    let inside := ranges.any fun (low, high) => low ≤ r.code && r.code ≤ high
    if inside == negated then none else matchHere? ps (rest.drop (r.bytes.length - 1))

/-- What is left behind the first place, past at least one byte and no slash, where pieces match.
The last chunk has to match up to the end. -/
def matchLater? (last : Bool) (pieces : List GlobPiece) : Text → Option Text
  | [] => none
  | c :: rest =>
    if c == 47 then none
    else
      match matchHere? pieces rest with
      | some behind =>
        if last && !behind.isEmpty then matchLater? last pieces rest else some behind
      | none => matchLater? last pieces rest

/-- Whether chunks match a whole text. -/
def matchChunks : List GlobChunk → Text → Bool
  | [], t => t.isEmpty
  | c :: more, t =>
    if c.star && c.pieces.isEmpty then t.all (· != 47)
    else
      let here := (matchHere? c.pieces t).filter fun behind => behind.isEmpty || !more.isEmpty
      match here with
      | some behind => matchChunks more behind
      | none =>
        if c.star then
          match matchLater? more.isEmpty c.pieces t with
          | some behind => matchChunks more behind
          | none => false
        else false

end Glob

/-- Whether a pattern matches a whole text. A malformed pattern matches nothing. -/
def globMatches (pattern t : Text) : Bool :=
  match Glob.read? pattern with
  | some chunks => Glob.matchChunks chunks t
  | none => false

end ContractAudit.Text
