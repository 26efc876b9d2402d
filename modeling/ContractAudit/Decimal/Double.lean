import ContractAudit.Text.Basic

/-!
Decimal texts of binary numbers.

A finite double is an integer times a power of two, `Dyadic`. `fixed` writes it with a given number
of places, where a half goes to the even neighbour. `shortest` finds the fewest decimal digits that
read back as the same double, and of those the ones nearest to it: for each number of digits the two
neighbours of the value on that decimal grid are tried, in exact arithmetic. `plain` writes those
digits, positionally from a millionth up to below 10^21 and with an exponent elsewhere. `read?` goes
the other way.
-/

namespace ContractAudit.Decimal

/-- The number `mantissa * 2 ^ exponent`, or its negative. -/
structure Dyadic where
  negative : Bool
  mantissa : Nat
  exponent : Int
deriving DecidableEq, Repr

/-- The value of a finite double. -/
def Dyadic.ofFloat? (x : Float) : Option Dyadic :=
  let bits := x.toBits.toNat
  let field : Nat := bits / Nat.pow 2 52 % Nat.pow 2 11
  let fraction : Nat := bits % Nat.pow 2 52
  let negative := bits / Nat.pow 2 63 == 1
  if field == 2047 then none
  else if field == 0 then some ⟨negative, fraction, -1074⟩
  else some ⟨negative, Nat.pow 2 52 + fraction, (field : Int) - 1075⟩

/-- A quotient rounded to the nearest integer, a half to the even neighbour. -/
def roundDiv (num den : Nat) : Nat :=
  let q := num / den
  let r := num % den
  if 2 * r < den || (2 * r == den && q % 2 == 0) then q else q + 1

/-- A numerator over a denominator: `n * 2 ^ two * 10 ^ ten`. -/
def fraction (n : Nat) (two ten : Int) : Nat × Nat :=
  (n * Nat.pow 2 two.toNat * Nat.pow 10 ten.toNat,
    Nat.pow 2 (-two).toNat * Nat.pow 10 (-ten).toNat)

/-- Digits with a point before the last `places` of them. -/
def point (places n : Nat) : Text :=
  if places == 0 then Text.ofNat n
  else
    let digits := Text.padZeros (places + 1) (Text.ofNat n)
    digits.take (digits.length - places) ++ "." ++ digits.drop (digits.length - places)

/-- The text of a number with its sign. -/
def signed (negative : Bool) (t : Text) : Text := if negative then "-" ++ t else t

/-- The text of what is no finite number. -/
def special (x : Float) : Text := if x.isNaN then "NaN" else if 0 < x then "+Inf" else "-Inf"

/-- A double with exactly the given number of places. -/
def fixed (places : Nat) (x : Float) : Text :=
  match Dyadic.ofFloat? x with
  | none => special x
  | some d =>
    let (num, den) := fraction d.mantissa d.exponent places
    signed d.negative (point places (roundDiv num den))

/-! ### The fewest digits -/

/-- The number `digits * 10 ^ exponent`. -/
structure Digits where
  digits : Nat
  exponent : Int
deriving DecidableEq, Repr

/-- Moves zeros at the end of the digits to the exponent. -/
def Digits.strip : Nat → Digits → Digits
  | 0, d => d
  | fuel + 1, d =>
    if d.digits != 0 && d.digits % 10 == 0 then strip fuel ⟨d.digits / 10, d.exponent + 1⟩ else d

/-- The largest `e` from `start` downwards, within `fuel` steps, with `10 ^ e ≤ num / den`. -/
def magnitude (num den : Nat) : Nat → Int → Int
  | 0, e => e
  | fuel + 1, e =>
    let (n, d) := fraction 1 0 e
    if n * den ≤ num * d then e else magnitude num den fuel (e - 1)

/-- The reals that read back as the double with mantissa `m`, in quarters of its unit: from `low` to
`high`, with the ends when `m` is even. Below a power of two the grid of doubles is finer. -/
structure Reach where
  low : Nat
  high : Nat
  closed : Bool
deriving DecidableEq, Repr

/-- The reach of a positive double. -/
def Reach.of (d : Dyadic) : Reach :=
  let low := if d.mantissa == Nat.pow 2 52 && -1074 < d.exponent then 4 * d.mantissa - 1
    else 4 * d.mantissa - 2
  ⟨low, 4 * d.mantissa + 2, d.mantissa % 2 == 0⟩

/-- Whether `c * 10 ^ k` lies in a reach whose quarter unit is `2 ^ two`. -/
def Reach.has (r : Reach) (two k : Int) (c : Nat) : Bool :=
  let (n, d) := fraction c (-two) k
  if r.closed then r.low * d ≤ n && n ≤ r.high * d else r.low * d < n && n < r.high * d

/-- The candidate on the grid `10 ^ k` that reads back, if there is one: of the two neighbours of
the value the nearer one. -/
def candidate? (d : Dyadic) (k : Int) : Option Nat :=
  let (num, den) := fraction d.mantissa d.exponent (-k)
  let below := num / den
  let reach := Reach.of d
  let reads := reach.has (d.exponent - 2) k
  match reads below, reads (below + 1) with
  | true, true => some (roundDiv num den)
  | true, false => some below
  | false, true => some (below + 1)
  | false, false => none

/-- The fewest digits, at least `n` and at most `n + fuel`, that read back as a positive double
whose leading digit stands at `10 ^ e`. -/
def search (d : Dyadic) (e : Int) : Nat → Nat → Digits
  | 0, n =>
    let k := e + 1 - (n : Int)
    let (num, den) := fraction d.mantissa d.exponent (-k)
    ⟨roundDiv num den, k⟩
  | fuel + 1, n =>
    let k := e + 1 - (n : Int)
    match candidate? d k with
    | some c => ⟨c, k⟩
    | none => search d e fuel (n + 1)

/-- The fewest digits that read back as the given double, which is not zero. -/
def shortest (d : Dyadic) : Digits :=
  let (num, den) := fraction d.mantissa d.exponent 0
  (search d (magnitude num den 640 309) 16 1).strip 20

/-- Digits in positional notation. -/
def positional (d : Digits) : Text :=
  if 0 ≤ d.exponent then Text.ofNat (d.digits * Nat.pow 10 d.exponent.toNat)
  else point (-d.exponent).toNat d.digits

/-- Digits with one of them before the point and an exponent. -/
def scientific (d : Digits) : Text :=
  let digits := Text.ofNat d.digits
  let e := d.exponent + (digits.length : Int) - 1
  let rest : Text := if digits.length ≤ 1 then [] else "." ++ digits.drop 1
  let sign : Text := if e < 0 then "-" else "+"
  digits.take 1 ++ rest ++ "e" ++ sign ++ Text.ofNat e.natAbs

/-- The fewest digits that read back as the given double: positional from 10^-6 up to below 10^21,
with an exponent elsewhere. -/
def plain (x : Float) : Text :=
  match Dyadic.ofFloat? x with
  | none => special x
  | some d =>
    if d.mantissa == 0 then signed d.negative "0"
    else
      let digits := shortest d
      let top := digits.exponent + (Text.ofNat digits.digits).length
      signed d.negative (if -6 < top && top ≤ 21 then positional digits else scientific digits)

/-! ### Reading -/

/-- The number `digits * 10 ^ exponent` rounded to a double. Magnitudes beyond every double are
infinite and below every double are zero. -/
def Digits.toFloat (d : Digits) : Float :=
  let top := d.exponent + (Text.ofNat d.digits).length
  if d.digits == 0 || top < -400 then 0
  else if 400 < top then 1.0 / 0.0
  else if 0 ≤ d.exponent then Float.ofScientific d.digits false d.exponent.toNat
  else Float.ofScientific d.digits true (-d.exponent).toNat

/-- The exponent behind the digits of a number, zero when there is none. -/
def exponent? (t : Text) : Option Int :=
  match t with
  | [] => some 0
  | c :: rest =>
    if c == 101 || c == 69 then
      match rest with
      | 45 :: digits => (Text.readNat? digits).map fun n => -(n : Int)
      | 43 :: digits => (Text.readNat? digits).map fun n => (n : Int)
      | digits => (Text.readNat? digits).map fun n => (n : Int)
    else none

/-- Reads digits with an optional point and an optional exponent. -/
def digits? (t : Text) : Option Digits := do
  let whole := t.takeWhile Text.isDigit
  let behind := t.drop whole.length
  let (places, behind) := match behind with
    | 46 :: more => (more.takeWhile Text.isDigit, more.dropWhile Text.isDigit)
    | _ => ([], behind)
  let n ← Text.readNat? (whole ++ places)
  let e ← exponent? behind
  return ⟨n, e - places.length⟩

/-- Reads a number as a double. A magnitude beyond every double is refused. -/
def read? (t : Text) : Option Float := do
  let (negative, body) := match t with
    | 45 :: rest => (true, rest)
    | _ => (false, t)
  let x := (← digits? body).toFloat
  if x.isInf then none else return if negative then -x else x

end ContractAudit.Decimal
