import ContractAudit.Text.Basic

/-!
Durations in nanoseconds.
-/

namespace ContractAudit.Duration

/-- Nanoseconds in a microsecond. -/
def microsecond : Nat := 1000

/-- Nanoseconds in a millisecond. -/
def millisecond : Nat := 1000000

/-- Nanoseconds in a second. -/
def second : Nat := 1000000000

/-- The nearest multiple of `unit`, the one farther from zero when two are equally near. Durations
have 64 bits, and the outermost ones stand for what lies beyond. -/
def round (d : Int) (unit : Nat) : Int :=
  let n := d.natAbs
  let q := if 2 * (n % unit) < unit then n / unit else n / unit + 1
  if d < 0 then max (-(q * unit : Nat)) (-9223372036854775808)
  else min (q * unit : Nat) 9223372036854775807

/-- `n` divided by the given power of ten, with as many decimals as it takes. -/
def scaled (places n : Nat) : Text :=
  let rest := n % Nat.pow 10 places
  let decimals := (Text.padZeros places (Text.ofNat rest)).reverse.dropWhile (· == 48) |>.reverse
  Text.ofNat (n / Nat.pow 10 places) ++ (if rest == 0 then ([] : Text) else "." ++ decimals)

/-- A duration without its sign: in the largest unit below a second that it fills, or in hours,
minutes and seconds, of which leading ones that are zero are left out. -/
def magnitude (n : Nat) : Text :=
  if n == 0 then "0s"
  else if n < microsecond then Text.ofNat n ++ "ns"
  else if n < millisecond then scaled 3 n ++ "µs"
  else if n < second then scaled 6 n ++ "ms"
  else
    let minutes := n / second / 60
    let seconds := scaled 9 (n - minutes * 60 * second) ++ "s"
    if minutes == 0 then seconds
    else
      let within := Text.ofNat (minutes % 60) ++ "m" ++ seconds
      if minutes < 60 then within else Text.ofNat (minutes / 60) ++ "h" ++ within

/-- The wording of a duration. -/
def text (d : Int) : Text := if d < 0 then "-" ++ magnitude d.natAbs else magnitude d.natAbs

/-- The wording of a duration rounded for readers: to microseconds below a millisecond, and to
milliseconds from there on. -/
def brief (d : Int) : Text :=
  text (round d (if d < millisecond then microsecond else millisecond))

end ContractAudit.Duration
