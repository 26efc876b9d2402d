import ContractAudit.Text.Basic

/-!
Days, instants and how they are written.

Days are counted in the Gregorian calendar, without end in both directions. An instant is a number
of seconds since the start of 1970 and of nanoseconds. `readInstant?` reads an instant with its
distance from universal time, as in `2024-06-01T12:00:00.5+02:00`; `readDay?` reads a day, as in
`2024-06-01`.
-/

namespace ContractAudit.Calendar

/-- Whether a year has a leap day. -/
def isLeap (year : Int) : Bool := year % 4 == 0 && (year % 100 != 0 || year % 400 == 0)

/-- The number of days of a month. -/
def daysIn (year : Int) (month : Nat) : Nat :=
  if month == 2 then if isLeap year then 29 else 28
  else if month == 4 || month == 6 || month == 9 || month == 11 then 30
  else 31

/-- A day of the calendar. -/
structure Date where
  year : Int
  month : Nat
  day : Nat
deriving DecidableEq, Repr

/-- The number of a day, counted from the first of January 1970. Years are taken to start in March,
so that the leap day comes last. -/
def Date.number (d : Date) : Int :=
  let year := if d.month ≤ 2 then d.year - 1 else d.year
  let month := if d.month ≤ 2 then d.month + 9 else d.month - 3
  let era := year.fdiv 400
  let yearOfEra := year - 400 * era
  let dayOfYear : Int := ((153 * month + 2) / 5 + d.day : Nat) - 1
  146097 * era + 365 * yearOfEra + yearOfEra / 4 - yearOfEra / 100 + dayOfYear - 719468

/-- The day with the given number. -/
def Date.ofNumber (n : Int) : Date :=
  let shifted := n + 719468
  let era := shifted.fdiv 146097
  let dayOfEra := (shifted - 146097 * era).toNat
  let yearOfEra := (dayOfEra - dayOfEra / 1460 + dayOfEra / 36524 - dayOfEra / 146096) / 365
  let dayOfYear := dayOfEra - (365 * yearOfEra + yearOfEra / 4 - yearOfEra / 100)
  let month := (5 * dayOfYear + 2) / 153
  let day := dayOfYear - (153 * month + 2) / 5 + 1
  let year := 400 * era + yearOfEra
  if month < 10 then ⟨year, month + 3, day⟩ else ⟨year + 1, month - 9, day⟩

/-- A point in time: seconds since the start of 1970, and nanoseconds. -/
structure Instant where
  seconds : Int
  nanos : Nat
deriving DecidableEq, Repr

namespace Instant

/-- Whether an instant comes after another. -/
def isAfter (a b : Instant) : Bool :=
  b.seconds < a.seconds || (a.seconds == b.seconds && b.nanos < a.nanos)

/-- The start of a day. -/
def ofDay (n : Int) : Instant := ⟨86400 * n, 0⟩

/-- The start of the year one, which stands for an instant that was not given. -/
def unset : Instant := ofDay (Date.number ⟨1, 1, 1⟩)

/-- A number with at least the given number of digits. -/
def padded (width : Nat) (n : Int) : Text :=
  let digits := Text.padZeros width (Text.ofNat n.natAbs)
  if n < 0 then "-" ++ digits else digits

/-- An instant in universal time, to the second. -/
def text (t : Instant) : Text :=
  let day := t.seconds.fdiv 86400
  let rest := (t.seconds - 86400 * day).toNat
  let date := Date.ofNumber day
  padded 4 date.year ++ "-" ++ padded 2 date.month ++ "-" ++ padded 2 date.day ++ "T" ++
    padded 2 (rest / 3600 : Nat) ++ ":" ++ padded 2 (rest / 60 % 60 : Nat) ++ ":" ++
    padded 2 (rest % 60 : Nat) ++ "Z"

end Instant

/-! ### Reading -/

/-- The number in exactly `width` digits at the head of a text, and what follows. -/
def digits? (width : Nat) (t : Text) : Option (Nat × Text) :=
  let run := t.take width
  if run.length == width && run.all Text.isDigit then
    (Text.readNat? run).map fun n => (n, t.drop width)
  else none

/-- The number in one or two digits at the head of a text, and what follows. -/
def oneOrTwo? (t : Text) : Option (Nat × Text) :=
  match digits? 2 t with
  | some r => some r
  | none => digits? 1 t

/-- What follows a byte at the head of a text. -/
def past? (c : UInt8) (t : Text) : Option Text :=
  match t with
  | d :: rest => if d == c then some rest else none
  | [] => none

/-- The date at the head of a text, and what follows. -/
def date? (t : Text) : Option (Date × Text) := do
  let (year, t) ← digits? 4 t
  let (month, t) ← digits? 2 (← past? 45 t)
  let (day, t) ← digits? 2 (← past? 45 t)
  if month < 1 || 12 < month || day < 1 || daysIn year month < day then none
  else return (⟨year, month, day⟩, t)

/-- Reads a day. -/
def readDay? (t : Text) : Option Int := do
  let (date, rest) ← date? t
  if rest.isEmpty then return date.number else none

/-- The nanoseconds behind a point or comma at the head of a text, and what follows. Digits past the
ninth are dropped. -/
def nanos (t : Text) : Nat × Text :=
  match t with
  | c :: rest =>
    let digits := rest.takeWhile Text.isDigit
    if (c == 46 || c == 44) && !digits.isEmpty then
      let kept := digits.take 9
      ((Text.readNat? (kept ++ List.replicate (9 - kept.length) 48)).getD 0,
        rest.drop digits.length)
    else (0, t)
  | [] => (0, t)

/-- The distance from universal time in seconds, which ends the text. -/
def zone? (t : Text) : Option Int := do
  match t with
  | [90] => return 0
  | c :: rest =>
    let sign : Int ← if c == 43 then some 1 else if c == 45 then some (-1) else none
    let (hours, rest) ← digits? 2 rest
    let (minutes, rest) ← digits? 2 (← past? 58 rest)
    if !rest.isEmpty || 24 < hours || 60 < minutes then none
    else return sign * (3600 * hours + 60 * minutes)
  | [] => none

/-- Reads an instant with its distance from universal time. -/
def readInstant? (t : Text) : Option Instant := do
  let (date, t) ← date? t
  let (hour, t) ← oneOrTwo? (← past? 84 t)
  let (minute, t) ← digits? 2 (← past? 58 t)
  let (second, t) ← digits? 2 (← past? 58 t)
  if 24 ≤ hour || 60 ≤ minute || 60 ≤ second then none
  else
    let (nanos, t) := nanos t
    let offset ← zone? t
    return ⟨86400 * date.number + 3600 * hour + 60 * minute + second - offset, nanos⟩

end ContractAudit.Calendar
