import ContractAudit.Calendar
import ContractAudit.Decimal.Double

/-!
What plain scalars stand for.

A plain scalar may stand for nothing, a truth value, a number or a point in time; otherwise it is a
text.
-/

namespace ContractAudit.Yaml

/-- What a plain scalar stands for. -/
inductive Meaning where
  | null
  | bool (value : Bool)
  | int (value : Int)
  | float (value : Float)
  | time
  /-- The key under which another mapping is merged in. -/
  | merge
  | text
deriving Repr

/-- Words that stand for something else than themselves. -/
def wordMeaning? (t : Text) : Option Meaning :=
  if t.isEmpty || [Text.ofString "~", "null", "Null", "NULL"].contains t then some .null
  else if [Text.ofString "true", "True", "TRUE"].contains t then some (.bool true)
  else if [Text.ofString "false", "False", "FALSE"].contains t then some (.bool false)
  else if [Text.ofString ".nan", ".NaN", ".NAN"].contains t then some (.float (0.0 / 0.0))
  else if [Text.ofString ".inf", ".Inf", ".INF", "+.inf", "+.Inf", "+.INF"].contains t then
    some (.float (1.0 / 0.0))
  else if [Text.ofString "-.inf", "-.Inf", "-.INF"].contains t then some (.float (-1.0 / 0.0))
  else if t == "<<" then some .merge
  else none

/-- The sign in front of a number, and the rest. -/
def sign (t : Text) : Bool × Text :=
  match t with
  | 45 :: rest => (true, rest)
  | 43 :: rest => (false, rest)
  | _ => (false, t)

/-- A number without sign: decimal, or in the base that its first characters name. A zero in front
of more digits means base eight. -/
def magnitude? (t : Text) : Option Nat :=
  match t with
  | 48 :: c :: rest =>
    if c == 120 || c == 88 then Text.readBase? 16 rest
    else if c == 98 || c == 66 then Text.readBase? 2 rest
    else if c == 111 || c == 79 then Text.readBase? 8 rest
    else Text.readBase? 8 (c :: rest)
  | _ => Text.readNat? t

/-- An integer that fits 64 bits, or 64 bits without sign when it has none. -/
def integer? (t : Text) : Option Int :=
  let (negative, digits) := sign t
  let signless := digits.length == t.length
  (magnitude? digits).bind fun n =>
    if negative then if n ≤ Nat.pow 2 63 then some (-(n : Int)) else none
    else if n < Nat.pow 2 63 || (signless && n < Nat.pow 2 64) then some (n : Int)
    else none

/-- Whether a text is a run of digits with an optional point and an optional exponent. -/
def isFloat (t : Text) : Bool :=
  let body := (sign t).2
  let whole := body.takeWhile Text.isDigit
  let behind := body.drop whole.length
  let (places, behind) := match behind with
    | 46 :: more => (more.takeWhile Text.isDigit, more.dropWhile Text.isDigit)
    | _ => ([], behind)
  let exponent := match behind with
    | [] => true
    | c :: rest =>
      let digits := (sign rest).2
      (c == 101 || c == 69) && !digits.isEmpty && digits.all Text.isDigit
  (!whole.isEmpty || !places.isEmpty) && exponent

/-- The value of a text for which `isFloat` holds, unless it is beyond every double. -/
def float? (t : Text) : Option Float :=
  let (negative, body) := sign t
  if isFloat t then (Decimal.read? body).map fun x => if negative then -x else x else none

/-! ### Points in time -/

open Calendar in
/-- A date with months and days of one or two digits at the head of a text, and what follows. -/
def looseDate? (t : Text) : Option Text := do
  let (year, t) ← digits? 4 t
  let (month, t) ← oneOrTwo? (← past? 45 t)
  let (day, t) ← oneOrTwo? (← past? 45 t)
  if month < 1 || 12 < month || day < 1 || daysIn year month < day then none else return t

open Calendar in
/-- What follows a time of day at the head of a text. -/
def looseTime? (t : Text) : Option Text := do
  let (hour, t) ← oneOrTwo? t
  let (minute, t) ← oneOrTwo? (← past? 58 t)
  let (second, t) ← oneOrTwo? (← past? 58 t)
  if 24 ≤ hour || 60 ≤ minute || 60 ≤ second then none else return (nanos t).2

/-- Whether a text is a point in time: a date, alone, with a time of day behind a space, or with a
time of day and a distance from universal time behind the letter T. -/
def isTime (t : Text) : Bool :=
  match looseDate? t with
  | none => false
  | some [] => true
  | some (c :: rest) =>
    match looseTime? rest with
    | none => false
    | some behind =>
      if c == 32 then behind.isEmpty
      else (c == 84 || c == 116) && (Calendar.zone? behind).isSome

/-! ### Meaning -/

/-- What a scalar that starts with a digit or a sign stands for. -/
def numberMeaning (t : Text) : Meaning :=
  let bare := t.filter (· != 95)
  if isTime t then .time
  else
    match integer? bare with
    | some n => .int n
    | none =>
      match float? bare with
      | some x => .float x
      | none => .text

/-- What a plain scalar stands for. -/
def meaning (t : Text) : Meaning :=
  match wordMeaning? t with
  | some m => m
  | none =>
    match t with
    | c :: _ =>
      if Text.isDigit c || c == 43 || c == 45 then numberMeaning t
      else if c == 46 then
        match float? t with
        | some x => .float x
        | none => .text
      else .text
    | [] => .null

end ContractAudit.Yaml
