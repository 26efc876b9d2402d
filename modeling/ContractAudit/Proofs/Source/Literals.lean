import Mathlib.Data.List.Induction
import Mathlib.Data.Nat.Digits.Defs
import ContractAudit.Proofs.File.Components
import ContractAudit.Proofs.Source.Words

/-!
The values of number literals and units.

A literal is read from its left end, digit by digit, and a unit is looked up in a table. Here their
values are said without a reader: digits stand for a number in positional notation (`placeValue?`),
and a literal with an exponent for its mantissa times a power of ten (`literalMeaning?`).

* `readBase?_eq`: reading digit by digit gives the positional value.
* `literalWord?_eq`, `unitFactor?_eq`: literals and units are read as what they mean.
-/

namespace ContractAudit.Source

/-! ### Positional notation -/

/-- The place of a digit in the row of all digits, with letters of either case. -/
def digitMeaning (c : UInt8) : Nat :=
  min (("0123456789abcdef" : Text).idxOf c) (("0123456789ABCDEF" : Text).idxOf c)

/-- The number that has the given digits in the given base, the last digit counting the ones. -/
def placeValue? (base : Nat) (digits : Text) : Option Nat :=
  if !digits.isEmpty && digits.all (digitMeaning · < base) then
    some (Nat.ofDigits base (digits.reverse.map digitMeaning))
  else none

lemma digitValue?_eq (c : UInt8) :
    Text.digitValue? c = if digitMeaning c < 16 then some (digitMeaning c) else none := by
  have hall : ∀ n < 256, Text.digitValue? (UInt8.ofNat n) =
      if digitMeaning (UInt8.ofNat n) < 16 then some (digitMeaning (UInt8.ofNat n)) else none := by
    decide +kernel
  simpa using hall c.toNat c.toNat_lt

/-- One more digit moves the ones before it up by a place. -/
lemma readBase?_concat {base : Nat} (hbase : base ≤ 16) (t : Text) (c : UInt8) :
    Text.readBase? base (t ++ [c]) =
      (if t = [] then some 0 else Text.readBase? base t).bind fun n =>
        if digitMeaning c < base then some (n * base + digitMeaning c) else none := by
  have hdigit := digitValue?_eq c
  by_cases hc : digitMeaning c < 16
  · by_cases ht : t = [] <;> simp [Text.readBase?, hdigit, hc, ht]
  · have hbase : ¬ digitMeaning c < base := fun h => hc (Nat.lt_of_lt_of_le h hbase)
    by_cases ht : t = [] <;> simp [Text.readBase?, hdigit, hc, ht, hbase]

/-- Reading digit by digit gives the positional value. -/
lemma readBase?_eq {base : Nat} (hbase : base ≤ 16) (t : Text) :
    Text.readBase? base t = placeValue? base t := by
  induction t using List.reverseRecOn with
  | nil => rfl
  | append_singleton t c ih =>
    rw [readBase?_concat hbase, ih]
    have hfront : (if t = [] then some 0 else placeValue? base t) =
        if ∀ b ∈ t, digitMeaning b < base then
          some (Nat.ofDigits base (t.reverse.map digitMeaning)) else none := by
      by_cases ht : t = [] <;> simp [ht, placeValue?]
    have hall : placeValue? base (t ++ [c]) =
        if (∀ b ∈ t, digitMeaning b < base) ∧ digitMeaning c < base then
          some (Nat.ofDigits base (t.reverse.map digitMeaning) * base + digitMeaning c)
        else none := by
      simp [placeValue?, Nat.ofDigits_cons, Nat.add_comm, Nat.mul_comm]
    rw [hfront, hall, ite_and]
    split <;> rfl

/-! ### Literals -/

/-- The number of digits in the given base, with or without a sign in front. -/
def signedMeaning? (base : Nat) (t : Text) : Option Int :=
  let sign : Int := if t.head? = some 45 then -1 else 1
  let digits := if t.head? = some 45 ∨ t.head? = some 43 then t.tail else t
  (placeValue? base digits).map fun n => sign * n

/-- The number that a numeral of at most 256 bits stands for: it is hexadecimal behind `0x` or `0X`
and else decimal, and nothing at all is zero. -/
def numeralMeaning? (t : Text) : Option Int :=
  let value :=
    if t = [] then some 0
    else if ("0x" : Text) <+: t ∨ ("0X" : Text) <+: t then signedMeaning? 16 (t.drop 2)
    else signedMeaning? 10 t
  value.filter fun i => i.natAbs < 2 ^ 256

/-- The word that a number literal stands for. Underscores are left out. If the literal does not
begin with `0x`, the letter `e` of either case stands between a mantissa and an exponent of at most
sixteen bits, where one below zero counts as zero. -/
def literalMeaning? (literal : Text) : Option Nat :=
  let t : Text := literal.filter (· != 95)
  let lower : Text := t.map lowerByte
  if ("0x" : Text) <+: t ∨ 101 ∉ lower then
    (numeralMeaning? t).map fun i => (i % 2 ^ 256).toNat
  else do
    let m ← numeralMeaning? (lower.takeWhile (· != 101))
    let x ← numeralMeaning? (lower.dropWhile (· != 101)).tail
    if x.natAbs < 2 ^ 16 then some (m * (10 ^ x.toNat : Nat) % 2 ^ 256).toNat else none

/-- What a unit multiplies by. -/
def unitMeaning? (unit : Text) : Option Nat :=
  if unit = "wei" then some 1
  else if unit = "gwei" then some (10 ^ 9)
  else if unit = "ether" then some (10 ^ 18)
  else if unit = "seconds" then some 1
  else if unit = "minutes" then some 60
  else if unit = "hours" then some (60 * 60)
  else if unit = "days" then some (24 * 60 * 60)
  else if unit = "weeks" then some (7 * 24 * 60 * 60)
  else none

lemma readSigned?_eq {base : Nat} (hbase : base ≤ 16) (t : Text) :
    readSigned? base t = signedMeaning? base t := by
  unfold readSigned? signedMeaning?
  split
  · simp [readBase?_eq hbase]
  · simp [readBase?_eq hbase]
  · next hminus hplus =>
    have h : ∀ c, (∀ digits, t = c :: digits → False) → t.head? ≠ some c := by
      intro c hc hhead
      obtain ⟨digits, rfl⟩ := List.head?_eq_some_iff.mp hhead
      exact hc digits rfl
    simp [readBase?_eq hbase, h 45 hminus, h 43 hplus]

lemma readWordSized?_eq (t : Text) : readWordSized? t = numeralMeaning? t := by
  have hten := readSigned?_eq (show 10 ≤ 16 by decide)
  have hsixteen := readSigned?_eq (show 16 ≤ 16 by decide)
  have hx : ("0x" : Text) = [48, 120] := by decide
  have hX : ("0X" : Text) = [48, 88] := by decide
  unfold readWordSized? numeralMeaning?
  rw [wordCount_eq, hx, hX]
  split
  · rfl
  · next x digits => simp [hten, hsixteen, eq_comm (b := x)]
  · next hnil hmark =>
    have hno : ∀ x : UInt8, ¬ [48, x] <+: t := fun x ⟨digits, hdigits⟩ =>
      hmark x digits hdigits.symm
    rw [if_neg hnil, if_neg (not_or.mpr ⟨hno 120, hno 88⟩), hten]

lemma toWord_eq (i : Int) : toWord i = (i % 2 ^ 256).toNat := rfl

lemma toWord_toWord (i : Int) : toWord (toWord i) = toWord i := by
  rw [toWord, Int.emod_eq_of_lt (Int.natCast_nonneg _) (Int.ofNat_lt.mpr (toWord_lt i)),
    Int.toNat_natCast]

lemma literalWord?_eq (literal : Text) : literalWord? literal = literalMeaning? literal := by
  have hsep : ("e" : Text) = [101] := by decide
  unfold literalWord? readNumeral? literalMeaning?
  generalize (literal.filter (· != 95) : Text) = t
  have hmark : Text.startsWith t "0x" = true ↔ ("0x" : Text) <+: t := List.isPrefixOf_iff_prefix
  simp only [hsep, readWordSized?_eq, hmark, ← toWord_eq]
  generalize t.map lowerByte = lower
  by_cases he : 101 ∈ lower
  · obtain ⟨mantissa, exponent, rfl, hnot⟩ := List.eq_append_cons_of_mem he
    have hpass : ∀ c ∈ mantissa, (c != 101) = true := fun c hc => bne_iff_ne.mpr fun heq =>
      hnot (heq ▸ hc)
    rw [Text.cut?_append hnot, List.takeWhile_append_of_pos hpass,
      List.dropWhile_append_of_pos hpass]
    by_cases hzero : ("0x" : Text) <+: t
    · simp only [hzero, if_true, true_or]
    · simp only [hzero, if_false, he, not_true, or_self, bne_self_eq_false, List.takeWhile_cons,
        List.dropWhile_cons, List.append_nil, List.tail_cons, Bool.false_eq_true]
      cases numeralMeaning? mantissa with
      | none => rfl
      | some m =>
        cases numeralMeaning? exponent with
        | none => rfl
        | some x =>
          by_cases hx : x.natAbs < 65536
          · simp [hx, toWord_toWord]
          · simp [hx]
  · rw [Text.cut?_of_not_mem he, if_pos (Or.inr he)]

lemma unitFactor?_eq (unit : Text) : unitFactor? unit = unitMeaning? unit := by
  have hcons : ∀ (key : Text) (value : Nat) (table : List (Text × Nat)),
      ((key, value) :: table).lookup unit =
        if unit = key then some value else table.lookup unit := by
    intro key value table
    by_cases h : unit = key
    · rw [if_pos h, h, List.lookup_cons_self]
    · rw [if_neg h, List.lookup_cons, beq_false_of_ne h]
  simp only [unitFactor?, hcons]
  rfl

end ContractAudit.Source
