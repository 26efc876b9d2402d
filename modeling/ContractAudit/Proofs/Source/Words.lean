import Mathlib.Data.Nat.Bitwise
import Mathlib.Algebra.Order.Ring.Nat
import ContractAudit.Source.Constant

/-!
Arithmetic of words.

On words the operators of constant expressions are those of the integers, reduced modulo the number
of words (`BinaryOp.meaning`, `UnaryOp.meaning`). They are computed by repeated squaring and by
cutting off large shifts; `BinaryOp.apply_eq_meaning` says that this makes no difference.
-/

namespace ContractAudit.Source

lemma wordCount_eq : wordCount = 2 ^ 256 := rfl

lemma wordCount_pos : 0 < wordCount := Nat.two_pow_pos 256

lemma one_lt_wordCount : 1 < wordCount := Nat.one_lt_two_pow (by decide)

lemma toWord_lt (i : Int) : toWord i < wordCount := by
  have hpos : (0 : Int) < wordCount := Int.natCast_pos.mpr wordCount_pos
  have hlt := Int.emod_lt_of_pos i hpos
  have hnonneg := Int.emod_nonneg i (Int.ne_of_gt hpos)
  rw [toWord]
  omega

/-! ### Powers -/

lemma wordPowerUpTo_eq {fuel exponent : Nat} (base : Nat) (h : exponent < 2 ^ fuel) :
    wordPowerUpTo fuel base exponent = base ^ exponent % wordCount := by
  induction fuel generalizing base exponent with
  | zero =>
    obtain rfl : exponent = 0 := Nat.lt_one_iff.mp h
    rw [wordPowerUpTo, pow_zero, Nat.mod_eq_of_lt one_lt_wordCount]
  | succ fuel ih =>
    rw [wordPowerUpTo]
    by_cases hzero : exponent = 0
    · rw [if_pos (beq_iff_eq.mpr hzero), hzero, pow_zero, Nat.mod_eq_of_lt one_lt_wordCount]
    have hhalf : exponent / 2 < 2 ^ fuel := by
      rw [pow_succ] at h
      omega
    have hsquare : (base * base) ^ (exponent / 2) = base ^ (2 * (exponent / 2)) := by
      rw [← pow_two, pow_mul]
    rw [if_neg (by simpa using hzero)]
    dsimp only
    rw [ih _ hhalf, ← Nat.pow_mod, hsquare]
    split
    · next hodd =>
      have hodd : exponent % 2 = 1 := beq_iff_eq.mp hodd
      have hexp : exponent = 2 * (exponent / 2) + 1 := by omega
      rw [Nat.mul_mod_mod, ← pow_succ', ← hexp]
    · next heven =>
      have heven : exponent % 2 ≠ 1 := by simpa using heven
      have hexp : exponent = 2 * (exponent / 2) := by omega
      rw [← hexp]

lemma wordPower_eq (base exponent : Nat) : wordPower base exponent = base ^ exponent % wordCount :=
  wordPowerUpTo_eq base Nat.lt_log2_self

/-! ### Operators -/

/-- The value of a binary operator on words, nothing for a division by zero. -/
def BinaryOp.meaning (op : BinaryOp) (a b : Nat) : Option Nat :=
  match op with
  | .or => some (if a ≠ 0 ∨ b ≠ 0 then 1 else 0)
  | .and => some (if a ≠ 0 ∧ b ≠ 0 then 1 else 0)
  | .eq => some (if a = b then 1 else 0)
  | .ne => some (if a ≠ b then 1 else 0)
  | .lt => some (if a < b then 1 else 0)
  | .gt => some (if a > b then 1 else 0)
  | .le => some (if a ≤ b then 1 else 0)
  | .ge => some (if a ≥ b then 1 else 0)
  | .bitOr => some (a ||| b)
  | .bitXor => some (a ^^^ b)
  | .bitAnd => some (a &&& b)
  | .shiftLeft => some (a * 2 ^ b % 2 ^ 256)
  | .shiftRight => some (a / 2 ^ b)
  | .add => some ((a + b) % 2 ^ 256)
  | .sub => some (((a : Int) - b) % 2 ^ 256).toNat
  | .mul => some (a * b % 2 ^ 256)
  | .div => if b = 0 then none else some (a / b)
  | .mod => if b = 0 then none else some (a % b)
  | .pow => some (a ^ b % 2 ^ 256)

/-- The value of a unary operator on words. -/
def UnaryOp.meaning (op : UnaryOp) (a : Nat) : Nat :=
  match op with
  | .neg => (-(a : Int) % 2 ^ 256).toNat
  | .complement => (~~~(a : Int) % 2 ^ 256).toNat
  | .not => if a = 0 then 1 else 0

lemma shiftLeft_eq_meaning (a b : Nat) :
    (if b < 65536 then (a <<< b) % wordCount else 0) = a * 2 ^ b % 2 ^ 256 := by
  split
  · rw [Nat.shiftLeft_eq, wordCount_eq]
  · next hb =>
    have hdvd : 2 ^ 256 ∣ 2 ^ b := Nat.pow_dvd_pow 2 (by omega)
    exact (Nat.mod_eq_zero_of_dvd (hdvd.mul_left a)).symm

lemma shiftRight_eq_meaning {a : Nat} (ha : a < wordCount) (b : Nat) :
    (if b < 65536 then (a >>> b) % wordCount else 0) = a / 2 ^ b := by
  split
  · rw [Nat.shiftRight_eq_div_pow, Nat.mod_eq_of_lt (Nat.lt_of_le_of_lt (Nat.div_le_self ..) ha)]
  · next hb =>
    have hle : wordCount ≤ 2 ^ b := Nat.pow_le_pow_right Nat.two_pos (by omega)
    exact (Nat.div_eq_of_lt (Nat.lt_of_lt_of_le ha hle)).symm

lemma BinaryOp.apply_eq_meaning (op : BinaryOp) {a b : Nat} (ha : a < wordCount)
    (hb : b < wordCount) :
    op.apply a b = op.meaning a b := by
  cases op with
  | bitOr => exact congrArg some (Nat.mod_eq_of_lt (Nat.or_lt_two_pow ha hb))
  | bitXor => exact congrArg some (Nat.mod_eq_of_lt (Nat.xor_lt_two_pow ha hb))
  | bitAnd => exact congrArg some (Nat.mod_eq_of_lt (Nat.and_lt_two_pow a hb))
  | shiftLeft => exact congrArg some (shiftLeft_eq_meaning a b)
  | shiftRight => exact congrArg some (shiftRight_eq_meaning ha b)
  | add => rfl
  | sub => rfl
  | mul => rfl
  | div => simp [apply, meaning, Nat.mod_eq_of_lt (Nat.lt_of_le_of_lt (Nat.div_le_self a b) ha)]
  | mod => simp [apply, meaning, Nat.mod_eq_of_lt (Nat.lt_of_le_of_lt (Nat.mod_le a b) ha)]
  | pow => exact congrArg some (wordPower_eq a b)
  | _ => simp [apply, meaning, truth]

lemma UnaryOp.apply_eq_meaning (op : UnaryOp) (a : Nat) : op.apply a = op.meaning a := by
  cases op with
  | neg => rfl
  | complement =>
    have hnot : ~~~(a : Int) = -(a : Int) - 1 := by
      change Int.negSucc a = _
      omega
    rw [apply, meaning, hnot]
    rfl
  | not => simp [apply, meaning, BinaryOp.truth]

/-! ### Values are words -/

lemma truthValue_lt (p : Prop) [Decidable p] : (if p then 1 else 0) < wordCount := by
  split
  · exact one_lt_wordCount
  · exact wordCount_pos

/-- The operators give words for words. -/
lemma BinaryOp.meaning_lt {op : BinaryOp} {a b v : Nat} (ha : a < wordCount) (hb : b < wordCount)
    (h : op.meaning a b = some v) : v < wordCount := by
  cases op with
  | bitOr => exact Option.some.inj h ▸ Nat.or_lt_two_pow ha hb
  | bitXor => exact Option.some.inj h ▸ Nat.xor_lt_two_pow ha hb
  | bitAnd => exact Option.some.inj h ▸ Nat.and_lt_two_pow a hb
  | shiftLeft => exact Option.some.inj h ▸ Nat.mod_lt _ wordCount_pos
  | shiftRight => exact Option.some.inj h ▸ Nat.lt_of_le_of_lt (Nat.div_le_self ..) ha
  | add => exact Option.some.inj h ▸ Nat.mod_lt _ wordCount_pos
  | sub => exact Option.some.inj h ▸ toWord_lt _
  | mul => exact Option.some.inj h ▸ Nat.mod_lt _ wordCount_pos
  | div =>
    rw [meaning] at h
    split at h
    · contradiction
    · exact Option.some.inj h ▸ Nat.lt_of_le_of_lt (Nat.div_le_self ..) ha
  | mod =>
    rw [meaning] at h
    split at h
    · contradiction
    · exact Option.some.inj h ▸ Nat.lt_of_le_of_lt (Nat.mod_le ..) ha
  | pow => exact Option.some.inj h ▸ Nat.mod_lt _ wordCount_pos
  | _ => exact Option.some.inj h ▸ truthValue_lt _

lemma UnaryOp.meaning_lt (op : UnaryOp) (a : Nat) : op.meaning a < wordCount := by
  cases op with
  | neg => exact toWord_lt _
  | complement => exact toWord_lt _
  | not => exact truthValue_lt _

end ContractAudit.Source
