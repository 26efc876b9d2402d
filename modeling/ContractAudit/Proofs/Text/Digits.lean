import Mathlib.Tactic.SplitIfs
import ContractAudit.Text.Basic

/-!
The digits of numbers.

* `readBase?_hex`: four hexadecimal digits spell every number below `16 ^ 4`.
* `ofNat_eq`: the last decimal digit of a number comes off the end, so that the digits are digits
  (`isDigit_of_mem_ofNat`), no zero stands in front of them (`ofNat_eq_cons`) and they spell the
  number (`readNat?_ofNat`).
-/

namespace ContractAudit.Text

lemma digitValue?_hexDigit : ∀ d < 16, digitValue? (hexDigit d) = some d := by
  decide

/-- Four hexadecimal digits spell every number below `16 ^ 4`. -/
lemma readBase?_hex {n : Nat} (h : n < 65536) : readBase? 16 (hex 4 n) = some n := by
  have hdigits : hex 4 n = [hexDigit (n / 4096 % 16), hexDigit (n / 256 % 16),
      hexDigit (n / 16 % 16), hexDigit (n % 16)] := by
    simp [hex, List.range_succ]
  have hlt : ∀ m : Nat, m % 16 < 16 := fun m => Nat.mod_lt m (by decide)
  simp only [hdigits, readBase?, List.isEmpty_cons, Bool.false_eq_true, if_false, List.foldl_cons,
    List.foldl_nil, Option.bind_some, digitValue?_hexDigit _ (hlt _), hlt, if_true,
      Option.some.injEq]
  omega

/-! ### Decimal digits -/

lemma ofString_ofList (cs : List Char) :
    ofString (String.ofList cs) = cs.flatMap String.utf8EncodeChar := by
  rw [ofString, String.toUTF8_eq_toByteArray, String.toByteArray_ofList]
  simp [List.utf8Encode]

lemma utf8EncodeChar_digitChar :
    ∀ d < 10, String.utf8EncodeChar (Nat.digitChar d) = [hexDigit d] := by
  decide

/-- The last digit of a number comes off the end. -/
lemma ofNat_eq (n : Nat) : ofNat n = if n < 10 then [hexDigit n]
    else ofNat (n / 10) ++ [hexDigit (n % 10)] := by
  have hdigits : ∀ m, ofNat m = (Nat.toDigits 10 m).flatMap String.utf8EncodeChar := fun m =>
    ofString_ofList _
  rw [hdigits, hdigits, Nat.toDigits_eq_if (by decide)]
  split_ifs with hn
  · simp [utf8EncodeChar_digitChar n hn]
  · simp [utf8EncodeChar_digitChar (n % 10) (Nat.mod_lt n (by decide))]

lemma isDigit_hexDigit : ∀ d < 10, isDigit (hexDigit d) = true := by
  decide

lemma isDigit_of_mem_ofNat {n : Nat} {c : UInt8} (h : c ∈ ofNat n) : isDigit c = true := by
  induction n using Nat.strongRecOn with
  | ind n ih =>
    rw [ofNat_eq] at h
    split_ifs at h with hn
    · rw [List.mem_singleton.mp h]
      exact isDigit_hexDigit n hn
    · rcases List.mem_append.mp h with h | h
      · exact ih (n / 10) (by omega) h
      · rw [List.mem_singleton.mp h]
        exact isDigit_hexDigit _ (Nat.mod_lt n (by decide))

lemma hexDigit_eq_zero : ∀ d < 10, hexDigit d = 48 → d = 0 := by
  decide

/-- Only the number zero begins with a zero. -/
lemma ofNat_eq_cons (n : Nat) : ∃ c rest, ofNat n = c :: rest ∧ (c = 48 → n = 0) := by
  induction n using Nat.strongRecOn with
  | ind n ih =>
    rw [ofNat_eq]
    split_ifs with hn
    · exact ⟨hexDigit n, [], rfl, hexDigit_eq_zero n hn⟩
    · obtain ⟨c, rest, hdigits, hzero⟩ := ih (n / 10) (by omega)
      refine ⟨c, rest ++ [hexDigit (n % 10)], ?_, fun hc => ?_⟩
      · rw [hdigits, List.cons_append]
      · have := hzero hc
        omega

/-- One more digit moves the ones before it up by a place. -/
lemma readNat?_concat {t : Text} {n d : Nat} (ht : readNat? t = some n) (hd : d < 10) :
    readNat? (t ++ [hexDigit d]) = some (n * 10 + d) := by
  rw [readNat?, readBase?] at ht ⊢
  split_ifs at ht with hempty
  rw [if_neg (by simp), List.foldl_append, ht]
  simp [digitValue?_hexDigit d (by omega), hd]

/-- The digits of a number spell the number. -/
lemma readNat?_ofNat (n : Nat) : readNat? (ofNat n) = some n := by
  induction n using Nat.strongRecOn with
  | ind n ih =>
    rw [ofNat_eq]
    split_ifs with hn
    · simp [readNat?, readBase?, digitValue?_hexDigit n (by omega), hn]
    · rw [readNat?_concat (ih (n / 10) (by omega)) (Nat.mod_lt n (by decide)), Option.some.injEq]
      omega

lemma ofString_append (a b : String) : ofString (a ++ b) = ofString a ++ ofString b := by
  simp [ofString, String.toUTF8_eq_toByteArray, String.toByteArray_append, ByteArray.data_append]

lemma ofInt_negSucc (n : Nat) : ofInt (Int.negSucc n) = 45 :: ofNat (n + 1) := ofString_append "-" _

end ContractAudit.Text
