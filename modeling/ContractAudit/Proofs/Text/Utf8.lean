import Mathlib.Tactic.SplitIfs
import ContractAudit.Text.Utf8

/-!
Runes and their bytes.

* `headRune_append`: a rune that is not stray is read again from its own bytes.
* `encode_headRune`: its code point is written as these bytes.
* `ofRunes_runesUpTo`: the runes of a text have the bytes of the text.
* `scrub_eq_self`: so a text without stray bytes is left alone when stray bytes are replaced.
-/

namespace ContractAudit.Text

variable {a b : UInt8} {rest t : Text} {n : Nat}

/-- A rune that is not stray is read again from its own bytes, whatever stands behind them. -/
lemma headRune_append (h : (headRune a rest).stray = false) (more : Text) :
    ∃ tail, (headRune a rest).bytes = a :: tail ∧ headRune a (tail ++ more) = headRune a rest := by
  revert h
  unfold headRune
  split_ifs with hascii
  · exact fun _ => ⟨[], rfl, rfl⟩
  · split
    · simp
    · split_ifs with htwo
      · intro _
        refine ⟨_, rfl, ?_⟩
        cases more <;> simp [htwo]
      · simp
    · split_ifs with htwo hthree
      · intro _
        refine ⟨_, rfl, ?_⟩
        cases more <;> simp [htwo]
      · exact fun _ => ⟨_, rfl, by simp [htwo, hthree]⟩
      · split
        · split_ifs with hfour
          · exact fun _ => ⟨_, rfl, by simp [htwo, hthree, hfour]⟩
          · simp
        · simp

lemma code_of_ascii (rest : Text) (h : a < 0x80) : (headRune a rest).code = a.toNat := by
  simp [headRune, h]

/-! ### Code points and bytes -/

/-- A code point is written in as few bytes as hold it. -/
lemma encode_eq (hlast : n ≤ 0x10FFFF) (hsurrogate : n < 0xD800 ∨ 0xDFFF < n) :
    encode n =
      if n < 0x80 then [UInt8.ofNat n]
      else if n < 0x800 then [UInt8.ofNat (0xC0 + n / 64), UInt8.ofNat (0x80 + n % 64)]
      else if n < 0x10000 then
        [UInt8.ofNat (0xE0 + n / 4096), UInt8.ofNat (0x80 + n / 64 % 64), UInt8.ofNat
          (0x80 + n % 64)]
      else
        [UInt8.ofNat (0xF0 + n / 262144), UInt8.ofNat (0x80 + n / 4096 % 64), UInt8.ofNat
          (0x80 + n / 64 % 64), UInt8.ofNat (0x80 + n % 64)] := by
  have hcode : ((0xD800 ≤ n && n ≤ 0xDFFF) || 0x10FFFF < n) = false := by
    simp only [Bool.or_eq_false_iff, Bool.and_eq_false_iff, decide_eq_false_iff_not]
    omega
  simp only [encode, hcode, Bool.false_eq_true, if_false]

lemma byte_eq (a : UInt8) (h : n = a.toNat) : UInt8.ofNat n = a := by
  rw [h, UInt8.ofNat_toNat]

lemma encode_ascii (h : a < 0x80) : encode a.toNat = [a] := by
  have ha : a.toNat < 0x80 := UInt8.lt_iff_toNat_lt.mp h
  rw [encode_eq (by omega) (by omega), if_pos ha, byte_eq a rfl]

-- The conditions on the bytes are brought to natural numbers; the rest is their arithmetic.
lemma encode_two (ha : 0xC2 ≤ a) (ha' : a ≤ 0xDF) (hb : isTail b = true) :
    encode (a.toNat % 32 * 64 + payload b) = [a, b] := by
  simp only [isTail, Bool.and_eq_true, decide_eq_true_eq, UInt8.le_iff_toNat_le, UInt8.reduceToNat]
    at ha ha' hb
  rw [payload, encode_eq (by omega) (by omega), if_neg (by omega), if_pos (by omega),
    byte_eq a (by omega), byte_eq b (by omega)]

lemma encode_three {c : UInt8} (hopen : opensThree a b = true) (hc : isTail c = true) :
    encode ((a.toNat % 16 * 64 + payload b) * 64 + payload c) = [a, b, c] := by
  simp only [opensThree, isTail, Bool.and_eq_true, Bool.or_eq_true, decide_eq_true_eq, beq_iff_eq,
    bne_iff_ne, ne_eq, UInt8.le_iff_toNat_le, ← UInt8.toNat_inj, UInt8.reduceToNat] at hopen hc
  rw [payload, payload, encode_eq (by omega) (by omega), if_neg (by omega), if_neg (by omega),
    if_pos (by omega), byte_eq a (by omega), byte_eq b (by omega), byte_eq c (by omega)]

lemma encode_four {c d : UInt8} (hopen : opensFour a b = true) (hc : isTail c = true)
    (hd : isTail d = true) :
    encode (((a.toNat % 8 * 64 + payload b) * 64 + payload c) * 64 + payload d) = [a, b, c, d] := by
  simp only [opensFour, isTail, Bool.and_eq_true, Bool.or_eq_true, decide_eq_true_eq, beq_iff_eq,
    UInt8.le_iff_toNat_le, ← UInt8.toNat_inj, UInt8.reduceToNat] at hopen hc hd
  rw [payload, payload, payload, encode_eq (by omega) (by omega), if_neg (by omega),
    if_neg (by omega),
    if_neg (by omega), byte_eq a (by omega), byte_eq b (by omega), byte_eq c (by omega),
      byte_eq d (by omega)]

/-- What stands at the head of a text: a stray byte, or some first bytes of the text that its code
point is written as. -/
lemma headRune_cases (a : UInt8) (rest : Text) :
    headRune a rest = ⟨replacement, [a], true⟩ ∨
      ∃ code tail, headRune a rest = ⟨code, a :: tail, false⟩ ∧ tail <+: rest ∧
        encode code = a :: tail := by
  unfold headRune
  split_ifs with hascii
  · exact .inr ⟨_, [], rfl, List.nil_prefix, encode_ascii hascii⟩
  · split
    · exact .inl rfl
    · split_ifs with htwo
      · simp only [Bool.and_eq_true, decide_eq_true_eq] at htwo
        exact .inr ⟨_, _, rfl, List.prefix_rfl, encode_two htwo.1.1 htwo.1.2 htwo.2⟩
      · exact .inl rfl
    · split_ifs with htwo hthree
      · simp only [Bool.and_eq_true, decide_eq_true_eq] at htwo
        exact .inr ⟨_, _, rfl, List.prefix_append [_] _, encode_two htwo.1.1 htwo.1.2 htwo.2⟩
      · rw [Bool.and_eq_true] at hthree
        exact .inr ⟨_, _, rfl, List.prefix_append [_, _] _, encode_three hthree.1 hthree.2⟩
      · split
        · split_ifs with hfour
          · simp only [Bool.and_eq_true] at hfour
            exact .inr ⟨_, _, rfl, List.prefix_append [_, _, _] _, encode_four hfour.1.1
              hfour.1.2 hfour.2⟩
          · exact .inl rfl
        · exact .inl rfl

lemma code_of_stray (h : (headRune a rest).stray = true) :
    (headRune a rest).code = replacement := by
  rcases headRune_cases a rest with hstray | ⟨code, tail, hrune, -⟩
  · rw [hstray]
  · rw [hrune] at h
    cases h

/-- The code point of a rune that is not stray is written as the bytes of the rune. -/
lemma encode_headRune (h : (headRune a rest).stray = false) :
    encode (headRune a rest).code = (headRune a rest).bytes := by
  rcases headRune_cases a rest with hstray | ⟨code, tail, hrune, -, hencode⟩
  · rw [hstray] at h
    cases h
  · rw [hrune, hencode]

/-- The bytes of a rune stand at the head of the text that it is read from. -/
lemma bytes_headRune_append (a : UInt8) (rest : Text) :
    (headRune a rest).bytes ++ rest.drop ((headRune a rest).bytes.length - 1) = a :: rest := by
  rcases headRune_cases a rest with hstray | ⟨code, tail, hrune, ⟨behind, rfl⟩, -⟩
  · rw [hstray]
    rfl
  · rw [hrune]
    simp

/-! ### Texts -/

/-- The runes of a text have the bytes of the text. -/
lemma ofRunes_runesUpTo (h : t.length ≤ n) : ofRunes (runesUpTo n t) = t := by
  induction n, t using runesUpTo.induct with
  | case1 t => simp [runesUpTo, ofRunes, List.length_eq_zero_iff.mp (Nat.le_zero.mp h)]
  | case2 n => simp [runesUpTo, ofRunes]
  | case3 n a rest r ih =>
    have hlength : (rest.drop (r.bytes.length - 1)).length ≤ n := by
      rw [List.length_cons] at h
      rw [List.length_drop]
      omega
    rw [runesUpTo, ofRunes, List.flatMap_cons, ← ofRunes, ih hlength]
    exact bytes_headRune_append a rest

/-- Runes that are not stray are written as their bytes. -/
lemma flatMap_encode_runesUpTo (h : (runesUpTo n t).all (fun r => !r.stray) = true) :
    (runesUpTo n t).flatMap (fun r => encode r.code) = ofRunes (runesUpTo n t) := by
  induction n, t using runesUpTo.induct with
  | case1 t => rfl
  | case2 n => simp [runesUpTo, ofRunes]
  | case3 n a rest r ih =>
    rw [runesUpTo, List.all_cons, Bool.and_eq_true] at h
    rw [runesUpTo, List.flatMap_cons, ih h.2, encode_headRune (by simpa using h.1),
      ofRunes, ofRunes, List.flatMap_cons]

/-- **A text without stray bytes is left alone** when stray bytes are replaced. -/
lemma scrub_eq_self (h : t.isUtf8 = true) : t.scrub = t := by
  rw [scrub, runes, flatMap_encode_runesUpTo h, ofRunes_runesUpTo (Nat.le_refl _)]

end ContractAudit.Text
