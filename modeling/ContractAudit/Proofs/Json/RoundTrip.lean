import Mathlib.Data.List.Forall2
import ContractAudit.Json.Reader
import ContractAudit.Json.Writer
import ContractAudit.Proofs.Text.Digits
import ContractAudit.Proofs.Text.Utf8

/-!
Reading JSON undoes writing it, except that bytes which are not UTF-8 come back as the replacement
code point.

* `WrittenAs`: the ways to write a rune inside a string. In each of them it is read back as its code
  point (`stringBody?_writeRune`).
* `ReadsBack`: a text that is read as a value wherever a value may stand. Strings do
  (`readsBack_str`), and arrays whose items do (`readsBack_arr`).
* `read?_indented_texts`: a list of texts, written and read.
-/

namespace ContractAudit

namespace Json

open Text

/-! ### Strings -/

lemma stringBody?_escape {e b : UInt8} (hb : escape? e = some b) (fuel : Nat) (more : Text) :
    stringBody? (fuel + 1) (92 :: e :: more) =
      (stringBody? fuel more).map fun p => (b :: p.1, p.2) := by
  have he : e ≠ 117 := by
    rintro rfl
    cases hb
  rw [stringBody?, if_neg (by decide), if_neg (by decide), if_pos (by decide), hb]
  · cases stringBody? fuel more <;> rfl
  · exact he

/-- A code unit that is no half of a surrogate pair is read back from its numeric escape. -/
lemma stringBody?_numeric {n : Nat} (hn : n < 65536) (hlow : isHigh n = false) (fuel : Nat)
    (more : Text) :
    stringBody? (fuel + 1) (92 :: 117 :: (hex 4 n ++ more)) =
      (stringBody? fuel more).map fun p => (encode n ++ p.1, p.2) := by
  have hlength : (hex 4 n).length = 4 := by simp [hex]
  have hunit : unit? (hex 4 n ++ more) = some (n, more) := by
    simp [unit?, hlength, readBase?_hex hn]
  have hescape : numericEscape? (hex 4 n ++ more) = some (encode n, more) := by
    simp [numericEscape?, hunit, hlow]
  rw [stringBody?, if_neg (by decide), if_neg (by decide), if_pos (by decide), hescape]
  cases h : stringBody? fuel more <;> simp [h]

/-- A rune that is written as itself. -/
lemma stringBody?_plain {a : UInt8} {rest : Text} (hstray : (headRune a rest).stray = false)
    (hcode : 32 ≤ (headRune a rest).code) (hquote : (headRune a rest).code ≠ 34)
    (hescape : (headRune a rest).code ≠ 92) (fuel : Nat) (more : Text) :
    stringBody? (fuel + 1) ((headRune a rest).bytes ++ more) =
      (stringBody? fuel more).map fun p => (encode (headRune a rest).code ++ p.1, p.2) := by
  obtain ⟨tail, hbytes, hagain⟩ := headRune_append hstray more
  obtain ⟨hquote', hcontrol, hescape'⟩ : a ≠ 34 ∧ ¬ a < 32 ∧ a ≠ 92 := by
    by_cases hascii : a < 0x80
    · rw [code_of_ascii rest hascii] at hcode hquote hescape
      refine ⟨?_, ?_, ?_⟩
      · rintro rfl
        exact hquote rfl
      · rw [UInt8.lt_iff_toNat_lt]
        exact Nat.not_lt.mpr hcode
      · rintro rfl
        exact hescape rfl
    · refine ⟨?_, ?_, ?_⟩
      · rintro rfl
        exact hascii (by decide)
      · exact fun hlt => hascii (UInt8.lt_trans hlt (by decide))
      · rintro rfl
        exact hascii (by decide)
  rw [hbytes, List.cons_append, stringBody?.eq_def]
  dsimp only
  rw [if_neg (by simpa using hquote'), if_neg hcontrol, if_neg (by simpa using hescape'), hagain]
  cases h : stringBody? fuel more <;> simp [hbytes, h]

/-- The ways to write a rune: as the escape of the replacement code point, as an escape of one
letter, as a numeric escape, or as itself. -/
inductive WrittenAs (r : Rune) : Text → Prop
  | replaced (hstray : r.stray = true) : WrittenAs r (92 :: 117 :: hex 4 replacement)
  | letter {e b : UInt8} (he : escape? e = some b) (hcode : r.code = b.toNat) (hascii : b < 0x80) :
      WrittenAs r [92, e]
  | numeric (hcode : r.code < 65536) (hhigh : isHigh r.code = false) : WrittenAs r
      (92 :: 117 :: hex 4 r.code)
  | plain (hstray : r.stray = false) (hcode : 32 ≤ r.code) (hquote : r.code ≠ 34)
      (hescape : r.code ≠ 92) :
      WrittenAs r r.bytes

lemma writtenAs_writeRune (r : Rune) : WrittenAs r (writeRune r) := by
  unfold writeRune
  split
  · next h => exact .replaced h
  split
  · next h => exact .letter (e := 34) rfl (beq_iff_eq.mp h) (by decide)
  split
  · next h => exact .letter (e := 92) rfl (beq_iff_eq.mp h) (by decide)
  split
  · next h => exact .letter (e := 98) rfl (beq_iff_eq.mp h) (by decide)
  split
  · next h => exact .letter (e := 102) rfl (beq_iff_eq.mp h) (by decide)
  split
  · next h => exact .letter (e := 110) rfl (beq_iff_eq.mp h) (by decide)
  split
  · next h => exact .letter (e := 114) rfl (beq_iff_eq.mp h) (by decide)
  split
  · next h => exact .letter (e := 116) rfl (beq_iff_eq.mp h) (by decide)
  split
  · next h =>
      simp only [Bool.or_eq_true, beq_iff_eq, decide_eq_true_eq] at h
      refine .numeric (by omega) ?_
      simp only [isHigh, Bool.and_eq_false_iff, decide_eq_false_iff_not]
      omega
  · next hstray hquote hescape _ _ _ _ _ h =>
      simp only [Bool.or_eq_true, beq_iff_eq, decide_eq_true_eq] at h hquote hescape
      exact .plain (Bool.not_eq_true _ ▸ hstray) (by omega) hquote hescape

/-- **A rune inside a string is read back** as its code point, however it is written. -/
lemma stringBody?_writeRune (a : UInt8) (rest : Text) (fuel : Nat) (more : Text) :
    stringBody? (fuel + 1) (writeRune (headRune a rest) ++ more) =
      (stringBody? fuel more).map fun p => (encode (headRune a rest).code ++ p.1, p.2) := by
  have hwritten := writtenAs_writeRune (headRune a rest)
  generalize writeRune (headRune a rest) = t at hwritten
  cases hwritten with
  | replaced hstray =>
    rw [code_of_stray hstray]
    exact stringBody?_numeric (by decide) (by decide) fuel more
  | letter he hcode hascii =>
    rw [hcode, encode_ascii hascii]
    exact stringBody?_escape he fuel more
  | numeric hcode hhigh => exact stringBody?_numeric hcode hhigh fuel more
  | plain hstray hcode hquote hescape =>
    exact stringBody?_plain hstray hcode hquote hescape fuel more

lemma length_writeRune_pos (a : UInt8) (rest : Text) :
    0 < (writeRune (headRune a rest)).length := by
  have hwritten := writtenAs_writeRune (headRune a rest)
  generalize writeRune (headRune a rest) = t at hwritten
  cases hwritten with
  | replaced => exact Nat.zero_lt_succ _
  | letter => exact Nat.zero_lt_succ _
  | numeric => exact Nat.zero_lt_succ _
  | plain hstray =>
    obtain ⟨tail, hbytes, -⟩ := headRune_append hstray []
    simp [hbytes]

/-- The runes of a text come back one by one. -/
lemma stringBody?_runesUpTo (n : Nat) (t rest : Text) (fuel : Nat)
    (hfuel : ((runesUpTo n t).flatMap writeRune).length < fuel) :
    stringBody? fuel ((runesUpTo n t).flatMap writeRune ++ 34 :: rest) =
      some ((runesUpTo n t).flatMap fun r => encode r.code, rest) := by
  obtain ⟨fuel, rfl⟩ : ∃ k, fuel = k + 1 := ⟨fuel - 1, by omega⟩
  induction n, t using runesUpTo.induct generalizing fuel with
  | case1 t => simp [runesUpTo, stringBody?]
  | case2 n => simp [runesUpTo, stringBody?]
  | case3 n a tail r ih =>
    have hpos := length_writeRune_pos a tail
    rw [runesUpTo, List.flatMap_cons, List.length_append] at hfuel
    obtain ⟨fuel, rfl⟩ : ∃ k, fuel = k + 1 := ⟨fuel - 1, by omega⟩
    rw [runesUpTo, List.flatMap_cons, List.append_assoc, stringBody?_writeRune, ih fuel ?_]
    · rfl
    · change ((runesUpTo n (tail.drop ((headRune a tail).bytes.length - 1))).flatMap
        writeRune).length < _
      omega

lemma writeString_append (t rest : Text) :
    writeString t ++ rest = 34 :: (t.runes.flatMap writeRune ++ 34 :: rest) := by
  rw [writeString, List.append_assoc, List.append_assoc]
  rfl

/-- A text written as a string is read back with every stray byte replaced. -/
lemma stringBody?_runes (t rest : Text) {fuel : Nat}
    (hfuel : (writeString t ++ rest).length ≤ fuel) :
    stringBody? fuel (t.runes.flatMap writeRune ++ 34 :: rest) = some (t.scrub, rest) := by
  refine stringBody?_runesUpTo t.length t rest fuel ?_
  rw [writeString_append, List.length_cons, List.length_append, runes] at hfuel
  omega

/-! ### Values -/

/-- What may stand behind a value: nothing, white space, or what goes on with or ends an array or an
object. -/
def Closed (rest : Text) : Prop := ∀ c ∈ rest.head?, isBlank c = true ∨ c = 44 ∨ c = 93 ∨ c = 125

/-- A text that is read as a value `depth` levels in, wherever a value may stand. -/
structure ReadsBack (depth : Nat) (t : Text) (v : Json) : Prop where
  head : ∃ c more, t = c :: more ∧ isBlank c = false ∧ c ≠ 93
  value : ∀ fuel rest, 2 * t.length ≤ fuel → Closed rest →
    value? fuel depth (t ++ rest) = some (v, rest)

lemma skipBlank_lineStart (depth : Nat) (t : Text) :
    skipBlank (lineStart depth ++ t) = skipBlank t := by
  have hblank : ∀ c ∈ lineStart depth, isBlank c = true := by
    intro c hc
    rcases List.mem_cons.mp hc with rfl | hc
    · rfl
    · rw [List.eq_of_mem_replicate hc]
      rfl
  exact List.dropWhile_append_of_pos hblank

variable {depth indent : Nat} {v : Json} {vs : List Json}

lemma ReadsBack.skipBlank_append {t : Text} (h : ReadsBack depth t v) (rest : Text) :
    skipBlank (t ++ rest) = t ++ rest := by
  obtain ⟨c, more, rfl, hblank, -⟩ := h.head
  simp [skipBlank, hblank]

lemma value?_quote (fuel depth : Nat) (rest : Text) :
    value? (fuel + 1) depth (34 :: rest) =
      (stringBody? (34 :: rest).length rest).map fun p => (.str p.1, p.2) := by
  rw [value?]
  cases h : stringBody? (34 :: rest).length rest <;> rfl

lemma readsBack_str (depth : Nat) (t : Text) : ReadsBack depth (writeString t) (.str t.scrub) := by
  refine ⟨⟨34, t.runes.flatMap writeRune ++ [34], rfl, rfl, by decide⟩, fun fuel rest hfuel _ => ?_⟩
  have hread := stringBody?_runes t rest (Nat.le_refl _)
  have hlength := congrArg List.length (writeString_append t [])
  obtain ⟨fuel, rfl⟩ : ∃ k, fuel = k + 1 := ⟨fuel - 1, by simp at hlength; omega⟩
  rw [writeString_append] at hread ⊢
  rw [value?_quote, hread]
  rfl

lemma indentedItems_singleton_append (indent : Nat) (v : Json) (rest : Text) :
    indentedItems indent [v] ++ rest = lineStart indent ++ (indentedAt indent v ++ rest) := by
  rw [indentedItems, List.append_assoc]

lemma indentedItems_cons_append (indent : Nat) (v : Json) (hvs : vs ≠ []) (rest : Text) :
    indentedItems indent (v :: vs) ++ rest =
      lineStart indent ++ (indentedAt indent v ++ 44 :: (indentedItems indent vs ++ rest)) := by
  rw [indentedItems, List.append_assoc, List.append_assoc, List.append_assoc]
  · rfl
  · exact hvs

/-- The items of an array, each on a line of its own, and the closing bracket. -/
lemma items?_indentedItems {ws : List Json} (hvs : vs ≠ [])
    (h : List.Forall₂ (fun v w => ReadsBack depth (indentedAt indent v) w) vs ws) (outer : Nat)
    (rest : Text) (fuel : Nat) (hfuel : 2 * (indentedItems indent vs).length ≤ fuel) :
    items? fuel depth (skipBlank (indentedItems indent vs ++ (lineStart outer ++ 93 :: rest))) =
      some (ws, rest) := by
  induction h generalizing fuel with
  | nil => exact absurd rfl hvs
  | @cons v w vs ws hv hmore ih =>
    have hlength : (lineStart indent).length = 2 * indent + 1 := by simp [lineStart]
    rcases eq_or_ne vs [] with rfl | hvs
    · have hsize := congrArg List.length (indentedItems_singleton_append indent v [])
      simp only [List.append_nil, List.length_append] at hsize
      obtain ⟨fuel, rfl⟩ : ∃ k, fuel = k + 1 := ⟨fuel - 1, by omega⟩
      cases hmore
      have hclosed : Closed (lineStart outer ++ 93 :: rest) := by
        rintro c ⟨⟩
        exact .inl rfl
      have hblank : skipBlank (lineStart outer ++ 93 :: rest) = 93 :: rest := skipBlank_lineStart ..
      rw [indentedItems_singleton_append, skipBlank_lineStart, hv.skipBlank_append, items?,
        hv.value fuel _ (by omega) hclosed]
      simp [hblank]
    · have hsize := congrArg List.length (indentedItems_cons_append indent v hvs [])
      simp only [List.append_nil, List.length_append, List.length_cons] at hsize
      obtain ⟨fuel, rfl⟩ : ∃ k, fuel = k + 1 := ⟨fuel - 1, by omega⟩
      set tail := indentedItems indent vs ++ (lineStart outer ++ 93 :: rest) with htail
      have hclosed : Closed (44 :: tail) := by
        rintro c ⟨⟩
        exact .inr (.inl rfl)
      have hblank : skipBlank (44 :: tail) = 44 :: tail := rfl
      rw [indentedItems_cons_append indent v hvs, skipBlank_lineStart, hv.skipBlank_append, items?,
        hv.value fuel _ (by omega) hclosed]
      simp [hblank, ih hvs fuel (by omega)]

lemma value?_bracket {fuel : Nat} (hdepth : depth < maxDepth) {rest : Text} {c : UInt8}
    {more : Text} (hrest : skipBlank rest = c :: more) (hc : c ≠ 93) :
    value? (fuel + 1) depth (91 :: rest) =
      (items? fuel (depth + 1) (skipBlank rest)).map fun p => (.arr p.1, p.2) := by
  rw [value?]
  cases h : items? fuel (depth + 1) (c :: more) <;> simp [hrest, h, hc, Nat.not_le.mpr hdepth]

lemma indentedAt_arr_append (indent : Nat) (hvs : vs ≠ []) (rest : Text) :
    indentedAt indent (.arr vs) ++ rest =
      91 :: (indentedItems (indent + 1) vs ++ (lineStart indent ++ 93 :: rest)) := by
  rw [indentedAt, List.append_assoc, List.append_assoc, List.append_assoc]
  · rfl
  · exact hvs

/-- The first item of an array stands first behind the bracket. -/
lemma skipBlank_indentedItems {w : Json} (hv : ReadsBack depth (indentedAt indent v) w)
    (vs : List Json) (rest : Text) :
    ∃ c more, skipBlank (indentedItems indent (v :: vs) ++ rest) = c :: more ∧ c ≠ 93 := by
  obtain ⟨c, more, hhead, -, hc⟩ := hv.head
  rcases eq_or_ne vs [] with rfl | hvs
  · rw [indentedItems_singleton_append, skipBlank_lineStart, hv.skipBlank_append, hhead]
    exact ⟨c, _, rfl, hc⟩
  · rw [indentedItems_cons_append indent v hvs, skipBlank_lineStart, hv.skipBlank_append, hhead]
    exact ⟨c, _, rfl, hc⟩

/-- An array is read back when its items are. -/
lemma readsBack_arr (hdepth : depth < maxDepth) {ws : List Json}
    (h : List.Forall₂ (fun v w => ReadsBack (depth + 1) (indentedAt (indent + 1) v) w) vs ws) :
    ReadsBack depth (indentedAt indent (.arr vs)) (.arr ws) := by
  cases h with
  | nil =>
    refine ⟨⟨91, [93], rfl, rfl, by decide⟩, fun fuel rest hfuel _ => ?_⟩
    obtain ⟨fuel, rfl⟩ : ∃ k, fuel = k + 1 := ⟨fuel - 1, by change 4 ≤ fuel at hfuel; omega⟩
    change value? (fuel + 1) depth (91 :: 93 :: rest) = _
    have hblank : skipBlank (93 :: rest) = 93 :: rest := rfl
    rw [value?]
    simp [hblank, Nat.not_le.mpr hdepth]
  | @cons v w vs ws hv hmore =>
    have hvs : v :: vs ≠ [] := List.cons_ne_nil v vs
    refine ⟨⟨91, _, (List.append_nil _).symm.trans (indentedAt_arr_append indent hvs []),
      rfl, by decide⟩, ?_⟩
    intro fuel rest hfuel _
    have hsize := congrArg List.length (indentedAt_arr_append indent hvs [])
    simp only [List.append_nil, List.length_append, List.length_cons] at hsize
    obtain ⟨fuel, rfl⟩ : ∃ k, fuel = k + 1 := ⟨fuel - 1, by omega⟩
    obtain ⟨c, more, hhead, hc⟩ := skipBlank_indentedItems hv vs (lineStart indent ++ 93 :: rest)
    rw [indentedAt_arr_append indent hvs, value?_bracket hdepth hhead hc,
      items?_indentedItems hvs (.cons hv hmore) indent rest fuel (by omega)]
    rfl

/-- A text that is read as a value is read as this value when it stands alone. -/
lemma ReadsBack.read? {t : Text} (h : ReadsBack 0 t v) : read? t = some v := by
  have hvalue := h.value (2 * t.length + 2) [] (by omega) (by rintro c ⟨⟩)
  have hblank := h.skipBlank_append []
  rw [List.append_nil] at hvalue hblank
  rw [Json.read?, readHead?, hblank, hvalue]
  rfl

/-- **A list of texts is read back**, with every stray byte replaced. -/
theorem read?_indented_texts (ts : List Text) :
    read? (texts ts).indented = some (texts (ts.map scrub)) := by
  refine ReadsBack.read? (readsBack_arr (by decide) ?_)
  rw [List.forall₂_map_left_iff, List.forall₂_map_right_iff, List.forall₂_map_right_iff]
  exact List.forall₂_same.mpr fun t _ => readsBack_str 1 t

end Json

end ContractAudit
