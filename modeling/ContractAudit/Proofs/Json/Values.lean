import ContractAudit.Proofs.Json.RoundTrip

/-!
Reading JSON undoes writing it for every value that a reader can tell from others.

* `number?_ofInt`, `readInt?_ofInt`: the digits of an integer are one number, and they are read as
  this integer if it has 64 bits at most.
* `readsBack_int`, `readsBack_obj`: integers are read wherever a value may stand, and so are objects
  whose members are.
* `Faithful`: the texts in a value are UTF-8, its numbers are integers, and it is nested so many
  levels deep at most.
* `Faithful.read?_indented`: such a value is read back from its lines.
-/

namespace ContractAudit.Json

open Text

/-! ### Numbers -/

variable {rest : Text} {c : UInt8} {ms : List (Text × Json)} {depth levels : Nat}

/-- No number goes on with what may stand behind a value. -/
lemma Closed.head (h : Closed (c :: rest)) : isDigit c = false ∧ c ≠ 46 ∧ c ≠ 101 ∧ c ≠ 69 := by
  have hc := h c rfl
  simp only [isBlank, Bool.or_eq_true, beq_iff_eq] at hc
  rcases hc with (((rfl | rfl) | rfl) | rfl) | rfl | rfl | rfl <;> decide

lemma Closed.takeWhile_isDigit (h : Closed rest) : rest.takeWhile isDigit = [] := by
  cases rest with
  | nil => rfl
  | cons c rest => simp [h.head.1]

lemma Closed.fraction? (h : Closed rest) : fraction? rest = some ([], rest) := by
  cases rest with
  | nil => rfl
  | cons c rest => simp [Json.fraction?, h.head.2.1]

lemma Closed.exponent? (h : Closed rest) : exponent? rest = some ([], rest) := by
  cases rest with
  | nil => rfl
  | cons c rest => simp [Json.exponent?, h.head.2.2]

lemma digits?_ofNat (n : Nat) (h : Closed rest) :
    digits? (ofNat n ++ rest) = some (ofNat n, rest) := by
  have hrun : (ofNat n ++ rest).takeWhile isDigit = ofNat n := by
    rw [List.takeWhile_append_of_pos fun _ => isDigit_of_mem_ofNat, h.takeWhile_isDigit,
      List.append_nil]
  obtain ⟨c, more, hdigits, -⟩ := ofNat_eq_cons n
  rw [digits?, hrun, List.drop_left, if_neg (by simp [hdigits])]

/-- The digits of a number have no zero in front. -/
lemma whole?_ofNat (n : Nat) (h : Closed rest) :
    whole? (ofNat n ++ rest) = some (ofNat n, rest) := by
  obtain ⟨c, more, hdigits, hzero⟩ := ofNat_eq_cons n
  by_cases hc : c = 48
  · rw [hzero hc]
    rfl
  · have hsplit := digits?_ofNat n h
    rw [hdigits] at hsplit ⊢
    rw [← hsplit, whole?.eq_def]
    simp [hc]

lemma ne_minus_of_ofNat {n : Nat} {more : Text} (h : ofNat n = c :: more) : c ≠ 45 := by
  have hdigit : isDigit c = true := isDigit_of_mem_ofNat (h ▸ List.mem_cons_self ..)
  rintro rfl
  exact absurd hdigit (by decide)

/-- The digits of an integer, with a sign in front of a negative one, are one number. -/
lemma number?_ofInt (i : Int) (h : Closed rest) :
    number? (ofInt i ++ rest) = some (ofInt i, rest) := by
  cases i with
  | ofNat n =>
    have hwhole := whole?_ofNat n h
    obtain ⟨c, more, hdigits, -⟩ := ofNat_eq_cons n
    have hc := ne_minus_of_ofNat hdigits
    change number? (ofNat n ++ rest) = some (ofNat n, rest)
    rw [hdigits] at hwhole ⊢
    rw [List.cons_append] at hwhole ⊢
    simp [number?, hc, hwhole, h.fraction?, h.exponent?]
  | negSucc n => simp [ofInt_negSucc, number?, whole?_ofNat (n + 1) h, h.fraction?, h.exponent?]

/-- An integer of 64 bits is read from its digits. -/
lemma readInt?_ofInt {i : Int} (hlow : -(Nat.pow 2 63 : Nat) ≤ i)
    (hhigh : i < (Nat.pow 2 63 : Nat)) : readInt? (ofInt i) = some i := by
  cases i with
  | ofNat n =>
    have hread := readNat?_ofNat n
    obtain ⟨c, more, hdigits, -⟩ := ofNat_eq_cons n
    have hc := ne_minus_of_ofNat hdigits
    have hn : n < Nat.pow 2 63 := Int.ofNat_lt.mp hhigh
    change readInt? (ofNat n) = some (n : Int)
    rw [hdigits] at hread ⊢
    rw [readInt?.eq_def]
    simp [hc, hread, hn]
  | negSucc n =>
    have hn : n + 1 ≤ Nat.pow 2 63 := Int.ofNat_le.mp (Int.neg_le_neg_iff.mp hlow)
    rw [ofInt_negSucc, readInt?, readNat?_ofNat, Option.bind_some, if_pos hn]
    rfl

/-! ### Constants and numbers as values -/

lemma value?_number (hc : c = 45 ∨ isDigit c = true) (fuel depth : Nat) (rest : Text) :
    value? (fuel + 1) depth (c :: rest) = (number? (c :: rest)).map fun p => (.num p.1, p.2) := by
  have hother : c ≠ 123 ∧ c ≠ 91 ∧ c ≠ 34 := by
    refine ⟨?_, ?_, ?_⟩ <;> rintro rfl <;> exact absurd hc (by decide)
  rw [value?]
  cases number? (c :: rest) <;> simp [hother, hc]

lemma readsBack_int (depth : Nat) (i : Int) : ReadsBack depth (ofInt i) (.int i) := by
  obtain ⟨c, more, hspelling, hc⟩ : ∃ c more, ofInt i = c :: more ∧
    (c = 45 ∨ isDigit c = true) := by
    cases i with
    | ofNat n =>
      obtain ⟨c, more, hdigits, -⟩ := ofNat_eq_cons n
      exact ⟨c, more, hdigits, .inr (isDigit_of_mem_ofNat (hdigits ▸ List.mem_cons_self ..))⟩
    | negSucc n => exact ⟨45, _, ofInt_negSucc n, .inl rfl⟩
  have hhead : isBlank c = false ∧ c ≠ 93 := by
    refine ⟨?_, ?_⟩
    · rw [← Bool.not_eq_true, isBlank]
      simp only [Bool.or_eq_true, beq_iff_eq]
      rintro (((rfl | rfl) | rfl) | rfl) <;> exact absurd hc (by decide)
    · rintro rfl
      exact absurd hc (by decide)
  refine ⟨⟨c, more, hspelling, hhead⟩, fun fuel rest hfuel hrest => ?_⟩
  have hnumber := number?_ofInt i hrest
  rw [hspelling, List.length_cons] at hfuel
  obtain ⟨fuel, rfl⟩ : ∃ k, fuel = k + 1 := ⟨fuel - 1, by omega⟩
  rw [hspelling, List.cons_append] at hnumber ⊢
  rw [value?_number hc, hnumber, int, hspelling]
  rfl

lemma readsBack_bool (depth : Nat) (b : Bool) (indent : Nat) :
    ReadsBack depth (indentedAt indent (.bool b)) (.bool b) := by
  cases b with
  | false =>
    refine ⟨⟨102, _, rfl, rfl, by decide⟩, fun fuel rest hfuel _ => ?_⟩
    obtain ⟨fuel, rfl⟩ : ∃ k, fuel = k + 1 := ⟨fuel - 1, by change 10 ≤ fuel at hfuel; omega⟩
    rfl
  | true =>
    refine ⟨⟨116, _, rfl, rfl, by decide⟩, fun fuel rest hfuel _ => ?_⟩
    obtain ⟨fuel, rfl⟩ : ∃ k, fuel = k + 1 := ⟨fuel - 1, by change 8 ≤ fuel at hfuel; omega⟩
    rfl

lemma readsBack_null (depth indent : Nat) : ReadsBack depth (indentedAt indent .null) .null := by
  refine ⟨⟨110, _, rfl, rfl, by decide⟩, fun fuel rest hfuel _ => ?_⟩
  obtain ⟨fuel, rfl⟩ : ∃ k, fuel = k + 1 := ⟨fuel - 1, by change 8 ≤ fuel at hfuel; omega⟩
  rfl

/-! ### Objects -/

section Members

variable {depth fuel : Nat} {name t left : Text} {v : Json}

/-- The last member of an object. -/
lemma members?_last (hv : ReadsBack depth t v) (hfuel : 2 * t.length ≤ fuel) (hrest : Closed rest)
    (hblank : skipBlank rest = 125 :: left) :
    members? (fuel + 1) depth (writeString name ++ 58 :: 32 :: (t ++ rest)) =
      some ([(name.scrub, v)], left) := by
  have hname := stringBody?_runes name (58 :: 32 :: (t ++ rest)) (Nat.le_refl _)
  have hcolon : skipBlank (58 :: 32 :: (t ++ rest)) = 58 :: 32 :: (t ++ rest) := rfl
  have hvalue : skipBlank (32 :: (t ++ rest)) = t ++ rest := hv.skipBlank_append rest
  rw [writeString_append] at hname ⊢
  rw [members?, hname]
  simp [hcolon, hvalue, hv.value fuel rest hfuel hrest, hblank]

/-- A member of an object with another one behind it. -/
lemma members?_cons (hv : ReadsBack depth t v) (hfuel : 2 * t.length ≤ fuel) (hrest : Closed rest)
    (hblank : skipBlank rest = 44 :: left) :
    members? (fuel + 1) depth (writeString name ++ 58 :: 32 :: (t ++ rest)) =
      (members? fuel depth (skipBlank left)).map fun p => ((name.scrub, v) :: p.1, p.2) := by
  have hname := stringBody?_runes name (58 :: 32 :: (t ++ rest)) (Nat.le_refl _)
  have hcolon : skipBlank (58 :: 32 :: (t ++ rest)) = 58 :: 32 :: (t ++ rest) := rfl
  have hvalue : skipBlank (32 :: (t ++ rest)) = t ++ rest := hv.skipBlank_append rest
  rw [writeString_append] at hname ⊢
  rw [members?, hname]
  cases hmore : members? fuel depth (skipBlank left) <;>
    simp [hcolon, hvalue, hv.value fuel rest hfuel hrest, hblank, hmore]

end Members

lemma skipBlank_writeString (t rest : Text) : skipBlank (writeString t ++ rest) =
    writeString t ++ rest := by
  rw [writeString_append]
  rfl

lemma indentedMembers_singleton_append (indent : Nat) (name : Text) (v : Json) (rest : Text) :
    indentedMembers indent [(name, v)] ++ rest =
      lineStart indent ++ (writeString name ++ 58 :: 32 :: (indentedAt indent v ++ rest)) := by
  rw [indentedMembers, List.append_assoc, List.append_assoc, List.append_assoc]
  rfl

lemma indentedMembers_cons_append (indent : Nat) (name : Text) (v : Json) (hms : ms ≠ [])
    (rest : Text) :
    indentedMembers indent ((name, v) :: ms) ++ rest =
      lineStart indent ++ (writeString name ++ 58 :: 32 ::
        (indentedAt indent v ++ 44 :: (indentedMembers indent ms ++ rest))) := by
  rw [indentedMembers]
  · simp only [List.append_assoc]
    rfl
  · exact hms

/-- The members of an object, each on a line of its own, and the closing brace. -/
lemma members?_indentedMembers {indent : Nat} (hms : ms ≠ []) (hnames : ∀ m ∈ ms, m.1.isUtf8 = true)
    (hvalues : ∀ m ∈ ms, ReadsBack depth (indentedAt indent m.2) m.2) (outer : Nat) (rest : Text)
    (fuel : Nat) (hfuel : 2 * (indentedMembers indent ms).length ≤ fuel) :
    members? fuel depth
      (skipBlank (indentedMembers indent ms ++ (lineStart outer ++ 125 :: rest))) =
      some (ms, rest) := by
  induction ms generalizing fuel with
  | nil => exact absurd rfl hms
  | cons m ms ih =>
    obtain ⟨name, v⟩ := m
    obtain ⟨hname, hnames⟩ := List.forall_mem_cons.mp hnames
    obtain ⟨(hv : ReadsBack depth (indentedAt indent v) v), hvalues⟩ :=
      List.forall_mem_cons.mp hvalues
    rcases eq_or_ne ms [] with rfl | hmore
    · have hsize := congrArg List.length (indentedMembers_singleton_append indent name v [])
      simp only [List.append_nil, List.length_append, List.length_cons] at hsize
      obtain ⟨fuel, rfl⟩ : ∃ k, fuel = k + 1 := ⟨fuel - 1, by omega⟩
      have hclosed : Closed (lineStart outer ++ 125 :: rest) := by
        rintro c ⟨⟩
        exact .inl rfl
      have hblank : skipBlank (lineStart outer ++ 125 :: rest) = 125 :: rest :=
        skipBlank_lineStart ..
      rw [indentedMembers_singleton_append, skipBlank_lineStart, skipBlank_writeString,
        members?_last hv (by omega) hclosed hblank, scrub_eq_self hname]
    · have hsize := congrArg List.length (indentedMembers_cons_append indent name v hmore [])
      simp only [List.append_nil, List.length_append, List.length_cons] at hsize
      obtain ⟨fuel, rfl⟩ : ∃ k, fuel = k + 1 := ⟨fuel - 1, by omega⟩
      have hclosed :
        Closed (44 :: (indentedMembers indent ms ++ (lineStart outer ++ 125 :: rest))) := by
        rintro c ⟨⟩
        exact .inr (.inl rfl)
      rw [indentedMembers_cons_append indent name v hmore, skipBlank_lineStart,
        skipBlank_writeString,
        members?_cons hv (by omega) hclosed rfl, ih hmore hnames hvalues fuel (by omega),
          scrub_eq_self hname]
      rfl

lemma indentedAt_obj_append (indent : Nat) (hms : ms ≠ []) (rest : Text) :
    indentedAt indent (.obj ms) ++ rest =
      123 :: (indentedMembers (indent + 1) ms ++ (lineStart indent ++ 125 :: rest)) := by
  rw [indentedAt]
  · simp only [List.append_assoc]
    rfl
  · exact hms

/-- The name of the first member stands first behind the brace. -/
lemma skipBlank_indentedMembers (indent : Nat) (hms : ms ≠ []) (rest : Text) :
    ∃ more, skipBlank (indentedMembers indent ms ++ rest) = 34 :: more := by
  obtain ⟨⟨name, v⟩, ms, rfl⟩ := List.exists_cons_of_ne_nil hms
  rcases eq_or_ne ms [] with rfl | hmore
  · rw [indentedMembers_singleton_append, skipBlank_lineStart, skipBlank_writeString,
      writeString_append]
    exact ⟨_, rfl⟩
  · rw [indentedMembers_cons_append indent name v hmore, skipBlank_lineStart, skipBlank_writeString,
      writeString_append]
    exact ⟨_, rfl⟩

lemma value?_brace {fuel : Nat} (hdepth : depth < maxDepth) {more : Text}
    (hrest : skipBlank rest = 34 :: more) :
    value? (fuel + 1) depth (123 :: rest) =
      (members? fuel (depth + 1) (skipBlank rest)).map fun p => (.obj p.1, p.2) := by
  rw [value?]
  cases h : members? fuel (depth + 1) (34 :: more) <;> simp [hrest, h, Nat.not_le.mpr hdepth]

/-- An object is read back when its names are UTF-8 and its members are read back. -/
lemma readsBack_obj {indent : Nat} (hdepth : depth < maxDepth)
    (hnames : ∀ m ∈ ms, m.1.isUtf8 = true)
    (hvalues : ∀ m ∈ ms, ReadsBack (depth + 1) (indentedAt (indent + 1) m.2) m.2) :
    ReadsBack depth (indentedAt indent (.obj ms)) (.obj ms) := by
  rcases eq_or_ne ms [] with rfl | hms
  · refine ⟨⟨123, [125], rfl, rfl, by decide⟩, fun fuel rest hfuel _ => ?_⟩
    obtain ⟨fuel, rfl⟩ : ∃ k, fuel = k + 1 := ⟨fuel - 1, by change 4 ≤ fuel at hfuel; omega⟩
    change value? (fuel + 1) depth (123 :: 125 :: rest) = _
    have hblank : skipBlank (125 :: rest) = 125 :: rest := rfl
    rw [value?]
    simp [hblank, Nat.not_le.mpr hdepth]
  · refine ⟨⟨123, _, (List.append_nil _).symm.trans (indentedAt_obj_append indent hms []),
      rfl, by decide⟩, ?_⟩
    intro fuel rest hfuel _
    have hsize := congrArg List.length (indentedAt_obj_append indent hms [])
    simp only [List.append_nil, List.length_append, List.length_cons] at hsize
    obtain ⟨fuel, rfl⟩ : ∃ k, fuel = k + 1 := ⟨fuel - 1, by omega⟩
    obtain ⟨more, hhead⟩ :=
      skipBlank_indentedMembers (indent + 1) hms (lineStart indent ++ 125 :: rest)
    rw [indentedAt_obj_append indent hms, value?_brace hdepth hhead,
      members?_indentedMembers hms hnames hvalues indent rest fuel (by omega)]
    rfl

/-! ### Values that are read back -/

/-- A value that can be told from its lines: its texts are UTF-8, its numbers are integers, and it
is nested at most `levels` deep. -/
inductive Faithful : Nat → Json → Prop
  | null {levels : Nat} : Faithful levels .null
  | bool {levels : Nat} (b : Bool) : Faithful levels (.bool b)
  | int {levels : Nat} (i : Int) : Faithful levels (.int i)
  | str {levels : Nat} {t : Text} (ht : t.isUtf8 = true) : Faithful levels (.str t)
  | arr {levels : Nat} {vs : List Json} (hvs : ∀ v ∈ vs, Faithful levels v) : Faithful
      (levels + 1) (.arr vs)
  | obj {levels : Nat} {ms : List (Text × Json)} (hnames : ∀ m ∈ ms, m.1.isUtf8 = true)
      (hvalues : ∀ m ∈ ms, Faithful levels m.2) : Faithful (levels + 1) (.obj ms)

/-- A faithful value is read back wherever a value may stand and there are levels enough left. -/
lemma Faithful.readsBack {v : Json} (h : Faithful levels v) (hdepth : depth + levels ≤ maxDepth)
    (indent : Nat) : ReadsBack depth (indentedAt indent v) v := by
  induction h generalizing depth indent with
  | null => exact readsBack_null depth indent
  | bool b => exact readsBack_bool depth b indent
  | int i => exact readsBack_int depth i
  | @str _ t ht =>
    have hread := readsBack_str depth t
    rwa [scrub_eq_self ht] at hread
  | arr _ ih =>
    exact readsBack_arr (by omega) (List.forall₂_same.mpr fun v hv => ih v hv (by omega) _)
  | obj hnames _ ih => exact readsBack_obj (by omega) hnames fun m hm => ih m hm (by omega) _

/-- **A faithful value is read back from its lines.** -/
theorem Faithful.read?_indented {v : Json} (h : Faithful levels v) (hlevels : levels ≤ maxDepth) :
    read? v.indented = some v := by
  have hread : ReadsBack 0 v.indented v := h.readsBack (by omega) 0
  exact hread.read?

/-! ### Members with their names -/

/-- A member whose name is UTF-8 and whose value is faithful. -/
def Legible (levels : Nat) (m : String × Json) : Prop := (m.1 : Text).isUtf8 = true ∧
    Faithful levels m.2

lemma faithful_object {ms : List (String × Json)} (h : ∀ m ∈ ms, Legible levels m) :
    Faithful (levels + 1) (object ms) := by
  refine .obj ?_ ?_ <;> rw [List.forall_mem_map] <;> intro m hm
  · exact (h m hm).1
  · exact (h m hm).2

lemma legible_of_mem_textMember {name : String} {t : Text} (hname : (name : Text).isUtf8 = true)
    (ht : t.isUtf8 = true) : ∀ m ∈ textMember name t, Legible levels m := by
  intro m hm
  rw [textMember] at hm
  split_ifs at hm
  · contradiction
  · rw [List.mem_singleton.mp hm]
    exact ⟨hname, .str ht⟩

lemma legible_of_mem_listMember {α : Type} {name : String} {f : α → Json} {xs : List α}
    (hname : (name : Text).isUtf8 = true) (hxs : ∀ x ∈ xs, Faithful levels (f x)) :
    ∀ m ∈ listMember name f xs, Legible (levels + 1) m := by
  intro m hm
  rw [listMember] at hm
  split_ifs at hm
  · contradiction
  · rw [List.mem_singleton.mp hm]
    exact ⟨hname, .arr (List.forall_mem_map.mpr hxs)⟩

end ContractAudit.Json
