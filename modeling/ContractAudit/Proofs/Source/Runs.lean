import ContractAudit.Source.Parser
import ContractAudit.Proofs.Source.Grammar

/-!
Runs of tokens between brackets and stops.

* `Expr.depthBehind?`: how many brackets are open behind a run. A run is `Expr.Balanced` if it
  closes the brackets that it opens and no others.
* `Expr.topMarks`: the punctuation of a run outside all brackets. No bracket is closed there if the
  run is balanced (`notMem_topMarksFrom`).
* `takeUntil_eq_ok_iff`: reading up to a stop takes the balanced run in front of the first stop
  outside brackets.
* `Expr.RunsTo`: a balanced run without the given stop outside brackets. Reading up to the stop
  takes such a run as a whole (`RunsTo.through`), and splitting leaves it whole (`RunsTo.topParts`,
  `RunsTo.topParts_cons`). So does looking for an assignment operator (`assignmentFrom?_run`).
-/

namespace ContractAudit.Source

/-! ### Depth -/

/-- The number of brackets that are open behind a token, from the number in front of it. There is
none if the token closes a bracket that is not open. -/
def Token.depthBehind? (t : Token) (depth : Nat) : Option Nat :=
  if t.opens then some (depth + 1)
  else if t.closes then if depth = 0 then none else some (depth - 1)
  else some depth

namespace Expr

/-- The number of brackets that are open behind a run, from the number in front of it. -/
def depthBehind? : Nat → Expr → Option Nat
  | depth, [] => some depth
  | depth, t :: rest => do
    let depth ← t.depthBehind? depth
    depthBehind? depth rest

/-- Whether the run closes the brackets that it opens and no others. -/
def Balanced (e : Expr) : Prop := depthBehind? 0 e = some 0

instance (e : Expr) : Decidable e.Balanced := inferInstanceAs (Decidable (_ = _))

/-- The punctuation marks outside all brackets, from inside the given number of them. -/
def topMarksFrom : Nat → Expr → List Text
  | _, [] => []
  | depth, t :: rest =>
    (if depth = 0 ∧ t.kind = .punct then [t.text] else []) ++
      (t.depthBehind? depth).elim [] (topMarksFrom · rest)

/-- The punctuation marks of a run outside all brackets. -/
def topMarks (e : Expr) : List Text := topMarksFrom 0 e

/-- Whether the run is balanced and the stop does not stand in it outside brackets. -/
structure RunsTo (stop : Text) (e : Expr) : Prop where
  balanced : e.Balanced
  apart : stop ∉ e.topMarks

instance (stop : Text) (e : Expr) : Decidable (e.RunsTo stop) :=
  decidable_of_iff (e.Balanced ∧ e.topMarks.contains stop = false)
    ⟨fun h => ⟨h.1, by simpa using h.2⟩, fun h => ⟨h.1, by simpa using h.2⟩⟩

/-! ### What runs spell -/

variable {e f : Expr} {stop sep : Text} {depth behind : Nat} {t : Token}

/-- The first token of a run that is spelled out. -/
lemma exists_cons_of_spelling {kind : TokenKind} {text : Text} {more : List (TokenKind × Text)}
    (h : e.spelling = (kind, text) :: more) :
    ∃ line rest, e = ⟨kind, text, line⟩ :: rest ∧ spelling rest = more := by
  obtain ⟨t, rest, rfl, rfl, rfl, hrest⟩ := spelling_eq_cons h
  exact ⟨t.line, rest, rfl, hrest⟩

lemma exists_singleton_of_spelling {kind : TokenKind} {text : Text}
    (h : e.spelling = [(kind, text)]) : ∃ line, e = [⟨kind, text, line⟩] := by
  obtain ⟨line, rest, rfl, hrest⟩ := exists_cons_of_spelling h
  exact ⟨line, by rw [spelling_eq_nil hrest]⟩

lemma spelling_append (e f : Expr) : spelling (e ++ f) = e.spelling ++ f.spelling :=
  List.map_append

/-- A run that is spelled out in two parts. -/
lemma exists_append_of_spelling {front behind : List (TokenKind × Text)}
    (h : e.spelling = front ++ behind) :
    ∃ e₁ e₂ : Expr, e = e₁ ++ e₂ ∧ e₁.spelling = front ∧ e₂.spelling = behind :=
  List.map_eq_append_iff.mp h

/-- Depth and marks of a run are those of any other that is spelled like it. -/
lemma depth_marks_congr (h : e.spelling = f.spelling) (depth : Nat) :
    depthBehind? depth e = depthBehind? depth f ∧ topMarksFrom depth e = topMarksFrom depth f := by
  induction e generalizing f depth with
  | nil =>
    rw [spelling_eq_nil h.symm]
    exact ⟨rfl, rfl⟩
  | cons t rest ih =>
    obtain ⟨line, more, rfl, hmore⟩ := exists_cons_of_spelling h.symm
    have hstep : Token.depthBehind? ⟨t.kind, t.text, line⟩ depth = t.depthBehind? depth := rfl
    simp only [depthBehind?, topMarksFrom, hstep]
    cases t.depthBehind? depth with
    | none => exact ⟨rfl, rfl⟩
    | some depth =>
      obtain ⟨hdepth, hmarks⟩ := ih hmore.symm depth
      exact ⟨hdepth, congrArg _ hmarks⟩

lemma Balanced.congr (h : e.Balanced) (hspelled : f.spelling = e.spelling) : f.Balanced :=
  (depth_marks_congr hspelled 0).1.trans h

lemma RunsTo.congr (h : e.RunsTo stop) (hspelled : f.spelling = e.spelling) : f.RunsTo stop where
  balanced := h.balanced.congr hspelled
  apart := by
    rw [topMarks, (depth_marks_congr hspelled 0).2]
    exact h.apart

/-! ### Runs put together -/

lemma depthBehind?_append (depth : Nat) (e f : Expr) :
    depthBehind? depth (e ++ f) = (depthBehind? depth e).bind (depthBehind? · f) := by
  induction e generalizing depth with
  | nil => rfl
  | cons t rest ih =>
    simp only [List.cons_append, depthBehind?]
    cases t.depthBehind? depth with
    | none => rfl
    | some depth => exact ih depth

lemma topMarksFrom_append (h : depthBehind? depth e = some behind) (f : Expr) :
    topMarksFrom depth (e ++ f) = topMarksFrom depth e ++ topMarksFrom behind f := by
  induction e generalizing depth with
  | nil =>
    obtain rfl : depth = behind := Option.some.inj h
    rfl
  | cons t rest ih =>
    obtain ⟨next, hnext, hrest⟩ := Option.bind_eq_some_iff.mp h
    simp only [List.cons_append, topMarksFrom, hnext, Option.elim_some, ih hrest, List.append_assoc]

lemma Balanced.append (he : e.Balanced) (hf : f.Balanced) : Balanced (e ++ f) := by
  rw [Balanced, depthBehind?_append, he]
  exact hf

/-- Inside one more bracket a run leaves one more bracket open, and nothing of it is outside. -/
lemma depth_marks_inside (h : depthBehind? depth e = some behind) :
    depthBehind? (depth + 1) e = some (behind + 1) ∧ topMarksFrom (depth + 1) e = [] := by
  induction e generalizing depth with
  | nil =>
    obtain rfl : depth = behind := Option.some.inj h
    exact ⟨rfl, rfl⟩
  | cons t rest ih =>
    obtain ⟨next, hnext, hrest⟩ := Option.bind_eq_some_iff.mp h
    have hinside : t.depthBehind? (depth + 1) = some (next + 1) := by
      simp only [Token.depthBehind?] at hnext ⊢
      grind
    rw [depthBehind?, topMarksFrom, hinside]
    obtain ⟨hbehind, hmarks⟩ := ih hrest
    exact ⟨hbehind, by simpa using hmarks⟩

/-- A word, a number or a string in front of a run changes nothing. -/
lemma RunsTo.cons (h : e.RunsTo stop) (ht : t.kind ≠ .punct) : RunsTo stop (t :: e) := by
  have hstep : t.depthBehind? 0 = some 0 := by
    simp [Token.depthBehind?, Token.opens, Token.closes, beq_eq_false_iff_ne.mpr ht]
  refine ⟨?_, ?_⟩
  · rw [Balanced, depthBehind?, hstep]
    exact h.balanced
  · rw [topMarks, topMarksFrom, hstep, if_neg fun htop => ht htop.2]
    exact h.apart

/-! ### Reading runs -/

/-- A token that closes a bracket opens none. -/
lemma opens_eq_false (h : t.closes = true) : t.opens = false := by
  simp only [Token.closes, Token.opens, Token.is, Bool.and_eq_true, Bool.or_eq_true, beq_iff_eq]
    at h ⊢
  obtain ⟨hkind, (htext | htext) | htext⟩ := h <;> simp [htext]

/-- No bracket is closed outside the brackets of a run that closes only open ones. -/
lemma notMem_topMarksFrom (h : depthBehind? depth e = some behind) :
    (")" : Text) ∉ topMarksFrom depth e := by
  induction e generalizing depth with
  | nil => exact List.not_mem_nil
  | cons t rest ih =>
    obtain ⟨next, hnext, hrest⟩ := Option.bind_eq_some_iff.mp h
    rw [topMarksFrom, hnext, List.mem_append]
    rintro (hmark | hmark)
    · split at hmark
      · next htop =>
        have hcloses : t.closes = true := by
          simp [Token.closes, Token.is, htop.2, ← List.mem_singleton.mp hmark]
        simp [Token.depthBehind?, opens_eq_false hcloses, hcloses, htop.1] at hnext
      · cases hmark
    · exact ih hrest hmark

lemma Balanced.runsTo (h : e.Balanced) : e.RunsTo ")" := ⟨h, notMem_topMarksFrom h⟩

/-- One step of reading up to a stop: the stop ends the run, and any other token joins it unless it
closes a bracket that is not open. -/
lemma takeUntil_cons (stops : List Text) (endLine depth : Nat) (t : Token) (rest : List Token) :
    Tokens.takeUntil stops endLine depth (t :: rest) =
      if depth = 0 ∧ t.kind = .punct ∧ t.text ∈ stops then .ok ([], t :: rest)
      else (t.depthBehind? depth).elim (.error ⟨t.line, .unbalanced t.text⟩) fun next =>
        Tokens.takeUntil stops endLine next rest >>= fun r => pure (t :: r.1, r.2) := by
  have hstop : (depth == 0 && t.kind == .punct && stops.contains t.text) = true ↔
      depth = 0 ∧ t.kind = .punct ∧ t.text ∈ stops := by
    simp [and_assoc]
  conv_lhs => unfold Tokens.takeUntil
  rw [Token.depthBehind?]
  refine if_congr hstop rfl ?_
  split_ifs with hopens hcloses hzero
  · rfl
  · subst hzero
    rfl
  · obtain ⟨depth, rfl⟩ := Nat.exists_eq_succ_of_ne_zero hzero
    rfl
  · rfl

/-- **Reading up to a stop**: what is read is the front of the tokens that closes the brackets it
opens, has no stop outside brackets, and has a stop behind it. -/
lemma takeUntil_eq_ok_iff {stops : List Text} {endLine : Nat} {list : List Token} {run : Expr}
    {left : List Token} :
    Tokens.takeUntil stops endLine depth list = .ok (run, left) ↔
      list = run ++ left ∧ depthBehind? depth run = some 0 ∧
        (∀ stop ∈ stops, stop ∉ topMarksFrom depth run) ∧
        ∃ t ∈ left.head?, t.kind = .punct ∧ t.text ∈ stops := by
  induction list generalizing depth run with
  | nil =>
    refine ⟨fun h => by simp [Tokens.takeUntil] at h, ?_⟩
    rintro ⟨hlist, -, -, t, ht, -⟩
    obtain ⟨-, rfl⟩ := List.append_eq_nil_iff.mp hlist.symm
    cases ht
  | cons t rest ih =>
    rw [takeUntil_cons]
    constructor
    · intro h
      split_ifs at h with hstop
      · obtain ⟨rfl, rfl⟩ := Prod.mk.inj (Except.ok.inj h)
        exact ⟨rfl, congrArg some hstop.1, fun _ _ => List.not_mem_nil, t, rfl, hstop.2⟩
      · obtain ⟨next, hnext⟩ : ∃ next, t.depthBehind? depth = some next :=
          Option.ne_none_iff_exists'.mp fun hnone => by simp [hnone] at h
        rw [hnext, Option.elim_some] at h
        cases hread : Tokens.takeUntil stops endLine next rest with
        | error e => simp [hread, bind, Except.bind] at h
        | ok r =>
          obtain ⟨rfl, rfl⟩ : t :: r.1 = run ∧ r.2 = left := by
            simpa [hread, bind, Except.bind, pure, Except.pure] using h
          obtain ⟨rfl, hdepth, hapart, hmark⟩ := ih.mp hread
          refine ⟨rfl, by simp [depthBehind?, hnext, hdepth], fun stop hmem => ?_, hmark⟩
          rw [topMarksFrom, hnext, List.mem_append, not_or]
          refine ⟨fun htop => ?_, hapart stop hmem⟩
          grind
    · rintro ⟨hlist, hdepth, hapart, hmark⟩
      cases run with
      | nil =>
        obtain rfl : left = t :: rest := hlist.symm
        exact if_pos ⟨Option.some.inj hdepth, by simpa using hmark⟩
      | cons first more =>
        obtain ⟨rfl, rfl⟩ := List.cons.inj hlist
        obtain ⟨next, hnext, hmore⟩ := Option.bind_eq_some_iff.mp hdepth
        simp only [topMarksFrom, hnext, List.mem_append, not_or] at hapart
        rw [if_neg fun hstop => (hapart t.text hstop.2.2).1 (by simp [hstop]), hnext,
          Option.elim_some, ih.mpr ⟨rfl, hmore, fun stop hstop => (hapart stop hstop).2, hmark⟩]
        rfl

/-- A run is read as a whole, from inside any number of brackets, up to the stop behind it. -/
lemma takeUntil_run (hdepth : depthBehind? depth e = some 0) (hapart : stop ∉ topMarksFrom depth e)
    (line endLine : Nat) (rest : List Token) :
    Tokens.takeUntil [stop] endLine depth (e ++ ⟨.punct, stop, line⟩ :: rest) =
      .ok (e, ⟨.punct, stop, line⟩ :: rest) :=
  takeUntil_eq_ok_iff.mpr
    ⟨rfl, hdepth, by simpa using hapart, _, rfl, rfl, List.mem_singleton_self stop⟩

/-- Reading up to a stop takes a run that can stand in front of it, and the stop. -/
lemma RunsTo.through (h : e.RunsTo stop) (line endLine : Nat) (rest : List Token) :
    Tokens.through ⟨e ++ ⟨.punct, stop, line⟩ :: rest, endLine⟩ stop =
      .ok (e, ⟨rest, endLine⟩) := by
  have hrun := takeUntil_run h.balanced h.apart line endLine rest
  simp [Tokens.through, Tokens.runTo, hrun, Tokens.rest, bind, Except.bind, pure, Except.pure]

/-! ### Splitting runs -/

lemma topPartsFrom_ne_nil (sep : Text) (depth : Int) (e : Expr) :
    topPartsFrom sep depth e ≠ [] := by
  cases e with
  | nil => simp [topPartsFrom]
  | cons t rest =>
    rw [topPartsFrom]
    split
    · simp
    · split <;> simp

/-- Where no bracket is closed that is not open, both ways to count brackets agree. -/
lemma depthAfter_of_depthBehind? {next : Nat} (h : t.depthBehind? depth = some next) :
    t.depthAfter depth = next := by
  simp only [Token.depthBehind?] at h
  simp only [Token.depthAfter]
  split at h
  · next hopens => simp [hopens, ← Option.some.inj h]
  · next hopens =>
    split at h
    · next hcloses =>
      split at h
      · cases h
      · obtain rfl := Option.some.inj h
        rw [if_neg hopens, if_pos hcloses]
        omega
    · next hcloses => simp [hopens, hcloses, ← Option.some.inj h]

/-- A run without separators outside brackets goes to the front of the first part. -/
lemma topPartsFrom_run (hdepth : depthBehind? depth e = some behind)
    (hapart : sep ∉ topMarksFrom depth e) (rest : Expr) :
    topPartsFrom sep depth (e ++ rest) = (topPartsFrom sep behind rest).modifyHead (e ++ ·) := by
  induction e generalizing depth with
  | nil =>
    obtain rfl : depth = behind := Option.some.inj hdepth
    rw [List.nil_append]
    cases topPartsFrom sep depth rest <;> rfl
  | cons t more ih =>
    obtain ⟨next, hnext, hmore⟩ := Option.bind_eq_some_iff.mp hdepth
    rw [topMarksFrom, hnext, List.mem_append, not_or] at hapart
    have hsplit := ih hmore hapart.2
    have hinside : (t.kind == .punct && !t.opens && !t.closes && (depth : Int) == 0 && t.is
      sep) = false := by
      by_contra hsep
      simp only [Bool.not_eq_false, Bool.and_eq_true, beq_iff_eq, Token.is] at hsep
      obtain ⟨⟨⟨⟨hkind, -⟩, -⟩, hzero⟩, rfl⟩ := hsep
      exact hapart.1 (by simp [hkind, Int.natCast_eq_zero.mp hzero])
    rw [List.cons_append, topPartsFrom, hinside, depthAfter_of_depthBehind? hnext, hsplit]
    cases hparts : topPartsFrom sep behind rest with
    | nil => exact absurd hparts (topPartsFrom_ne_nil sep behind rest)
    | cons part parts => rfl

/-- A run without separators outside brackets is one part. -/
lemma RunsTo.topParts (h : e.RunsTo sep) : e.topParts sep = [e] := by
  have hrun := topPartsFrom_run h.balanced h.apart []
  simpa [Expr.topParts, topPartsFrom] using hrun

/-- A run is the part in front of the separator behind it. -/
lemma RunsTo.topParts_cons (h : e.RunsTo sep) (ht : t.kind = .punct) (htext : t.text = sep)
    (hopens : t.opens = false) (hcloses : t.closes = false) (rest : Expr) :
    Expr.topParts (e ++ t :: rest) sep = e :: rest.topParts sep := by
  have hrun := topPartsFrom_run h.balanced h.apart (t :: rest)
  have hcut : topPartsFrom sep ((0 : Nat) : Int) (t :: rest) = [] :: topPartsFrom sep 0 rest := by
    simp [topPartsFrom, ht, hopens, hcloses, Token.is, htext]
  rw [hcut] at hrun
  simpa [Expr.topParts] using hrun

/-- A run without assignment operators outside brackets goes to the front of the target. -/
lemma assignmentFrom?_run (hdepth : depthBehind? depth e = some behind)
    (hapart : ∀ op ∈ assignOps, op ∉ topMarksFrom depth e) (rest : Expr) :
    assignmentFrom? depth (e ++ rest) =
      (assignmentFrom? behind rest).map fun a => { a with target := e ++ a.target } := by
  induction e generalizing depth with
  | nil =>
    obtain rfl : depth = behind := Option.some.inj hdepth
    rw [List.nil_append]
    cases assignmentFrom? depth rest <;> rfl
  | cons t more ih =>
    obtain ⟨next, hnext, hmore⟩ := Option.bind_eq_some_iff.mp hdepth
    simp only [topMarksFrom, hnext, List.mem_append, not_or] at hapart
    have hsplit := ih hmore fun op hop => (hapart op hop).2
    have hinside : (t.kind == .punct && !t.opens && !t.closes && (depth : Int) == 0 &&
        assignOps.contains t.text) = false := by
      by_contra hassigns
      simp only [Bool.not_eq_false, Bool.and_eq_true, beq_iff_eq, List.contains_iff_mem] at hassigns
      obtain ⟨⟨⟨⟨hkind, -⟩, -⟩, hzero⟩, hop⟩ := hassigns
      exact (hapart t.text hop).1 (by simp [hkind, Int.natCast_eq_zero.mp hzero])
    rw [List.cons_append, assignmentFrom?, hinside, depthAfter_of_depthBehind? hnext, hsplit]
    simp only [Bool.false_eq_true, if_false, Option.map_map]
    rfl

end Expr

end ContractAudit.Source
