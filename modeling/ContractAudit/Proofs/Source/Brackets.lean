import ContractAudit.Proofs.Source.Runs

/-!
Brackets that are nested by kind, and the counters that look after them.

Reading, splitting and stripping each count brackets in a way of its own. On a run whose brackets
are properly nested they all agree, because each count can be read off the closing marks that are
still due.

* `Expr.dueBehind?`: the closing marks due behind a run, the innermost first. A run is `Expr.Nested`
  if it leaves none due. The depth is how many marks are due (`depthBehind?_of_due`), and the count
  of round brackets is how many of them are round (`roundsBehind_of_due`).
* `Expr.JoinedBy`: a run as parts with separators between them. The parts of a nested run are nested
  (`exists_nested_parts`), and they are the only ones without a separator outside brackets
  (`topParts_eq_of_joinedBy`).
* `Expr.Enclosed`: a run in one pair of round brackets. These are the runs that are stripped
  (`stripParens_eq`).
* `runs_split_cleanly`: all of this together.
-/

namespace ContractAudit.Source

/-! ### Nested runs -/

/-- The marks that open or close a bracket. -/
def brackets : List Text := ["(", "[", "\x7b", ")", "]", "\x7d"]

namespace Token

/-- The mark that closes the bracket which the token opens. -/
def closer (t : Token) : Text := if t.is "(" then ")" else if t.is "[" then "]" else "\x7d"

/-- The closing marks due behind a token, the innermost first, from those due in front of it. There
are none if the token closes a bracket that is not the innermost open one. -/
def dueBehind? (t : Token) (due : List Text) : Option (List Text) :=
  if t.opens then some (t.closer :: due)
  else if t.closes then if due.head? = some t.text then some due.tail else none
  else some due

end Token

namespace Expr

/-- The closing marks due behind a run, from those due in front of it. -/
def dueBehind? : List Text → Expr → Option (List Text)
  | due, [] => some due
  | due, t :: rest => do
    let due ← t.dueBehind? due
    dueBehind? due rest

/-- Whether every bracket of the run is closed by one of its kind, the innermost first. -/
def Nested (e : Expr) : Prop := dueBehind? [] e = some []

instance (e : Expr) : Decidable e.Nested := inferInstanceAs (Decidable (_ = _))

variable {t : Token} {due next : List Text} {e : Expr} {sep : Text}

lemma dueBehind?_cons {behind : List Text} {rest : Expr} :
    dueBehind? due (t :: rest) = some behind ↔
      ∃ next, t.dueBehind? due = some next ∧ dueBehind? next rest = some behind :=
  Option.bind_eq_some_iff

/-! ### Counters -/

/-- The depth is the number of closing marks due. -/
lemma depthBehind?_of_due_token (h : t.dueBehind? due = some next) :
    t.depthBehind? due.length = some next.length := by
  rw [Token.dueBehind?] at h
  rw [Token.depthBehind?]
  split_ifs at h with hopens hcloses hdue
  · obtain rfl := Option.some.inj h
    rw [if_pos hopens, List.length_cons]
  · obtain rfl := Option.some.inj h
    obtain ⟨due, rfl⟩ := List.head?_eq_some_iff.mp hdue
    simp [hopens, hcloses]
  · obtain rfl := Option.some.inj h
    simp [hopens, hcloses]

lemma depthBehind?_of_due {behind : List Text} (h : dueBehind? due e = some behind) :
    depthBehind? due.length e = some behind.length := by
  induction e generalizing due with
  | nil =>
    obtain rfl := Option.some.inj h
    rfl
  | cons t rest ih =>
    obtain ⟨next, hnext, hrest⟩ := dueBehind?_cons.mp h
    rw [depthBehind?, depthBehind?_of_due_token hnext]
    exact ih hrest

lemma Nested.balanced (h : e.Nested) : e.Balanced := depthBehind?_of_due h

/-- A token that is spelled like a round bracket is one. -/
lemma opens_closes_of_lexed (ht : t.kind = lexicalKind t.text) :
    (t.is "(" = true → t.opens = true) ∧ (t.is ")" = true → t.closes = true) := by
  refine ⟨fun h => ?_, fun h => ?_⟩
  · have htext : t.text = "(" := beq_iff_eq.mp h
    rw [htext] at ht
    simp [Token.opens, ht, h, show lexicalKind ("(" : Text) = .punct from rfl]
  · have htext : t.text = ")" := beq_iff_eq.mp h
    rw [htext] at ht
    simp [Token.closes, ht, h, show lexicalKind (")" : Text) = .punct from rfl]

/-- The number of open round brackets behind a token, from the number in front of it. -/
def roundsBehind (t : Token) (rounds : Int) : Int :=
  if t.is "(" then rounds + 1 else if t.is ")" then rounds - 1 else rounds

/-- How many of the closing marks due are round. -/
def roundsDue (due : List Text) : Nat := due.count (Text.ofString ")")

/-- The number of open round brackets is that of the round marks due. -/
lemma roundsBehind_of_due (ht : t.kind = lexicalKind t.text) (h : t.dueBehind? due = some next) :
    roundsBehind t (roundsDue due) = roundsDue next := by
  obtain ⟨hfirst, hlast⟩ := opens_closes_of_lexed ht
  rw [Token.dueBehind?] at h
  split_ifs at h with hopens hcloses hdue
  · obtain rfl := Option.some.inj h
    have hnot : ¬t.is ")" = true := fun hround => by simp [opens_eq_false (hlast hround)] at hopens
    by_cases hround : t.is "(" = true
    · simp [roundsBehind, roundsDue, Token.closer, hround]
    · have hother : ∀ p : Prop, [Decidable p] → (if p then Text.ofString "]" else "\x7d") ≠
        Text.ofString ")" := by
        intro p _
        split_ifs <;> simp
      simp [roundsBehind, roundsDue, Token.closer, hround, hnot, hother]
  · obtain rfl := Option.some.inj h
    obtain ⟨due, rfl⟩ := List.head?_eq_some_iff.mp hdue
    rw [roundsBehind, if_neg fun hround => hopens (hfirst hround), roundsDue, roundsDue,
      List.count_cons, List.tail_cons, Token.is]
    split_ifs <;> simp
  · obtain rfl := Option.some.inj h
    rw [roundsBehind, if_neg fun hround => hopens (hfirst hround), if_neg fun hround => hcloses
      (hlast hround)]

/-! ### Splitting -/

/-- The run is made up of the parts, with a separator between any two neighbours. -/
inductive JoinedBy (sep : Text) : List Expr → Expr → Prop
  | last (part : Expr) : JoinedBy sep [part] part
  | cons (part : Expr) {t : Token} (hkind : t.kind = .punct) (htext : t.text = sep)
      {parts : List Expr}
      {rest : Expr} (more : JoinedBy sep parts rest) : JoinedBy sep (part :: parts)
        (part ++ t :: rest)

lemma JoinedBy.prepend {part : Expr} {parts : List Expr} (h : JoinedBy sep (part :: parts) e)
    (t : Token) : JoinedBy sep ((t :: part) :: parts) (t :: e) := by
  cases h with
  | last => exact .last (t :: _)
  | cons _ hkind htext more => exact .cons (t :: part) hkind htext more

/-- The parts with the separators between them are the run. -/
lemma joinedBy_topPartsFrom (sep : Text) (depth : Int) (e : Expr) :
    JoinedBy sep (topPartsFrom sep depth e) e := by
  induction e generalizing depth with
  | nil => exact .last []
  | cons t rest ih =>
    rw [topPartsFrom]
    split_ifs with hsep
    · simp only [Bool.and_eq_true, beq_iff_eq, Token.is] at hsep
      exact .cons [] hsep.1.1.1.1 hsep.2 (ih depth)
    · have hrest := ih (t.depthAfter depth)
      obtain ⟨part, parts, hparts⟩ :=
        List.exists_cons_of_ne_nil (topPartsFrom_ne_nil sep (t.depthAfter depth) rest)
      rw [hparts] at hrest ⊢
      exact hrest.prepend t

lemma no_bracket (h : t.text ∉ brackets) : t.opens = false ∧ t.closes = false := by
  simp only [brackets, List.mem_cons, not_or] at h
  simp [Token.opens, Token.closes, Token.is, h]

/-- **The parts of a nested run are nested**, and no separator is outside their brackets. The first
part starts where the run does, with the same closing marks due. -/
lemma exists_nested_parts (hsep : sep ∉ brackets) (h : dueBehind? due e = some []) :
    ∃ part parts, topPartsFrom sep due.length e = part :: parts ∧ dueBehind? due part = some [] ∧
      sep ∉ topMarksFrom due.length part ∧ ∀ p ∈ parts, p.Nested ∧ sep ∉ p.topMarks := by
  induction e generalizing due with
  | nil =>
    obtain rfl := Option.some.inj h
    exact ⟨[], [], rfl, rfl, List.not_mem_nil, fun _ hp => absurd hp List.not_mem_nil⟩
  | cons t rest ih =>
    obtain ⟨next, hnext, hrest⟩ := dueBehind?_cons.mp h
    obtain ⟨part, parts, hparts, hpart, hmarks, hall⟩ := ih hrest
    have hdepth := depthBehind?_of_due_token hnext
    rw [topPartsFrom]
    split_ifs with hcut
    · -- a separator stands where nothing is due, and ends an empty first part
      simp only [Bool.and_eq_true, Bool.not_eq_true', beq_iff_eq] at hcut
      obtain ⟨⟨⟨⟨-, hopens⟩, hcloses⟩, htop⟩, -⟩ := hcut
      obtain rfl : due = [] := List.length_eq_zero_iff.mp (Int.natCast_eq_zero.mp htop)
      obtain rfl : [] = next := by simpa [Token.dueBehind?, hopens, hcloses] using hnext
      rw [hparts]
      refine ⟨[], part :: parts, rfl, rfl, List.not_mem_nil, fun p hp => ?_⟩
      rcases List.mem_cons.mp hp with rfl | hp
      · exact ⟨hpart, hmarks⟩
      · exact hall p hp
    · rw [depthAfter_of_depthBehind? hdepth, hparts]
      refine ⟨t :: part, parts, rfl, dueBehind?_cons.mpr ⟨next, hnext, hpart⟩, ?_, hall⟩
      rw [topMarksFrom, hdepth, List.mem_append, not_or]
      refine ⟨fun hmark => hcut ?_, hmarks⟩
      split_ifs at hmark with htop
      · obtain rfl := List.mem_singleton.mp hmark
        obtain ⟨hopens, hcloses⟩ := no_bracket hsep
        simp [htop, hopens, hcloses, Token.is]
      · cases hmark

/-- Parts without a separator outside brackets are the ones that splitting finds. -/
lemma topParts_eq_of_joinedBy (hsep : sep ∉ brackets) {parts : List Expr} (h : JoinedBy sep parts e)
    (hparts : ∀ part ∈ parts, part.RunsTo sep) : e.topParts sep = parts := by
  induction h with
  | last part => exact (hparts part (List.mem_singleton_self part)).topParts
  | @cons part t hkind htext parts rest more ih =>
    obtain ⟨hopens, hcloses⟩ := no_bracket (htext ▸ hsep)
    rw [(hparts part (List.mem_cons_self ..)).topParts_cons hkind htext hopens hcloses,
      ih fun p hp => hparts p (List.mem_cons_of_mem part hp)]

/-! ### Stripping -/

/-- Whether the first token of the run opens a round bracket that its last token closes: what stands
between them closes the brackets that it opens and no others. -/
def Enclosed (e : Expr) : Prop :=
  ∃ first inner last, e = first :: (inner ++ [last]) ∧ first.is "(" = true ∧ last.is ")" = true ∧
    Balanced inner

lemma closesLast_cons (rounds : Int) (t : Token) (rest : Expr) :
    closesLast rounds (t :: rest) = ((!(t.is ")" && roundsBehind t rounds == 0) || rest.isEmpty) &&
      closesLast (roundsBehind t rounds) rest) := rfl

/-- What a token does to closing marks with one more below them: it takes the lowest one off, or
does not touch it. -/
lemma dueBehind?_concat {mark : Text} (h : t.dueBehind? (due ++ [mark]) = some next) :
    (due = [] ∧ t.closes = true ∧ t.text = mark ∧ next = []) ∨
      ∃ due', next = due' ++ [mark] ∧ t.dueBehind? due = some due' := by
  rw [Token.dueBehind?] at h
  split_ifs at h with hopens hcloses hdue
  · obtain rfl := Option.some.inj h
    exact .inr ⟨t.closer :: due, rfl, by rw [Token.dueBehind?, if_pos hopens]⟩
  · obtain rfl := Option.some.inj h
    cases due with
    | nil => exact .inl ⟨rfl, hcloses, (Option.some.inj hdue).symm, rfl⟩
    | cons first due =>
      refine .inr ⟨due, rfl, ?_⟩
      rw [Token.dueBehind?, if_neg hopens, if_pos hcloses]
      exact if_pos hdue
  · obtain rfl := Option.some.inj h
    exact .inr ⟨due, rfl, by rw [Token.dueBehind?, if_neg hopens, if_neg hcloses]⟩

/-- The last token of a run is the first to close a round bracket below the given marks exactly if
the tokens in front of it close the brackets above it and no others. -/
lemma closesLast_iff (hlexed : e.Lexed) (h : dueBehind? (due ++ [Text.ofString ")"]) e = some []) :
    closesLast (roundsDue (due ++ [Text.ofString ")"])) e = true ↔
      ∃ inner last, e = inner ++ [last] ∧ last.is ")" = true ∧ depthBehind? due.length
        inner = some 0 := by
  induction e generalizing due with
  | nil => simp [dueBehind?] at h
  | cons t rest ih =>
    obtain ⟨next, hnext, hrest⟩ := dueBehind?_cons.mp h
    have hrounds := roundsBehind_of_due (hlexed t (List.mem_cons_self ..)) hnext
    have hlexed' : Lexed rest := fun t ht => hlexed t (List.mem_cons_of_mem _ ht)
    rw [closesLast_cons, hrounds]
    rcases dueBehind?_concat hnext with ⟨rfl, hcloses, htext, rfl⟩ | ⟨due', rfl, hdue⟩
    · -- the token takes the lowest mark off, so that it has to be the last one
      have hround : t.is ")" = true := beq_iff_eq.mpr htext
      constructor
      · intro hclosed
        obtain rfl : rest = [] := by
          simpa [hround, roundsDue] using (Bool.and_eq_true_iff.mp hclosed).1
        exact ⟨[], t, rfl, hround, rfl⟩
      · rintro ⟨inner, last, heq, -, hdepth⟩
        cases inner with
        | nil =>
          obtain ⟨-, rfl⟩ := List.cons.inj heq
          rw [List.isEmpty_nil, Bool.or_true]
          rfl
        | cons first inner =>
          obtain ⟨rfl, -⟩ := List.cons.inj heq
          simp [depthBehind?, Token.depthBehind?, opens_eq_false hcloses, hcloses] at hdepth
    · -- the lowest mark stays due behind the token
      have hdepth := depthBehind?_of_due_token hdue
      have hopen : ((roundsDue (due' ++ [Text.ofString ")"]) : Int) == 0) = false := by
        simp [roundsDue]
        omega
      rw [hopen, Bool.and_false, Bool.not_false, Bool.true_or, Bool.true_and, ih hlexed' hrest]
      constructor
      · rintro ⟨inner, last, rfl, hlast, hinner⟩
        exact ⟨t :: inner, last, rfl, hlast, by rw [depthBehind?, hdepth]; exact hinner⟩
      · rintro ⟨inner, last, heq, hlast, hinner⟩
        cases inner with
        | nil =>
          obtain ⟨-, rfl⟩ := List.cons.inj heq
          simp [dueBehind?] at hrest
        | cons first inner =>
          obtain ⟨rfl, rfl⟩ := List.cons.inj heq
          rw [depthBehind?, hdepth] at hinner
          exact ⟨inner, last, rfl, hlast, hinner⟩

/-- The first token of a nested run is a round bracket that the last one closes exactly if the
tokens are found to be so by counting round brackets. -/
lemma closesLast_iff_enclosed {first : Token} {rest : Expr} (hlexed : Lexed (first :: rest))
    (h : Nested (first :: rest)) (hfirst : first.is "(" = true) :
    closesLast 0 (first :: rest) = true ↔ Enclosed (first :: rest) := by
  have hopens := (opens_closes_of_lexed (hlexed first (List.mem_cons_self ..))).1 hfirst
  have hnot : first.is ")" = false := by
    simp [Token.is, show first.text = "(" from beq_iff_eq.mp hfirst]
  obtain ⟨due, hdue, hrest⟩ := dueBehind?_cons.mp h
  obtain rfl : [Text.ofString ")"] = due := by
    simpa [Token.dueBehind?, hopens, Token.closer, hfirst] using hdue
  have hcount : closesLast 0 (first :: rest) = closesLast (roundsDue ([] ++ [Text.ofString ")"]))
    rest := by
    rw [closesLast_cons, hnot, roundsBehind, if_pos hfirst]
    rfl
  rw [hcount, closesLast_iff (fun t ht => hlexed t (List.mem_cons_of_mem _ ht)) hrest]
  constructor
  · rintro ⟨inner, last, rfl, hlast, hinner⟩
    exact ⟨first, inner, last, rfl, hfirst, hlast, hinner⟩
  · rintro ⟨_, inner, last, heq, -, hlast, hinner⟩
    exact ⟨inner, last, (List.cons.inj heq).2, hlast, hinner⟩

/-- **Stripping takes off the brackets that enclose a nested run**, and nothing else. -/
lemma stripParens_eq (hlexed : e.Lexed) (h : e.Nested) :
    (e.Enclosed → e.stripParens = (e.drop 1).dropLast) ∧ (¬e.Enclosed → e.stripParens = e) := by
  constructor
  · rintro ⟨first, inner, last, rfl, hfirst, hlast, hinner⟩
    have hcloses := (closesLast_iff_enclosed hlexed h hfirst).mpr ⟨first, inner, last, rfl, hfirst,
      hlast, hinner⟩
    have hends : (first :: (inner ++ [last])).getLast? = some last :=
      List.getLast?_concat (l := first :: inner)
    rw [stripParens, List.head?_cons, hends]
    simp [hfirst, hlast, hcloses]
  · intro hopen
    rw [stripParens]
    split
    · next first last hfirst hlast =>
      refine if_neg fun hstrip => hopen ?_
      simp only [Bool.and_eq_true] at hstrip
      obtain ⟨rest, rfl⟩ := List.head?_eq_some_iff.mp hfirst
      exact (closesLast_iff_enclosed hlexed h hstrip.1.1.2).mp hstrip.2
    · rfl

/-! ### Reading, splitting and stripping -/

lemma runTo_eq_ok_iff {s left : Tokens} {stops : List Text} {run : Expr} :
    s.runTo stops = .ok (run, left) ↔
      left.endLine = s.endLine ∧
        Tokens.takeUntil stops s.endLine 0 s.list = .ok (run, left.list) := by
  rw [Tokens.runTo]
  cases Tokens.takeUntil stops s.endLine 0 s.list with
  | error e => simp [bind, Except.bind]
  | ok r =>
    obtain ⟨list, endLine⟩ := left
    simp only [bind, Except.bind, pure, Except.pure, Except.ok.injEq, Prod.ext_iff, Tokens.mk.injEq,
      eq_comm (b := endLine)]
    exact and_assoc.symm.trans and_comm

/-- **Runs are balanced and split cleanly.** Reading up to one of some stops takes exactly the
balanced run in front of the first stop outside brackets. A run whose brackets are nested by kind is
split, at a mark that is no bracket, into nested parts without that mark outside brackets, which
make up the run again with the marks between them; no other parts do. And it loses its first and its
last token exactly if these are a pair of round brackets. -/
theorem runs_split_cleanly :
    (∀ (s left : Tokens) (stops : List Text) (run : Expr), s.runTo stops = .ok (run, left) ↔
      left.endLine = s.endLine ∧ s.list = run ++ left.list ∧ run.Balanced ∧
        (∀ stop ∈ stops, stop ∉ run.topMarks) ∧
        ∃ t ∈ left.list.head?, t.kind = .punct ∧ t.text ∈ stops) ∧
    ∀ e : Expr, e.Lexed → e.Nested →
      (∀ sep ∉ brackets, ∀ parts, e.topParts sep = parts ↔
        JoinedBy sep parts e ∧ ∀ part ∈ parts, part.Nested ∧ sep ∉ part.topMarks) ∧
      (e.Enclosed → e.stripParens = (e.drop 1).dropLast) ∧ (¬e.Enclosed → e.stripParens = e) := by
  refine ⟨fun s left stops run => ?_, fun e hlexed h => ⟨fun sep hsep parts => ⟨?_, ?_⟩,
    stripParens_eq hlexed h⟩⟩
  · exact runTo_eq_ok_iff.trans (and_congr_right fun _ => takeUntil_eq_ok_iff)
  · rintro rfl
    obtain ⟨part, parts, hparts, hpart, hmarks, hall⟩ := exists_nested_parts hsep h
    refine ⟨joinedBy_topPartsFrom sep 0 e, fun p hp => ?_⟩
    rcases List.mem_cons.mp (hparts ▸ hp : p ∈ part :: parts) with rfl | hp
    · exact ⟨hpart, hmarks⟩
    · exact hall p hp
  · rintro ⟨hjoined, hparts⟩
    exact topParts_eq_of_joinedBy hsep hjoined fun part hp => ⟨(hparts part hp).1.balanced,
      (hparts part hp).2⟩

/-- A pair in round brackets, with an index and a literal that looks like a bracket. -/
def samplePair : Expr := (scan "(b[i], \"(\")").list

/-- The pair, and a call whose options are in curly brackets behind it. -/
def sampleList : Expr := (scan "(b[i], \"(\"), f\x7bv: (c)\x7d(d)").list

/-- The pair is stripped, the list that starts with it is not, and it is split behind the pair. -/
theorem runs_split_cleanly_list :
    (∃ left, (scan "(b[i], \"(\"), f\x7bv: (c)\x7d(d); e").runTo [";"] = .ok (sampleList, left)) ∧
      sampleList.Lexed ∧ sampleList.Nested ∧ samplePair.Lexed ∧ samplePair.Nested ∧
      (∃ call, sampleList.topParts "," = [samplePair, call] ∧ JoinedBy "," [samplePair, call]
        sampleList) ∧
      (samplePair.Enclosed ∧ samplePair.stripParens = (samplePair.drop 1).dropLast) ∧
      ¬sampleList.Enclosed ∧ sampleList.stripParens = sampleList := by
  have hlist : sampleList.Lexed := fun t ht => kind_of_mem_scan ht
  have hpair : samplePair.Lexed := fun t ht => kind_of_mem_scan ht
  have hnested : sampleList.Nested ∧ samplePair.Nested := by decide +kernel
  have hparts : sampleList.topParts "," = [samplePair, sampleList.drop 9] := by decide +kernel
  have hcomma : Text.ofString "," ∉ brackets := by decide +kernel
  have henclosed : samplePair.Enclosed :=
    ⟨⟨.punct, "(", 1⟩, (samplePair.drop 1).dropLast, ⟨.punct, ")", 1⟩, by decide +kernel⟩
  obtain ⟨hread, hruns⟩ := runs_split_cleanly
  obtain ⟨hsplit, hstripped, hkept⟩ := hruns sampleList hlist hnested.1
  have hopen : ¬sampleList.Enclosed := fun h => absurd (hstripped h) (by decide +kernel)
  refine ⟨⟨⟨[⟨.punct, ";", 1⟩, ⟨.ident, "e", 1⟩], 1⟩, (hread _ _ _ _).mpr ?_⟩, hlist, hnested.1,
    hpair, hnested.2, ⟨sampleList.drop 9, hparts, ((hsplit "," hcomma _).mp hparts).1⟩,
    ⟨henclosed, (hruns samplePair hpair hnested.2).2.1 henclosed⟩, hopen, hkept hopen⟩
  exact ⟨by decide +kernel, by decide +kernel, by decide +kernel, by
    decide +kernel, ⟨.punct, ";", 1⟩, by decide +kernel⟩

end Expr

end ContractAudit.Source
