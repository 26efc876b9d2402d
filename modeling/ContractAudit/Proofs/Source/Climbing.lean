import ContractAudit.Proofs.Source.Folding
import ContractAudit.Proofs.Source.Grammar

/-!
Precedence climbing evaluates the grammar of constant expressions.

Climbing keeps the value of a tree `left` and looks at the operator behind it. All tighter ones were
taken before, so that the operator binds at most as tightly as `left.limit` and can take `left` as
its left operand. From this invariant follows that whatever has a value is the rendering of a tree
(`soundBinary`). The other way round, a rendering is evaluated as a whole if what follows it cannot
go on with it (`completeBinary`). Main statement: an expression folds to a value exactly if it is
the rendering of a proper tree with that value (`fold_eq_some_iff_render`).
-/

namespace ContractAudit.Source

/-! ### Soundness -/

/-- Whether the first operator of `e`, if it starts with one, binds at most as tightly as
`bound`. -/
def Expr.Stops (bound : Nat) (e : Expr) : Prop :=
  ∀ t, e.head? = some t → ∀ op, BinaryOp.ofSymbol? t.text = some op → op.precedence ≤ bound

lemma Expr.stops_nil (bound : Nat) : Expr.Stops bound [] := nofun

/-- An expression starts with a rendering of `t`, whose value is `n`, and `rest` is behind it. -/
def Starts (env : Env) (e : Expr) (t : Tree) (n : Nat) (rest : Expr) : Prop :=
  ∃ front, e = front ++ rest ∧ Reads env front t n

section Sound

variable (env : Env)

/-- With the given fuel, `evalBinary` gives the value of a tree that binds tighter than the
bound. -/
def SoundBinary (fuel : Nat) : Prop :=
  ∀ (bound : Nat) (e : Expr) (n : Nat) (rest : Expr), e.Lexed → bound < 12 →
    evalBinary env fuel bound e = some (n, rest) →
    ∃ t : Tree, bound < t.level ∧ Starts env e t n rest ∧ rest.Stops bound

/-- With the given fuel, `evalClimb` goes on from the value of a tree to that of one that starts
with it. -/
def SoundClimb (fuel : Nat) : Prop :=
  ∀ (bound a : Nat) (e : Expr) (n : Nat) (rest front : Expr) (left : Tree), e.Lexed →
    evalClimb env fuel bound a e = some (n, rest) → Reads env front left a → bound < left.level →
    e.Stops left.limit →
    ∃ t : Tree, bound < t.level ∧ Starts env (front ++ e) t n rest ∧ rest.Stops bound

/-- An evaluator of operands gives the value of a tree that no operator can cut. -/
def SoundOperand (eval : Expr → Option (Nat × Expr)) : Prop :=
  ∀ (e : Expr) (n : Nat) (rest : Expr), e.Lexed → eval e = some (n, rest) →
    ∃ t : Tree, t.level = 12 ∧ Starts env e t n rest

variable {env} {fuel : Nat}

lemma Expr.Lexed.of_append {front rest : Expr} (h : Expr.Lexed (front ++ rest)) : rest.Lexed :=
  fun t ht => h t (List.mem_append_right front ht)

lemma Expr.Lexed.of_cons {t : Token} {rest : Expr} (h : Expr.Lexed (t :: rest)) : rest.Lexed :=
  fun u hu => h u (List.mem_cons_of_mem t hu)

lemma SoundOperand.soundBinary (hunary : SoundOperand env (evalUnary env fuel))
    (hclimb : SoundClimb env fuel) : SoundBinary env (fuel + 1) := by
  intro bound e n rest hlex hbound h
  rw [evalBinary] at h
  obtain ⟨⟨a, behind⟩, ha, hrest⟩ := Option.bind_eq_some_iff.mp h
  obtain ⟨left, hlevel, front, rfl, hreads⟩ := hunary e a behind hlex ha
  have hlimit : 11 ≤ left.limit := Tree.le_limit_of_lt (by omega)
  have hstops : Expr.Stops left.limit behind := fun _ _ op _ => Nat.le_trans op.precedence_le hlimit
  exact hclimb bound a behind n rest front left hlex.of_append hrest hreads (hlevel ▸ hbound) hstops

lemma SoundClimb.succ (henv : ∀ x n, env x = some n → n < wordCount)
    (hbinary : SoundBinary env fuel)
    (hclimb : SoundClimb env fuel) : SoundClimb env (fuel + 1) := by
  intro bound a e n rest front left hlex h hleft hbound hstops
  cases e with
  | nil =>
    cases h
    exact ⟨left, hbound, ⟨front, rfl, hleft⟩, Expr.stops_nil bound⟩
  | cons t behind =>
    cases hop : BinaryOp.ofSymbol? t.text with
    | none =>
      simp only [evalClimb, hop] at h
      cases h
      refine ⟨left, hbound, ⟨front, rfl, hleft⟩, fun u hu op hop' => ?_⟩
      cases hu
      exact absurd (hop'.symm.trans hop) (Option.some_ne_none op)
    | some op =>
      have htext := BinaryOp.ofSymbol?_eq_some_iff.mp hop
      simp only [evalClimb, hop] at h
      split at h
      · next hle =>
        cases h
        refine ⟨left, hbound, ⟨front, rfl, hleft⟩, fun u hu op' hop' => ?_⟩
        cases hu
        exact Option.some.inj (hop.symm.trans hop') ▸ hle
      · next hlt =>
        obtain ⟨⟨b, behind'⟩, hb, happly⟩ := Option.bind_eq_some_iff.mp h
        obtain ⟨value, hvalue, hrest⟩ := Option.bind_eq_some_iff.mp happly
        obtain ⟨right, hright, ⟨middle, rfl, hreads⟩, hstops'⟩ :=
          hbinary _ _ _ _ hlex.of_cons op.rightBound_lt hb
        -- the operator takes both trees as its operands
        have hjoins := Tree.joins_iff.mpr ⟨hstops t rfl op hop, hright⟩
        have hkind := (hlex t (.head _)).trans (htext ▸ op.lexicalKind_symbol)
        have hjoined := hleft.binary henv hreads hkind htext hjoins hvalue
        obtain ⟨tree, hlevel, ⟨all, heq, hfinal⟩, hend⟩ := hclimb bound value behind' n rest _ _
          hlex.of_cons.of_append hrest hjoined (Nat.not_le.mp hlt) hstops'
        exact ⟨tree, hlevel, ⟨all, by simpa using heq, hfinal⟩, hend⟩

lemma SoundOperand.evalUnary (hunary : SoundOperand env (evalUnary env fuel))
    (hprimary : SoundOperand env (evalPrimary env fuel)) :
    SoundOperand env (Source.evalUnary env (fuel + 1)) := by
  intro e n rest hlex h
  cases e with
  | nil => contradiction
  | cons t behind =>
    cases hop : UnaryOp.ofSymbol? t.text with
    | none =>
      simp only [Source.evalUnary, hop] at h
      exact hprimary _ n rest hlex h
    | some op =>
      simp only [Source.evalUnary, hop] at h
      obtain ⟨⟨a, behind'⟩, ha, h⟩ := Option.bind_eq_some_iff.mp h
      cases h
      obtain ⟨operand, hlevel, front, rfl, hreads⟩ := hunary _ _ _ hlex.of_cons ha
      have htext := UnaryOp.ofSymbol?_eq_some_iff.mp hop
      have hkind := (hlex t (.head _)).trans (htext ▸ op.lexicalKind_symbol)
      exact ⟨.unary op operand, rfl, t :: front, rfl, hreads.unary hlevel hkind htext⟩

lemma SoundBinary.evalPrimary (hbinary : SoundBinary env fuel) :
    SoundOperand env (Source.evalPrimary env (fuel + 1)) := by
  intro e n rest hlex h
  cases e with
  | nil => contradiction
  | cons t behind =>
    have hkind := hlex t (.head _)
    simp only [Source.evalPrimary] at h
    split_ifs at h with hopen hnumber htrue hfalse hname hcalled
    · obtain ⟨⟨a, behind'⟩, ha, hclose⟩ := Option.bind_eq_some_iff.mp h
      obtain ⟨inside, -, ⟨front, rfl, hreads⟩, -⟩ := hbinary _ _ _ _ hlex.of_cons (by decide) ha
      cases behind' with
      | nil => contradiction
      | cons close after =>
        dsimp only at hclose
        split at hclose
        · next hparen =>
          cases hclose
          have hlast := hlex close (by simp)
          rw [beq_iff_eq.mp hopen] at hkind
          rw [beq_iff_eq.mp hparen] at hlast
          exact ⟨.paren inside, rfl, t :: (front ++ [close]), by simp,
            hreads.paren hkind (beq_iff_eq.mp hopen) hlast (beq_iff_eq.mp hparen)⟩
        · contradiction
    · obtain ⟨a, ha, hunit⟩ := Option.bind_eq_some_iff.mp h
      have hplain : Reads env [t] (.number t.text none) a := .number (beq_iff_eq.mp hnumber) ha
      cases behind with
      | nil =>
        cases hunit
        exact ⟨_, rfl, [t], rfl, hplain⟩
      | cons unit after =>
        cases hfactor : unitFactor? unit.text with
        | none =>
          simp only [hfactor] at hunit
          cases hunit
          exact ⟨_, rfl, [t], rfl, hplain⟩
        | some factor =>
          simp only [hfactor] at hunit
          cases hunit
          have hident := (hlex unit (by simp)).trans (lexicalKind_unit hfactor)
          exact ⟨_, rfl, [t, unit], rfl, .numberOf (beq_iff_eq.mp hnumber) hident ha hfactor⟩
    · cases h
      have htrue := beq_iff_eq.mp htrue
      rw [htrue] at hkind
      exact ⟨_, rfl, [t], rfl, .truth true hkind htrue⟩
    · cases h
      have hfalse := beq_iff_eq.mp hfalse
      rw [hfalse] at hkind
      exact ⟨_, rfl, [t], rfl, .truth false hkind hfalse⟩
    · obtain ⟨a, ha, h⟩ := Option.map_eq_some_iff.mp h
      cases h
      have hne : t.text ≠ "true" ∧ t.text ≠ "false" :=
        ⟨fun heq => htrue (beq_iff_eq.mpr heq), fun heq => hfalse (beq_iff_eq.mpr heq)⟩
      exact ⟨_, rfl, [t], rfl, .name (beq_iff_eq.mp hname) hne ha⟩

/-- What evaluation gives is the value of a tree in front of what it leaves. -/
lemma soundBinary (henv : ∀ x n, env x = some n → n < wordCount) (fuel : Nat) :
    SoundBinary env fuel := by
  suffices hall : SoundBinary env fuel ∧ SoundClimb env fuel ∧
      SoundOperand env (evalUnary env fuel) ∧ SoundOperand env (evalPrimary env fuel) from hall.1
  induction fuel with
  | zero =>
    exact ⟨by simp [SoundBinary, evalBinary], by simp [SoundClimb, evalClimb],
      by simp [SoundOperand, evalUnary], by simp [SoundOperand, evalPrimary]⟩
  | succ fuel ih =>
    obtain ⟨hbinary, hclimb, hunary, hprimary⟩ := ih
    exact ⟨hunary.soundBinary hclimb, hclimb.succ henv hbinary, hunary.evalUnary hprimary,
      hbinary.evalPrimary⟩

end Sound

/-! ### Completeness -/

/-- Whether nothing follows, or a closing bracket, or an operator that binds at most as tightly as
`limit`. -/
def Expr.Closes (limit : Nat) (e : Expr) : Prop :=
  ∀ t, e.head? = some t →
    t.text = ")" ∨ ∃ op : BinaryOp, t.text = op.symbol ∧ op.precedence ≤ limit

lemma Expr.closes_nil (limit : Nat) : Expr.Closes limit [] := nofun

namespace Expr.Closes

variable {limit : Nat} {e : Expr}

lemma mono {more : Nat} (h : e.Closes limit) (hle : limit ≤ more) : e.Closes more := by
  intro t ht
  rcases h t ht with hclose | ⟨op, htext, hop⟩
  · exact .inl hclose
  · exact .inr ⟨op, htext, Nat.le_trans hop hle⟩

/-- Climbing stops there. -/
lemma evalClimb (h : e.Closes limit) (env : Env) (fuel n : Nat) :
    evalClimb env (fuel + 1) limit n e = some (n, e) := by
  cases e with
  | nil => rfl
  | cons t rest =>
    rcases h t rfl with hclose | ⟨op, htext, hop⟩
    · have hnone : BinaryOp.ofSymbol? t.text = none := by
        rw [hclose]
        decide
      simp only [Source.evalClimb, hnone]
    · simp only [Source.evalClimb, BinaryOp.ofSymbol?_eq_some_iff.mpr htext, if_pos hop]

/-- What follows a number is not its unit. -/
lemma unitFactor? {t : Token} {rest : Expr} (h : Expr.Closes limit (t :: rest)) :
    unitFactor? t.text = none := by
  rcases h t rfl with hclose | ⟨op, htext, -⟩
  · rw [hclose]
    decide
  · rw [htext]
    cases op <;> decide

/-- What follows a name does not call it or look inside it. -/
lemma not_isAt (h : e.Closes limit) :
    (Expr.isAt e.head? "(" || Expr.isAt e.head? "." || Expr.isAt e.head? "[") = false := by
  cases e with
  | nil => rfl
  | cons t rest =>
    simp only [List.head?_cons, Expr.isAt, Option.any_some, Token.is]
    rcases h t rfl with hclose | ⟨op, htext, -⟩
    · rw [hclose]
      decide
    · rw [htext]
      cases op <;> decide

end Expr.Closes

section Complete

variable (env : Env)

/-- The operand `t` is evaluated wherever it stands, with four calls for one token. -/
def CompleteOperand (t : Tree) : Prop :=
  t.level = 12 → ∀ (e rest : Expr) (n : Nat), e.Lexed → Reads env e t n → rest.Closes 11 →
    evalUnary env (4 * e.length) (e ++ rest) = some (n, rest)

/-- Evaluation in front of a rendering of `t` goes on from the value of `t` behind it. -/
def CompleteBinary (t : Tree) : Prop :=
  ∀ (bound : Nat) (e rest : Expr) (n fuel : Nat) (r : Nat × Expr), e.Lexed → Reads env e t n →
    bound < t.level → rest.Closes t.limit → evalClimb env fuel bound n rest = some r →
    evalBinary env (fuel + 4 * e.length) bound (e ++ rest) = some r

variable {env} {t : Tree} {mark : Token} {fuel : Nat} {e rest : Expr}

lemma CompleteOperand.completeBinary (h : CompleteOperand env t) (ht : t.level = 12) :
    CompleteBinary env t := by
  intro bound e rest n fuel r hlex hreads hbound hcloses hclimb
  have hoperand := h ht e rest n hlex hreads (hcloses.mono t.limit_le)
  have hpos : 4 * e.length ≠ 0 := fun hzero => by simp [hzero, evalUnary] at hoperand
  have hfuel : fuel ≠ 0 := fun hzero => by simp [hzero, evalClimb] at hclimb
  obtain ⟨k, hk⟩ := Nat.exists_eq_succ_of_ne_zero (n := fuel + 4 * e.length) (by omega)
  rw [hk, evalBinary]
  exact Option.bind_eq_some_iff.mpr
    ⟨_, evalUnary_of_le (by omega) hoperand, evalClimb_of_le (by omega) hclimb⟩

/-! #### Single steps -/

lemma evalUnary_of_symbol {op : UnaryOp} (htext : mark.text = op.symbol) {a : Nat}
    (h : evalUnary env fuel e = some (a, rest)) :
    evalUnary env (fuel + 1) (mark :: e) = some (op.apply a, rest) := by
  simp only [evalUnary, UnaryOp.ofSymbol?_eq_some_iff.mpr htext, h]
  rfl

lemma evalPrimary_of_paren {first last : Token} (hopen : first.text = "(")
    (hclose : last.text = ")") {n : Nat} (h : evalBinary env fuel 0 e = some (n, last :: rest)) :
    evalPrimary env (fuel + 1) (first :: e) = some (n, rest) := by
  have hfirst : first.is "(" = true := beq_iff_eq.mpr hopen
  have hlast : last.is ")" = true := beq_iff_eq.mpr hclose
  simp [evalPrimary, hfirst, h, hlast]

lemma evalClimb_of_symbol {op : BinaryOp} (htext : mark.text = op.symbol) {bound : Nat}
    (hbound : bound < op.precedence) {a b n : Nat}
    (hright : evalBinary env fuel op.rightBound e = some (b, rest))
    (hvalue : op.apply a b = some n) :
    evalClimb env (fuel + 1) bound a (mark :: e) = evalClimb env fuel bound n rest := by
  simp [evalClimb, BinaryOp.ofSymbol?_eq_some_iff.mpr htext, Nat.not_le.mpr hbound, hright, hvalue]

/-- A token that is no punctuation mark opens an operand. -/
lemma evalUnary_eq_evalPrimary (hlex : mark.kind = lexicalKind mark.text)
    (hkind : mark.kind ≠ .punct) (fuel : Nat) (rest : Expr) :
    evalUnary env (fuel + 1) (mark :: rest) = evalPrimary env fuel (mark :: rest) := by
  have hnone : UnaryOp.ofSymbol? mark.text = none := by
    cases hop : UnaryOp.ofSymbol? mark.text with
    | none => rfl
    | some op =>
      rw [UnaryOp.ofSymbol?_eq_some_iff.mp hop] at hlex
      exact absurd (hlex.trans op.lexicalKind_symbol) hkind
  simp only [evalUnary, hnone]

lemma not_is_paren (hlex : mark.kind = lexicalKind mark.text) (hkind : mark.kind ≠ .punct) :
    mark.is "(" = false := by
  refine beq_eq_false_iff_ne.mpr fun heq => hkind ?_
  rw [hlex, heq]
  rfl

lemma completeOperand_number (literal : Text) (unit : Option Text) :
    CompleteOperand env (.number literal unit) := by
  intro _ e rest n hlex hreads hcloses
  cases unit with
  | none =>
    obtain ⟨t, e, rfl, hkind, rfl, hnil⟩ := Expr.spelling_eq_cons hreads.spelled
    obtain rfl := Expr.spelling_eq_nil hnil
    have ht := hlex t (.head _)
    have hvalue : literalWord? t.text = some n := (literalWord?_eq _).trans hreads.value
    change evalUnary env (3 + 1) (t :: rest) = _
    rw [evalUnary_eq_evalPrimary ht (by simp [hkind])]
    simp only [evalPrimary, not_is_paren ht (by simp [hkind]), hkind, hvalue]
    cases rest with
    | nil => rfl
    | cons next behind => simp [hcloses.unitFactor?]
  | some unit =>
    obtain ⟨t, e, rfl, hkind, rfl, hunit⟩ := Expr.spelling_eq_cons hreads.spelled
    obtain ⟨u, e, rfl, -, rfl, hnil⟩ := Expr.spelling_eq_cons hunit
    obtain rfl := Expr.spelling_eq_nil hnil
    have ht := hlex t (.head _)
    obtain ⟨value, hvalue, h⟩ := Option.bind_eq_some_iff.mp hreads.value
    obtain ⟨factor, hfactor, h⟩ := Option.bind_eq_some_iff.mp h
    rw [← literalWord?_eq] at hvalue
    rw [← unitFactor?_eq] at hfactor
    change evalUnary env (7 + 1) (t :: u :: rest) = _
    rw [evalUnary_eq_evalPrimary ht (by simp [hkind])]
    simp only [evalPrimary, not_is_paren ht (by simp [hkind]), hkind, hvalue, hfactor]
    cases h
    rfl

lemma completeOperand_truth (value : Bool) : CompleteOperand env (.truth value) := by
  intro _ e rest n hlex hreads hcloses
  obtain rfl := Option.some.inj hreads.value
  obtain ⟨t, e, rfl, hkind, htext, hnil⟩ := Expr.spelling_eq_cons hreads.spelled
  obtain rfl := Expr.spelling_eq_nil hnil
  change evalUnary env (3 + 1) (t :: rest) = _
  rw [evalUnary_eq_evalPrimary (hlex t (.head _)) (by simp [hkind])]
  cases value <;> simp [evalPrimary, hkind, Token.is, htext, Tree.truthWord]

lemma completeOperand_name (x : Text) : CompleteOperand env (.name x) := by
  intro _ e rest n hlex hreads hcloses
  obtain ⟨t, e, rfl, hkind, rfl, hnil⟩ := Expr.spelling_eq_cons hreads.spelled
  obtain rfl := Expr.spelling_eq_nil hnil
  have ht := hlex t (.head _)
  have hvalue : env t.text = some n := hreads.value
  obtain ⟨htrue, hfalse⟩ := hreads.proper
  have hnext := hcloses.not_isAt
  change evalUnary env (3 + 1) (t :: rest) = _
  rw [evalUnary_eq_evalPrimary ht (by simp [hkind])]
  simp only [evalPrimary, not_is_paren ht (by simp [hkind]), hkind, hnext, hvalue]
  simp [Token.is, htrue, hfalse]

lemma CompleteOperand.unary (h : CompleteOperand env t) (op : UnaryOp) :
    CompleteOperand env (.unary op t) := by
  intro _ e rest n hlex hreads hcloses
  obtain ⟨mark, e, rfl, -, htext, hspelled⟩ := Expr.spelling_eq_cons hreads.spelled
  obtain ⟨hproper, hlevel⟩ := hreads.proper
  obtain ⟨a, ha, rfl⟩ := Option.map_eq_some_iff.mp hreads.value
  have hoperand := h hlevel e rest a hlex.of_cons ⟨hproper, hspelled, ha⟩ hcloses
  have hmore := evalUnary_of_le (Nat.le_add_right _ 3) hoperand
  rw [← op.apply_eq_meaning]
  exact evalUnary_of_symbol htext hmore

lemma CompleteBinary.paren (h : CompleteBinary env t) : CompleteOperand env (.paren t) := by
  intro _ e rest n hlex hreads hcloses
  obtain ⟨first, e, rfl, -, hopen, hspelled⟩ := Expr.spelling_eq_cons hreads.spelled
  obtain ⟨e, closing, rfl, hinside, hlast⟩ := List.map_eq_append_iff.mp hspelled
  obtain ⟨last, nothing, rfl, -, hclose, hnil⟩ := Expr.spelling_eq_cons hlast
  obtain rfl := Expr.spelling_eq_nil hnil
  have hstop : ∀ limit, Expr.Closes limit (last :: rest) := fun limit t ht => by
    cases ht
    exact .inl hclose
  have hbinary := h 0 e (last :: rest) n 1 _ (fun t ht => hlex t (by simp [ht]))
    ⟨hreads.proper, hinside, hreads.value⟩ t.level_pos (hstop _) ((hstop 0).evalClimb env 0 n)
  have hmore : evalBinary env (4 * e.length + 6) 0 (e ++ last :: rest) = some (n, last :: rest) :=
    evalBinary_of_le (by omega) hbinary
  have hprimary := evalPrimary_of_paren hopen hclose hmore
  have hnone : UnaryOp.ofSymbol? first.text = none := by
    rw [hopen]
    decide
  have hfuel : 4 * (first :: (e ++ [last])).length = 4 * e.length + 6 + 1 + 1 := by
    simp only [List.length_cons, List.length_append, List.length_nil]
    omega
  rw [hfuel]
  simpa [evalUnary, hnone] using hprimary

lemma CompleteBinary.binary {left right : Tree} (henv : ∀ x n, env x = some n → n < wordCount)
    (hleft : CompleteBinary env left) (hright : CompleteBinary env right) (op : BinaryOp) :
    CompleteBinary env (.binary op left right) := by
  intro bound e rest n fuel r hlex hreads hbound hcloses hclimb
  obtain ⟨front, behind, rfl, hfront, hbehind⟩ := List.map_eq_append_iff.mp hreads.spelled
  obtain ⟨mark, behind, rfl, -, htext, hspelled⟩ := Expr.spelling_eq_cons hbehind
  obtain ⟨hproperLeft, hproperRight, hjoins⟩ := hreads.proper
  obtain ⟨a, ha, hvalue⟩ := Option.bind_eq_some_iff.mp hreads.value
  obtain ⟨b, hb, hvalue⟩ := Option.bind_eq_some_iff.mp hvalue
  rw [← op.apply_eq_meaning (Tree.denote_lt henv ha) (Tree.denote_lt henv hb)] at hvalue
  obtain ⟨hlimit, hrightBound⟩ := Tree.joins_iff.mp hjoins
  -- the right operand ends where the operator behind it binds no tighter
  have hend : evalBinary env (1 + 4 * behind.length) op.rightBound (behind ++ rest) =
    some (b, rest) :=
    hright _ behind rest b 1 _ (fun t ht => hlex t (by simp [ht])) ⟨hproperRight, hspelled, hb⟩
      hrightBound (hcloses.mono (Tree.le_limit_of_lt hrightBound)) (hcloses.evalClimb env 0 b)
  -- behind the left operand the operator is taken
  have hstep : evalClimb env (fuel + 4 * behind.length + 3 + 1) bound a (mark :: (behind ++ rest)) =
      some r := by
    rw [evalClimb_of_symbol htext hbound (evalBinary_of_le (by omega) hend) hvalue]
    exact evalClimb_of_le (by omega) hclimb
  have hoperator : Expr.Closes left.limit (mark :: (behind ++ rest)) := fun t ht => by
    cases ht
    exact .inr ⟨op, htext, hlimit⟩
  have hall :=
    hleft bound front _ a _ r (fun t ht => hlex t (by simp [ht])) ⟨hproperLeft, hfront, ha⟩
    (Tree.lt_level_of_joins hjoins hbound) hoperator hstep
  have hfuel : fuel + 4 * (front ++ mark :: behind).length =
      fuel + 4 * behind.length + 3 + 1 + 4 * front.length := by
    rw [List.length_append, List.length_cons]
    omega
  rw [hfuel, List.append_assoc]
  exact hall

/-- Evaluation takes a rendering of any tree as a whole. -/
lemma completeBinary (henv : ∀ x n, env x = some n → n < wordCount) (t : Tree) :
    CompleteBinary env t := by
  suffices hall : CompleteOperand env t ∧ CompleteBinary env t from hall.2
  have hoperand : ∀ {t}, t.level = 12 → CompleteOperand env t →
      CompleteOperand env t ∧ CompleteBinary env t := fun ht h => ⟨h, h.completeBinary ht⟩
  induction t with
  | number literal unit => exact hoperand rfl (completeOperand_number literal unit)
  | truth value => exact hoperand rfl (completeOperand_truth value)
  | name x => exact hoperand rfl (completeOperand_name x)
  | unary op operand ih => exact hoperand rfl (ih.1.unary op)
  | paren inside ih => exact hoperand rfl ih.2.paren
  | binary op left right ihleft ihright =>
    refine ⟨fun hlevel => ?_, ihleft.2.binary henv ihright.2 op⟩
    exact absurd hlevel (Nat.ne_of_lt (Nat.lt_succ_of_le op.precedence_le))

end Complete

/-! ### Constant expressions -/

/-- Folding evaluates exactly the grammar: an expression, made of tokens of scanned sources, has the
value `n` if, and only if, it is a rendering of a proper tree that denotes `n`. With words as the
values of names, every value is a word. -/
theorem fold_eq_some_iff_render {e : Expr} (hlex : ∀ t ∈ e, ∃ src, t ∈ (scan src).list) {env : Env}
    (henv : ∀ x n, env x = some n → n < 2 ^ 256) (n : Nat) :
    (constantValue? e env = some n ↔
      ∃ t : Tree, t.Proper ∧ e.spelling = t.render ∧ t.denote env = some n) ∧
      (constantValue? e env = some n → n < 2 ^ 256) := by
  have hlexed : e.Lexed := fun t ht => by
    obtain ⟨src, hsrc⟩ := hlex t ht
    exact kind_of_mem_scan hsrc
  have hsound : constantValue? e env = some n → ∃ t : Tree, Reads env e t n := by
    intro h
    rw [constantValue?] at h
    split at h
    · next value hvalue =>
      cases h
      obtain ⟨t, -, ⟨front, heq, hreads⟩, -⟩ :=
        soundBinary henv _ 0 e n [] hlexed (by decide) hvalue
      rw [List.append_nil] at heq
      exact ⟨t, heq ▸ hreads⟩
    · contradiction
  refine ⟨⟨fun h => ?_, ?_⟩, fun h => ?_⟩
  · obtain ⟨t, hreads⟩ := hsound h
    exact ⟨t, hreads.proper, hreads.spelled, hreads.value⟩
  · rintro ⟨t, hproper, hspelled, hvalue⟩
    have heval :=
      completeBinary henv t 0 e [] n 1 (n, []) hlexed ⟨hproper, hspelled, hvalue⟩ t.level_pos
      (Expr.closes_nil t.limit) rfl
    rw [List.append_nil] at heval
    rw [constantValue?, evalBinary_of_le (by omega) heval]
  · obtain ⟨t, hreads⟩ := hsound h
    exact Tree.denote_lt henv hreads.value

/-- The tree of `1 minutes - 2 ** 3 ** 2 << (x + 1)`. -/
def sampleTree : Tree :=
  .binary .shiftLeft
    (.binary .sub (.number "1" (some "minutes"))
      (.binary .pow (.number "2" none) (.binary .pow (.number "3" none) (.number "2" none))))
    (.paren (.binary .add (.name "x") (.number "1" none)))

/-- Knows two as the value of every name. -/
def sampleEnv : Env := fun _ => some 2

/-- Powers are taken from the right, the difference wraps around, and the shift comes last. -/
theorem fold_eq_some_iff_render_sample :
    constantValue? (scan "1 minutes - 2 ** 3 ** 2 << (x + 1)").list sampleEnv =
      some (2 ^ 256 - 3616) ∧ 2 ^ 256 - 3616 < 2 ^ 256 := by
  have henv : ∀ x n, sampleEnv x = some n → n < 2 ^ 256 := fun _ n hn => by
    cases hn
    decide
  have hfold := fold_eq_some_iff_render (e := (scan "1 minutes - 2 ** 3 ** 2 << (x + 1)").list)
    (fun t ht => ⟨_, ht⟩) henv (2 ^ 256 - 3616)
  have hvalue := hfold.1.mpr ⟨sampleTree, by decide, by decide +kernel, by decide +kernel⟩
  exact ⟨hvalue, hfold.2 hvalue⟩

end ContractAudit.Source
