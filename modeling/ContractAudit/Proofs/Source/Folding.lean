import Mathlib.Tactic.SplitIfs
import ContractAudit.Source.Constant

/-!
Folding with more known names.

An expression that folds to a value still folds to it when more names are known (`fold_of_knownIn`),
and only the names in it count (`constantValue?_mono_at`). More fuel does no harm either.

* `Persists`: what a step of the evaluator gives, the same step gives with more known.
* `persists_evalBinary` and its like: the four steps call each other with less fuel, and each
  persists if those that it calls do. `eval_mono_at` puts them together by induction on the fuel.
-/

namespace ContractAudit.Source

/-- Every name known to the first has the same value in the second. -/
def KnownIn (known more : Env) : Prop := ∀ name n, known name = some n → more name = some n

lemma KnownIn.refl (env : Env) : KnownIn env env := fun _ _ h => h

/-- The names in an expression. -/
def Expr.names (e : Expr) : List Text := (e.filter (·.kind == .ident)).map (·.text)

/-- Every name in the expression that is known to the first has the same value in the second. -/
def KnownAt (e : Expr) (known more : Env) : Prop :=
  ∀ name ∈ e.names, ∀ n, known name = some n → more name = some n

section Mono

variable {known more : Env}

lemma KnownAt.of_subset {e e' : Expr} (h : KnownAt e known more) (hsub : e' ⊆ e) :
    KnownAt e' known more := by
  intro name hname
  obtain ⟨t, ht, rfl⟩ := List.mem_map.mp hname
  obtain ⟨hmem, hkind⟩ := List.mem_filter.mp ht
  exact h _ (List.mem_map.mpr ⟨t, List.mem_filter.mpr ⟨hsub hmem, hkind⟩, rfl⟩)

/-- Where the names of an expression keep their values, what the first step gives the second gives
too, and what it leaves is part of the expression. -/
def Persists (known more : Env) (step step' : Expr → Option (Nat × Expr)) : Prop :=
  ∀ e r, KnownAt e known more → step e = some r → step' e = some r ∧ r.2 ⊆ e

section Steps

variable {fuel enough : Nat}

lemma persists_evalBinary (hunary : Persists known more (evalUnary known fuel)
    (evalUnary more enough))
    (hclimb : ∀ bound left, Persists known more (evalClimb known fuel bound left)
      (evalClimb more enough bound left)) (bound : Nat) :
    Persists known more (evalBinary known (fuel + 1) bound) (evalBinary more (enough + 1)
      bound) := by
  intro e r hk he
  rw [evalBinary] at he ⊢
  obtain ⟨⟨left, rest⟩, hleft, he⟩ := Option.bind_eq_some_iff.mp he
  obtain ⟨hleft, hsub⟩ := hunary _ _ hk hleft
  obtain ⟨hrest, hsub'⟩ := hclimb _ _ _ _ (hk.of_subset hsub) he
  exact ⟨Option.bind_eq_some_iff.mpr ⟨_, hleft, hrest⟩, List.Subset.trans hsub' hsub⟩

lemma persists_evalClimb (hbinary : ∀ bound, Persists known more (evalBinary known fuel bound)
      (evalBinary more enough bound))
    (hclimb : ∀ bound left, Persists known more (evalClimb known fuel bound left)
      (evalClimb more enough bound left)) (bound left : Nat) :
    Persists known more (evalClimb known (fuel + 1) bound left) (evalClimb more (enough + 1)
      bound left) := by
  intro e r hk he
  cases e with
  | nil =>
    simp only [evalClimb, Option.some.injEq] at he ⊢
    exact ⟨he, he ▸ List.Subset.refl _⟩
  | cons t rest =>
    cases hop : BinaryOp.ofSymbol? t.text with
    | none =>
      simp only [evalClimb, hop, Option.some.injEq] at he ⊢
      exact ⟨he, he ▸ List.Subset.refl _⟩
    | some op =>
      simp only [evalClimb, hop] at he ⊢
      split at he
      · next hbound =>
        rw [if_pos hbound]
        exact ⟨he, Option.some.inj he ▸ List.Subset.refl _⟩
      · next hbound =>
        rw [if_neg hbound]
        obtain ⟨⟨right, behind⟩, hright, he⟩ := Option.bind_eq_some_iff.mp he
        obtain ⟨value, hvalue, he⟩ := Option.bind_eq_some_iff.mp he
        have hrest : rest ⊆ t :: rest := List.subset_cons_self ..
        obtain ⟨hright, hsub⟩ := hbinary _ _ _ (hk.of_subset hrest) hright
        obtain ⟨hmore, hsub'⟩ := hclimb _ _ _ _ (hk.of_subset (List.Subset.trans hsub hrest)) he
        exact ⟨Option.bind_eq_some_iff.mpr ⟨_, hright, Option.bind_eq_some_iff.mpr ⟨value,
          hvalue, hmore⟩⟩, List.Subset.trans hsub' (List.Subset.trans hsub hrest)⟩

lemma persists_evalUnary (hunary : Persists known more (evalUnary known fuel)
    (evalUnary more enough))
    (hprimary : Persists known more (evalPrimary known fuel) (evalPrimary more enough)) :
    Persists known more (evalUnary known (fuel + 1)) (evalUnary more (enough + 1)) := by
  intro e r hk he
  cases e with
  | nil => simp [evalUnary] at he
  | cons t rest =>
    cases hop : UnaryOp.ofSymbol? t.text with
    | none =>
      simp only [evalUnary, hop] at he ⊢
      exact hprimary _ _ hk he
    | some op =>
      simp only [evalUnary, hop] at he ⊢
      obtain ⟨⟨value, behind⟩, hvalue, he⟩ := Option.bind_eq_some_iff.mp he
      have hrest : rest ⊆ t :: rest := List.subset_cons_self ..
      obtain ⟨hvalue, hsub⟩ := hunary _ _ (hk.of_subset hrest) hvalue
      refine ⟨Option.bind_eq_some_iff.mpr ⟨_, hvalue, he⟩, ?_⟩
      exact Option.some.inj he ▸ List.Subset.trans hsub hrest

lemma persists_evalPrimary (hbinary : ∀ bound, Persists known more (evalBinary known fuel bound)
      (evalBinary more enough bound)) :
    Persists known more (evalPrimary known (fuel + 1)) (evalPrimary more (enough + 1)) := by
  intro e r hk he
  cases e with
  | nil => simp [evalPrimary] at he
  | cons t rest =>
    have hrest : rest ⊆ t :: rest := List.subset_cons_self ..
    -- only brackets and names look at what is known
    simp only [evalPrimary] at he ⊢
    split_ifs at he ⊢ with hopen hnumber htrue hfalse hname hcalled
    · obtain ⟨⟨value, behind⟩, hvalue, he⟩ := Option.bind_eq_some_iff.mp he
      obtain ⟨hvalue, hsub⟩ := hbinary _ _ _ (hk.of_subset hrest) hvalue
      refine ⟨Option.bind_eq_some_iff.mpr ⟨_, hvalue, he⟩, ?_⟩
      cases behind with
      | nil => simp at he
      | cons close behind =>
        simp only at he
        split_ifs at he
        cases he
        exact List.Subset.trans (List.subset_cons_self ..) (List.Subset.trans hsub hrest)
    · refine ⟨he, ?_⟩
      obtain ⟨value, -, he⟩ := Option.bind_eq_some_iff.mp he
      cases rest with
      | nil =>
        cases he
        exact List.nil_subset _
      | cons unit behind =>
        simp only at he
        split at he
        · cases he
          exact List.Subset.trans (List.subset_cons_self ..) hrest
        · cases he
          exact hrest
    · exact ⟨he, Option.some.inj he ▸ hrest⟩
    · exact ⟨he, Option.some.inj he ▸ hrest⟩
    · obtain ⟨n, hn, he⟩ := Option.map_eq_some_iff.mp he
      have hmem : t.text ∈ Expr.names (t :: rest) :=
        List.mem_map.mpr ⟨t, List.mem_filter.mpr ⟨List.mem_cons_self .., hname⟩, rfl⟩
      exact ⟨Option.map_eq_some_iff.mpr ⟨n, hk _ hmem _ hn, he⟩, he ▸ hrest⟩

/-- With more names known or more fuel, no step of the evaluator loses its value. -/
lemma eval_mono_at (hle : fuel ≤ enough) :
    (∀ bound, Persists known more (evalBinary known fuel bound) (evalBinary more enough bound)) ∧
    (∀ bound left, Persists known more (evalClimb known fuel bound left)
      (evalClimb more enough bound left)) ∧
    Persists known more (evalUnary known fuel) (evalUnary more enough) ∧
    Persists known more (evalPrimary known fuel) (evalPrimary more enough) := by
  induction fuel generalizing enough with
  | zero =>
    exact ⟨by simp [Persists, evalBinary], by simp [Persists, evalClimb], by
      simp [Persists, evalUnary], by simp [Persists, evalPrimary]⟩
  | succ fuel ih =>
    obtain ⟨enough, rfl⟩ := Nat.exists_eq_succ_of_ne_zero (Nat.ne_zero_of_lt hle)
    obtain ⟨hbinary, hclimb, hunary, hprimary⟩ := ih (Nat.le_of_succ_le_succ hle)
    exact ⟨persists_evalBinary hunary hclimb, persists_evalClimb hbinary hclimb,
      persists_evalUnary hunary hprimary, persists_evalPrimary hbinary⟩

end Steps

/-- A constant expression keeps its value when more of its names are known. -/
theorem constantValue?_mono_at {e : Expr} {n : Nat} (h : KnownAt e known more)
    (he : constantValue? e known = some n) : constantValue? e more = some n := by
  rw [constantValue?] at he ⊢
  split at he
  · next value hvalue =>
    rw [((eval_mono_at (Nat.le_refl _)).1 _ _ _ h hvalue).1]
    exact he
  · contradiction

variable (h : KnownIn known more)

include h

lemma KnownIn.knownAt (e : Expr) : KnownAt e known more := fun name _ => h name

/-- With more names known or more fuel, no step of the evaluator loses its value. -/
lemma eval_mono {fuel enough : Nat} (hle : fuel ≤ enough) :
    (∀ bound e r, evalBinary known fuel bound e = some r →
      evalBinary more enough bound e = some r) ∧
    (∀ bound left e r, evalClimb known fuel bound left e = some r →
      evalClimb more enough bound left e = some r) ∧
    (∀ e r, evalUnary known fuel e = some r → evalUnary more enough e = some r) ∧
    (∀ e r, evalPrimary known fuel e = some r → evalPrimary more enough e = some r) := by
  obtain ⟨hbinary, hclimb, hunary, hprimary⟩ := @eval_mono_at known more _ _ hle
  exact ⟨fun bound e r he => (hbinary bound e r (h.knownAt e) he).1,
    fun bound left e r he => (hclimb bound left e r (h.knownAt e) he).1,
    fun e r he => (hunary e r (h.knownAt e) he).1, fun e r he => (hprimary e r (h.knownAt e) he).1⟩

/-- **Folding is monotone in what is known**: an expression that folds to a value folds to the same
value wherever all names known before have kept theirs. -/
theorem fold_of_knownIn {e : Expr} {n : Nat} (he : constantValue? e known = some n) :
    constantValue? e more = some n :=
  constantValue?_mono_at (h.knownAt e) he

omit h in
/-- A comparison folds where the rate alone is known, and to the same value where the fee is too. -/
theorem fold_of_knownIn_rate :
    let rate : Env := fun name => if name = "rate" then some 3 else none
    let both : Env := fun name => if name = "fee" then some 5 else rate name
    KnownIn rate both ∧ constantValue? (scan "(rate + 1) * 2 days > 0").list rate = some 1 ∧
      constantValue? (scan "(rate + 1) * 2 days > 0").list both = some 1 := by
  intro rate both
  have hknown : KnownIn rate both := by
    intro name n hname
    have hfee : rate "fee" = none := by decide
    have hne : name ≠ "fee" := by
      rintro rfl
      rw [hfee] at hname
      cases hname
    simpa [both, hne] using hname
  have hrate : constantValue? (scan "(rate + 1) * 2 days > 0").list rate = some 1 := by
    decide +kernel
  exact ⟨hknown, hrate, fold_of_knownIn hknown hrate⟩

end Mono

/-! ### More fuel -/

section Fuel

variable {env : Env} {fuel enough : Nat} (hle : fuel ≤ enough) {e : Expr} {r : Nat × Expr}

include hle

lemma evalBinary_of_le {bound : Nat} (h : evalBinary env fuel bound e = some r) :
    evalBinary env enough bound e = some r :=
  (eval_mono (.refl env) hle).1 _ _ _ h

lemma evalClimb_of_le {bound left : Nat} (h : evalClimb env fuel bound left e = some r) :
    evalClimb env enough bound left e = some r :=
  (eval_mono (.refl env) hle).2.1 _ _ _ _ h

lemma evalUnary_of_le (h : evalUnary env fuel e = some r) : evalUnary env enough e = some r :=
  (eval_mono (.refl env) hle).2.2.1 _ _ h

end Fuel

end ContractAudit.Source
