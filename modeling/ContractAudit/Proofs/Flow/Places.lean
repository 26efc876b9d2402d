import ContractAudit.Proofs.Flow.Targets
import ContractAudit.Proofs.Source.Lexemes
import ContractAudit.Proofs.Source.Runs

/-!
Statements that overwrite a variable or a part of it.

* `Place`: the runs of tokens that stand for a variable, an element of it or a member of it.
* `Overwrites`: assignments to a place, plain or compound, increments, decrements and deletions.
* `exists_target_of_overwrites`: lowering finds one target in such a statement, and it is no
  declaration and starts with the variable. This holds although a value that ends with an increment
  hides the operator in front of it.
* `mem_stateWrites_instrOf_iff`: the instruction of such a statement writes the variable exactly if
  that is state in the scope of the statement.
-/

namespace ContractAudit.Flow

open Source (Expr Token isBuiltin lexicalKind)

/-- A variable, an element of it or a member of it. -/
inductive Place (x : Text) : Expr → Prop
  | name (hx : lexicalKind x = .ident) (line : Nat) : Place x [⟨.ident, x, line⟩]
  | element {p i : Expr} (hp : Place x p) (hi : i.Balanced) (line line' : Nat) :
      Place x (p ++ ⟨.punct, "[", line⟩ :: (i ++ [⟨.punct, "]", line'⟩]))
  | member {p : Expr} (hp : Place x p) {m : Text} (hm : lexicalKind m = .ident) (line line' : Nat) :
      Place x (p ++ [⟨.punct, ".", line⟩, ⟨.ident, m, line'⟩])

/-- A statement that gives a place of the variable `x` another value. -/
inductive Overwrites (x : Text) : Expr → Prop
  | assignment {p : Expr} (hp : Place x p) {op : Text} (hop : op ∈ Expr.assignOps) (line : Nat)
      (value : Expr) :
      Overwrites x (p ++ ⟨.punct, op, line⟩ :: value)
  | stepBehind {p : Expr} (hp : Place x p) {step : Token} (hstep : isStep step = true) :
      Overwrites x (p ++ [step])
  | stepInFront {p : Expr} (hp : Place x p) {step : Token} (hstep : isStep step = true) :
      Overwrites x (step :: p)
  | deletion {p : Expr} (hp : Place x p) (line : Nat) : Overwrites x (⟨.ident, "delete", line⟩ :: p)

/-! ### Words and marks -/

/-- A word is no mark. -/
lemma not_isStep_of_lexicalKind {t : Token} (h : lexicalKind t.text = .ident) :
    isStep t = false := by
  by_contra hstep
  simp only [isStep, Token.is, Bool.not_eq_false, Bool.or_eq_true, beq_iff_eq] at hstep
  rcases hstep with heq | heq <;> rw [heq] at h <;> contradiction

/-- A mark other than square brackets does not stand in a declaration. -/
lemma isDeclaration_eq_false_of_mem {e : Expr} {t : Token} (ht : t ∈ e) (hkind : t.kind = .punct)
    (htext : t.text ≠ "[" ∧ t.text ≠ "]") : e.isDeclaration = false := by
  have hall : (e.all fun t => t.kind == .ident || t.kind == .number || t.is "[" || t.is
    "]") = false := by
    refine List.all_eq_false.mpr ⟨t, ht, ?_⟩
    simp [hkind, Token.is, htext]
  unfold Expr.isDeclaration
  split
  · rw [hall, Bool.and_false]
  · rfl

/-- A declaration ends with a word. -/
lemma isDeclaration_eq_false_of_getLast? {e : Expr} {t : Token} (ht : e.getLast? = some t)
    (hkind : t.kind = .punct) :
    e.isDeclaration = false := by
  unfold Expr.isDeclaration
  split
  · next first second rest last hlast =>
    obtain rfl := Option.some.inj (hlast.symm.trans ht)
    simp [hkind]
  · rfl

/-! ### Places -/

namespace Place

variable {x : Text} {p : Expr}

lemma exists_cons (h : Place x p) : lexicalKind x = .ident ∧ ∃ line rest,
    p = ⟨.ident, x, line⟩ :: rest := by
  induction h with
  | name hx line => exact ⟨hx, line, [], rfl⟩
  | element _ _ _ _ ih | member _ _ _ _ ih =>
    obtain ⟨hx, line, rest, rfl⟩ := ih
    exact ⟨hx, line, _, List.cons_append⟩

lemma getLast?_element (p i : Expr) (first last : Token) :
    (p ++ first :: (i ++ [last])).getLast? = some last := by
  rw [← List.cons_append, ← List.append_assoc, List.getLast?_concat]

lemma isDeclaration_eq_false (h : Place x p) : p.isDeclaration = false := by
  cases h with
  | name => rfl
  | element _ _ line line' => exact isDeclaration_eq_false_of_getLast? (getLast?_element ..) rfl
  | member =>
    refine isDeclaration_eq_false_of_mem (List.mem_append_right _ (List.mem_cons_self ..)) rfl ?_
    exact (by decide : ("." : Text) ≠ "[" ∧ ("." : Text) ≠ "]")

/-- A place does not end with an increment or a decrement. -/
lemma not_isStep_getLast? (h : Place x p) : p.getLast?.any isStep = false := by
  cases h with
  | name hx line => simpa using not_isStep_of_lexicalKind (t := ⟨.ident, x, line⟩) hx
  | element =>
    rw [getLast?_element]
    rfl
  | @member _ _ m hm line line' =>
    simpa [List.getLast?_append] using not_isStep_of_lexicalKind (t := ⟨.ident, m, line'⟩) hm

/-- Outside brackets there are only points and opening brackets in a place. -/
lemma balanced_marks (h : Place x p) : p.Balanced ∧ ∀ mark ∈ p.topMarks, mark = "[" ∨
    mark = "." := by
  induction h with
  | name => exact ⟨rfl, nofun⟩
  | @element p i _ hi line line' ih =>
    obtain ⟨hdepth, hmarks⟩ := Expr.depth_marks_inside hi
    have hopen : Token.depthBehind? ⟨.punct, "[", line⟩ 0 = some 1 := rfl
    have hclose : Token.depthBehind? ⟨.punct, "]", line'⟩ 1 = some 0 := rfl
    have hbehind : Expr.depthBehind? 0 (⟨.punct, "[", line⟩ :: (i ++ [⟨.punct, "]", line'⟩])) = some
      0 := by
      simp [Expr.depthBehind?, Expr.depthBehind?_append, hopen, hdepth, hclose]
    refine ⟨ih.1.append hbehind, fun mark hmark => ?_⟩
    rw [Expr.topMarks, Expr.topMarksFrom_append ih.1, List.mem_append] at hmark
    refine hmark.elim (ih.2 mark) fun hmark => ?_
    rw [Expr.topMarksFrom, hopen, Option.elim_some, Expr.topMarksFrom_append hdepth, hmarks]
      at hmark
    exact .inl (by simpa [Expr.topMarksFrom, hclose] using hmark)
  | member _ _ _ _ ih =>
    refine ⟨ih.1.append rfl, fun mark hmark => ?_⟩
    rw [Expr.topMarks, Expr.topMarksFrom_append ih.1, List.mem_append] at hmark
    refine hmark.elim (ih.2 mark) fun hmark => .inr ?_
    simpa [Expr.topMarksFrom, Token.depthBehind?, Token.opens, Token.closes, Token.is] using hmark

/-- A place is one part of a left-hand side. -/
lemma topParts (h : Place x p) : p.stripParens.topParts "," = [p] := by
  obtain ⟨hx, line, rest, rfl⟩ := h.exists_cons
  have hparen : (Token.is ⟨.ident, x, line⟩ "(") = false := by
    by_contra hparen
    simp only [Token.is, Bool.not_eq_false, beq_iff_eq] at hparen
    rw [hparen] at hx
    contradiction
  have hstrip : Expr.stripParens (⟨.ident, x, line⟩ :: rest) = ⟨.ident, x, line⟩ :: rest := by
    unfold Expr.stripParens
    split
    · next first last hfirst _ =>
      obtain rfl := Option.some.inj hfirst
      simp [hparen]
    · rfl
  obtain ⟨hbalanced, hmarks⟩ := h.balanced_marks
  rw [hstrip]
  exact Expr.RunsTo.topParts ⟨hbalanced,
    fun hmark => by have := hmarks _ hmark; revert this; decide⟩

/-- An operator behind a place makes an assignment to it. -/
lemma assignment? (h : Place x p) {op : Text} (hop : op ∈ Expr.assignOps) (line : Nat)
    (value : Expr) :
    Expr.assignment? (p ++ ⟨.punct, op, line⟩ :: value) = some ⟨p, op, value⟩ := by
  obtain ⟨hbalanced, hmarks⟩ := h.balanced_marks
  have hapart : ∀ op ∈ Expr.assignOps, op ∉ Expr.topMarksFrom 0 p := fun op hop hmark => by
    have hneither : ("[" : Text) ∉ Expr.assignOps ∧ ("." : Text) ∉ Expr.assignOps := by decide
    rcases hmarks op hmark with rfl | rfl
    · exact hneither.1 hop
    · exact hneither.2 hop
  have hcut : Expr.assignmentFrom? 0 (⟨.punct, op, line⟩ :: value) = some ⟨[], op, value⟩ := by
    have hplain : ∀ op ∈ Expr.assignOps, (op == ("(" : Text) || op == ("[" : Text) || op ==
      ("\x7b" : Text)) = false ∧
        (op == (")" : Text) || op == ("]" : Text) || op == ("\x7d" : Text)) = false := by decide
    have hopens : Token.opens ⟨.punct, op, line⟩ = false := (hplain op hop).1
    have hcloses : Token.closes ⟨.punct, op, line⟩ = false := (hplain op hop).2
    simp [Expr.assignmentFrom?, hopens, hcloses, hop]
  have hrun := Expr.assignmentFrom?_run hbalanced hapart (⟨.punct, op, line⟩ :: value)
  rw [Int.natCast_zero, hcut] at hrun
  simpa [Expr.assignment?] using hrun

end Place

/-! ### Statements -/

section Overwriting

variable {x : Text} {e : Expr}

/-- What is in front of an increment or decrement at the end is the target. -/
lemma targetsOf_stepBehind {first step : Token} {rest : Expr} (hfirst : first.is "delete" = false)
    (hstep : isStep step = true) : targetsOf (first :: rest ++ [step]) = [first :: rest] := by
  have hlast : (first :: (rest ++ [step])).getLast? = some step := by
    rw [← List.cons_append, List.getLast?_concat]
  have hfront : (first :: (rest ++ [step])).dropLast = first :: rest := by
    rw [← List.cons_append, List.dropLast_concat]
  simp [targetsOf, Expr.isAt, hfirst, hlast, hstep, hfront]

/-- What is behind an increment or decrement at the front is the target. -/
lemma targetsOf_stepInFront {step : Token} (hstep : isStep step = true) (he : e ≠ [])
    (hlast : e.getLast?.any isStep = false) : targetsOf (step :: e) = [e] := by
  have hdelete : step.is "delete" = false := by
    by_contra hdelete
    simp only [isStep, Token.is, Bool.not_eq_false, Bool.or_eq_true, beq_iff_eq] at hstep hdelete
    rw [hdelete] at hstep
    contradiction
  have hlast' : (step :: e).getLast?.any isStep = false := by rwa [List.getLast?_cons_of_ne_nil he]
  simp [targetsOf, Expr.isAt, hdelete, hlast', hstep, he]

/-- A name that is not built in is not `delete`. -/
lemma not_isDelete (hx : isBuiltin x = false) (line : Nat) :
    Token.is ⟨.ident, x, line⟩ "delete" = false := by
  by_contra hdelete
  simp only [Token.is, Bool.not_eq_false, beq_iff_eq] at hdelete
  rw [hdelete] at hx
  contradiction

/-- A target that starts with a variable and is no declaration belongs to that variable. -/
lemma base_of_not_isDeclaration (hx : isBuiltin x = false) {line : Nat} {rest : Expr}
    (h : Expr.isDeclaration (⟨.ident, x, line⟩ :: rest) = false) :
    declaredBy? (⟨.ident, x, line⟩ :: rest) = none ∧ baseOf? (⟨.ident, x, line⟩ :: rest) = some x :=
  ⟨by simp [declaredBy?, h], by simp [baseOf?, h, hx]⟩

/-- The target of an assignment is the place in front of the operator, or the whole statement
without its last token if that is an increment or decrement. -/
lemma Place.exists_target_of_assignment {p : Expr} (hp : Place x p) (hx : isBuiltin x = false)
    {op : Text} (hop : op ∈ Expr.assignOps) (line : Nat) (value : Expr) :
    ∃ t, targetsOf (p ++ ⟨.punct, op, line⟩ :: value) = [t] ∧ declaredBy? t = none ∧
      baseOf? t = some x := by
  have hassign := hp.assignment? hop line value
  have hparts := hp.topParts
  have hplace := hp.isDeclaration_eq_false
  obtain ⟨hword, l, rest, rfl⟩ := hp.exists_cons
  cases hform : hasOtherForm (⟨.ident, x, l⟩ :: rest ++ ⟨.punct, op, line⟩ :: value) with
  | false =>
    exact ⟨_, (targetsOf_of_assignment hassign hform).trans hparts,
      base_of_not_isDeclaration hx hplace⟩
  | true =>
    -- only the end of the value can look like another form, and then the operator is inside the
    -- target
    have hfirst := not_isStep_of_lexicalKind (t := ⟨.ident, x, l⟩) hword
    have hlast : (⟨.ident, x, l⟩ :: rest ++ ⟨.punct, op, line⟩ :: value).getLast?.any
      isStep = true := by
      simpa [hasOtherForm, Expr.isAt, not_isDelete hx, hfirst] using hform
    rcases List.eq_nil_or_concat value with rfl | ⟨front, step, rfl⟩
    · rw [List.getLast?_concat, Option.any_some, (not_step_of_mem_assignOps hop).1] at hlast
      contradiction
    · rw [List.concat_eq_append, ← List.cons_append, ← List.append_assoc] at hlast ⊢
      rw [List.getLast?_concat, Option.any_some] at hlast
      refine ⟨_, targetsOf_stepBehind (not_isDelete hx l) hlast, base_of_not_isDeclaration hx ?_⟩
      refine isDeclaration_eq_false_of_mem (t := ⟨.punct, op, line⟩) (by simp) rfl ?_
      have hbrackets : ∀ op ∈ Expr.assignOps, op ≠ "[" ∧ op ≠ "]" := by decide
      exact hbrackets op hop

/-- Lowering finds one target in a statement that overwrites `x`: it declares nothing, and starts
with `x`. -/
lemma exists_target_of_overwrites (h : Overwrites x e) (hx : isBuiltin x = false) :
    ∃ t, targetsOf e = [t] ∧ declaredBy? t = none ∧ baseOf? t = some x := by
  cases h with
  | assignment hp hop line value => exact hp.exists_target_of_assignment hx hop line value
  | stepBehind hp hstep =>
    have hplace := hp.isDeclaration_eq_false
    obtain ⟨-, l, rest, rfl⟩ := hp.exists_cons
    exact ⟨_, targetsOf_stepBehind (not_isDelete hx l) hstep, base_of_not_isDeclaration hx hplace⟩
  | stepInFront hp hstep =>
    have hplace := hp.isDeclaration_eq_false
    have hlast := hp.not_isStep_getLast?
    obtain ⟨-, l, rest, rfl⟩ := hp.exists_cons
    exact ⟨_, targetsOf_stepInFront hstep (List.cons_ne_nil _ _) hlast, base_of_not_isDeclaration hx
      hplace⟩
  | deletion hp line =>
    have hplace := hp.isDeclaration_eq_false
    obtain ⟨-, l, rest, rfl⟩ := hp.exists_cons
    exact ⟨_, rfl, base_of_not_isDeclaration hx hplace⟩

/-- The instruction of a statement that overwrites `x` writes it exactly if `x` is state in the
scope of the statement. -/
lemma mem_stateWrites_instrOf_iff (h : Overwrites x e) (hx : isBuiltin x = false) (s : Scope)
    (line : Nat) :
    x ∈ (instrOf s e line).1.stateWrites ↔ s.isState x = true := by
  obtain ⟨t, htargets, -, hbase⟩ := exists_target_of_overwrites h hx
  obtain ⟨-, hwrites, -⟩ := fields_instrOf s e line
  rw [hwrites, htargets]
  simp [Scope.writes, hbase, Option.filter]

end Overwriting

end ContractAudit.Flow
