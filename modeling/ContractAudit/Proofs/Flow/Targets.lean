import ContractAudit.Proofs.Flow.Drafting

/-!
What the instruction of an expression statement writes to.

Lowering looks at the ends of a statement before it looks for an assignment operator: a leading
`delete`, then an increment or decrement at the end, then one at the front. What it takes for
written is `targetsOf`.

* `fields_instrOf`: what an instruction defines, writes and declares is read off these targets, one
  after the other.
* `keepsTargets_iff`: the instruction of an assignment keeps operator, value and targets exactly
  when the statement neither starts nor ends like one of the other forms and each target starts with
  its first identifier, or another target defines the same name.
-/

namespace ContractAudit.Flow

open Source (Expr Token addNew isBuiltin)

/-! ### Targets -/

/-- The name that a target declares. -/
def declaredBy? (t : Expr) : Option Text :=
  if t.isDeclaration then t.getLast?.map (·.text) else none

/-- The variable that a target other than a declaration starts with. A word of the language is one
only if it is the whole target. -/
def baseOf? : Expr → Option Text
  | [] => none
  | first :: rest =>
    if Expr.isDeclaration (first :: rest) then none
    else if first.kind == .ident && (rest.isEmpty || !isBuiltin first.text) then some first.text
    else none

/-- The variable that a target defines. -/
def definedBy? (t : Expr) : Option Text := (declaredBy? t).or (baseOf? t)

/-- The scope behind a target. -/
def Scope.note (s : Scope) (t : Expr) : Scope := (declaredBy? t).elim s s.declare

/-- The state variables that some targets write, one after the other. -/
def Scope.writes (s : Scope) : List Expr → List Text
  | [] => []
  | t :: ts => ((baseOf? t).filter s.isState).toList ++ (s.note t).writes ts

/-- The targets that lowering finds in an expression statement. -/
def targetsOf (e : Expr) : List Expr :=
  if 2 ≤ e.length && Expr.isAt e.head? "delete" then [e.drop 1]
  else if 2 ≤ e.length && e.getLast?.any isStep then [e.dropLast]
  else if 2 ≤ e.length && e.head?.any isStep then [e.drop 1]
  else
    match e.assignment? with
    | some a => a.target.stripParens.topParts ","
    | none => if e.isDeclaration then [e] else []

lemma mem_addNew {α : Type} [DecidableEq α] {xs more : List α} {x : α} :
    x ∈ addNew xs more ↔ x ∈ xs ∨ x ∈ more := by
  induction more generalizing xs with
  | nil => simp [addNew]
  | cons y more ih =>
    have hstep : addNew xs (y :: more) = addNew (if y ∈ xs then xs else xs ++ [y]) more := rfl
    rw [hstep, ih]
    by_cases hy : y ∈ xs
    · rw [if_pos hy, List.mem_cons]
      exact ⟨fun h => h.imp_right .inr, fun h => by rcases h with h | rfl | h <;> simp_all⟩
    · rw [if_neg hy, List.mem_append, List.mem_singleton, List.mem_cons, or_assoc]

/-! ### Writing to one target -/

section WriteTo

variable (i : Instr) (s : Scope) (t : Expr) (compound : Bool)

lemma fields_noteWrite (name : Text) : (i.noteWrite s name).defs = i.defs ∧
    (i.noteWrite s name).assignOp = i.assignOp ∧
    (i.noteWrite s name).stateWrites = i.stateWrites ++ (some name |>.filter s.isState).toList := by
  unfold Instr.noteWrite
  split
  · next hstate => simp [Option.filter, hstate]
  · next hstate => simp [Option.filter, hstate]

/-- What writing to a target does to the instruction and to the scope. -/
lemma fields_writeTo :
    (i.writeTo s t compound).1.defs = addNew i.defs (definedBy? t).toList ∧
      (i.writeTo s t compound).1.assignOp = i.assignOp ∧
      (i.writeTo s t compound).1.stateWrites = i.stateWrites ++
        ((baseOf? t).filter s.isState).toList ∧
      (i.writeTo s t compound).2 = s.note t := by
  cases t with
  | nil =>
    simp [Instr.writeTo, definedBy?, declaredBy?, baseOf?, Scope.note, Expr.isDeclaration, addNew]
  | cons first rest =>
    simp only [Instr.writeTo]
    by_cases hdecl : Expr.isDeclaration (first :: rest) = true
    · obtain ⟨last, hlast⟩ : ∃ last, (first :: rest).getLast? = some last :=
        ⟨_, List.getLast?_eq_some_getLast (List.cons_ne_nil _ _)⟩
      simp [definedBy?, declaredBy?, baseOf?, Scope.note, hdecl, hlast]
    · have hdeclared : declaredBy? (first :: rest) = none := by simp [declaredBy?, hdecl]
      simp only [hdecl, if_false, Bool.false_eq_true, definedBy?, hdeclared, baseOf?, Scope.note,
        Option.none_or, Option.elim_none]
      by_cases halone : (rest.isEmpty && first.kind == .ident) = true
      · obtain ⟨hrest, hkind⟩ := Bool.and_eq_true_iff.mp halone
        simp [hrest, hkind, fields_noteWrite]
      · by_cases hother : (first.kind != .ident || isBuiltin first.text) = true
        · have hbase : (first.kind == .ident && (rest.isEmpty || !isBuiltin first.text)) =
            false := by
            cases hkind : first.kind == Source.TokenKind.ident <;> simp_all
          simp [halone, hother, hbase, addNew]
        · have hbase : (first.kind == .ident && (rest.isEmpty || !isBuiltin first.text)) =
            true := by
            cases hkind : first.kind == Source.TokenKind.ident <;> simp_all
          simp [halone, hother, hbase, fields_noteWrite]

end WriteTo

/-! ### Writing to all targets -/

/-- A part of a left-hand side is written to like any target. -/
lemma fields_writePart (compound : Bool) (i : Instr) (s : Scope) (t : Expr) :
    (Instr.writePart compound (i, s) t).1.defs = addNew i.defs (definedBy? t).toList ∧
      (Instr.writePart compound (i, s) t).1.assignOp = i.assignOp ∧
      (Instr.writePart compound (i, s) t).1.stateWrites =
        i.stateWrites ++ ((baseOf? t).filter s.isState).toList ∧
      (Instr.writePart compound (i, s) t).2 = s.note t := by
  simp only [Instr.writePart]
  split
  · exact fields_writeTo { i with op := .declare } s t compound
  · exact fields_writeTo i s t compound

/-- What writing to the parts of a left-hand side, one after the other, does to the instruction and
to the scope. -/
lemma fields_foldl_writePart (compound : Bool) (parts : List Expr) (i : Instr) (s : Scope) :
    (∀ x, x ∈ (parts.foldl (Instr.writePart compound) (i, s)).1.defs ↔
        x ∈ i.defs ∨ ∃ t ∈ parts, definedBy? t = some x) ∧
      (parts.foldl (Instr.writePart compound) (i, s)).1.assignOp = i.assignOp ∧
      (parts.foldl (Instr.writePart compound) (i, s)).1.stateWrites = i.stateWrites ++
        s.writes parts ∧
      (parts.foldl (Instr.writePart compound) (i, s)).2 = parts.foldl Scope.note s := by
  induction parts generalizing i s with
  | nil => simp [Scope.writes]
  | cons t parts ih =>
    obtain ⟨hdefs, hop, hwrites, hscope⟩ := fields_writePart compound i s t
    rw [List.foldl_cons, List.foldl_cons, ← hscope, Scope.writes, ← hscope]
    obtain ⟨ihdefs, ihop, ihwrites, ihscope⟩ :=
      ih (Instr.writePart compound (i, s) t).1 (Instr.writePart compound (i, s) t).2
    refine ⟨fun x => ?_, ihop.trans hop, ?_, ihscope⟩
    · rw [ihdefs, hdefs, mem_addNew, Option.mem_toList, or_assoc]
      simp
    · rw [ihwrites, hwrites, List.append_assoc]

/-- An assignment stays one, or becomes a declaration. -/
lemma op_foldl_writePart (compound : Bool) (parts : List Expr) (i : Instr) (s : Scope)
    (h : i.op = .assign ∨ i.op = .declare) :
    (parts.foldl (Instr.writePart compound) (i, s)).1.op = .assign ∨
      (parts.foldl (Instr.writePart compound) (i, s)).1.op = .declare := by
  refine List.foldlRecOn (motive := fun w : Instr × Scope => w.1.op = .assign ∨ w.1.op = .declare)
    parts _ h
    fun w hw t _ => ?_
  rw [Instr.writePart, Draft.op_writeTo]
  split
  · exact .inr rfl
  · exact hw

lemma value_foldl_writePart (compound : Bool) (parts : List Expr) (i : Instr) (s : Scope) :
    (parts.foldl (Instr.writePart compound) (i, s)).1.value = i.value := by
  refine List.foldlRecOn (motive := fun w : Instr × Scope => w.1.value = i.value) parts _ rfl
    fun w hw t _ => ?_
  have hvalue : ∀ j : Instr, (j.writeTo w.2 t compound).1.value = j.value := fun j =>
    congrArg Event.value (event_writeTo j w.2 t compound)
  rw [Instr.writePart, hvalue]
  split <;> exact hw

/-- What the instruction of an expression statement defines and writes, and the scope behind it, are
those of its targets. -/
lemma fields_instrOf (s : Scope) (e : Expr) (line : Nat) :
    (∀ x, x ∈ (instrOf s e line).1.defs ↔ ∃ t ∈ targetsOf e, definedBy? t = some x) ∧
      (instrOf s e line).1.stateWrites = s.writes (targetsOf e) ∧
      (instrOf s e line).2 = (targetsOf e).foldl Scope.note s := by
  -- a statement with one target
  have hsingle : ∀ (i : Instr) (t : Expr) (compound : Bool), i.defs = [] → i.stateWrites = [] →
      (∀ x, x ∈ (i.writeTo s t compound).1.defs ↔ ∃ t' ∈ [t], definedBy? t' = some x) ∧
        (i.writeTo s t compound).1.stateWrites = s.writes [t] ∧
        (i.writeTo s t compound).2 = [t].foldl Scope.note s := by
    intro i t compound hdefs hwrites
    obtain ⟨hdefs', -, hwrites', hscope⟩ := fields_writeTo i s t compound
    refine ⟨fun x => ?_, ?_, hscope⟩
    · rw [hdefs', hdefs, mem_addNew]
      simp
    · rw [hwrites', hwrites]
      simp [Scope.writes]
  simp only [instrOf, targetsOf]
  split
  · exact hsingle _ _ _ rfl rfl
  split
  · exact hsingle _ _ _ rfl rfl
  split
  · exact hsingle _ _ _ rfl rfl
  cases e.assignment? with
  | some a =>
    obtain ⟨hdefs, -, hwrites, hscope⟩ := fields_foldl_writePart (a.op != "=")
      (a.target.stripParens.topParts ",") _ s
    exact ⟨fun x => (hdefs x).trans (by simp), hwrites, hscope⟩
  | none =>
    dsimp only
    split
    · exact hsingle _ _ _ rfl rfl
    · exact ⟨by simp, rfl, rfl⟩

/-! ### Assignments -/

/-- An assignment is its target, its operator and its value. -/
lemma exists_of_assignmentFrom? {depth : Int} {e : Expr} {a : Expr.Assignment}
    (h : Expr.assignmentFrom? depth e = some a) :
    ∃ op : Token, e = a.target ++ op :: a.value ∧ op.kind = .punct ∧ op.text = a.op ∧
      a.op ∈ Expr.assignOps := by
  induction e generalizing depth a with
  | nil => contradiction
  | cons t rest ih =>
    rw [Expr.assignmentFrom?] at h
    split at h
    · next hop =>
      cases h
      simp only [Bool.and_eq_true, beq_iff_eq, List.contains_iff_mem] at hop
      exact ⟨t, rfl, hop.1.1.1.1, rfl, hop.2⟩
    · obtain ⟨b, hb, rfl⟩ := Option.map_eq_some_iff.mp h
      obtain ⟨op, rfl, hop⟩ := ih hb
      exact ⟨op, rfl, hop⟩

/-- No assignment operator is an increment, a decrement or a word. -/
lemma not_step_of_mem_assignOps {t : Token} (h : t.text ∈ Expr.assignOps) :
    isStep t = false ∧ t.is "delete" = false := by
  have hall : ∀ op ∈ Expr.assignOps, (op == ("++" : Text) || op == ("--" : Text)) = false ∧
      (op == ("delete" : Text)) = false := by decide
  exact hall t.text h

/-- Whether a statement starts with `delete`, or starts or ends with an increment or a decrement. -/
def hasOtherForm (e : Expr) : Bool :=
  Expr.isAt e.head? "delete" || e.getLast?.any isStep || e.head?.any isStep

/-- An assignment that starts or ends like another form has more than one token. -/
lemma two_le_length_of_hasOtherForm {e : Expr} {a : Expr.Assignment} (h : e.assignment? = some a)
    (hform : hasOtherForm e = true) : 2 ≤ e.length := by
  obtain ⟨op, he, -, hop, hmem⟩ := exists_of_assignmentFrom? h
  obtain ⟨hstep, hdelete⟩ := not_step_of_mem_assignOps (hop ▸ hmem)
  rcases e with _ | ⟨t, _ | ⟨t', rest⟩⟩
  · simp at he
  · -- a lone token is the operator itself
    have hlength := congrArg List.length he
    simp only [List.length_append, List.length_cons, List.length_nil] at hlength
    have htarget : a.target = [] := List.eq_nil_of_length_eq_zero (by omega)
    rw [htarget] at he
    obtain ⟨rfl, -⟩ := List.cons.inj he
    simp [hasOtherForm, Expr.isAt, hstep, hdelete] at hform
  · simp

/-- A statement of another form is lowered as a deletion, an increment or a decrement. -/
lemma op_of_hasOtherForm {e : Expr} (hlength : 2 ≤ e.length) (h : hasOtherForm e = true) (s : Scope)
    (line : Nat) :
    (instrOf s e line).1.op = .delete ∨ (instrOf s e line).1.op = .step := by
  have hmany : decide (2 ≤ e.length) = true := decide_eq_true hlength
  simp only [instrOf, hmany, Bool.true_and]
  split
  · exact .inl (Draft.op_writeTo ..)
  split
  · exact .inr (Draft.op_writeTo ..)
  split
  · exact .inr (Draft.op_writeTo ..)
  · simp_all [hasOtherForm]

section Assignment

variable {e : Expr} {a : Expr.Assignment} (h : e.assignment? = some a)
    (hform : hasOtherForm e = false)

include h hform

lemma targetsOf_of_assignment : targetsOf e = a.target.stripParens.topParts "," := by
  simp only [hasOtherForm, Bool.or_eq_false_iff] at hform
  simp [targetsOf, hform, h]

/-- Any other assignment is lowered target by target. -/
lemma instrOf_of_assignment (s : Scope) (line : Nat) :
    instrOf s e line = (a.target.stripParens.topParts ",").foldl (Instr.writePart (a.op != "="))
      ({ op := .assign, assignOp := a.op, value := a.value, uses := a.value.readNames,
         calls := e.calls, external := e.outsideCall?.getD [], line }, s) := by
  simp only [hasOtherForm, Bool.or_eq_false_iff] at hform
  simp [instrOf, hform, h]

end Assignment

/-- The name a target of an assignment has to define: the declared one, or else its first
identifier, unless that is a word of the language. -/
def owedBy? (t : Expr) : Option Text :=
  if t.isDeclaration then t.getLast?.map (·.text)
  else ((t.find? (·.kind == .ident)).map (·.text)).filter (!isBuiltin ·)

/-- The instruction is that of the assignment `a`, with its operator, its value and all its
targets. -/
structure KeepsTargets (a : Expr.Assignment) (i : Instr) : Prop where
  op : i.op = .assign ∨ i.op = .declare
  assignOp : i.assignOp = a.op
  value : i.value = a.value
  defs : ∀ t ∈ a.target.stripParens.topParts ",", ∀ x ∈ owedBy? t, x ∈ i.defs

/-- The instruction of an assignment keeps it exactly when the statement neither starts nor ends
like a deletion, an increment or a decrement, and every name that a target has to define is declared
by a target or stands in front of one. -/
theorem keepsTargets_iff (s : Scope) (e : Expr) (line : Nat) (a : Expr.Assignment)
    (h : e.assignment? = some a) :
    KeepsTargets a (instrOf s e line).1 ↔
      hasOtherForm e = false ∧
        ∀ t ∈ a.target.stripParens.topParts ",", ∀ x ∈ owedBy? t,
          ∃ t' ∈ a.target.stripParens.topParts ",", definedBy? t' = some x := by
  cases hform : hasOtherForm e with
  | true =>
    have hop := op_of_hasOtherForm (two_le_length_of_hasOtherForm h hform) hform s line
    refine iff_of_false (fun hkeeps => ?_) (fun hplain => Bool.noConfusion hplain.1)
    rcases hkeeps.op with hop' | hop' <;> simp [hop'] at hop
  | false =>
    obtain ⟨hdefs, -, -⟩ := fields_instrOf s e line
    rw [targetsOf_of_assignment h hform] at hdefs
    refine ⟨fun hkeeps => ⟨rfl, fun t ht x hx => (hdefs x).mp (hkeeps.defs t ht x hx)⟩,
      fun hplain => ?_⟩
    have howed := fun t ht x hx => (hdefs x).mpr (hplain.2 t ht x hx)
    rw [instrOf_of_assignment h hform] at howed ⊢
    exact
      { op := op_foldl_writePart _ _ _ s (.inl rfl)
        assignOp := (fields_foldl_writePart ..).2.1
        value := value_foldl_writePart ..
        defs := howed }

/-- The statement `(uint256 a, b[i]) = f(c--)`. -/
def pairAssignment : Expr := (Source.scan "(uint256 a, b[i]) = f(c--)").list

/-- The decrement in `(uint256 a, b[i]) = f(c--)` does not stand at its end, and both targets are
kept. -/
theorem keepsTargets_iff_pair :
    ∃ a, pairAssignment.assignment? = some a ∧ KeepsTargets a
      (instrOf ⟨["b"], []⟩ pairAssignment 1).1 ∧
      (a.target.stripParens.topParts ",").map owedBy? = [some ("a" : Text), some ("b" : Text)] := by
  obtain ⟨a, ha⟩ : ∃ a, pairAssignment.assignment? = some a :=
    Option.isSome_iff_exists.mp (by decide +kernel)
  have hall : ∀ a ∈ pairAssignment.assignment?,
      (hasOtherForm pairAssignment = false ∧ ∀ t ∈ a.target.stripParens.topParts ",",
        ∀ x ∈ owedBy? t, ∃ t' ∈ a.target.stripParens.topParts ",", definedBy? t' = some x) ∧
      (a.target.stripParens.topParts ",").map owedBy? = [some ("a" : Text), some ("b" : Text)] := by
        decide +kernel
  exact ⟨a, ha, (keepsTargets_iff _ _ _ a ha).mpr (hall a ha).1, (hall a ha).2⟩

/-- The statement `uint256 y = i++`. -/
def incrementAssignment : Expr := (Source.scan "uint256 y = i++").list

/-- Of `uint256 y = i++` neither the operator nor the value nor the declared name is kept. -/
theorem not_keepsTargets_increment :
    ∃ a, incrementAssignment.assignment? = some a ∧
      (a.target.stripParens.topParts ",").map owedBy? = [some ("y" : Text)] ∧
      ¬ KeepsTargets a (instrOf ⟨[], ["i"]⟩ incrementAssignment 1).1 ∧
      (instrOf ⟨[], ["i"]⟩ incrementAssignment 1).1.op = .step ∧
      (instrOf ⟨[], ["i"]⟩ incrementAssignment 1).1.defs = ["uint256"] := by
  obtain ⟨a, ha⟩ : ∃ a, incrementAssignment.assignment? = some a :=
    Option.isSome_iff_exists.mp (by decide +kernel)
  have hop : (instrOf ⟨[], ["i"]⟩ incrementAssignment 1).1.op = .step := by decide +kernel
  have howed : ∀ a ∈ incrementAssignment.assignment?,
      (a.target.stripParens.topParts ",").map owedBy? = [some ("y" : Text)] := by decide +kernel
  refine ⟨a, ha, howed a ha, fun hkeeps => ?_, hop, by decide +kernel⟩
  rcases hkeeps.op with hop' | hop' <;> simp [hop] at hop'

end ContractAudit.Flow
