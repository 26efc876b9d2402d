import ContractAudit.Proofs.Source.Runs

/-!
Statements that are written out are read back.

* `Stmt.render`: the tokens of a statement, up to their lines. Every simple statement ends in a
  semicolon.
* `Stmt.unlined`: a statement without its lines.
* `Stmt.Canonical`: the statements for which this works: branches and bodies are blocks, and the
  expressions can be told from what stands behind them.
* `stmt_while` and its like say what reading a statement does behind its keyword. From them follows
  for each kind of statement that it is read back if its parts are (`readsBack_while` and its like).
* `stmt_render`: all canonical statements are read back.
-/

namespace ContractAudit.Source

/-! ### Statements without lines -/

/-- The run with all tokens on line zero. -/
def Expr.unlined (e : Expr) : Expr := e.spelling.map fun (kind, text) => ⟨kind, text, 0⟩

mutual

/-- The statement with all its tokens on line zero. -/
def Stmt.unlined : Stmt → Stmt
  | .empty => .empty
  | .block _ body => .block 0 (Stmt.unlinedAll body)
  | .ifElse _ cond yes no => .ifElse 0 cond.unlined yes.unlined no.unlined
  | .whileLoop _ cond body => .whileLoop 0 cond.unlined body.unlined
  | .doLoop _ cond body => .doLoop 0 cond.unlined body.unlined
  | .forLoop _ init cond post body => .forLoop 0 init.unlined cond.unlined post.unlined body.unlined
  | .returnValue _ value => .returnValue 0 value.unlined
  | .revert _ args => .revert 0 args.unlined
  | .require _ cond message internal => .require 0 cond.unlined message internal
  | .emit _ event args => .emit 0 event args.unlined
  | .breakLoop _ => .breakLoop 0
  | .continueLoop _ => .continueLoop 0
  | .placeholder _ => .placeholder 0
  | .expr _ value => .expr 0 value.unlined

/-- The statements with all their tokens on line zero. -/
def Stmt.unlinedAll : List Stmt → List Stmt
  | [] => []
  | s :: rest => s.unlined :: Stmt.unlinedAll rest

end

/-- Runs that are spelled alike differ in their lines only. -/
lemma Expr.unlined_congr {e f : Expr} (h : e.spelling = f.spelling) : e.unlined = f.unlined :=
  congrArg (List.map _) h

lemma Stmt.isEmpty_unlined (s : Stmt) : s.unlined.isEmpty = s.isEmpty := by
  cases s <;> simp [Stmt.unlined, Stmt.isEmpty]

/-! ### Rendering -/

/-- A word of the language. -/
def word (text : Text) : TokenKind × Text := (.ident, text)

/-- A punctuation mark. -/
def mark (text : Text) : TokenKind × Text := (.punct, text)

/-- The message of a checked condition behind it, if it is not empty: a comma and a string
literal. -/
def messageRun (message : Text) : Expr :=
  if message.isEmpty then [] else [⟨.punct, ",", 0⟩, ⟨.string, 34 :: (message ++ [34]), 0⟩]

mutual

/-- The classes and texts of the tokens of a statement. -/
def Stmt.render : Stmt → List (TokenKind × Text)
  | .empty => [mark ";"]
  | .block _ body => mark "\x7b" :: (Stmt.renderAll body ++ [mark "\x7d"])
  | .ifElse _ cond yes no =>
    word "if" :: mark "(" :: (cond.spelling ++ mark ")" ::
      (yes.render ++ if no.isEmpty then [] else word "else" :: no.render))
  | .whileLoop _ cond body => word "while" :: mark "(" :: (cond.spelling ++ mark ")" :: body.render)
  | .doLoop _ cond body =>
    word "do" :: (body.render ++ word "while" :: mark "(" ::
      (cond.spelling ++ [mark ")", mark ";"]))
  | .forLoop _ init cond post body =>
    word "for" :: mark "(" :: (init.spelling ++ mark ";" :: (cond.spelling ++ mark ";" ::
      (post.spelling ++ mark ")" :: body.render)))
  | .returnValue _ value => word "return" :: (value.spelling ++ [mark ";"])
  | .revert _ args => word "revert" :: (args.spelling ++ [mark ";"])
  | .require _ cond message internal =>
    word (if internal then "assert" else "require") :: mark "(" ::
      (Expr.spelling (cond ++ messageRun message) ++ [mark ")", mark ";"])
  | .emit _ event args => word "emit" :: word event :: (args.spelling ++ [mark ";"])
  | .breakLoop _ => [word "break", mark ";"]
  | .continueLoop _ => [word "continue", mark ";"]
  | .placeholder _ => [word "_", mark ";"]
  | .expr _ value => value.spelling ++ [mark ";"]

/-- The classes and texts of the tokens of some statements. -/
def Stmt.renderAll : List Stmt → List (TokenKind × Text)
  | [] => []
  | s :: rest => s.render ++ Stmt.renderAll rest

end

/-- Words and marks with which no statement starts that is an expression. -/
def statementWords : List Text :=
  ["\x7b", "\x7d", ";", "unchecked", "if", "else", "while", "do", "for", "return",
    "revert", "require", "assert", "emit", "break", "continue", "_", "try", "assembly"]

/-- Whether a run starts like a statement that is an expression. -/
def Expr.StartsPlainly (e : Expr) : Prop :=
  ∃ t, e.head? = some t ∧ t.kind ≠ .string ∧ t.text ∉ statementWords

/-- Whether the statement is a block in braces. -/
def Stmt.isBlock : Stmt → Bool
  | .block _ _ => true
  | _ => false

/-- Statements whose branches and bodies are blocks, and whose expressions are balanced and have
nothing outside brackets that would end them. -/
inductive Stmt.Canonical : Stmt → Prop
  | block {line : Nat} {body : List Stmt} (hbody : ∀ s ∈ body, s.Canonical) :
      Canonical (.block line body)
  | ifThen {line : Nat} {cond : Expr} {yes : Stmt} (hcond : cond.Balanced)
      (hyes : yes.isBlock = true) (h : yes.Canonical) : Canonical (.ifElse line cond yes .empty)
  | ifElse {line : Nat} {cond : Expr} {yes no : Stmt} (hcond : cond.Balanced)
      (hyes : yes.isBlock = true) (hno : no.isBlock = true) (h : yes.Canonical)
      (h' : no.Canonical) : Canonical (.ifElse line cond yes no)
  | whileLoop {line : Nat} {cond : Expr} {body : Stmt} (hcond : cond.Balanced)
      (hbody : body.isBlock = true) (h : body.Canonical) : Canonical (.whileLoop line cond body)
  | doLoop {line : Nat} {cond : Expr} {body : Stmt} (hcond : cond.Balanced)
      (hbody : body.isBlock = true) (h : body.Canonical) : Canonical (.doLoop line cond body)
  | forLoop {line : Nat} {init cond post : Expr} {body : Stmt} (hinit : init.RunsTo ";")
      (hcond : cond.RunsTo ";") (hpost : post.Balanced) (hbody : body.isBlock = true)
      (h : body.Canonical) : Canonical (.forLoop line init cond post body)
  | returnValue {line : Nat} {value : Expr} (hvalue : value.RunsTo ";") :
      Canonical (.returnValue line value)
  | revert {line : Nat} {args : Expr} (hargs : args.RunsTo ";") : Canonical (.revert line args)
  | require {line : Nat} {cond : Expr} {message : Text} {internal : Bool}
      (hcond : cond.RunsTo ",") : Canonical (.require line cond message internal)
  | emit {line : Nat} {event : Text} {args : Expr} (hargs : args.RunsTo ";") :
      Canonical (.emit line event args)
  | breakLoop {line : Nat} : Canonical (.breakLoop line)
  | continueLoop {line : Nat} : Canonical (.continueLoop line)
  | placeholder {line : Nat} : Canonical (.placeholder line)
  | expr {line : Nat} {value : Expr} (hvalue : value.RunsTo ";") (hstart : value.StartsPlainly) :
      Canonical (.expr line value)

/-! ### Reading behind a keyword -/

@[simp] lemma Tokens.rest_cons (t : Token) (more : List Token) (endLine : Nat) :
    (⟨t :: more, endLine⟩ : Tokens).rest = ⟨more, endLine⟩ := rfl

lemma skipIf_semicolon (line endLine : Nat) (rest : List Token) :
    (⟨⟨.punct, ";", line⟩ :: rest, endLine⟩ : Tokens).skipIf ";" = ⟨rest, endLine⟩ := by
  simp [Tokens.skipIf, Tokens.isAt, Token.is]

section Reading

-- the equations of `stmt` are made once, here, and not by each of the lemmas below
attribute [local simp] stmt Token.is bind Except.bind pure Except.pure

variable {fuel line endLine opened ended : Nat} {behind : List Token} {s u v w : Tokens}
  {cond init post value args : Expr} {yes no body : Stmt} {statements : List Stmt}

lemma stmt_block (hbody : stmts fuel line ⟨behind, endLine⟩ = .ok (statements, s)) :
    stmt (fuel + 2) ⟨⟨.punct, "\x7b", line⟩ :: behind, endLine⟩ = .ok
      (.block line statements, s) := by
  simp [block, Tokens.expect, Tokens.isAt, Tokens.line, hbody]

lemma stmts_cons (hbrace : s.isAt "\x7d" = false) (hsome : s.list ≠ [])
    (hfirst : stmt fuel s = .ok (body, u)) (hempty : body.isEmpty = false)
    (hmore : stmts fuel opened u = .ok (statements, v)) :
    stmts (fuel + 1) opened s = .ok (body :: statements, v) := by
  rw [stmts]
  simp [hbrace, hsome, hfirst, hempty, hmore]

lemma stmt_ifThen (hcond : Tokens.parens ⟨behind, endLine⟩ = .ok (cond, s))
    (hyes : stmt fuel s = .ok (yes, u)) (helse : u.isAt "else" = false) :
    stmt (fuel + 1) ⟨⟨.ident, "if", line⟩ :: behind, endLine⟩ =
      .ok (.ifElse line cond yes .empty, u) := by
  simp [hcond, hyes, helse]

lemma stmt_ifElse (hcond : Tokens.parens ⟨behind, endLine⟩ = .ok (cond, s))
    (hyes : stmt fuel s = .ok (yes, u)) (helse : u.isAt "else" = true)
    (hno : stmt fuel u.rest = .ok (no, v)) :
    stmt (fuel + 1) ⟨⟨.ident, "if", line⟩ :: behind, endLine⟩ = .ok (.ifElse line cond yes no,
      v) := by
  simp [hcond, hyes, helse, hno]

lemma stmt_while (hcond : Tokens.parens ⟨behind, endLine⟩ = .ok (cond, s))
    (hbody : stmt fuel s = .ok (body, u)) :
    stmt (fuel + 1) ⟨⟨.ident, "while", line⟩ :: behind, endLine⟩ =
      .ok (.whileLoop line cond body, u) := by
  simp [hcond, hbody]

lemma stmt_do (hbody : stmt fuel ⟨behind, endLine⟩ = .ok (body, s))
    (hwhile : s.expect "while" = .ok u) (hcond : u.parens = .ok (cond, v)) :
    stmt (fuel + 1) ⟨⟨.ident, "do", line⟩ :: behind, endLine⟩ =
      .ok (.doLoop line cond body, v.skipIf ";") := by
  simp [hcond, hbody, hwhile]

lemma stmt_for (hinit : Tokens.through ⟨behind, endLine⟩ ";" = .ok (init, s))
    (hcond : s.through ";" = .ok (cond, u)) (hpost : u.through ")" = .ok (post, v))
    (hbody : stmt fuel v = .ok (body, w)) :
    stmt (fuel + 1) ⟨⟨.ident, "for", line⟩ :: ⟨.punct, "(", opened⟩ :: behind, endLine⟩ =
      .ok (.forLoop line init cond post body, w) := by
  simp [Tokens.expect, Tokens.isAt, hinit, hcond, hpost, hbody]

lemma stmt_return (hvalue : Tokens.through ⟨behind, endLine⟩ ";" = .ok (value, s)) :
    stmt (fuel + 1) ⟨⟨.ident, "return", line⟩ :: behind, endLine⟩ =
      .ok (.returnValue line value, s) := by
  simp [hvalue]

lemma stmt_revert (hargs : Tokens.through ⟨behind, endLine⟩ ";" = .ok (args, s)) :
    stmt (fuel + 1) ⟨⟨.ident, "revert", line⟩ :: behind, endLine⟩ = .ok (.revert line args, s) := by
  simp [hargs]

lemma stmt_require (internal : Bool)
    (hargs : Tokens.parens ⟨⟨.punct, "(", opened⟩ :: behind, endLine⟩ = .ok (args, s)) :
    stmt (fuel + 1) ⟨⟨.ident, if internal then "assert" else "require", line⟩ ::
        ⟨.punct, "(", opened⟩ :: behind, endLine⟩ =
      .ok (checkedStmt line args internal, s.skipIf ";") := by
  have hword : (Text.ofString "require" == Text.ofString "assert") = false := by simp
  cases internal <;>
    simp [Tokens.text, hargs, hword]

lemma stmt_emit (hargs : Tokens.through ⟨behind, endLine⟩ ";" = .ok (args, s)) :
    stmt (fuel + 1) ⟨⟨.ident, "emit", line⟩ :: behind, endLine⟩ = .ok (eventStmt line args, s) := by
  simp [hargs]

lemma stmt_break :
    stmt (fuel + 1) ⟨⟨.ident, "break", line⟩ :: ⟨.punct, ";", ended⟩ :: behind, endLine⟩ =
      .ok (.breakLoop line, ⟨behind, endLine⟩) := by
  simp [skipIf_semicolon]

lemma stmt_continue :
    stmt (fuel + 1) ⟨⟨.ident, "continue", line⟩ :: ⟨.punct, ";", ended⟩ :: behind, endLine⟩ =
      .ok (.continueLoop line, ⟨behind, endLine⟩) := by
  simp [skipIf_semicolon]

lemma stmt_placeholder :
    stmt (fuel + 1) ⟨⟨.ident, "_", line⟩ :: ⟨.punct, ";", ended⟩ :: behind, endLine⟩ =
      .ok (.placeholder line, ⟨behind, endLine⟩) := by
  simp [Tokens.text]

lemma stmt_expr {t : Token} (hkind : t.kind ≠ .string) (htext : t.text ∉ statementWords)
    (hvalue : Tokens.through ⟨t :: behind, endLine⟩ ";" = .ok (value, s)) :
    stmt (fuel + 1) ⟨t :: behind, endLine⟩ = .ok (.expr t.line value, s) := by
  simp only [statementWords, List.mem_cons, List.not_mem_nil, or_false, not_or] at htext
  simp [hkind, htext, hvalue]

end Reading

/-! ### Reading back -/

variable {tokens : Expr} {more : List (TokenKind × Text)} {t : Stmt} {body : List Stmt}

/-- A run that is spelled out with a stop behind it is read up to there. -/
lemma exists_through_of_spelling {run : Expr} {stop : Text} (hrun : run.RunsTo stop)
    (h : tokens.spelling = run.spelling ++ mark stop :: more) :
    ∃ run' behind : Expr, run'.spelling = run.spelling ∧ behind.spelling = more ∧
      behind.length < tokens.length ∧ ∀ (rest : List Token) (endLine : Nat),
        Tokens.through ⟨tokens ++ rest, endLine⟩ stop = .ok (run', ⟨behind ++ rest, endLine⟩) := by
  obtain ⟨run', tokens', rfl, hrun', hstop⟩ := Expr.exists_append_of_spelling h
  obtain ⟨line, behind, rfl, hbehind⟩ := Expr.exists_cons_of_spelling hstop
  refine ⟨run', behind, hrun', hbehind, ?_, fun rest endLine => ?_⟩
  · simp only [List.length_append, List.length_cons]
    omega
  · simpa using (hrun.congr hrun').through line endLine (behind ++ rest)

/-- A run that is spelled out with only a stop behind it is read to its end. -/
lemma exists_through_of_spelling_stop {run : Expr} {stop : Text} (hrun : run.RunsTo stop)
    (h : tokens.spelling = run.spelling ++ [mark stop]) :
    ∃ run' : Expr, run'.spelling = run.spelling ∧ ∀ (rest : List Token) (endLine : Nat),
      Tokens.through ⟨tokens ++ rest, endLine⟩ stop = .ok (run', ⟨rest, endLine⟩) := by
  obtain ⟨run', behind, hrun', hnone, -, hread⟩ := exists_through_of_spelling hrun h
  obtain rfl := Expr.spelling_eq_nil hnone
  exact ⟨run', hrun', hread⟩

/-- A condition that is spelled out in brackets is read. -/
lemma exists_parens_of_spelling {cond : Expr} (hcond : cond.Balanced)
    (h : tokens.spelling = mark "(" :: (cond.spelling ++ mark ")" :: more)) :
    ∃ cond' behind : Expr, cond'.spelling = cond.spelling ∧ behind.spelling = more ∧
      behind.length < tokens.length ∧ ∀ (rest : List Token) (endLine : Nat),
        Tokens.parens ⟨tokens ++ rest, endLine⟩ = .ok (cond', ⟨behind ++ rest, endLine⟩) := by
  obtain ⟨line, tokens', rfl, htokens'⟩ := Expr.exists_cons_of_spelling h
  obtain ⟨cond', behind, hcond', hbehind, hlength, hread⟩ :=
    exists_through_of_spelling hcond.runsTo htokens'
  refine ⟨cond', behind, hcond', hbehind, Nat.lt_succ_of_lt hlength, fun rest endLine => ?_⟩
  simpa [Tokens.parens, Tokens.expect, Tokens.isAt, Token.is, bind, Except.bind] using hread
    rest endLine

/-- Whether the statement is read back from its rendering, on whatever lines the tokens are. A
statement that is not a block may not have an `else` behind it. -/
def Stmt.ReadsBack (t : Stmt) : Prop :=
  ∀ (tokens : Expr) (rest : List Token) (endLine fuel : Nat), tokens.spelling = t.render →
    t.isBlock = true ∨ Tokens.isAt ⟨rest, endLine⟩ "else" = false → 3 * tokens.length ≤ fuel →
    ∃ t', stmt fuel ⟨tokens ++ rest, endLine⟩ = .ok (t', ⟨rest, endLine⟩) ∧ t'.unlined = t.unlined

/-- A statement that starts with a word is read back if the rest of it is, behind the word. -/
lemma readsBack_of_word {text : Text} (hrender : t.render = word text :: more)
    (h : ∀ (line : Nat) (tokens : Expr) (rest : List Token) (endLine fuel : Nat),
      tokens.spelling = more → t.isBlock = true ∨ Tokens.isAt ⟨rest, endLine⟩ "else" = false →
      3 * tokens.length ≤ fuel →
      ∃ t', stmt (fuel + 1) ⟨⟨.ident, text, line⟩ :: (tokens ++ rest), endLine⟩ =
        .ok (t', ⟨rest, endLine⟩) ∧ t'.unlined = t.unlined) : t.ReadsBack := by
  intro tokens rest endLine fuel hspelled hrest hfuel
  obtain ⟨line, tokens, rfl, hmore⟩ := Expr.exists_cons_of_spelling (hspelled.trans hrender)
  rw [List.length_cons] at hfuel
  obtain ⟨fuel, rfl⟩ := Nat.exists_eq_succ_of_ne_zero (n := fuel) (by omega)
  exact h line tokens rest endLine fuel hmore hrest (by omega)

/-- A word with a semicolon behind it is read back if it is read up to there. -/
lemma readsBack_of_word_semicolon {text : Text} (hrender : t.render = [word text, mark ";"])
    (h : ∀ (line ended : Nat) (rest : List Token) (endLine fuel : Nat),
      ∃ t', stmt (fuel + 1) ⟨⟨.ident, text, line⟩ :: ⟨.punct, ";", ended⟩ :: rest, endLine⟩ =
        .ok (t', ⟨rest, endLine⟩) ∧ t'.unlined = t.unlined) : t.ReadsBack := by
  refine readsBack_of_word hrender fun line tokens rest endLine fuel hspelled _ _ => ?_
  obtain ⟨ended, rfl⟩ := Expr.exists_singleton_of_spelling hspelled
  exact h line ended rest endLine fuel

section Back

variable {line : Nat} {cond init post value args : Expr} {yes no body : Stmt}

lemma readsBack_ifThen (hcond : cond.Balanced) (hblock : yes.isBlock = true)
    (hyes : yes.ReadsBack) : (Stmt.ifElse line cond yes .empty).ReadsBack := by
  refine readsBack_of_word rfl fun line tokens rest endLine fuel hspelled hrest hfuel => ?_
  obtain ⟨cond', behind, hcond', hyes', hlength, hparens⟩ :=
    exists_parens_of_spelling hcond hspelled
  obtain ⟨t, hread, ht⟩ :=
    hyes behind rest endLine fuel (by simpa [Stmt.isEmpty] using hyes') (.inl hblock) (by omega)
  refine ⟨.ifElse line cond' t .empty, stmt_ifThen (hparens rest endLine) hread ?_, ?_⟩
  · simpa [Stmt.isBlock] using hrest
  · simp only [Stmt.unlined, ht, Expr.unlined_congr hcond']

lemma readsBack_ifElse (hcond : cond.Balanced) (hyesBlock : yes.isBlock = true)
    (hnoBlock : no.isBlock = true) (hyes : yes.ReadsBack) (hno : no.ReadsBack) :
    (Stmt.ifElse line cond yes no).ReadsBack := by
  have hsome : no.isEmpty = false := by cases no <;> simp_all [Stmt.isBlock, Stmt.isEmpty]
  refine readsBack_of_word rfl fun line tokens rest endLine fuel hspelled _ hfuel => ?_
  obtain ⟨cond', behind, hcond', hbranches, hlength, hparens⟩ :=
    exists_parens_of_spelling hcond hspelled
  simp only [hsome, Bool.false_eq_true, if_false] at hbranches
  obtain ⟨first, behind, rfl, hfirst, hbehind⟩ := Expr.exists_append_of_spelling hbranches
  obtain ⟨elseLine, second, rfl, hsecond⟩ := Expr.exists_cons_of_spelling hbehind
  simp only [List.length_append, List.length_cons] at hlength
  -- the first branch is a block, which may have an `else` behind it
  obtain ⟨t, hread, ht⟩ := hyes first (⟨.ident, "else", elseLine⟩ :: (second ++ rest)) endLine fuel
    hfirst (.inl hyesBlock) (by omega)
  obtain ⟨t', hread', ht'⟩ := hno second rest endLine fuel hsecond (.inl hnoBlock) (by omega)
  have hparens := hparens rest endLine
  rw [List.append_assoc] at hparens
  refine ⟨.ifElse line cond' t t', stmt_ifElse hparens hread ?_ hread', ?_⟩
  · simp [Tokens.isAt, Token.is]
  · simp only [Stmt.unlined, ht, ht', Expr.unlined_congr hcond']

lemma readsBack_while (hcond : cond.Balanced) (hblock : body.isBlock = true)
    (hbody : body.ReadsBack) : (Stmt.whileLoop line cond body).ReadsBack := by
  refine readsBack_of_word rfl fun line tokens rest endLine fuel hspelled _ hfuel => ?_
  obtain ⟨cond', behind, hcond', hbody', hlength, hparens⟩ :=
    exists_parens_of_spelling hcond hspelled
  obtain ⟨t, hread, ht⟩ := hbody behind rest endLine fuel hbody' (.inl hblock) (by omega)
  refine ⟨.whileLoop line cond' t, stmt_while (hparens rest endLine) hread, ?_⟩
  simp only [Stmt.unlined, ht, Expr.unlined_congr hcond']

lemma readsBack_do (hcond : cond.Balanced) (hblock : body.isBlock = true) (hbody : body.ReadsBack) :
    (Stmt.doLoop line cond body).ReadsBack := by
  refine readsBack_of_word rfl fun line tokens rest endLine fuel hspelled _ hfuel => ?_
  obtain ⟨first, behind, rfl, hfirst, hbehind⟩ := Expr.exists_append_of_spelling hspelled
  obtain ⟨whileLine, behind, rfl, hcond'⟩ := Expr.exists_cons_of_spelling hbehind
  obtain ⟨cond', behind', hspelled', hend, -, hparens⟩ := exists_parens_of_spelling hcond hcond'
  obtain ⟨ended, rfl⟩ := Expr.exists_singleton_of_spelling hend
  rw [List.length_append] at hfuel
  obtain ⟨t, hread, ht⟩ := hbody first (⟨.ident, "while", whileLine⟩ :: (behind ++ rest))
    endLine fuel hfirst (.inl hblock) (by omega)
  refine ⟨.doLoop line cond' t, ?_, by simp only [Stmt.unlined, ht, Expr.unlined_congr hspelled']⟩
  rw [List.append_assoc]
  have hwhile : Tokens.expect ⟨⟨.ident, "while", whileLine⟩ :: (behind ++ rest), endLine⟩ "while" =
      .ok ⟨behind ++ rest, endLine⟩ := by
    simp [Tokens.expect, Tokens.isAt, Token.is]
  rw [← skipIf_semicolon ended endLine rest]
  exact stmt_do hread hwhile (hparens rest endLine)

lemma readsBack_for (hinit : init.RunsTo ";") (hcond : cond.RunsTo ";") (hpost : post.Balanced)
    (hblock : body.isBlock = true) (hbody : body.ReadsBack) :
    (Stmt.forLoop line init cond post body).ReadsBack := by
  refine readsBack_of_word rfl fun line tokens rest endLine fuel hspelled _ hfuel => ?_
  obtain ⟨opened, tokens, rfl, hspelled₀⟩ := Expr.exists_cons_of_spelling hspelled
  obtain ⟨init', behind, hinit', hspelled₁, hlength, hread₁⟩ :=
    exists_through_of_spelling hinit hspelled₀
  obtain ⟨cond', behind, hcond', hspelled₂, hlength', hread₂⟩ :=
    exists_through_of_spelling hcond hspelled₁
  obtain ⟨post', behind, hpost', hspelled₃, hlength'', hread₃⟩ :=
    exists_through_of_spelling hpost.runsTo hspelled₂
  rw [List.length_cons] at hfuel
  obtain ⟨t, hread, ht⟩ := hbody behind rest endLine fuel hspelled₃ (.inl hblock) (by omega)
  refine ⟨.forLoop line init' cond' post' t,
    stmt_for (hread₁ rest endLine) (hread₂ rest endLine) (hread₃ rest endLine) hread, ?_⟩
  simp only [Stmt.unlined, ht, Expr.unlined_congr hinit', Expr.unlined_congr hcond',
    Expr.unlined_congr hpost']

lemma readsBack_return (hvalue : value.RunsTo ";") : (Stmt.returnValue line value).ReadsBack := by
  refine readsBack_of_word rfl fun line tokens rest endLine fuel hspelled _ _ => ?_
  obtain ⟨value', hvalue', hread⟩ := exists_through_of_spelling_stop hvalue hspelled
  exact ⟨.returnValue line value', stmt_return (hread rest endLine),
    by simp only [Stmt.unlined, Expr.unlined_congr hvalue']⟩

lemma readsBack_revert (hargs : args.RunsTo ";") : (Stmt.revert line args).ReadsBack := by
  refine readsBack_of_word rfl fun line tokens rest endLine fuel hspelled _ _ => ?_
  obtain ⟨args', hargs', hread⟩ := exists_through_of_spelling_stop hargs hspelled
  exact ⟨.revert line args', stmt_revert (hread rest endLine),
    by simp only [Stmt.unlined, Expr.unlined_congr hargs']⟩

lemma readsBack_emit {event : Text} (hargs : args.RunsTo ";") :
    (Stmt.emit line event args).ReadsBack := by
  refine readsBack_of_word rfl fun line tokens rest endLine fuel hspelled _ _ => ?_
  have hrun : Expr.RunsTo ";" (⟨.ident, event, 0⟩ :: args) := hargs.cons (by simp)
  obtain ⟨run', hrun', hread⟩ := exists_through_of_spelling_stop hrun hspelled
  obtain ⟨eventLine, args', rfl, hargs'⟩ := Expr.exists_cons_of_spelling hrun'
  exact ⟨.emit line event args', stmt_emit (hread rest endLine),
    by simp only [Stmt.unlined, Expr.unlined_congr hargs']⟩

lemma balanced_messageRun (message : Text) : (messageRun message).Balanced := by
  rw [messageRun]
  split
  · rfl
  · simp [Expr.Balanced, Expr.depthBehind?, Token.depthBehind?, Token.opens, Token.closes, Token.is]

lemma unquoted_literal (message : Text) : unquoted (34 :: (message ++ [34])) = message := by
  have hlast : (34 :: (message ++ [34])).getLast? = some 34 := by
    rw [← List.cons_append, List.getLast?_concat]
  simp [unquoted, isQuote, hlast]

/-- Condition and message are told apart by the comma between them. -/
lemma unlined_checkedStmt {message : Text} {internal : Bool} {args' : Expr} (line line' : Nat)
    (hcond : cond.RunsTo ",") (h : args'.spelling = Expr.spelling (cond ++ messageRun message)) :
    (checkedStmt line args' internal).unlined =
      (Stmt.require line' cond message internal).unlined := by
  obtain ⟨cond', run, rfl, hcond', hrun⟩ :=
    Expr.exists_append_of_spelling (h.trans (Expr.spelling_append cond _))
  have hruns := hcond.congr hcond'
  rw [messageRun] at hrun
  split at hrun
  · next hempty =>
    obtain rfl := Expr.spelling_eq_nil hrun
    obtain rfl : message = [] := List.isEmpty_iff.mp hempty
    simp [checkedStmt, hruns.topParts, Stmt.unlined, Expr.unlined_congr hcond']
  · obtain ⟨comma, run, rfl, hrun'⟩ := Expr.exists_cons_of_spelling hrun
    obtain ⟨literal, rfl⟩ := Expr.exists_singleton_of_spelling hrun'
    have hparts := hruns.topParts_cons (t := ⟨.punct, ",", comma⟩) rfl rfl
      (by simp [Token.opens, Token.is]) (by simp [Token.closes, Token.is])
      [⟨.string, 34 :: (message ++ [34]), literal⟩]
    have hlast : Expr.topParts [⟨.string, 34 :: (message ++ [34]), literal⟩] "," =
        [[⟨.string, 34 :: (message ++ [34]), literal⟩]] := by
      simp [Expr.topParts, Expr.topPartsFrom]
    simp [checkedStmt, hparts, hlast, unquoted_literal, Stmt.unlined, Expr.unlined_congr hcond']

lemma readsBack_require {message : Text} {internal : Bool} (hcond : cond.RunsTo ",") :
    (Stmt.require line cond message internal).ReadsBack := by
  refine readsBack_of_word rfl fun line tokens rest endLine fuel hspelled _ _ => ?_
  have hbalanced := hcond.balanced.append (balanced_messageRun message)
  obtain ⟨opened, tokens', rfl, -⟩ := Expr.exists_cons_of_spelling hspelled
  obtain ⟨args', behind, hargs', hend, -, hparens⟩ := exists_parens_of_spelling hbalanced hspelled
  obtain ⟨ended, rfl⟩ := Expr.exists_singleton_of_spelling hend
  refine ⟨checkedStmt line args' internal, ?_, unlined_checkedStmt line _ hcond hargs'⟩
  rw [← skipIf_semicolon ended endLine rest]
  exact stmt_require internal (hparens rest endLine)

lemma readsBack_break : (Stmt.breakLoop line).ReadsBack :=
  readsBack_of_word_semicolon rfl fun line _ _ _ _ => ⟨.breakLoop line, stmt_break, rfl⟩

lemma readsBack_continue : (Stmt.continueLoop line).ReadsBack :=
  readsBack_of_word_semicolon rfl fun line _ _ _ _ => ⟨.continueLoop line, stmt_continue, rfl⟩

lemma readsBack_placeholder : (Stmt.placeholder line).ReadsBack :=
  readsBack_of_word_semicolon rfl fun line _ _ _ _ => ⟨.placeholder line, stmt_placeholder, rfl⟩

lemma readsBack_expr (hvalue : value.RunsTo ";") (hstart : value.StartsPlainly) :
    (Stmt.expr line value).ReadsBack := by
  intro tokens rest endLine fuel hspelled _ hfuel
  obtain ⟨t, ht, hkind, htext⟩ := hstart
  obtain ⟨more, rfl⟩ : ∃ more, value = t :: more := List.head?_eq_some_iff.mp ht
  obtain ⟨value', hvalue', hread⟩ := exists_through_of_spelling_stop hvalue hspelled
  obtain ⟨line, tokens, rfl, -⟩ := Expr.exists_cons_of_spelling hspelled
  rw [List.length_cons] at hfuel
  obtain ⟨fuel, rfl⟩ := Nat.exists_eq_succ_of_ne_zero (n := fuel) (by omega)
  exact ⟨.expr line value', stmt_expr (t := ⟨t.kind, t.text, line⟩) hkind htext
    (hread rest endLine), by simp only [Stmt.unlined, Expr.unlined_congr hvalue']⟩

end Back

/-! ### Blocks -/

/-- A canonical statement starts with a token that neither ends a block nor goes on with a
choice. -/
lemma Stmt.Canonical.exists_render_eq_cons (h : t.Canonical) :
    ∃ kind text more, t.render = (kind, text) :: more ∧ kind ≠ .string ∧ text ≠ "\x7d" ∧
      text ≠ "else" := by
  cases h with
  | require =>
    refine ⟨_, _, _, rfl, by simp, ?_⟩
    split <;> simp
  | expr _ hstart =>
    obtain ⟨t, ht, hkind, htext⟩ := hstart
    obtain ⟨more, rfl⟩ := List.head?_eq_some_iff.mp ht
    simp only [statementWords, List.mem_cons, List.not_mem_nil, or_false, not_or] at htext
    exact ⟨t.kind, t.text, _, rfl, hkind, htext.2.1, htext.2.2.2.2.2.1⟩
  | _ => exact ⟨_, _, _, rfl, by simp, by simp, by simp⟩

lemma Stmt.Canonical.isEmpty_eq_false (h : t.Canonical) : t.isEmpty = false := by
  cases h <;> rfl

/-- Behind a statement of a block stands no `else`. -/
lemma isAt_else_of_renderAll (hbody : ∀ s ∈ body, s.Canonical)
    (h : tokens.spelling = Stmt.renderAll body) (closed endLine : Nat) (rest : List Token) :
    Tokens.isAt ⟨tokens ++ ⟨.punct, "\x7d", closed⟩ :: rest, endLine⟩ "else" = false := by
  cases body with
  | nil =>
    obtain rfl := Expr.spelling_eq_nil h
    simp [Tokens.isAt, Token.is]
  | cons s body =>
    obtain ⟨kind, text, more, hrender, -, -, helse⟩ :=
      (hbody s List.mem_cons_self).exists_render_eq_cons
    rw [Stmt.renderAll, hrender] at h
    obtain ⟨line, tokens, rfl, -⟩ := Expr.exists_cons_of_spelling h
    simp [Tokens.isAt, Token.is, helse]

/-- The statements of a block are read back one by one, up to the brace behind them. -/
lemma stmts_renderAll (hbody : ∀ s ∈ body, s.Canonical) (hback : ∀ s ∈ body, s.ReadsBack)
    (opened closed endLine : Nat) (rest : List Token) (h : tokens.spelling = Stmt.renderAll body)
    {fuel : Nat} (hfuel : 3 * tokens.length + 1 ≤ fuel) :
    ∃ body', stmts fuel opened ⟨tokens ++ ⟨.punct, "\x7d", closed⟩ :: rest, endLine⟩ =
      .ok (body', ⟨rest, endLine⟩) ∧ Stmt.unlinedAll body' = Stmt.unlinedAll body := by
  obtain ⟨fuel, rfl⟩ := Nat.exists_eq_succ_of_ne_zero (n := fuel) (by omega)
  induction body generalizing tokens fuel with
  | nil =>
    obtain rfl := Expr.spelling_eq_nil h
    exact ⟨[], by simp [stmts, Tokens.isAt, Token.is], rfl⟩
  | cons s body ih =>
    obtain ⟨kind, text, more, hrender, hkind, hbrace, -⟩ :=
      (hbody s List.mem_cons_self).exists_render_eq_cons
    obtain ⟨first, behind, rfl, hfirst, hbehind⟩ := Expr.exists_append_of_spelling h
    have hrest := isAt_else_of_renderAll (fun u hu => hbody u (List.mem_cons_of_mem s hu)) hbehind
      closed endLine rest
    obtain ⟨line, first', rfl, -⟩ := Expr.exists_cons_of_spelling (hfirst.trans hrender)
    simp only [List.length_append, List.length_cons] at hfuel
    obtain ⟨s', hread, hs'⟩ := hback s List.mem_cons_self _ _ endLine fuel hfirst (.inr hrest)
      (by simp only [List.length_cons]; omega)
    obtain ⟨fuel, rfl⟩ := Nat.exists_eq_succ_of_ne_zero (n := fuel) (by omega)
    obtain ⟨body', hmore, hbody'⟩ := ih (fun u hu => hbody u (List.mem_cons_of_mem s hu))
      (fun u hu => hback u (List.mem_cons_of_mem s hu)) hbehind fuel (by omega)
    refine ⟨s' :: body', stmts_cons ?_ (by simp) ?_ ?_ hmore, ?_⟩
    · simp [Tokens.isAt, Token.is, hbrace]
    · rwa [List.append_assoc]
    · rw [← Stmt.isEmpty_unlined, hs', Stmt.isEmpty_unlined]
      exact (hbody s List.mem_cons_self).isEmpty_eq_false
    · simp only [Stmt.unlinedAll, hs', hbody']

lemma readsBack_block {line : Nat} (hbody : ∀ s ∈ body, s.Canonical)
    (hback : ∀ s ∈ body, s.ReadsBack) : (Stmt.block line body).ReadsBack := by
  intro tokens rest endLine fuel hspelled _ hfuel
  obtain ⟨opened, tokens, rfl, hinside⟩ := Expr.exists_cons_of_spelling hspelled
  obtain ⟨inside, behind, rfl, hbody', hclose⟩ := Expr.exists_append_of_spelling hinside
  obtain ⟨closed, rfl⟩ := Expr.exists_singleton_of_spelling hclose
  simp only [List.length_append, List.length_cons, List.length_nil] at hfuel
  obtain ⟨fuel, rfl⟩ := Nat.exists_eq_add_of_le' (show 2 ≤ fuel by omega)
  obtain ⟨statements, hread, hstatements⟩ := stmts_renderAll hbody hback opened closed
    endLine rest hbody' (show 3 * inside.length + 1 ≤ fuel by omega)
  refine ⟨.block opened statements, ?_, by simp only [Stmt.unlined, hstatements]⟩
  simpa using stmt_block hread

/-! ### All statements -/

lemma Stmt.Canonical.readsBack (h : t.Canonical) : t.ReadsBack := by
  induction h with
  | block hbody ih => exact readsBack_block hbody ih
  | ifThen hcond hyes _ ih => exact readsBack_ifThen hcond hyes ih
  | ifElse hcond hyes hno _ _ ih ih' => exact readsBack_ifElse hcond hyes hno ih ih'
  | whileLoop hcond hbody _ ih => exact readsBack_while hcond hbody ih
  | doLoop hcond hbody _ ih => exact readsBack_do hcond hbody ih
  | forLoop hinit hcond hpost hbody _ ih => exact readsBack_for hinit hcond hpost hbody ih
  | returnValue hvalue => exact readsBack_return hvalue
  | revert hargs => exact readsBack_revert hargs
  | require hcond => exact readsBack_require hcond
  | emit hargs => exact readsBack_emit hargs
  | breakLoop => exact readsBack_break
  | continueLoop => exact readsBack_continue
  | placeholder => exact readsBack_placeholder
  | expr hvalue hstart => exact readsBack_expr hvalue hstart

/-- **Reading inverts rendering**: the tokens of a canonical statement are read as that statement,
up to lines, with exactly the tokens behind them left over. -/
theorem stmt_render {t : Stmt} (ht : t.Canonical) {tokens : Expr}
    (hspelled : tokens.spelling = t.render)
    (rest : List Token) (endLine : Nat) (hrest : Tokens.isAt ⟨rest, endLine⟩ "else" = false)
      {fuel : Nat}
    (hfuel : Tokens.fuel ⟨tokens, endLine⟩ ≤ fuel) :
    ∃ t', stmt fuel ⟨tokens ++ rest, endLine⟩ = .ok (t', ⟨rest, endLine⟩) ∧
      t'.unlined = t.unlined :=
  ht.readsBack tokens rest endLine fuel hspelled (.inr hrest) (Nat.le_of_add_right_le hfuel)

/-- The run `f(a, b)`. -/
def sampleCall : Expr :=
  [⟨.ident, "f", 0⟩, ⟨.punct, "(", 0⟩, ⟨.ident, "a", 0⟩, ⟨.punct, ",", 0⟩, ⟨.ident, "b", 0⟩,
    ⟨.punct, ")", 0⟩]

/-- A loop without start and step around a choice and an event. -/
def sampleStmt : Stmt :=
  .forLoop 0 [] sampleCall [] (.block 0 [
    .ifElse 0 sampleCall (.block 0 [.require 0 sampleCall "bad" false])
      (.block 0 [.expr 0 sampleCall, .breakLoop 0]),
    .emit 0 "Done" [⟨.punct, "(", 0⟩, ⟨.punct, ")", 0⟩]])

lemma canonical_sampleStmt : sampleStmt.Canonical := by
  have hchecked : Stmt.Canonical (.block 0 [.require 0 sampleCall "bad" false]) :=
    .block (List.forall_mem_singleton.mpr (.require (by decide)))
  have hcalled : Stmt.Canonical (.block 0 [.expr 0 sampleCall, .breakLoop 0]) :=
    .block (List.forall_mem_cons.mpr
      ⟨.expr (by decide) ⟨_, rfl, by decide, by decide⟩, List.forall_mem_singleton.mpr .breakLoop⟩)
  have hchoice :=
    @Stmt.Canonical.ifElse 0 _ _ _ (show sampleCall.Balanced by decide) rfl rfl hchecked hcalled
  exact .forLoop (by decide) (by decide) (by decide) rfl (.block (List.forall_mem_cons.mpr
    ⟨hchoice, List.forall_mem_singleton.mpr (.emit (by decide))⟩))

/-- The loop is read back from its tokens, up to the brace behind it. -/
theorem stmt_render_sample : sampleStmt.Canonical ∧
    ∃ t', stmt 200 ⟨sampleStmt.render.map (fun (kind, text) => ⟨kind, text, 7⟩) ++
      [⟨.punct, "\x7d", 8⟩], 9⟩ = .ok (t', ⟨[⟨.punct, "\x7d", 8⟩], 9⟩) ∧
      t'.unlined = sampleStmt.unlined := by
  refine ⟨canonical_sampleStmt, stmt_render canonical_sampleStmt ?_ _ _ (by decide) (by decide)⟩
  simp [Expr.spelling, Function.comp_def]

end ContractAudit.Source
