import ContractAudit.Proofs.Source.Lexemes
import ContractAudit.Proofs.Source.Literals

/-!
The grammar of constant expressions.

A `Tree` is a constant expression with its structure, and `Tree.denote` its value. `Tree.render`
writes a tree out as tokens, with no brackets but its own.

* `Tree.Proper`: operands bind tightly enough for the operators beside them, so that the rendering
  is read as the same tree. Powers associate to the right and all other operators to the left.
* `Tree.limit`: how tightly an operator may bind that takes the tree in front of it as its left
  operand (`Tree.joins_iff`).
* `Reads`: an expression is the rendering of a proper tree with the given value.
-/

namespace ContractAudit.Source

/-! ### Operators -/

lemma mem_of_lookup {β : Type} {table : List (Text × β)} {key : Text} {value : β}
    (h : table.lookup key = some value) : (key, value) ∈ table := by
  obtain ⟨before, behind, rfl, -⟩ := List.lookup_eq_some_iff.mp h
  exact List.mem_append_right before (.head _)

variable {op : BinaryOp}

namespace BinaryOp

/-- How the operator is written. -/
def symbol : BinaryOp → Text
  | .or => "||"
  | .and => "&&"
  | .eq => "=="
  | .ne => "!="
  | .lt => "<"
  | .gt => ">"
  | .le => "<="
  | .ge => ">="
  | .bitOr => "|"
  | .bitXor => "^"
  | .bitAnd => "&"
  | .shiftLeft => "<<"
  | .shiftRight => ">>"
  | .add => "+"
  | .sub => "-"
  | .mul => "*"
  | .div => "/"
  | .mod => "%"
  | .pow => "**"

lemma ofSymbol?_eq_some_iff {text : Text} :
    ofSymbol? text = some op ↔ text = op.symbol := by
  have htable : ∀ entry ∈ table, entry.1 = entry.2.symbol := by decide
  constructor
  · exact fun h => htable _ (mem_of_lookup h)
  · rintro rfl
    cases op <;> decide

/-- Whether operands that bind as tightly as `left` and `right` can stand beside the operator
without brackets: powers associate to the right, all other operators to the left. -/
def Joins (op : BinaryOp) (left right : Nat) : Prop :=
  if op = .pow then op.precedence < left ∧ op.precedence ≤ right
  else op.precedence ≤ left ∧ op.precedence < right

instance (op : BinaryOp) (left right : Nat) : Decidable (op.Joins left right) :=
  inferInstanceAs (Decidable (if op = .pow then _ ∧ _ else _ ∧ _))

lemma precedence_pos (op : BinaryOp) : 0 < op.precedence := by
  cases op <;> decide

lemma precedence_le (op : BinaryOp) : op.precedence ≤ 11 := by
  cases op <;> decide

lemma precedence_eq_iff (op : BinaryOp) : op.precedence = 11 ↔ op = .pow := by
  cases op <;> decide

lemma lexicalKind_symbol (op : BinaryOp) : lexicalKind op.symbol = .punct := by
  cases op <;> decide

lemma rightBound_lt (op : BinaryOp) : op.rightBound < 12 := by
  cases op <;> decide

lemma rightBound_eq (op : BinaryOp) :
    op.rightBound = if op = .pow then op.precedence - 1 else op.precedence := by
  cases op <;> rfl

end BinaryOp

namespace UnaryOp

/-- How the operator is written. -/
def symbol : UnaryOp → Text
  | .neg => "-"
  | .complement => "~"
  | .not => "!"

lemma ofSymbol?_eq_some_iff {text : Text} {op : UnaryOp} :
    ofSymbol? text = some op ↔ text = op.symbol := by
  have htable : ∀ entry ∈ ([("-", .neg), ("~", .complement), ("!", .not)] : List (Text × UnaryOp)),
      entry.1 = entry.2.symbol := by decide
  constructor
  · exact fun h => htable _ (mem_of_lookup h)
  · rintro rfl
    cases op <;> decide

lemma lexicalKind_symbol (op : UnaryOp) : lexicalKind op.symbol = .punct := by
  cases op <;> decide

end UnaryOp

lemma lexicalKind_unit {unit : Text} {factor : Nat} (h : unitFactor? unit = some factor) :
    lexicalKind unit = .ident := by
  have htable := mem_of_lookup h
  simp only [List.mem_cons, Prod.mk.injEq, List.not_mem_nil, or_false] at htable
  rcases htable with h | h | h | h | h | h | h | h <;> rw [h.1] <;> rfl

/-! ### Trees -/

/-- A constant expression: a number literal with or without a unit, a truth value, a name, operators
and brackets. -/
inductive Tree where
  | number (literal : Text) (unit : Option Text)
  | truth (value : Bool)
  | name (x : Text)
  | unary (op : UnaryOp) (operand : Tree)
  | binary (op : BinaryOp) (left right : Tree)
  | paren (inside : Tree)
deriving DecidableEq, Repr

namespace Tree

/-- How tightly a tree holds together: a binary operator as its table says, everything else tighter
than any of them. -/
def level : Tree → Nat
  | .binary op _ _ => op.precedence
  | _ => 12

/-- Whether the tree is the one that its rendering is read as. -/
def Proper : Tree → Prop
  | .number _ _ => True
  | .truth _ => True
  | .name x => x ≠ "true" ∧ x ≠ "false"
  | .unary _ operand => operand.Proper ∧ operand.level = 12
  | .binary op left right => left.Proper ∧ right.Proper ∧ op.Joins left.level right.level
  | .paren inside => inside.Proper

instance decidableProper : (t : Tree) → Decidable t.Proper
  | .number _ _ => .isTrue trivial
  | .truth _ => .isTrue trivial
  | .name x => inferInstanceAs (Decidable (x ≠ _ ∧ x ≠ _))
  | .unary _ operand =>
    have := decidableProper operand
    inferInstanceAs (Decidable (_ ∧ _))
  | .binary _ left right =>
    have := decidableProper left
    have := decidableProper right
    inferInstanceAs (Decidable (_ ∧ _ ∧ _))
  | .paren inside => decidableProper inside

/-- A punctuation mark. -/
def mark (symbol : Text) : TokenKind × Text := (.punct, symbol)

/-- How a truth value is written. -/
def truthWord (value : Bool) : Text := if value then "true" else "false"

/-- The classes and texts of the tokens of a tree. -/
def render : Tree → List (TokenKind × Text)
  | .number literal none => [(.number, literal)]
  | .number literal (some unit) => [(.number, literal), (.ident, unit)]
  | .truth value => [(.ident, truthWord value)]
  | .name x => [(.ident, x)]
  | .unary op operand => mark op.symbol :: operand.render
  | .binary op left right => left.render ++ mark op.symbol :: right.render
  | .paren inside => mark "(" :: (inside.render ++ [mark ")"])

/-- The value of a tree, nothing if an operand has none. -/
def denote (env : Env) : Tree → Option Nat
  | .number literal none => literalMeaning? literal
  | .number literal (some unit) => do
    let value ← literalMeaning? literal
    let factor ← unitMeaning? unit
    return value * factor % 2 ^ 256
  | .truth value => some (if value then 1 else 0)
  | .name x => env x
  | .unary op operand => (operand.denote env).map op.meaning
  | .binary op left right => do
    let a ← left.denote env
    let b ← right.denote env
    op.meaning a b
  | .paren inside => inside.denote env

/-- The operators that can follow a tree as its left operand bind at most as tightly as this. -/
def limit : Tree → Nat
  | .binary op _ _ => op.rightBound
  | _ => 11

/-- An operator can have a tree as its left operand if it does not bind tighter than the limit. -/
lemma le_limit_iff {left : Tree} :
    op.precedence ≤ left.limit ↔
      if op = .pow then op.precedence < left.level else op.precedence ≤ left.level := by
  have hle := op.precedence_le
  have hpow := op.precedence_eq_iff
  cases left with
  | binary op' =>
    have hle' := op'.precedence_le
    have hpow' := op'.precedence_eq_iff
    rw [limit, level, BinaryOp.rightBound_eq]
    split <;> split <;> grind
  | _ =>
    simp only [limit, level]
    split <;> omega

lemma joins_iff {left right : Tree} :
    op.Joins left.level right.level ↔ op.precedence ≤ left.limit ∧ op.rightBound < right.level := by
  have hle := op.precedence_le
  have hpow := op.precedence_eq_iff
  rw [le_limit_iff, BinaryOp.Joins, BinaryOp.rightBound_eq]
  split <;> grind

lemma level_pos (t : Tree) : 0 < t.level := by
  cases t with
  | binary op => exact op.precedence_pos
  | _ => exact Nat.succ_pos 11

lemma limit_le (t : Tree) : t.limit ≤ 11 := by
  cases t with
  | binary op => exact Nat.le_of_lt_succ op.rightBound_lt
  | _ => exact Nat.le_refl 11

lemma lt_level_of_joins {left right bound : Nat} (h : op.Joins left right)
    (hbound : bound < op.precedence) :
    bound < left := by
  rw [BinaryOp.Joins] at h
  split at h <;> omega

/-- What binds looser than a tree can follow it. -/
lemma le_limit_of_lt {t : Tree} {n : Nat} (h : n < t.level) : n ≤ t.limit := by
  cases t with
  | binary op =>
    rw [level] at h
    rw [limit, BinaryOp.rightBound_eq]
    split <;> omega
  | _ => exact Nat.le_of_lt_succ h

/-- The value of a tree is a word if the values of names are. -/
lemma denote_lt {env : Env} (henv : ∀ x n, env x = some n → n < wordCount) {t : Tree} {n : Nat}
    (h : t.denote env = some n) : n < wordCount := by
  have hliteral : ∀ {literal n}, literalMeaning? literal = some n → n < wordCount := by
    intro literal n hn
    rw [← literalWord?_eq] at hn
    obtain ⟨i, -, rfl⟩ := Option.map_eq_some_iff.mp hn
    exact toWord_lt i
  induction t generalizing n with
  | number literal unit =>
    cases unit with
    | none => exact hliteral h
    | some unit =>
      obtain ⟨value, -, h⟩ := Option.bind_eq_some_iff.mp h
      obtain ⟨factor, -, h⟩ := Option.bind_eq_some_iff.mp h
      exact Option.some.inj h ▸ Nat.mod_lt _ wordCount_pos
  | truth value => exact Option.some.inj h ▸ truthValue_lt _
  | name x => exact henv x n h
  | unary op operand ih =>
    obtain ⟨a, -, rfl⟩ := Option.map_eq_some_iff.mp h
    exact op.meaning_lt a
  | binary op left right ihleft ihright =>
    obtain ⟨a, ha, h⟩ := Option.bind_eq_some_iff.mp h
    obtain ⟨b, hb, h⟩ := Option.bind_eq_some_iff.mp h
    exact BinaryOp.meaning_lt (ihleft ha) (ihright hb) h
  | paren inside ih => exact ih h

end Tree

/-! ### Renderings -/

/-- The classes and texts of the tokens of an expression. -/
def Expr.spelling (e : Expr) : List (TokenKind × Text) := e.map fun t => (t.kind, t.text)

lemma Expr.spelling_eq_cons {e : Expr} {kind : TokenKind} {text : Text}
    {more : List (TokenKind × Text)} (h : e.spelling = (kind, text) :: more) :
    ∃ t rest, e = t :: rest ∧ t.kind = kind ∧ t.text = text ∧ Expr.spelling rest = more := by
  obtain ⟨t, rest, rfl, ht, hrest⟩ := List.map_eq_cons_iff.mp h
  cases ht
  exact ⟨t, rest, rfl, rfl, rfl, hrest⟩

lemma Expr.spelling_eq_nil {e : Expr} (h : e.spelling = []) : e = [] := List.map_eq_nil_iff.mp h

/-- The class of every token is the one its text has. -/
def Expr.Lexed (e : Expr) : Prop := ∀ t ∈ e, t.kind = lexicalKind t.text

/-- `e` is a rendering of the proper tree `t`, whose value is `n`. -/
structure Reads (env : Env) (e : Expr) (t : Tree) (n : Nat) : Prop where
  proper : t.Proper
  spelled : e.spelling = t.render
  value : t.denote env = some n

namespace Reads

-- its equations are made once, here, and not by each of the lemmas below
attribute [local simp] Tree.render

variable {env : Env} {t : Token} {n : Nat}

lemma number (hkind : t.kind = .number) (h : literalWord? t.text = some n) :
    Reads env [t] (.number t.text none) n :=
  ⟨trivial, by simp [Expr.spelling, Tree.render, hkind], (literalWord?_eq _).symm.trans h⟩

lemma numberOf {unit : Token} {factor : Nat} (hkind : t.kind = .number) (hunit : unit.kind = .ident)
    (h : literalWord? t.text = some n) (hfactor : unitFactor? unit.text = some factor) :
    Reads env [t, unit] (.number t.text (some unit.text)) (n * factor % wordCount) where
  proper := trivial
  spelled := by simp [Expr.spelling, Tree.render, hkind, hunit]
  value := by
    rw [Tree.denote, ← literalWord?_eq, ← unitFactor?_eq, h, hfactor]
    rfl

lemma truth (value : Bool) (hkind : t.kind = .ident) (h : t.text = Tree.truthWord value) :
    Reads env [t] (.truth value) (if value then 1 else 0) :=
  ⟨trivial, by simp [Expr.spelling, Tree.render, hkind, h], rfl⟩

lemma name (hkind : t.kind = .ident) (hne : t.text ≠ "true" ∧ t.text ≠ "false")
    (h : env t.text = some n) : Reads env [t] (.name t.text) n :=
  ⟨hne, by simp [Expr.spelling, Tree.render, hkind], h⟩

lemma unary {e : Expr} {t : Tree} (h : Reads env e t n) (ht : t.level = 12) {mark : Token}
    {op : UnaryOp} (hkind : mark.kind = .punct) (htext : mark.text = op.symbol) :
    Reads env (mark :: e) (.unary op t) (op.apply n) where
  proper := ⟨h.proper, ht⟩
  spelled := by
    rw [Tree.render, ← h.spelled, Tree.mark, ← hkind, ← htext]
    rfl
  value := by
    rw [Tree.denote, h.value, op.apply_eq_meaning]
    rfl

lemma binary (henv : ∀ x n, env x = some n → n < wordCount) {front behind : Expr}
    {left right : Tree} {a b : Nat} (hleft : Reads env front left a)
    (hright : Reads env behind right b) {mark : Token} (hkind : mark.kind = .punct)
    (htext : mark.text = op.symbol) (hjoins : op.Joins left.level right.level)
    (hvalue : op.apply a b = some n) :
    Reads env (front ++ mark :: behind) (.binary op left right) n where
  proper := ⟨hleft.proper, hright.proper, hjoins⟩
  spelled := by
    rw [Tree.render, ← hleft.spelled, ← hright.spelled, Tree.mark, ← hkind, ← htext]
    simp [Expr.spelling]
  value := by
    rw [op.apply_eq_meaning (Tree.denote_lt henv hleft.value) (Tree.denote_lt henv hright.value)]
      at hvalue
    simp [Tree.denote, hleft.value, hright.value, hvalue]

lemma paren {e : Expr} {t : Tree} (h : Reads env e t n) {first last : Token}
    (hfirst : first.kind = .punct) (hopen : first.text = "(") (hlast : last.kind = .punct)
    (hclose : last.text = ")") : Reads env (first :: (e ++ [last])) (.paren t) n where
  proper := h.proper
  spelled := by
    rw [Tree.render, ← h.spelled]
    simp [Expr.spelling, Tree.mark, hfirst, hopen, hlast, hclose]
  value := h.value

end Reads

end ContractAudit.Source
