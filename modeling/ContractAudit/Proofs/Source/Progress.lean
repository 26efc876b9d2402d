import Mathlib.Data.List.Infix
import ContractAudit.Proofs.Source.Runs

/-!
The parser comes to an end on every text.

* `Tokens.Keeps`, `Tokens.Advances`: what is left behind a parser is what is left of the same file,
  and for the second at least one token has been read.
* `ParseError.ArisesIn`: an error that names a line of the tokens left, and is not a bound that was
  reached.
* `Tokens.Ends`: a reading of the tokens ends, with a result of the given kind or such an error.
  Readings are put together by `Ends.bind` and `Ends.andThen`, so that each parser takes one lemma.
* `ends_statements`: statements end if the fuel is three times the number of tokens, and one more.
  All calls that the three parsers of statements make go on with less fuel, and every third of them
  with fewer tokens.
* `parse_ends`: every text is parsed or refused, and every loop ends because each of its steps reads
  a token.
-/

namespace ContractAudit.Source

variable {s : Tokens} {fuel : Nat}

namespace Tokens

/-! ### Positions -/

/-- What is left is a rest of the same file. -/
structure Keeps (s left : Tokens) : Prop where
  endLine : left.endLine = s.endLine
  suffix : left.list <:+ s.list

/-- What is left is a rest of the same file, and at least one token has been read. -/
structure Advances (s left : Tokens) : Prop extends s.Keeps left where
  shorter : left.list.length < s.list.length

lemma Keeps.refl (s : Tokens) : s.Keeps s := ⟨rfl, List.suffix_rfl⟩

variable {s u v : Tokens}

lemma Keeps.trans (h : s.Keeps u) (h' : u.Keeps v) : s.Keeps v :=
  ⟨h'.endLine.trans h.endLine, h'.suffix.trans h.suffix⟩

lemma Advances.keeps (h : s.Advances u) : s.Keeps u := h.toKeeps

lemma Advances.trans (h : s.Advances u) (h' : u.Keeps v) : s.Advances v :=
  ⟨h.keeps.trans h', Nat.lt_of_le_of_lt h'.suffix.length_le h.shorter⟩

lemma Keeps.advances (h : s.Keeps u) (h' : u.Advances v) : s.Advances v :=
  ⟨h.trans h'.keeps, Nat.lt_of_lt_of_le h'.shorter h.suffix.length_le⟩

/-- The last token that has been read. -/
lemma Advances.exists_last {left : Tokens} (h : s.Advances left) :
    ∃ run t, s.list = run ++ t :: left.list := by
  obtain ⟨read, hread⟩ := h.suffix
  have hne : read ≠ [] := by
    rintro rfl
    exact absurd h.shorter (by simp [← hread])
  refine ⟨read.dropLast, read.getLast hne, ?_⟩
  rw [List.append_cons, List.dropLast_append_getLast, hread]

lemma keeps_rest (s : Tokens) : s.Keeps s.rest := ⟨rfl, List.drop_suffix 1 s.list⟩

lemma advances_rest (h : s.list ≠ []) : s.Advances s.rest :=
  ⟨s.keeps_rest, by
    simp only [rest, List.length_drop]
    exact Nat.sub_lt (List.length_pos_iff.mpr h) Nat.one_pos⟩

lemma ne_nil_of_isAt {text : Text} (h : s.isAt text = true) : s.list ≠ [] := by
  rintro hnil
  simp [isAt, hnil] at h

lemma keeps_skipIf (s : Tokens) (text : Text) : s.Keeps (s.skipIf text) := by
  rw [skipIf]
  split
  · exact s.keeps_rest
  · exact .refl s

/-! ### Errors -/

/-- The lines of the tokens, and the line on which their text ends. -/
def lines (s : Tokens) : List Nat := s.list.map (·.line) ++ [s.endLine]

lemma line_mem_lines (s : Tokens) : s.line ∈ s.lines := by
  rw [line, lines]
  split
  · next h => simp [h]
  · next h => simp [h]

lemma Keeps.lines_subset {left : Tokens} (h : s.Keeps left) : left.lines ⊆ s.lines := by
  rw [lines, lines, h.endLine]
  exact List.append_subset.mpr ⟨List.Subset.trans (List.map_subset _ h.suffix.subset)
    (List.subset_append_left ..), List.subset_append_right ..⟩

end Tokens

/-- The error names a line of the tokens, and is not that a bound was reached. -/
structure ParseError.ArisesIn (s : Tokens) (e : ParseError) : Prop where
  line : e.line ∈ s.lines
  fault : e.fault ≠ .outOfSteps

namespace Tokens

/-- A reading of the tokens ends: with a result of which `Q` holds, or with an error that arises in
them. -/
def Ends {α : Type} (s : Tokens) (r : Reading α) (Q : α → Prop) : Prop :=
  match r with
  | .ok a => Q a
  | .error e => e.ArisesIn s

section Ends

variable {α β : Type} {u : Tokens} {r r' : Reading α} {f : α → Reading β} {P Q : α → Prop}
    {R : β → Prop}

lemma ends_fail {fault : Fault} (h : fault ≠ .outOfSteps) : s.Ends (s.fail fault) Q :=
  ⟨s.line_mem_lines, h⟩

lemma ends_pure {a : α} (h : Q a) : s.Ends (pure a) Q := h

lemma Ends.mono (h : s.Ends r P) (himp : ∀ a, P a → Q a) : s.Ends r Q := by
  cases r with
  | ok a => exact himp a h
  | error e => exact h

/-- What ends from further on in the file ends. -/
lemma Ends.of_keeps (h : u.Ends r Q) (hkeeps : s.Keeps u) : s.Ends r Q := by
  cases r with
  | ok a => exact h
  | error e => exact ⟨hkeeps.lines_subset h.line, h.fault⟩

lemma Ends.bind (h : s.Ends r P) (hf : ∀ a, P a → s.Ends (f a) R) : s.Ends (r >>= f) R := by
  cases r with
  | ok a => exact hf a h
  | error e => exact h

lemma Ends.ite {c : Prop} [Decidable c] (h : c → s.Ends r Q) (h' : ¬c → s.Ends r' Q) :
    s.Ends (if c then r else r') Q := by
  split
  · next hc => exact h hc
  · next hc => exact h' hc

/-- One of two readings, and what comes behind either. -/
lemma Ends.iteBind {c : Prop} [Decidable c] (h : c → s.Ends r P) (h' : ¬c → s.Ends r' P)
    (hf : ∀ a, P a → s.Ends (f a) R) : s.Ends (if c then r >>= f else r' >>= f) R :=
  .ite (fun hc => (h hc).bind hf) fun hc => (h' hc).bind hf

/-- A reading that goes on from where one stopped that has read a token. -/
lemma Ends.andFrom {left : α → Tokens} {left' : β → Tokens}
    (h : u.Ends r fun a => u.Advances (left a)) (hkeeps : s.Keeps u)
    (hf : ∀ a, u.Advances (left a) → (left a).Ends (f a) fun b => (left a).Keeps (left' b)) :
    s.Ends (r >>= f) fun b => s.Advances (left' b) :=
  (h.of_keeps hkeeps).bind fun a ha =>
    ((hf a ha).of_keeps (hkeeps.advances ha).keeps).mono fun _ hb => (hkeeps.advances ha).trans hb

/-- A reading that goes on behind one that has read a token. -/
lemma Ends.andThen {r : Reading (α × Tokens)} {f : α × Tokens → Reading β} {left' : β → Tokens}
    (h : u.Ends r fun a => u.Advances a.2) (hkeeps : s.Keeps u)
    (hf : ∀ a v, u.Advances v → v.Ends (f (a, v)) fun b => v.Keeps (left' b)) :
    s.Ends (r >>= f) fun b => s.Advances (left' b) :=
  h.andFrom hkeeps fun a ha => hf a.1 a.2 ha

lemma Ends.weaken {r : Reading (α × Tokens)} (h : s.Ends r fun a => s.Advances a.2) :
    s.Ends r fun a => s.Keeps a.2 :=
  h.mono fun _ ha => ha.keeps

end Ends

/-! ### Single tokens and runs -/

lemma ends_expect (s : Tokens) (text : Text) : s.Ends (s.expect text) s.Advances :=
  .ite (fun h => advances_rest (ne_nil_of_isAt h)) fun _ => ends_fail (by simp)

lemma ends_name (s : Tokens) : s.Ends s.name fun a => s.Advances a.2 := by
  rw [name]
  split
  · next h => exact .ite (fun _ => advances_rest (by simp [h])) fun _ => ends_fail (by simp)
  · exact ends_fail (by simp)

/-- A run and what is left are the tokens given, and a token is left. -/
lemma ends_takeUntil (stops : List Text) (endLine depth : Nat) (list : List Token) :
    Ends ⟨list, endLine⟩ (takeUntil stops endLine depth list) fun a => list = a.1 ++ a.2 ∧
      a.2 ≠ [] := by
  induction list generalizing depth with
  | nil => exact ⟨by simp [lines], by simp⟩
  | cons t rest ih =>
    have hkeeps : Keeps ⟨t :: rest, endLine⟩ ⟨rest, endLine⟩ := ⟨rfl, List.suffix_cons t rest⟩
    -- a step that goes on puts `t` in front of the run that is read behind it
    have hmore (depth : Nat) : Ends ⟨t :: rest, endLine⟩
        (takeUntil stops endLine depth rest >>= fun a => pure (t :: a.1, a.2))
        fun a => t :: rest = a.1 ++ a.2 ∧ a.2 ≠ [] :=
      ((ih depth).of_keeps hkeeps).bind fun a ha => ⟨congrArg (t :: ·) ha.1, ha.2⟩
    rw [Expr.takeUntil_cons]
    split_ifs with hstop
    · exact ⟨rfl, by simp⟩
    · cases t.depthBehind? depth with
      | none => exact ⟨by simp [lines], by simp⟩
      | some next => exact hmore next

lemma ends_runTo (s : Tokens) (stops : List Text) :
    s.Ends (s.runTo stops) fun a => s.Keeps a.2 ∧ a.2.list ≠ [] :=
  (ends_takeUntil stops s.endLine 0 s.list).bind fun _ ha =>
    ⟨⟨rfl, ha.1 ▸ List.suffix_append ..⟩, ha.2⟩

lemma ends_through (s : Tokens) (stop : Text) : s.Ends (s.through stop) fun a => s.Advances a.2 :=
  (s.ends_runTo [stop]).bind fun _ ha => ha.1.advances (advances_rest ha.2)

lemma ends_parens (s : Tokens) : s.Ends s.parens fun a => s.Advances a.2 :=
  (s.ends_expect "(").andFrom (.refl s) fun left _ => (left.ends_through ")").weaken

lemma ends_skipGroup (s : Tokens) : s.Ends s.skipGroup s.Keeps :=
  .ite (fun _ => s.ends_parens.bind fun _ ha => ha.keeps) fun _ => Keeps.refl s

lemma ends_skipDeclaration (s : Tokens) : s.Ends s.skipDeclaration s.Advances := by
  refine (s.ends_runTo [";", "\x7b"]).bind fun ⟨_, left⟩ ⟨hkeeps, hleft⟩ => ?_
  refine .ite (fun _ => hkeeps.advances (advances_rest hleft)) fun _ => ?_
  refine (left.ends_expect "\x7b").andFrom hkeeps fun u _ => ?_
  exact (u.ends_through "\x7d").bind fun _ ha => ha.keeps

end Tokens

/-! ### Statements -/

section Statements

open Tokens

variable {fuel : Nat} (hstmt : ∀ s : Tokens, 3 * s.list.length + 1 ≤ fuel →
  s.Ends (stmt fuel s) fun a => s.Advances a.2)

include hstmt

/-- A statement ends with one more level of fuel, if statements and blocks do with the fuel
given. -/
lemma ends_stmt_succ (hblock : ∀ s : Tokens, 3 * s.list.length ≤ fuel → 0 < fuel →
      s.Ends (block fuel s) fun a => s.Advances a.2)
    (s : Tokens) (hs : 3 * s.list.length + 1 ≤ fuel + 1) :
    s.Ends (stmt (fuel + 1) s) fun a => s.Advances a.2 := by
  rw [stmt]
  split
  · exact ends_fail (by simp)
  · next t behind hlist =>
    have hrest : s.Advances s.rest := advances_rest (by simp [hlist])
    have hlen := hrest.shorter
    refine .ite (fun _ => ends_fail (by simp)) fun _ => ?_
    refine .ite (fun _ => hblock s (by omega) (by omega)) fun _ => ?_
    refine .ite (fun _ => hrest) fun _ => ?_
    refine .ite (fun _ => ?_) fun _ => ?_
    · exact ((hblock s.rest (by omega) (by omega)).of_keeps hrest.keeps).mono
        fun _ h => hrest.keeps.advances h
    refine .ite (fun _ => ?_) fun _ => ?_
    · -- a condition, a branch, and another one behind `else`
      refine s.rest.ends_parens.andThen hrest.keeps fun cond u hu => ?_
      have hu := hu.shorter
      refine ((hstmt u (by omega)).andThen (.refl u) fun yes v hv => ?_).weaken
      have hv := hv.shorter
      have hv' := v.keeps_rest.suffix.length_le
      refine .ite (fun _ => ?_) fun _ => ends_pure (.refl v)
      refine ((hstmt v.rest (by omega)).andThen v.keeps_rest fun no w _ => ?_).weaken
      exact ends_pure (.refl w)
    refine .ite (fun _ => ?_) fun _ => ?_
    · -- a condition and the body of a loop
      refine s.rest.ends_parens.andThen hrest.keeps fun cond u hu => ?_
      have hu := hu.shorter
      refine ((hstmt u (by omega)).andThen (.refl u) fun body v _ => ?_).weaken
      exact ends_pure (.refl v)
    refine .ite (fun _ => ?_) fun _ => ?_
    · -- the body of a loop, and its condition behind `while`
      refine (hstmt s.rest (by omega)).andThen hrest.keeps fun body u _ => ?_
      refine ((u.ends_expect "while").andFrom (.refl u) fun v _ => ?_).weaken
      refine (v.ends_parens.andThen (.refl v) fun cond w _ => ?_).weaken
      exact ends_pure (w.keeps_skipIf ";")
    refine .ite (fun _ => ?_) fun _ => ?_
    · -- the three parts of a loop's header, and its body
      refine (s.rest.ends_expect "(").andFrom hrest.keeps fun u hu => ?_
      refine ((u.ends_through ";").andThen (.refl u) fun init v hv => ?_).weaken
      refine ((v.ends_through ";").andThen (.refl v) fun cond w hw => ?_).weaken
      refine ((w.ends_through ")").andThen (.refl w) fun post x hx => ?_).weaken
      have hshort := (((hu.trans hv.keeps).trans hw.keeps).trans hx.keeps).shorter
      refine ((hstmt x (by omega)).andThen (.refl x) fun body y _ => ?_).weaken
      exact ends_pure (.refl y)
    have hthrough (f : Expr → Stmt) :
        s.Ends (s.rest.through ";" >>= fun a => pure (f a.1, a.2)) fun a => s.Advances a.2 :=
      (s.rest.ends_through ";").andThen hrest.keeps fun _ u _ => ends_pure (.refl u)
    refine .ite (fun _ => hthrough _) fun _ => ?_
    refine .ite (fun _ => hthrough _) fun _ => ?_
    refine .ite (fun _ => ?_) fun _ => ?_
    · exact s.rest.ends_parens.andThen hrest.keeps fun _ u _ => ends_pure (u.keeps_skipIf ";")
    refine .ite (fun _ => hthrough _) fun _ => ?_
    refine .ite (fun _ => hrest.trans (s.rest.keeps_skipIf ";")) fun _ => ?_
    refine .ite (fun _ => hrest.trans (s.rest.keeps_skipIf ";")) fun _ => ?_
    refine .ite (fun _ => hrest.trans s.rest.keeps_rest) fun _ => ?_
    refine .ite (fun _ => ends_fail (by simp)) fun _ => ?_
    exact (s.ends_through ";").andThen (.refl s) fun _ u _ => ends_pure (.refl u)

/-- The statements of a block end with one more level of fuel, if single and several ones do with
the fuel given. -/
lemma ends_stmts_succ (hstmts : ∀ (opened : Nat) (s : Tokens), 3 * s.list.length + 2 ≤ fuel →
      s.Ends (stmts fuel opened s) fun a => s.Advances a.2)
    (opened : Nat) (s : Tokens) (hs : 3 * s.list.length + 2 ≤ fuel + 1) :
    s.Ends (stmts (fuel + 1) opened s) fun a => s.Advances a.2 := by
  rw [stmts]
  refine .ite (fun h => advances_rest (ne_nil_of_isAt h)) fun _ => ?_
  refine .ite (fun _ => ends_fail (by simp)) fun _ => ?_
  refine (hstmt s (by omega)).andThen (.refl s) fun first u hu => ?_
  have hu := hu.shorter
  refine ((hstmts opened u (by omega)).andThen (.refl u) fun more v _ => ?_).weaken
  exact ends_pure (.refl v)

end Statements

/-- The parsers of statements end if the fuel covers the tokens. -/
lemma ends_statements (fuel : Nat) :
    (∀ s : Tokens, 3 * s.list.length + 1 ≤ fuel → s.Ends (stmt fuel s) fun a => s.Advances a.2) ∧
    (∀ (opened : Nat) (s : Tokens), 3 * s.list.length + 2 ≤ fuel →
      s.Ends (stmts fuel opened s) fun a => s.Advances a.2) ∧
    (∀ s : Tokens, 3 * s.list.length ≤ fuel → 0 < fuel →
      s.Ends (block fuel s) fun a => s.Advances a.2) := by
  induction fuel with
  | zero => exact ⟨fun _ h => by omega, fun _ _ h => by omega, fun _ _ h => by omega⟩
  | succ fuel ih =>
    obtain ⟨hstmt, hstmts, hblock⟩ := ih
    refine ⟨ends_stmt_succ hstmt hblock, ends_stmts_succ hstmt hstmts, fun s hs _ => ?_⟩
    rw [block]
    refine (s.ends_expect "\x7b").andFrom (.refl s) fun u hu => ?_
    have hu := hu.shorter
    refine ((hstmts s.line u (by omega)).andThen (.refl u) fun body v _ => ?_).weaken
    exact Tokens.ends_pure (.refl v)

/-! ### Members of contracts -/

open Tokens

lemma ends_parameters (s : Tokens) : s.Ends (parameters s) fun a => s.Advances a.2 := by
  refine s.ends_parens.andThen (.refl s) fun inner u _ => ?_
  exact .ite (fun _ => ends_pure (.refl u)) fun _ => ends_pure (.refl u)

/-- A header ends if the bound covers the tokens, and gives the function no body. -/
lemma ends_functionHeader (f : Function) (hs : s.list.length < fuel) :
    s.Ends (functionHeader fuel f s) fun a => s.Keeps a.2 ∧ a.1.body? = f.body? := by
  induction fuel generalizing f s with
  | zero => omega
  | succ fuel ih =>
    have hgo : ∀ (f' : Function) (u : Tokens), f'.body? = f.body? → s.Advances u →
        s.Ends (functionHeader fuel f' u) fun a => s.Keeps a.2 ∧ a.1.body? = f.body? := by
      intro f' u hf hu
      have hlen := hu.shorter
      exact ((ih f' (by omega)).of_keeps hu.keeps).mono
        fun a ha => ⟨hu.keeps.trans ha.1, ha.2.trans hf⟩
    rw [functionHeader]
    refine .ite (fun _ => ⟨.refl s, rfl⟩) fun _ => ?_
    split
    · exact ends_fail (by simp)
    · next t behind hlist =>
      have hrest : s.Advances s.rest := advances_rest (by simp [hlist])
      refine .ite (fun _ => hgo _ _ rfl hrest) fun _ => ?_
      refine .ite (fun _ => hgo _ _ rfl hrest) fun _ => ?_
      refine .ite (fun _ => hgo _ _ rfl hrest) fun _ => ?_
      refine .ite (fun _ => ?_) fun _ => ?_
      · refine ((ends_parameters s.rest).of_keeps hrest.keeps).bind fun ⟨returns, u⟩ hu => ?_
        exact hgo _ u rfl (hrest.trans hu.keeps)
      refine .ite (fun _ => ?_) fun _ => ?_
      · refine (s.rest.ends_skipGroup.of_keeps hrest.keeps).bind fun u hu => ?_
        exact hgo _ u rfl (hrest.trans hu)
      refine .ite (fun _ => ends_fail (by simp)) fun _ => ?_
      refine (s.rest.ends_skipGroup.of_keeps hrest.keeps).bind fun u hu => ?_
      exact hgo _ u rfl (hrest.trans hu)

/-- A function ends, and one with a body ends on the line of the last token read. -/
lemma ends_functionAfter (kind : FunctionKind) (line : Nat) (s : Tokens) :
    s.Ends (functionAfter kind line s) fun a => s.Advances a.2 ∧
      (a.1.body? = none ∨ ∃ run t, s.list = run ++ t :: a.2.list ∧ a.1.endLine = t.line) := by
  unfold functionAfter
  refine .iteBind (fun _ => s.ends_name.weaken) (fun _ => Keeps.refl s) fun ⟨name, u⟩ hu => ?_
  refine .iteBind (P := fun a : List Param × Tokens => s.Keeps a.2) (fun _ => ?_) (fun _ => hu)
    fun ⟨params, v⟩ hv => ?_
  · exact ((ends_parameters u).of_keeps hu).mono fun _ ha => hu.trans ha.keeps
  refine ((ends_functionHeader _ (Nat.lt_succ_self _)).of_keeps hv).bind fun ⟨f, w⟩ ⟨hw, hbody⟩ =>
    ?_
  have hw := hv.trans hw
  refine .ite (fun h => ⟨hw.advances (advances_rest (ne_nil_of_isAt h)), .inl hbody⟩) fun _ => ?_
  refine (((ends_statements w.fuel).2.2 w (by simp only [fuel]; omega)
    (Nat.succ_pos _)).of_keeps hw).bind fun ⟨body, left⟩ hleft => ?_
  refine ends_pure ⟨hw.advances hleft, .inr ?_⟩
  obtain ⟨run, t, hrun⟩ := hleft.exists_last
  obtain ⟨before, hbefore⟩ := hw.suffix
  refine ⟨before ++ run, t, by rw [← hbefore, hrun, List.append_assoc], ?_⟩
  have htake : w.list.take (w.list.length - left.list.length) = run ++ [t] := by
    rw [hrun, List.append_cons, List.length_append, Nat.add_sub_cancel, List.take_left]
  simp [htake]

lemma ends_stateVariable (s : Tokens) : s.Ends (stateVariable s) fun a => s.Advances a.2 :=
  (s.ends_through ";").bind fun _ hu =>
    .ite (fun _ => ⟨s.line_mem_lines, by simp⟩) fun _ => ends_pure hu

lemma ends_member (c : Contract) (s : Tokens) : s.Ends (member c s) fun a => s.Advances a.2 := by
  have hfunction (kind : FunctionKind) (line : Nat) :
      s.rest.Ends (functionAfter kind line s.rest) fun a => s.rest.Advances a.2 :=
    (ends_functionAfter kind line s.rest).mono fun _ ha => ha.1
  rw [member]
  split
  · refine (hfunction .modifier s.line).andThen s.keeps_rest fun f u _ => ?_
    exact ends_pure (.refl u)
  · next kind _ _ =>
    refine (hfunction kind s.line).andThen s.keeps_rest fun f u _ => ?_
    exact ends_pure (.refl u)
  · refine .ite (fun _ => ?_) fun _ => ?_
    · exact s.ends_skipDeclaration.bind fun u hu => ends_pure hu
    · refine (ends_stateVariable s).andThen (.refl s) fun v u _ => ?_
      exact ends_pure (.refl u)

/-- The members of a contract end if the bound covers the tokens. -/
lemma ends_members (c : Contract) (hs : s.list.length < fuel) :
    s.Ends (members fuel c s) fun a => s.Advances a.2 := by
  induction fuel generalizing c s with
  | zero => omega
  | succ fuel ih =>
    rw [members]
    refine .ite (fun h => advances_rest (ne_nil_of_isAt h)) fun _ => ?_
    refine .ite (fun _ => ends_fail (by simp)) fun _ => ?_
    refine (ends_member c s).andThen (.refl s) fun c' u hu => ?_
    have hu := hu.shorter
    exact (ih c' (by omega)).weaken

lemma ends_baseList (s : Tokens) : s.Ends (baseList s) fun a => s.Keeps a.2 := by
  refine .ite (fun _ => ?_) fun _ => ends_pure (.refl s)
  refine ((s.rest.ends_runTo _).of_keeps s.keeps_rest).bind fun ⟨run, u⟩ hu => ?_
  exact ends_pure (s.keeps_rest.trans hu.1)

lemma ends_contract (s : Tokens) : s.Ends (contract s) fun a => s.Advances a.2 := by
  have hstart : s.Keeps (s.skipIf "abstract").rest := (s.keeps_skipIf _).trans (keeps_rest _)
  refine (ends_name _).andThen hstart fun name u _ => ?_
  refine (ends_baseList u).bind fun ⟨bases, v⟩ hv => ?_
  refine (((v.ends_expect "\x7b").andFrom hv fun w _ => ?_)).weaken
  exact (ends_members _ (Nat.lt_succ_self _)).weaken

/-! ### Units -/

/-- The declarations of a file end if the bound covers the tokens. -/
lemma ends_declarations (u : SourceUnit) (hs : s.list.length < fuel) :
    s.Ends (declarations fuel u s) fun _ => True := by
  induction fuel generalizing u s with
  | zero => omega
  | succ fuel ih =>
    have hgo (u : SourceUnit) (v : Tokens) (hv : s.Advances v) :
        s.Ends (declarations fuel u v) fun _ => True := by
      have hlen := hv.shorter
      exact (ih u (by omega)).of_keeps hv.keeps
    rw [declarations]
    refine .ite (fun _ => trivial) fun _ => ?_
    refine .ite (fun _ => (s.ends_through ";").bind fun a ha => hgo u a.2 ha) fun _ => ?_
    refine .ite (fun _ => (s.ends_through ";").bind fun a ha => hgo _ a.2 ha) fun _ => ?_
    refine .ite (fun _ => (ends_contract s).bind fun a ha => hgo _ a.2 ha) fun _ => ?_
    exact s.ends_skipDeclaration.bind fun v hv => hgo u v hv

/-- The condition of a checked statement is the first part of its arguments, of which there is
always one. -/
lemma checkedStmt_eq_require (line : Nat) (args : Expr) (internal : Bool) :
    ∃ cond parts message, args.topParts "," = cond :: parts ∧
      checkedStmt line args internal = .require line cond message internal := by
  obtain ⟨cond, parts, hparts⟩ := List.exists_cons_of_ne_nil (Expr.topPartsFrom_ne_nil "," 0 args)
  have hparts : args.topParts "," = cond :: parts := hparts
  refine ⟨cond, parts, ?_⟩
  rw [checkedStmt, hparts]
  split
  · next heq => exact ⟨_, rfl, by rw [(List.cons.inj heq).1]⟩
  · next heq => exact ⟨_, rfl, by rw [(List.cons.inj heq).1]⟩
  · next heq => exact ⟨_, rfl, by rw [(List.cons.inj heq).1]⟩
  · next heq => cases heq

/-- Whether a parser ends on whatever is left of a file, and reads at least one token if it
succeeds. -/
def Advancing {α : Type} (left : α → Tokens) (read : Tokens → Reading α) : Prop :=
  ∀ s : Tokens, s.Ends (read s) fun a => s.Advances (left a)

/-- **Every text is parsed or refused**: for a fault on one of its lines, and never because a bound
was reached. The parsers of declarations, members and statements read at least one token each time
they succeed and none behind the last, so that all loops end, with the bounds given or any larger
ones. The two places that look back at tokens find them: the end of a body and the condition of a
checked statement. -/
theorem parse_ends :
    (∀ path content, (∃ u, parse path content = .ok u) ∨
      ∃ e, parse path content = .error e ∧ e.ArisesIn (scan content)) ∧
    Advancing Prod.snd contract ∧ (∀ c, Advancing Prod.snd (member c)) ∧
      Advancing Prod.snd stateVariable ∧
    (∀ kind line, Advancing Prod.snd (functionAfter kind line)) ∧
      Advancing id Tokens.skipDeclaration ∧
    (∀ more, Advancing Prod.snd fun s => stmt (s.fuel + more) s) ∧
    (∀ more opened, Advancing Prod.snd fun s => stmts (s.fuel + more) opened s) ∧
    (∀ more c, Advancing Prod.snd fun s => members (s.list.length + 1 + more) c s) ∧
    (∀ more f (s : Tokens), s.Ends (functionHeader (s.list.length + 1 + more) f s) fun a =>
      s.Keeps a.2) ∧
    (∀ more u (s : Tokens), s.Ends (declarations (s.list.length + 1 + more) u s) fun _ => True) ∧
    (∀ kind line (s : Tokens), s.Ends (functionAfter kind line s) fun a =>
      a.1.body? = none ∨ ∃ run t, s.list = run ++ t :: a.2.list ∧ a.1.endLine = t.line) ∧
    ∀ line args internal, ∃ cond parts message, Expr.topParts args "," = cond :: parts ∧
      checkedStmt line args internal = .require line cond message internal := by
  refine ⟨fun path content => ?_, ends_contract, ends_member, ends_stateVariable,
    fun kind line s => ?_,
    ends_skipDeclaration, fun more s => ?_, fun more opened s => ?_, fun more c s =>
      ?_, fun more f s => ?_,
    fun more u s => ?_, fun kind line s => ?_, checkedStmt_eq_require⟩
  · have hends : (scan content).Ends (parse path content) fun _ => True :=
      ends_declarations _ (Nat.lt_succ_self _)
    cases hparse : parse path content with
    | ok u => exact .inl ⟨u, rfl⟩
    | error e =>
      rw [hparse] at hends
      exact .inr ⟨e, rfl, hends⟩
  · exact (ends_functionAfter kind line s).mono fun _ ha => ha.1
  · exact (ends_statements _).1 s (by simp only [fuel]; omega)
  · exact (ends_statements _).2.1 opened s (by simp only [fuel]; omega)
  · exact ends_members c (by omega)
  · exact (ends_functionHeader f (by omega)).mono fun _ ha => ha.1
  · exact ends_declarations u (by omega)
  · exact (ends_functionAfter kind line s).mono fun _ ha => ha.2

end ContractAudit.Source
