import Mathlib.Data.List.Infix
import ContractAudit.Proofs.Flow.Execution

/-!
How a draft grows while statements are lowered into it.

* `Extends`: blocks are only ever added or filled, and a block with a terminator is finished. What a
  finished draft has at a place it therefore shares with every draft before it (`RunsAt.extend`,
  `EndsAt.extend`).
* `Grows`: of the blocks that are there, lowering touches the current one alone.
* `Reserved`: blocks that were opened to be filled later. Lowering leaves them alone.
-/

namespace ContractAudit.Flow

open Source (Expr Stmt)

/-! ### Places in lists of blocks -/

variable {n : Nat}

lemma getElem?_of_prefix {α : Type} {old new : List α} (h : old <+: new) {x : α}
    (hx : old[n]? = some x) : new[n]? = some x := by
  obtain ⟨rest, rfl⟩ := h
  rwa [List.getElem?_append_left (List.getElem?_eq_some_iff.mp hx).1]

/-- The statements from number `k` of block `n` on start with ones seen as `events`. -/
def RunsAt (blocks : List DraftBlock) (n k : Nat) (events : List Event) : Prop :=
  ∃ b, blocks[n]? = some b ∧ events <+: (b.stmts.drop k).map Instr.event

/-- Block `n` has `k` statements and ends in `t`. -/
def EndsAt (blocks : List DraftBlock) (n k : Nat) (t : Terminator) : Prop :=
  ∃ b, blocks[n]? = some b ∧ b.stmts.length = k ∧ b.term = t

/-- Every block is still there, with its statements in front, and unchanged if it had a
terminator. -/
def Extends (old new : List DraftBlock) : Prop :=
  ∀ (n : Nat) (b : DraftBlock), old[n]? = some b →
    ∃ c, new[n]? = some c ∧ b.stmts <+: c.stmts ∧ (b.term ≠ .unreachable → c = b)

lemma Extends.trans {first second third : List DraftBlock} (h : Extends first second)
    (h' : Extends second third) : Extends first third := by
  intro n b hb
  obtain ⟨c, hc, hstmts, hterm⟩ := h n b hb
  obtain ⟨a, ha, hstmts', hterm'⟩ := h' n c hc
  refine ⟨a, ha, hstmts.trans hstmts', fun hb => ?_⟩
  obtain rfl := hterm hb
  exact hterm' hb

lemma RunsAt.extend {old new : List DraftBlock} {k : Nat} {events : List Event}
    (h : RunsAt old n k events) (hext : Extends old new) : RunsAt new n k events := by
  obtain ⟨b, hb, hevents⟩ := h
  obtain ⟨c, hc, hstmts, _⟩ := hext n b hb
  exact ⟨c, hc, hevents.trans ((hstmts.drop k).map Instr.event)⟩

lemma EndsAt.extend {old new : List DraftBlock} {k : Nat} {t : Terminator} (h : EndsAt old n k t)
    (ht : t ≠ .unreachable) (hext : Extends old new) : EndsAt new n k t := by
  obtain ⟨b, hb, hlength, rfl⟩ := h
  obtain ⟨c, hc, _, hterm⟩ := hext n b hb
  obtain rfl := hterm ht
  exact ⟨c, hc, hlength, rfl⟩

/-! ### Drafts -/

namespace Draft

/-- The current block has no terminator yet. -/
def Open (d : Draft) : Prop :=
  ∀ n, d.current = some n → ∃ b, d.blocks[n]? = some b ∧ b.term = .unreachable

/-- Where the next instruction goes: the current block and its number of statements. -/
def spot (d : Draft) : Option (Nat × Nat) :=
  d.current.map fun n => (n, (d.blocks[n]?.map (·.stmts.length)).getD 0)

/-- Block `n` waits to be filled. -/
def Reserved (d : Draft) (n : Nat) : Prop :=
  d.blocks[n]? = some ⟨[], .unreachable⟩ ∧ d.current ≠ some n

/-- From `d` to `e`, new blocks were added, and of the old ones only the current one was changed. -/
structure Grows (d e : Draft) : Prop where
  length_le : d.blocks.length ≤ e.blocks.length
  others : ∀ n < d.blocks.length, d.current ≠ some n → e.blocks[n]? = d.blocks[n]?
  current : ∀ n b, d.current = some n → d.blocks[n]? = some b →
    ∃ c, e.blocks[n]? = some c ∧ b.stmts <+: c.stmts
  stays : ∀ n, e.current = some n → d.current = some n ∨ d.blocks.length ≤ n
  isOpen : e.Open

variable {d e : Draft} {n : Nat}

lemma Open.lt (h : d.Open) (hn : d.current = some n) : n < d.blocks.length := by
  obtain ⟨b, hb, _⟩ := h n hn
  exact (List.getElem?_eq_some_iff.mp hb).1

lemma open_of_none (h : d.current = none) : d.Open := by
  intro n hn
  rw [h] at hn
  contradiction

/-- The block and the statement where an open draft stands. -/
lemma Open.spot_eq_some (h : d.Open) {k : Nat} (hspot : d.spot = some (n, k)) :
    d.current = some n ∧ ∃ b, d.blocks[n]? = some b ∧ b.stmts.length = k ∧
      b.term = .unreachable := by
  obtain ⟨m, hm, heq⟩ := Option.map_eq_some_iff.mp hspot
  obtain ⟨b, hb, hterm⟩ := h m hm
  simp only [hb, Option.map_some, Option.getD_some, Prod.mk.injEq] at heq
  obtain ⟨rfl, rfl⟩ := heq
  exact ⟨hm, b, hb, rfl, hterm⟩

lemma spot_congr (hb : e.blocks = d.blocks) (hc : e.current = d.current) : e.spot = d.spot := by
  rw [spot, spot, hb, hc]

namespace Grows

variable {d e f : Draft} {n : Nat}

lemma refl (h : d.Open) : Grows d d where
  length_le := Nat.le_refl _
  others _ _ _ := rfl
  current _ b _ hb := ⟨b, hb, List.prefix_rfl⟩
  stays _ hn := .inl hn
  isOpen := h

/-- A block that lowering did not start in is not the one it ends in. -/
lemma current_ne (h : Grows d e) (hlt : n < d.blocks.length) (hn : d.current ≠ some n) :
    e.current ≠ some n := by
  intro hcur
  rcases h.stays n hcur with hcur | hle
  · exact hn hcur
  · omega

lemma trans (h : Grows d e) (h' : Grows e f) : Grows d f where
  length_le := Nat.le_trans h.length_le h'.length_le
  others n hlt hn := by
    rw [h'.others n (Nat.lt_of_lt_of_le hlt h.length_le) (h.current_ne hlt hn), h.others n hlt hn]
  current n b hn hb := by
    obtain ⟨c, hc, hstmts⟩ := h.current n b hn hb
    by_cases hcur : e.current = some n
    · obtain ⟨a, ha, hstmts'⟩ := h'.current n c hcur hc
      exact ⟨a, ha, hstmts.trans hstmts'⟩
    · have hlt := (List.getElem?_eq_some_iff.mp hc).1
      exact ⟨c, (h'.others n hlt hcur).trans hc, hstmts⟩
  stays n hn := by
    rcases h'.stays n hn with hn | hle
    · exact h.stays n hn
    · exact .inr (Nat.le_trans h.length_le hle)
  isOpen := h'.isOpen

lemma toExtends (h : Grows d e) (hd : d.Open) : Extends d.blocks e.blocks := by
  intro n b hb
  by_cases hn : d.current = some n
  · obtain ⟨c, hc, hstmts⟩ := h.current n b hn hb
    obtain ⟨b', hb', hterm⟩ := hd n hn
    obtain rfl : b' = b := Option.some.inj (hb'.symm.trans hb)
    exact ⟨c, hc, hstmts, fun hne => absurd hterm hne⟩
  · have hlt := (List.getElem?_eq_some_iff.mp hb).1
    exact ⟨b, (h.others n hlt hn).trans hb, List.prefix_rfl, fun _ => rfl⟩

lemma reserved (h : Grows d e) (hn : d.Reserved n) : e.Reserved n := by
  have hlt := (List.getElem?_eq_some_iff.mp hn.1).1
  exact ⟨(h.others n hlt hn.2).trans hn.1, h.current_ne hlt hn.2⟩

lemma congr (h : Grows d e) (hb : f.blocks = e.blocks) (hc : f.current = e.current) :
    Grows d f where
  length_le := hb ▸ h.length_le
  others := hb ▸ h.others
  current := hb ▸ h.current
  stays := hc ▸ h.stays
  isOpen := by
    intro n hn
    rw [hb]
    exact h.isOpen n (hc ▸ hn)

/-- Changes a block that is the current one of `d` or new since `d`. -/
lemma modify (h : Grows d e) (hn : d.current = some n ∨ d.blocks.length ≤ n)
    (change : DraftBlock → DraftBlock) (hchange : ∀ b : DraftBlock, b.stmts <+: (change b).stmts)
    (hblocks : f.blocks = e.blocks.modify n change)
    (hstays : ∀ m, f.current = some m → d.current = some m ∨ d.blocks.length ≤ m) (hopen : f.Open) :
    Grows d f where
  length_le := by simpa [hblocks] using h.length_le
  others m hlt hm := by
    have hne : n ≠ m := by
      rintro rfl
      rcases hn with hn | hn
      · exact hm hn
      · omega
    rw [hblocks, List.getElem?_modify_ne _ _ hne, h.others m hlt hm]
  current m b hm hb := by
    obtain ⟨c, hc, hstmts⟩ := h.current m b hm hb
    by_cases heq : n = m
    · subst heq
      exact ⟨change c, by simp [hblocks, hc], hstmts.trans (hchange c)⟩
    · exact ⟨c, by rw [hblocks, List.getElem?_modify_ne _ _ heq, hc], hstmts⟩
  stays := hstays
  isOpen := hopen

lemma openBlock (h : Grows d e) : Grows d e.openBlock.2 where
  length_le := by
    have := h.length_le
    simp only [Draft.openBlock, List.length_append]
    omega
  others n hlt hn := by
    rw [← h.others n hlt hn]
    exact List.getElem?_append_left (Nat.lt_of_lt_of_le hlt h.length_le)
  current n b hn hb := by
    obtain ⟨c, hc, hstmts⟩ := h.current n b hn hb
    exact ⟨c, getElem?_of_prefix (List.prefix_append ..) hc, hstmts⟩
  stays := h.stays
  isOpen n hn := by
    obtain ⟨b, hb, hterm⟩ := h.isOpen n hn
    exact ⟨b, getElem?_of_prefix (List.prefix_append ..) hb, hterm⟩

/-- Goes on in a block that was opened since `d`. -/
lemma goTo (h : Grows d e) (hn : e.Reserved n) (hle : d.blocks.length ≤ n) :
    Grows d (e.goTo n) where
  length_le := h.length_le
  others := h.others
  current := h.current
  stays m hm := by
    obtain rfl : n = m := Option.some.inj hm
    exact .inr hle
  isOpen m hm := by
    obtain rfl : n = m := Option.some.inj hm
    exact ⟨_, hn.1, rfl⟩

lemma terminate (h : Grows d e) (t : Terminator) : Grows d (e.terminate t) := by
  unfold Draft.terminate
  split
  · next n hn =>
    exact h.modify (h.stays n hn) ({ · with term := t }) (fun _ => List.prefix_rfl) rfl
      (fun _ hm => nomatch hm) (open_of_none rfl)
  · exact h

lemma setTerm (h : Grows d e) (hn : e.Reserved n) (hle : d.blocks.length ≤ n) (t : Terminator) :
    Grows d (e.setTerm n t) := by
  refine h.modify (.inr hle) ({ · with term := t }) (fun _ => List.prefix_rfl) rfl h.stays
    fun m hm => ?_
  obtain ⟨b, hb, hterm⟩ := h.isOpen m hm
  have hne : n ≠ m := fun heq => hn.2 (heq ▸ hm)
  exact ⟨b, by rw [Draft.setTerm, Draft.modify, List.getElem?_modify_ne _ _ hne, hb], hterm⟩

end Grows

/-! ### Reserved blocks -/

lemma Reserved.lt (h : d.Reserved n) : n < d.blocks.length :=
  (List.getElem?_eq_some_iff.mp h.1).1

lemma Reserved.goTo {m : Nat} (h : d.Reserved n) (hne : m ≠ n) : (d.goTo m).Reserved n :=
  ⟨h.1, fun heq => hne (Option.some.inj heq)⟩

lemma Reserved.open_goTo (h : d.Reserved n) : (d.goTo n).Open := by
  intro m hm
  obtain rfl : n = m := Option.some.inj hm
  exact ⟨_, h.1, rfl⟩

lemma Reserved.spot_goTo (h : d.Reserved n) : (d.goTo n).spot = some (n, 0) := by
  simp [spot, Draft.goTo, h.1]

lemma reserved_openBlock (h : d.Open) : d.openBlock.2.Reserved d.openBlock.1 :=
  ⟨List.getElem?_concat_length, fun hn => Nat.lt_irrefl _ (h.lt hn)⟩

section SetTerm

variable {d : Draft} {n m : Nat} (h : d.Reserved n) (t : Terminator)

include h

lemma Reserved.setTerm (hne : m ≠ n) : (d.setTerm m t).Reserved n :=
  ⟨(List.getElem?_modify_ne _ _ hne).trans h.1, h.2⟩

lemma Reserved.endsAt_setTerm : EndsAt (d.setTerm n t).blocks n 0 t :=
  ⟨⟨[], t⟩, by simp [Draft.setTerm, modify, h.1], rfl, rfl⟩

lemma Reserved.extends_setTerm : Extends d.blocks (d.setTerm n t).blocks := by
  intro m b hb
  by_cases heq : n = m
  · subst heq
    obtain rfl : _ = b := Option.some.inj (h.1.symm.trans hb)
    exact ⟨⟨[], t⟩, by
      simp [Draft.setTerm, modify, h.1], List.prefix_rfl, fun hne => absurd rfl hne⟩
  · exact ⟨b, (List.getElem?_modify_ne _ _ heq).trans hb, List.prefix_rfl, fun _ => rfl⟩

end SetTerm

/-! ### Appending and closing -/

lemma Grows.ensure (h : Grows d e) : Grows d e.ensure := by
  unfold Draft.ensure
  split
  · exact h
  · exact h.openBlock.goTo (reserved_openBlock h.isOpen) h.length_le

lemma exists_current_ensure (d : Draft) : ∃ n, d.ensure.current = some n := by
  unfold ensure
  split
  · next n hn => exact ⟨n, hn⟩
  · exact ⟨_, rfl⟩

lemma ensure_of_current (h : d.current = some n) : d.ensure = d := by
  simp [ensure, h]

lemma emit_eq_modify (h : d.ensure.current = some n) (i : Instr) :
    d.emit i = d.ensure.modify n fun b => { b with stmts := b.stmts ++ [i] } := by
  simp [emit, h]

lemma Grows.emit (h : Grows d e) (i : Instr) : Grows d (e.emit i) := by
  obtain ⟨n, hn⟩ := e.exists_current_ensure
  rw [emit_eq_modify hn]
  refine h.ensure.modify (h.ensure.stays n hn) _ (fun b => List.prefix_append ..) rfl h.ensure.stays
    ?_
  intro m hm
  obtain rfl : n = m := Option.some.inj (hn.symm.trans hm)
  obtain ⟨b, hb, hterm⟩ := h.ensure.isOpen n hn
  exact ⟨{ b with stmts := b.stmts ++ [i] }, by simp [Draft.modify, hb], hterm⟩

@[simp] lemma loops_ensure (d : Draft) : d.ensure.loops = d.loops := by
  unfold ensure
  split <;> rfl

@[simp] lemma loops_emit (d : Draft) (i : Instr) : (d.emit i).loops = d.loops := by
  obtain ⟨n, hn⟩ := d.exists_current_ensure
  rw [emit_eq_modify hn]
  exact d.loops_ensure

@[simp] lemma loops_terminate (d : Draft) (t : Terminator) : (d.terminate t).loops = d.loops := by
  unfold terminate
  split <;> rfl

@[simp] lemma current_terminate (d : Draft) (t : Terminator) : (d.terminate t).current = none := by
  unfold terminate
  split
  · rfl
  · assumption

/-- `e` is `d` with more instructions, seen as `events`. -/
structure Appends (d e : Draft) (events : List Event) : Prop where
  grows : Grows d e
  loops : e.loops = d.loops
  spot : ∀ n k, d.spot = some (n, k) → e.spot = some (n, k + events.length)
  runs : ∀ n k, d.spot = some (n, k) → RunsAt e.blocks n k events

/-- `e` is `d` with its current block closed by `t`. -/
structure Closes (d e : Draft) (t : Terminator) : Prop where
  grows : Grows d e
  loops : e.loops = d.loops
  current : e.current = none
  ends : ∀ n k, d.spot = some (n, k) → EndsAt e.blocks n k t

section Appending

variable {d e : Draft} (hd : d.Open)

include hd in
lemma appends_emit (hb : e.blocks = d.blocks) (hc : e.current = d.current) (hl : e.loops = d.loops)
    (i : Instr) : Appends d (e.emit i) [i.event] := by
  have hgrows := (Grows.refl hd).congr hb hc
  -- where there is a current block, appending changes that block
  have happend : ∀ n k, d.spot = some (n, k) → ∃ b : DraftBlock, (e.emit i).current = some n ∧
      b.stmts.length = k ∧ (e.emit i).blocks[n]? = some { b with stmts := b.stmts ++ [i] } := by
    intro n k hspot
    obtain ⟨hn, b, hbn, hk, _⟩ := hd.spot_eq_some hspot
    have hcur : e.current = some n := hc.trans hn
    have hensure := ensure_of_current hcur
    rw [emit_eq_modify (hensure ▸ hcur), hensure]
    exact ⟨b, hcur, hk, by simp [modify, hb, hbn]⟩
  refine ⟨hgrows.emit i, (e.loops_emit i).trans hl, fun n k hspot => ?_, fun n k hspot => ?_⟩
  · obtain ⟨b, hcur, hk, hget⟩ := happend n k hspot
    simp [Draft.spot, hcur, hget, hk]
  · obtain ⟨b, _, hk, hget⟩ := happend n k hspot
    exact ⟨_, hget, by simp [← hk]⟩

include hd in
lemma appends_nothing (hb : e.blocks = d.blocks) (hc : e.current = d.current)
    (hl : e.loops = d.loops) : Appends d e [] := by
  refine ⟨(Grows.refl hd).congr hb hc, hl, fun n k hspot => (spot_congr hb hc).trans hspot, ?_⟩
  intro n k hspot
  obtain ⟨_, b, hbn, _, _⟩ := hd.spot_eq_some hspot
  exact ⟨b, hb ▸ hbn, List.nil_prefix⟩

include hd in
lemma closes_terminate (hb : e.blocks = d.blocks) (hc : e.current = d.current)
    (hl : e.loops = d.loops) (t : Terminator) : Closes d (e.terminate t) t := by
  refine ⟨((Grows.refl hd).congr hb hc).terminate t, (e.loops_terminate t).trans hl,
    e.current_terminate t, fun n k hspot => ?_⟩
  obtain ⟨hn, b, hbn, hk, _⟩ := hd.spot_eq_some hspot
  refine ⟨{ b with term := t }, ?_, hk, rfl⟩
  simp [terminate, setTerm, modify, hc, hn, hb, hbn]

include hd in
/-- In dead code, the block that is closed is opened for that. -/
lemma closes_ensure_terminate (t : Terminator) : Closes d (d.ensure.terminate t) t := by
  refine ⟨(Grows.refl hd).ensure.terminate t, by simp, by simp, fun n k hspot => ?_⟩
  rw [ensure_of_current (hd.spot_eq_some hspot).1]
  exact (closes_terminate hd rfl rfl rfl t).ends n k hspot

end Appending

end Draft

/-! ### Instructions -/

/-- What is seen of an instruction does not depend on what it writes. -/
lemma event_noteWrite (i : Instr) (s : Scope) (name : Text) :
    (i.noteWrite s name).event = i.event := by
  unfold Instr.noteWrite
  split <;> rfl

lemma event_writeTo (i : Instr) (s : Scope) (target : Expr) (compound : Bool) :
    (i.writeTo s target compound).1.event = i.event := by
  unfold Instr.writeTo
  split
  · rfl
  · split
    · rfl
    · split
      · exact event_noteWrite ..
      · split
        · rfl
        · exact event_noteWrite ..

/-- An assignment is seen as a declaration if it declares one of its targets. -/
lemma event_foldl_writePart (compound : Bool) (parts : List Expr) (w : Instr × Scope) :
    (parts.foldl (Instr.writePart compound) w).1.event =
      { w.1.event with op := if parts.any Expr.isDeclaration then .declare else w.1.op } := by
  induction parts generalizing w with
  | nil => rfl
  | cons part parts ih =>
    have hpart : (Instr.writePart compound w part).1.event =
        { w.1.event with op := if part.isDeclaration then .declare else w.1.op } := by
      rw [Instr.writePart, event_writeTo]
      cases part.isDeclaration <;> rfl
    have hop : (Instr.writePart compound w part).1.op =
        if part.isDeclaration then .declare else w.1.op := congrArg Event.op hpart
    rw [List.foldl_cons, ih, hpart, hop, List.any_cons]
    cases part.isDeclaration <;> simp

/-- A member that is called has a name. -/
lemma outsideCall?_ne_nil (e : Expr) : e.outsideCall? ≠ some [] := by
  intro h
  obtain ⟨⟨before, t, behind⟩, -, hfound⟩ := List.exists_of_findSome?_eq_some h
  simp only [Option.ite_none_right_eq_some, Option.some.injEq, Bool.and_eq_true] at hfound
  obtain ⟨⟨⟨-, hmember⟩, -⟩, hempty⟩ := hfound
  rw [hempty] at hmember
  exact absurd hmember (by decide)

/-- The instruction of an expression statement lets see what the statement does, in every scope. -/
lemma event_instrOf (s : Scope) (e : Expr) (line : Nat) :
    (instrOf s e line).1.event = exprEvent e line := by
  have hword (t : Option Source.Token) : readsAs t ["delete"] = Expr.isAt t "delete" := by
    rw [Bool.eq_iff_iff]
    cases t <;> simp [readsAs, Expr.isAt, Source.Token.is]
  have hmark (t : Option Source.Token) : readsAs t ["++", "--"] = t.any isStep := by
    rw [Bool.eq_iff_iff]
    cases t <;> simp [readsAs, isStep, Source.Token.is]
  by_cases hdelete : (decide (2 ≤ e.length) && Expr.isAt e.head? "delete") = true
  · have hop : exprOp e = .delete := by
      rw [exprOp, if_pos (by simpa [hword] using hdelete)]
    simp only [instrOf, hdelete, if_true, exprEvent, exprValue, hop]
    exact event_writeTo ..
  have hkept : ¬(2 ≤ e.length ∧ readsAs e.head? ["delete"] = true) := by simpa [hword] using hdelete
  by_cases hlast : (decide (2 ≤ e.length) && e.getLast?.any isStep) = true
  · have hop : exprOp e = .step := by
      rw [exprOp, if_neg hkept, if_pos]
      simp only [Bool.and_eq_true, decide_eq_true_eq] at hlast
      exact ⟨hlast.1, .inr ((hmark _).trans hlast.2)⟩
    simp only [instrOf, hdelete, hlast, if_true, exprEvent, exprValue, hop]
    exact event_writeTo ..
  by_cases hfirst : (decide (2 ≤ e.length) && e.head?.any isStep) = true
  · have hop : exprOp e = .step := by
      rw [exprOp, if_neg hkept, if_pos]
      simp only [Bool.and_eq_true, decide_eq_true_eq] at hfirst
      exact ⟨hfirst.1, .inl ((hmark _).trans hfirst.2)⟩
    simp only [instrOf, hdelete, hlast, hfirst, if_true, exprEvent, exprValue, hop]
    exact event_writeTo ..
  have hplain : ¬(2 ≤ e.length ∧
      (readsAs e.head? ["++", "--"] = true ∨ readsAs e.getLast? ["++", "--"] = true)) := by
    simp only [Bool.and_eq_true, decide_eq_true_eq] at hlast hfirst
    rintro ⟨hmany, hstep | hstep⟩
    · exact hfirst ⟨hmany, (hmark _).symm.trans hstep⟩
    · exact hlast ⟨hmany, (hmark _).symm.trans hstep⟩
  simp only [instrOf, hdelete, hlast, hfirst, exprEvent, exprValue, exprOp, if_neg hkept,
    if_neg hplain]
  cases ha : e.assignment? with
  | some a =>
    simp only [Bool.false_eq_true, if_false]
    rw [event_foldl_writePart]
    cases (a.target.stripParens.topParts ",").any Expr.isDeclaration <;> rfl
  | none =>
    simp only [Bool.false_eq_true, if_false]
    by_cases hdeclaration : e.isDeclaration = true
    · simp only [hdeclaration, if_true]
      exact event_writeTo ..
    · simp only [hdeclaration, if_false, Bool.false_eq_true]
      cases hcall : e.outsideCall? with
      | none => cases hcalls : e.calls <;> simp [Instr.event]
      | some member =>
        have hmember : member ≠ [] := fun h => outsideCall?_ne_nil e (h ▸ hcall)
        simp [Instr.event, hmember]

/-! ### Reasons -/

lemma checkReason_eq (message : Text) (internal : Bool) :
    checkReason message internal = failureReason message internal := by
  cases message <;> cases internal <;> rfl

lemma unquoted_eq (t : Text) : Source.unquoted t = literalContent t := by
  rcases t with _ | ⟨quote, _ | ⟨c, rest⟩⟩
  · rfl
  · simp [Source.unquoted, literalContent]
  · simp [Source.unquoted, literalContent, Source.isQuote, List.getLast?_cons_cons]

/-- Brackets around one token enclose it, unless it closes the first of them. -/
lemma stripParens_three (before t behind : Source.Token) :
    Expr.stripParens [before, t, behind] =
      if before.text = "(" ∧ behind.text = ")" ∧ t.text ≠ ")" then [t]
      else [before, t, behind] := by
  by_cases hbefore : before.text = "("
  · by_cases hclose : t.text = ")"
    · simp [Expr.stripParens, Expr.closesLast, Source.Token.is, hbefore, hclose]
    · by_cases hbehind : behind.text = ")" <;> by_cases hopen : t.text = "(" <;>
        simp [Expr.stripParens, Expr.closesLast, Source.Token.is, hbefore, hclose, hbehind, hopen]
  · simp [Expr.stripParens, Source.Token.is, hbefore]

/-- Only the brackets around a lone literal are left out. -/
lemma revertText_eq (args : Expr) : args.revertText = revertReason args := by
  match args with
  | [] => rfl
  | [t] => simp [Expr.revertText, Expr.stripParens, revertReason, unquoted_eq]
  | [a, b] =>
    simp only [Expr.revertText, Expr.stripParens, revertReason, List.head?_cons,
      List.getLast?_cons_cons, List.getLast?_singleton]
    split_ifs <;> rfl
  | [before, t, behind] =>
    rw [Expr.revertText, stripParens_three, revertReason]
    split_ifs <;> simp_all [unquoted_eq]
  | a :: b :: c :: d :: rest =>
    have hstrip : Expr.stripParens (a :: b :: c :: d :: rest) = a :: b :: c :: d :: rest ∨
        Expr.stripParens (a :: b :: c :: d :: rest) = b :: c :: (d :: rest).dropLast := by
      unfold Expr.stripParens
      split
      · split_ifs
        · exact .inr rfl
        · exact .inl rfl
      · exact .inl rfl
    rcases hstrip with hstrip | hstrip <;> rw [Expr.revertText, hstrip] <;> rfl

end ContractAudit.Flow
