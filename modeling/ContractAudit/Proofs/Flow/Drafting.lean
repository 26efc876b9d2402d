import ContractAudit.Proofs.Flow.Layout

/-!
Lowering as a sequence of steps.

However deeply statements are nested, lowering changes a draft by a few kinds of steps only: it
opens a block, appends an instruction to the current one, closes it, or goes on in a block that was
opened before. `Step` lists them with everything that is known when they are taken. Beside the draft
it keeps the list of blocks that were opened to be filled later. `lowerStmt_steps` says that
lowering a statement is a sequence of steps that leaves no block waiting that did not wait before;
what every step keeps is therefore kept by lowering.

* `Draft.Inner`: the blocks other than block zero. Whatever leads to a block leads to one of these.
* `Draft.Tests`: the draft has just evaluated a condition, on which it can branch.
* `Draft.Rooted`: the current block is there, and what waits or a loop leads to are inner blocks.
-/

namespace ContractAudit.Flow

open Source (Expr Stmt)

/-- The variable of condition number `k`. -/
def condVar (k : Nat) : Var := "%cond" ++ Text.ofNat k

/-- Whether the last of some instructions evaluates a condition into `v`. -/
def TestsLast (stmts : List Instr) (v : Var) : Prop :=
  ∃ i, stmts.getLast? = some i ∧ i.op = .cond ∧ i.defs = [v]

/-- The blocks of a choice that its branches fill, and the one behind it. -/
def ChoiceFrame.waiting (frame : ChoiceFrame) (both : Bool) : List Nat :=
  if both then [frame.yes, frame.no, frame.join] else [frame.yes, frame.join]

/-- The blocks of a loop that are filled behind its body. -/
def LoopFrame.waiting (frame : LoopFrame) (post : Expr) : List Nat :=
  if post.isEmpty then [frame.exit] else [frame.latch, frame.exit]

lemma LoopFrame.exit_mem_waiting (frame : LoopFrame) (post : Expr) :
    frame.exit ∈ frame.waiting post := by
  unfold LoopFrame.waiting
  split <;> simp

variable {ns : List Nat}

namespace Draft

/-- Whether `n` is a block other than block zero. -/
def Inner (d : Draft) (n : Nat) : Prop := 0 < n ∧ n < d.blocks.length

/-- Whether a condition was evaluated into `v` at the end of the current block. -/
def Tests (d : Draft) (v : Var) : Prop :=
  ∃ n b, d.current = some n ∧ d.blocks[n]? = some b ∧ TestsLast b.stmts v

/-- Appends an instruction to block number `n`. -/
def append (d : Draft) (n : Nat) (i : Instr) : Draft :=
  d.modify n fun b => { b with stmts := b.stmts ++ [i] }

/-- The current block is there, and the blocks that wait or that a loop leads to are inner ones. -/
structure Rooted (s : Draft × List Nat) : Prop where
  pos : 0 < s.1.blocks.length
  current : ∀ n, s.1.current = some n → n < s.1.blocks.length
  loops : ∀ l ∈ s.1.loops, s.1.Inner l.exit ∧ s.1.Inner l.next
  waiting : ∀ n ∈ s.2, s.1.Inner n

/-- One step of lowering, on a draft and the blocks that wait to be filled. -/
inductive Step : Draft × List Nat → Draft × List Nat → Prop
  | opens (d : Draft) (ns : List Nat) : Step (d, ns) (d.openBlock.2, d.openBlock.1 :: ns)
  | reorders (d : Draft) {ns ms : List Nat} (h : ns.Perm ms) : Step (d, ns) (d, ms)
  | declares (d : Draft) (ns : List Nat) (scope : Scope) : Step (d, ns) ({ d with scope }, ns)
  | appends {d : Draft} (ns : List Nat) {n : Nat} (hn : d.current = some n) {i : Instr}
      (hop : i.op ≠ .cond) : Step (d, ns) (d.append n i, ns)
  | tests {d : Draft} (ns : List Nat) {n : Nat} (hn : d.current = some n) {i : Instr}
      (hop : i.op = .cond) (hdefs : i.defs = [condVar (d.conds + 1)]) :
      Step (d, ns) ({ d with conds := d.conds + 1 }.append n i, ns)
  | closes {d : Draft} (ns : List Nat) {n : Nat} (hn : d.current = some n) {t : Terminator}
      (hends : t ≠ .unreachable) (htargets : ∀ target ∈ t.targets, ∃ m : Nat, d.Inner m ∧
        target = m)
      (htests : ∀ v yes no, t = .branch v yes no → d.Tests v) :
      Step (d, ns) ({ d.setTerm n t with current := none }, ns)
  | reverts {d : Draft} (n : Nat) (ns : List Nat) (hd : d.current = none) (reason : Text) :
      Step (d, n :: ns) (d.setTerm n (.revert reason), ns)
  | fills {d : Draft} (n : Nat) (ns : List Nat) (hd : d.current = none) :
      Step (d, n :: ns) (d.goTo n, ns)
  | encloses {d : Draft} (ns : List Nat) {l : LoopExits} (hexit : d.Inner l.exit)
      (hnext : d.Inner l.next) : Step (d, ns) ({ d with loops := l :: d.loops }, ns)
  | leaves (d : Draft) (ns : List Nat) : Step (d, ns) ({ d with loops := d.loops.drop 1 }, ns)

/-- Any number of steps. -/
def Steps : Draft × List Nat → Draft × List Nat → Prop := Relation.ReflTransGen Step

/-! ### Looking up blocks -/

variable {d : Draft} {n : Nat} {s t : Draft × List Nat} {frame : LoopFrame}

lemma getElem?_openBlock {b : DraftBlock} (h : d.openBlock.2.blocks[n]? = some b) :
    d.blocks[n]? = some b ∨ n = d.blocks.length ∧ b = ⟨[], .unreachable⟩ := by
  rw [openBlock, List.getElem?_append] at h
  split at h
  · exact .inl h
  · next hlt =>
    obtain ⟨hn, rfl⟩ := List.getElem?_eq_some_iff.mp h
    have hlt' : n - d.blocks.length < 1 := hn
    exact .inr ⟨by omega, List.mem_singleton.mp (List.getElem_mem hn)⟩

lemma getElem?_modify {m : Nat} {change : DraftBlock → DraftBlock} {b : DraftBlock}
    (h : (d.modify n change).blocks[m]? = some b) :
    ∃ a, d.blocks[m]? = some a ∧ (n = m ∧ b = change a ∨ n ≠ m ∧ b = a) := by
  rw [modify, List.getElem?_modify] at h
  obtain ⟨a, ha, rfl⟩ := Option.map_eq_some_iff.mp h
  refine ⟨a, ha, ?_⟩
  split
  · next heq => exact .inl ⟨heq, rfl⟩
  · next hne => exact .inr ⟨hne, rfl⟩

/-! ### What every step keeps -/

/-- What every step keeps is kept by any number of steps. -/
lemma Steps.keeps {P : Draft × List Nat → Prop} (hstep : ∀ s t, Step s t → P s → P t)
    (h : Steps s t) (hs : P s) : P t := by
  induction h with
  | refl => exact hs
  | tail _ hst ih => exact hstep _ _ hst ih

lemma Step.length_le (h : Step s t) :
    s.1.blocks.length ≤ t.1.blocks.length := by
  cases h <;> simp [openBlock, append, modify, setTerm, goTo]

lemma Step.inner (h : Step s t) (hn : s.1.Inner n) : t.1.Inner n :=
  ⟨hn.1, Nat.lt_of_lt_of_le hn.2 h.length_le⟩

lemma Steps.inner (h : Steps s t) (hn : s.1.Inner n) : t.1.Inner n :=
  h.keeps (P := fun s => s.1.Inner n) (fun _ _ hst hs => hst.inner hs) hn

lemma inner_openBlock (hd : 0 < d.blocks.length) : d.openBlock.2.Inner d.openBlock.1 :=
  ⟨hd, by simp [openBlock]⟩

/-- A step keeps a draft rooted. -/
lemma Step.rooted (h : Step s t) (hs : Rooted s) : Rooted t := by
  have hpos := Nat.lt_of_lt_of_le hs.pos h.length_le
  have hcurrent : ∀ n, s.1.current = some n → n < t.1.blocks.length := fun n hn =>
    Nat.lt_of_lt_of_le (hs.current n hn) h.length_le
  have hloops : ∀ l ∈ s.1.loops, t.1.Inner l.exit ∧ t.1.Inner l.next := fun l hl =>
    ⟨h.inner (hs.loops l hl).1, h.inner (hs.loops l hl).2⟩
  have hwaiting : ∀ n ∈ s.2, t.1.Inner n := fun n hn => h.inner (hs.waiting n hn)
  cases h with
  | opens d ns =>
    refine ⟨hpos, hcurrent, hloops, fun n hn => ?_⟩
    rcases List.mem_cons.mp hn with rfl | hn
    · exact inner_openBlock hs.pos
    · exact hwaiting n hn
  | reorders d hperm =>
    exact ⟨hpos, hcurrent, hloops, fun n hn => hwaiting n (hperm.mem_iff.mpr hn)⟩
  | declares d ns scope => exact ⟨hpos, hcurrent, hloops, hwaiting⟩
  | appends ns hn hop => exact ⟨hpos, hcurrent, hloops, hwaiting⟩
  | tests ns hn hop hdefs => exact ⟨hpos, hcurrent, hloops, hwaiting⟩
  | closes ns hn hends htargets htests => exact ⟨hpos, nofun, hloops, hwaiting⟩
  | reverts n ns hd reason =>
    exact ⟨hpos, hcurrent, hloops, fun m hm => hwaiting m (List.mem_cons_of_mem _ hm)⟩
  | fills n ns hd =>
    refine ⟨hpos, fun m hm => ?_, hloops, fun m hm => hwaiting m (List.mem_cons_of_mem _ hm)⟩
    cases hm
    exact (hwaiting n (List.mem_cons_self ..)).2
  | encloses ns hexit hnext =>
    refine ⟨hpos, hcurrent, fun l hl => ?_, hwaiting⟩
    rcases List.mem_cons.mp hl with rfl | hl
    · exact ⟨hexit, hnext⟩
    · exact hloops l hl
  | leaves d ns => exact ⟨hpos, hcurrent, fun l hl => hloops l (List.mem_of_mem_drop hl), hwaiting⟩

lemma Steps.rooted (h : Steps s t) (hs : Rooted s) : Rooted t :=
  h.keeps (fun _ _ hst => hst.rooted) hs

/-! ### Appending and closing -/

lemma steps_ensure (d : Draft) (ns : List Nat) : Steps (d, ns) (d.ensure, ns) := by
  unfold ensure
  split
  · exact .refl
  · next hd => exact .tail (.single (.opens d ns)) (.fills _ ns hd)

lemma steps_emit (d : Draft) (ns : List Nat) {i : Instr} (hop : i.op ≠ .cond) :
    Steps (d, ns) (d.emit i, ns) := by
  obtain ⟨n, hn⟩ := d.exists_current_ensure
  rw [emit_eq_modify hn]
  exact (steps_ensure d ns).tail (.appends ns hn hop)

/-- Closes the current block, if there is one. -/
lemma steps_terminate (d : Draft) (ns : List Nat) {t : Terminator} (hends : t ≠ .unreachable)
    (htargets : ∀ target ∈ t.targets, ∃ m : Nat, d.Inner m ∧ target = m)
    (htests : ∀ v yes no, t = .branch v yes no → d.Tests v) :
    Steps (d, ns) (d.terminate t, ns) := by
  unfold terminate
  split
  · next n hn => exact .single (.closes ns hn hends htargets htests)
  · exact .refl

lemma steps_jump (ns : List Nat) (hn : d.Inner n) : Steps (d, ns) (d.jump n, ns) := by
  refine steps_terminate d ns nofun (fun target ht => ?_) nofun
  exact ⟨n, hn, List.mem_singleton.mp ht⟩

lemma steps_branch (ns : List Nat) {v : Var} {yes no : Nat} (hv : d.Tests v) (hyes : d.Inner yes)
    (hno : d.Inner no) : Steps (d, ns) (d.terminate (.branch v yes no), ns) := by
  refine steps_terminate d ns nofun (fun target ht => ?_) fun w _ _ heq => ?_
  · rcases List.mem_cons.mp ht with rfl | ht
    · exact ⟨yes, hyes, rfl⟩
    · exact ⟨no, hno, List.mem_singleton.mp ht⟩
  · cases heq
    exact hv

/-- Leaves the function, in dead code from a block opened for that. -/
lemma steps_leave (d : Draft) (ns : List Nat) {t : Terminator} (ht : t.isReturn = true) :
    Steps (d, ns) (d.ensure.terminate t, ns) := by
  refine (steps_ensure d ns).trans (steps_terminate _ ns ?_ ?_ ?_) <;> cases t <;>
    simp_all [Terminator.isReturn, Terminator.targets]

/-! ### Instructions of expressions -/

lemma op_writeTo (i : Instr) (s : Scope) (target : Expr) (compound : Bool) :
    (i.writeTo s target compound).1.op = i.op :=
  congrArg Event.op (event_writeTo i s target compound)

lemma op_writePart (compound : Bool) {written : Instr × Scope} (h : written.1.op ≠ .cond)
    (part : Expr) :
    (Instr.writePart compound written part).1.op ≠ .cond := by
  unfold Instr.writePart
  rw [op_writeTo]
  split
  · nofun
  · exact h

/-- The instruction of an expression statement evaluates no condition. -/
lemma op_instrOf (s : Scope) (e : Expr) (line : Nat) : (instrOf s e line).1.op ≠ .cond := by
  have hwrite : ∀ (i : Instr) (s : Scope) (target : Expr) (compound : Bool), i.op ≠ .cond →
      (i.writeTo s target compound).1.op ≠ .cond := fun i s target compound hi => by
    rwa [op_writeTo]
  unfold instrOf
  dsimp only
  split
  · exact hwrite _ _ _ _ nofun
  split
  · exact hwrite _ _ _ _ nofun
  split
  · exact hwrite _ _ _ _ nofun
  split
  · exact List.foldlRecOn _ _ (motive := fun written : Instr × Scope => written.1.op ≠ .cond) nofun
      fun _ hwritten part _ => op_writePart _ hwritten part
  split
  · exact hwrite _ _ _ _ nofun
  · dsimp only
    split <;> nofun

lemma steps_expr (d : Draft) (ns : List Nat) (e : Expr) (line : Nat) :
    Steps (d, ns) (d.expr e line, ns) :=
  .head (.declares d ns _) (steps_emit _ ns (op_instrOf d.scope e line))

lemma steps_calling (d : Draft) (ns : List Nat) (e : Expr) (line : Nat) :
    Steps (d, ns) (d.calling e line, ns) := by
  unfold calling
  split
  · exact .refl
  · dsimp only
    split
    · exact steps_expr d ns e line
    · exact .single (.declares d ns _)

/-! ### Conditions -/

lemma ensure_conds (d : Draft) (k : Nat) :
    { d with conds := k }.ensure = { d.ensure with conds := k } := by
  obtain ⟨_, current, _, _, _⟩ := d
  cases current <;> rfl

lemma conds_ensure (d : Draft) : d.ensure.conds = d.conds := by
  unfold ensure
  split <;> rfl

/-- Evaluating a condition, as an instruction appended to the current block. -/
lemma exists_cond_eq_append (d : Draft) (e : Expr) (line : Nat) :
    ∃ n i, d.ensure.current = some n ∧ i.op = .cond ∧ i.defs = [condVar (d.ensure.conds + 1)] ∧
      d.cond e line =
        (condVar (d.ensure.conds + 1),
          { d.ensure with conds := d.ensure.conds + 1 }.append n i) := by
  obtain ⟨n, hn⟩ := d.exists_current_ensure
  have hn' : { d with conds := d.conds + 1 }.ensure.current = some n := by rwa [ensure_conds]
  have hemit : ∀ i, { d with conds := d.conds + 1 }.emit i =
      { d.ensure with conds := d.conds + 1 }.append n i := fun i => by
    rw [emit_eq_modify hn', ensure_conds]
    rfl
  rw [conds_ensure]
  exact ⟨n, _, hn, rfl, rfl, Prod.ext rfl (hemit _)⟩

lemma steps_cond (d : Draft) (ns : List Nat) (e : Expr) (line : Nat) :
    Steps (d, ns) ((d.cond e line).2, ns) := by
  obtain ⟨n, i, hn, hop, hdefs, heq⟩ := d.exists_cond_eq_append e line
  rw [heq]
  exact (steps_ensure d ns).tail (.tests ns hn hop hdefs)

/-- A condition that was evaluated can be branched on. -/
lemma tests_cond (hd : Rooted (d, ns)) (e : Expr) (line : Nat) :
    (d.cond e line).2.Tests (d.cond e line).1 := by
  obtain ⟨n, i, hn, hop, hdefs, heq⟩ := d.exists_cond_eq_append e line
  have hlt := ((steps_ensure d ns).rooted hd).current n hn
  rw [heq]
  refine ⟨n, { d.ensure.blocks[n] with stmts := d.ensure.blocks[n].stmts ++ [i] }, hn, ?_,
    i, by simp, hop, hdefs⟩
  simp [append, modify, List.getElem?_eq_getElem hlt]

lemma Tests.openBlock {v : Var} (h : d.Tests v) : d.openBlock.2.Tests v := by
  obtain ⟨n, b, hn, hb, hlast⟩ := h
  exact ⟨n, b, hn, getElem?_of_prefix (List.prefix_append ..) hb, hlast⟩

/-! ### Choices -/

lemma steps_openChoice (hd : Rooted (d, ns)) (e : Expr) (line : Nat) (both : Bool) :
    Steps (d, ns)
      ((d.openChoice e line both).2, (d.openChoice e line both).1.waiting both ++ ns) := by
  have hcond := steps_cond d ns e line
  have htests := tests_cond hd e line
  unfold openChoice
  generalize d.cond e line = tested at hcond htests ⊢
  obtain ⟨v, d₁⟩ := tested
  cases both with
  | false =>
    have hopened : Steps (d, ns) (d₁.openBlock.2.openBlock.2, _) :=
      .tail (.tail (.tail hcond (.opens _ _)) (.opens _ _)) (.reorders _ (.swap ..))
    have hwaiting := (hopened.rooted hd).waiting
    exact hopened.trans (steps_branch _ htests.openBlock.openBlock (hwaiting _ (.head _))
      (hwaiting _ (.tail _ (.head _))))
  | true =>
    have hopened : Steps (d, ns) (d₁.openBlock.2.openBlock.2.openBlock.2, _) :=
      .tail (.tail (.tail (.tail hcond (.opens _ _)) (.opens _ _)) (.opens _ _))
        (.reorders _ ((List.reverse_perm [_, _, _]).symm.append_right ns))
    have hwaiting := (hopened.rooted hd).waiting
    exact hopened.trans (steps_branch _ htests.openBlock.openBlock.openBlock (hwaiting _ (.head _))
      (hwaiting _ (.tail _ (.head _))))

lemma current_openChoice (d : Draft) (e : Expr) (line : Nat) (both : Bool) :
    (d.openChoice e line both).2.current = none :=
  current_terminate ..

/-- Reverts in the block behind the choice, and goes on in the other one. -/
lemma steps_check (hd : Rooted (d, ns)) (e : Expr) (line : Nat) (reason : Text) :
    Steps (d, ns) (d.check e line reason, ns) := by
  have hcurrent := d.current_openChoice e line false
  exact .tail (.tail (.tail (steps_openChoice hd e line false) (.reorders _ (.swap ..)))
    (.reverts _ _ hcurrent reason)) (.fills _ ns hcurrent)

/-! ### Loops -/

lemma steps_openLoop (d : Draft) (ns : List Nat) (post : Expr) :
    Steps (d, ns) ((d.openLoop post).2, (d.openLoop post).1.header :: (d.openLoop post).1.body ::
      ((d.openLoop post).1.waiting post ++ ns)) := by
  have hopened : Steps (d, ns) (d.openBlock.2.openBlock.2.openBlock.2, _) :=
    .tail (.tail (.single (.opens _ _)) (.opens _ _)) (.opens _ _)
  unfold openLoop LoopFrame.waiting
  cases post.isEmpty with
  | true => exact hopened.tail (.reorders _ ((List.reverse_perm [_, _, _]).symm.append_right ns))
  | false =>
    exact (hopened.tail (.opens _ _)).tail
      (.reorders _ ((List.reverse_perm [_, _, _, _]).symm.append_right ns))

/-- The block that closes the body of a loop is one of those that were opened. -/
lemma inner_latch (hd : Rooted (d, ns)) (post : Expr) :
    (d.openLoop post).2.Inner (d.openLoop post).1.latch := by
  have hwaiting := ((steps_openLoop d ns post).rooted hd).waiting
  cases hpost : post.isEmpty with
  | true =>
    have hlatch : (d.openLoop post).1.latch = (d.openLoop post).1.header := by
      simp [openLoop, hpost]
    exact hlatch ▸ hwaiting _ (.head _)
  | false => exact hwaiting _ (by simp [LoopFrame.waiting, hpost])

/-- Fills the header of a loop: it leads to the body and, with a condition, to the exit. -/
lemma steps_header (hd : Rooted (d, ns)) (hbody : d.Inner frame.body) (hexit : d.Inner frame.exit)
    (line : Nat) (cond : Expr) :
    Steps (d, ns) (if cond.isEmpty then d.jump frame.body
      else (d.cond cond line).2.terminate (.branch (d.cond cond line).1 frame.body frame.exit),
        ns) := by
  split
  · exact steps_jump ns hbody
  · have hcond := steps_cond d ns cond line
    exact hcond.trans (steps_branch ns (tests_cond hd cond line) (hcond.inner hbody)
      (hcond.inner hexit))

/-- Falls through to a loop, fills its header and enters its body. -/
lemma steps_enterLoop (hd : Rooted (d, frame.header :: frame.body :: ns))
    (hlatch : d.Inner frame.latch) (hexit : d.Inner frame.exit) (line : Nat) (cond : Expr)
    (bodyFirst : Bool) :
    Steps (d, frame.header :: frame.body :: ns) (d.enterLoop frame line cond bodyFirst, ns) := by
  have hheader := hd.waiting frame.header (.head _)
  have hbody := hd.waiting frame.body (.tail _ (.head _))
  have hfirst : d.Inner (if bodyFirst then frame.body else frame.header) := by split <;> assumption
  unfold enterLoop
  generalize (if bodyFirst then frame.body else frame.header) = first at hfirst ⊢
  have hentered : Steps (d, frame.header :: frame.body :: ns)
      ((d.jump first).goTo frame.header, frame.body :: ns) :=
    (steps_jump _ hfirst).tail (.fills _ _ (current_terminate ..))
  generalize (d.jump first).goTo frame.header = e at hentered ⊢
  have hfilled := hentered.trans
    (steps_header (hentered.rooted hd) (hentered.inner hbody) (hentered.inner hexit) line cond)
  have hcurrent : (if cond.isEmpty then e.jump frame.body
      else (e.cond cond line).2.terminate (.branch (e.cond cond line).1 frame.body
        frame.exit)).current = none := by
    split <;> exact current_terminate ..
  have hinside : Steps (d, frame.header :: frame.body :: ns) (goTo _ frame.body, ns) :=
    hfilled.tail (.fills _ _ hcurrent)
  exact hinside.tail (.encloses ns (hinside.inner hexit) (hinside.inner hlatch))

/-- Fills the latch of a loop and goes on behind it. -/
lemma steps_leaveLoop (post : Expr) (hheader : d.Inner frame.header) (hlatch : d.Inner frame.latch)
    (line : Nat) : Steps (d, frame.waiting post ++ ns) (d.leaveLoop frame line post, ns) := by
  have hclosed : Steps (d, frame.waiting post ++ ns)
      ({ d with loops := d.loops.drop 1 }.jump frame.latch, frame.waiting post ++ ns) :=
    .head (.leaves d _) (steps_jump _ hlatch)
  have hheader' := hclosed.inner hheader
  unfold leaveLoop
  generalize hd : { d with loops := d.loops.drop 1 }.jump frame.latch = e at hclosed hheader' ⊢
  have hcurrent : e.current = none := hd ▸ current_terminate ..
  unfold LoopFrame.waiting at hclosed ⊢
  cases hpost : post.isEmpty with
  | true =>
    rw [hpost] at hclosed
    exact hclosed.tail (.fills _ _ hcurrent)
  | false =>
    rw [hpost] at hclosed
    have hfilled := hclosed.tail (.fills _ _ hcurrent)
    have hstep := steps_expr (e.goTo frame.latch) (frame.exit :: ns) post line
    exact ((hfilled.trans hstep).trans (steps_jump _ (hstep.inner hheader'))).tail
      (.fills _ _ (current_terminate ..))

end Draft

/-- Lowering `s` into a rooted draft is a sequence of steps that fills all blocks it opens. -/
def Stepwise (s : Stmt) : Prop :=
  ∀ (d f : Draft) (ns : List Nat), Draft.Rooted (d, ns) → lowerStmt s d = .ok f →
    Draft.Steps (d, ns) (f, ns)

/-- Lowers a statement into the next block that waits, and leads on to another one. -/
lemma Stepwise.fills {s : Stmt} (hs : Stepwise s) {d e : Draft} {start next : Nat}
    (hd : Draft.Rooted (d, start :: ns)) (hcurrent : d.current = none)
    (h : lowerStmt s (d.goTo start) = .ok e) (hnext : d.Inner next) :
    Draft.Steps (d, start :: ns) (e.jump next, ns) := by
  have hstart : Draft.Steps (d, start :: ns) (d.goTo start, ns) := .single (.fills _ _ hcurrent)
  have hinside := hs _ _ ns (hstart.rooted hd) h
  exact (hstart.trans hinside).trans (Draft.steps_jump ns (hinside.inner (hstart.inner hnext)))

lemma Stepwise.lowersLoop {l : Loop} (hbody : Stepwise l.body) {bodyFirst : Bool} {d f : Draft}
    (hd : Draft.Rooted (d, ns)) (h : LowersLoop l bodyFirst d f) :
    Draft.Steps (d, ns) (f, ns) := by
  obtain ⟨e, he, rfl⟩ := h
  have hopened := Draft.steps_openLoop d ns l.post
  have hrooted := hopened.rooted hd
  have hlatch := Draft.inner_latch hd l.post
  generalize d.openLoop l.post = opened at *
  obtain ⟨frame, d₀⟩ := opened
  have hheader := hrooted.waiting frame.header (.head _)
  have hexit := hrooted.waiting frame.exit
    (.tail _ (.tail _ (List.mem_append_left ns (frame.exit_mem_waiting l.post))))
  have hentered := Draft.steps_enterLoop hrooted hlatch hexit l.line l.cond bodyFirst
  have hinside := hbody _ _ _ (hentered.rooted hrooted) he
  have hafter : Draft.Steps (d₀, _) (e, frame.waiting l.post ++ ns) := hentered.trans hinside
  exact (hopened.trans hafter).trans
    (Draft.steps_leaveLoop l.post (hafter.inner hheader) (hafter.inner hlatch) l.line)

mutual

/-- Lowering a statement is a sequence of steps. -/
theorem lowerStmt_steps : ∀ s : Stmt, Stepwise s
  | .empty, d, f, ns, hd, h => by
    cases h
    exact .refl
  | .placeholder _, d, f, ns, hd, h => by
    cases h
    exact .refl
  | .block _ body, d, f, ns, hd, h => lowerStmts_steps body d f ns hd h
  | .expr line value, d, f, ns, hd, h => by
    cases h
    split
    · exact .refl
    · exact Draft.steps_expr d ns value line
  | .emit line _ args, d, f, ns, hd, h => by
    cases h
    exact Draft.steps_emit d ns nofun
  | .ifElse line cond yes no, d, f, ns, hd, h => by
    have hopened := Draft.steps_openChoice hd cond line (!no.isEmpty)
    have hcurrent := d.current_openChoice cond line (!no.isEmpty)
    have hrooted := hopened.rooted hd
    simp only [lowerStmt, bind_eq_ok_iff] at h
    generalize d.openChoice cond line (!no.isEmpty) = choice at *
    obtain ⟨frame, d₀⟩ := choice
    obtain ⟨e, he, h⟩ := h
    unfold ChoiceFrame.waiting at hopened hrooted
    cases hempty : no.isEmpty with
    | true =>
      rw [hempty] at hopened hrooted h
      cases h
      have hjoin := hrooted.waiting frame.join (.tail _ (.head _))
      have hyes := (lowerStmt_steps yes).fills hrooted hcurrent he hjoin
      exact (hopened.trans hyes).tail (.fills _ ns (Draft.current_terminate ..))
    | false =>
      rw [hempty] at hopened hrooted h
      obtain ⟨e', he', h⟩ := bind_eq_ok_iff.mp h
      cases h
      have hjoin := hrooted.waiting frame.join (.tail _ (.tail _ (.head _)))
      have hyes := (lowerStmt_steps yes).fills hrooted hcurrent he hjoin
      have hno := (lowerStmt_steps no).fills (hyes.rooted hrooted) (Draft.current_terminate ..) he'
        (hyes.inner hjoin)
      exact ((hopened.trans hyes).trans hno).tail (.fills _ ns (Draft.current_terminate ..))
  | .whileLoop line cond body, d, f, ns, hd, h =>
    (lowerStmt_steps body).lowersLoop hd (lowerStmt_whileLoop.mp h)
  | .doLoop line cond body, d, f, ns, hd, h =>
    (lowerStmt_steps body).lowersLoop hd (lowerStmt_doLoop.mp h)
  | .forLoop line init cond post body, d, f, ns, hd, h => by
    have hinit : Draft.Steps (d, ns) (if init.isEmpty then d else d.expr init init.line, ns) := by
      split
      · exact .refl
      · exact Draft.steps_expr d ns init init.line
    exact hinit.trans ((lowerStmt_steps body).lowersLoop (hinit.rooted hd) (lowerStmt_forLoop.mp h))
  | .returnValue line value, d, f, ns, hd, h => by
    cases h
    exact (Draft.steps_calling d ns value line).trans (Draft.steps_leave _ ns rfl)
  | .revert line args, d, f, ns, hd, h => by
    cases h
    refine .trans ?_ (Draft.steps_leave _ ns rfl)
    split
    · exact .refl
    · exact Draft.steps_emit d ns nofun
  | .require line cond message internal, d, f, ns, hd, h => by
    cases h
    exact Draft.steps_check hd cond line _
  | .breakLoop line, d, f, ns, hd, h => by
    rw [lowerStmt] at h
    split at h
    · contradiction
    · next top rest hloops =>
      cases h
      have hensure := Draft.steps_ensure d ns
      exact hensure.trans (Draft.steps_jump ns (hensure.inner (hd.loops top (by simp [hloops])).1))
  | .continueLoop line, d, f, ns, hd, h => by
    rw [lowerStmt] at h
    split at h
    · contradiction
    · next top rest hloops =>
      cases h
      have hensure := Draft.steps_ensure d ns
      exact hensure.trans (Draft.steps_jump ns (hensure.inner (hd.loops top (by simp [hloops])).2))

theorem lowerStmts_steps : ∀ (body : List Stmt) (d f : Draft) (ns : List Nat),
    Draft.Rooted (d, ns) → lowerStmts body d = .ok f → Draft.Steps (d, ns) (f, ns)
  | [], d, f, ns, hd, h => by
    cases h
    exact .refl
  | s :: rest, d, f, ns, hd, h => by
    obtain ⟨e, he, h⟩ := bind_eq_ok_iff.mp h
    have hfirst := lowerStmt_steps s d e ns hd he
    exact hfirst.trans (lowerStmts_steps rest e f ns (hfirst.rooted hd) h)

end

end ContractAudit.Flow
