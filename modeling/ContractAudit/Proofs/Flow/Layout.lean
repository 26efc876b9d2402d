import ContractAudit.Proofs.Flow.Growth
import ContractAudit.Proofs.Flow.Metadata

/-!
The blocks that choices, checks and loops are lowered to.

* `Chooses`, `Checks`: a choice and a check, up to the branch on their condition.
* `OpensLoop`, `EntersLoop`, `LeavesLoop`: the three stages of lowering a loop.
* `lowerStmt_steady`: lowering a statement grows the draft and ends inside the same loops.
-/

namespace ContractAudit.Flow

open Source (Expr Stmt)

/-! ### Headers and latches of loops -/

/-- The header of a loop tests its condition, or leads on to the body without one. -/
structure HeaderAt (blocks : List DraftBlock) (frame : LoopFrame) (l : Loop) : Prop where
  forever : l.cond.isEmpty = true → EndsAt blocks frame.header 0 (.jump frame.body)
  tests : l.cond.isEmpty = false → RunsAt blocks frame.header 0 [condEvent l.cond l.line]
  branches : l.cond.isEmpty = false →
    ∃ v, EndsAt blocks frame.header 1 (.branch v frame.body frame.exit)

/-- The latch of a loop takes its step and leads back to the header, or is the header without
one. -/
structure LatchAt (blocks : List DraftBlock) (frame : LoopFrame) (l : Loop) : Prop where
  eq_header : l.post.isEmpty = true → frame.latch = frame.header
  runs : l.post.isEmpty = false → RunsAt blocks frame.latch 0 [exprEvent l.post l.line]
  returns : l.post.isEmpty = false → EndsAt blocks frame.latch 1 (.jump frame.header)

variable {old new : List DraftBlock} {l : Loop} {d : Draft}

lemma HeaderAt.extend {frame : LoopFrame} (h : HeaderAt old frame l) (hext : Extends old new) :
    HeaderAt new frame l where
  forever hcond := (h.forever hcond).extend nofun hext
  tests hcond := (h.tests hcond).extend hext
  branches hcond := by
    obtain ⟨v, hends⟩ := h.branches hcond
    exact ⟨v, hends.extend nofun hext⟩

lemma LatchAt.extend {frame : LoopFrame} (h : LatchAt old frame l) (hext : Extends old new) :
    LatchAt new frame l where
  eq_header := h.eq_header
  runs hpost := (h.runs hpost).extend hext
  returns hpost := (h.returns hpost).extend nofun hext

namespace Draft

variable {d e : Draft}

/-! ### Opening blocks -/

lemma spot_openBlock (hd : d.Open) : d.openBlock.2.spot = d.spot := by
  cases hc : d.current with
  | none => simp [spot, openBlock, hc]
  | some n =>
    obtain ⟨b, hb, _⟩ := hd n hc
    have hb' : d.openBlock.2.blocks[n]? = some b := getElem?_of_prefix (List.prefix_append ..) hb
    rw [spot, spot, show d.openBlock.2.current = d.current from rfl, hc]
    simp only [Option.map_some, hb, hb']

/-- `e` is `d` with more blocks waiting to be filled. -/
structure OnlyOpens (d e : Draft) : Prop where
  grows : Grows d e
  loops : e.loops = d.loops
  spot : e.spot = d.spot

lemma OnlyOpens.trans {f : Draft} (h : OnlyOpens d e) (h' : OnlyOpens e f) : OnlyOpens d f :=
  ⟨h.grows.trans h'.grows, h'.loops.trans h.loops, h'.spot.trans h.spot⟩

lemma onlyOpens_openBlock (hd : d.Open) : OnlyOpens d d.openBlock.2 :=
  ⟨(Grows.refl hd).openBlock, rfl, spot_openBlock hd⟩

/-- Blocks are numbered in the order in which they are opened. -/
lemma openBlock_lt_openBlock (d : Draft) : d.openBlock.1 < d.openBlock.2.openBlock.1 := by
  simp [openBlock]

lemma appends_cond (hd : d.Open) (cond : Expr) (line : Nat) :
    Appends d (d.cond cond line).2 [condEvent cond line] :=
  appends_emit (e := { d with conds := d.conds + 1 }) hd rfl rfl rfl _

lemma appends_expr (hd : d.Open) (value : Expr) (line : Nat) :
    Appends d (d.expr value line) [exprEvent value line] :=
  event_instrOf d.scope value line ▸ appends_emit (e := (d.instr value line).2) hd rfl rfl rfl _

/-- Appends an expression that may be missing. -/
lemma appends_expr? (hd : d.Open) (value : Expr) (line : Nat) :
    Appends d (if value.isEmpty then d else d.expr value line) (exprEvents value line) := by
  unfold exprEvents
  split
  · exact appends_nothing hd rfl rfl rfl
  · exact appends_expr hd value line

lemma appends_calling (hd : d.Open) (value : Expr) (line : Nat) :
    Appends d (d.calling value line) (returnEvents value line) := by
  unfold calling returnEvents exprEvents
  split
  · exact appends_nothing hd rfl rfl rfl
  · have hevent : (d.instr value line).1.event = exprEvent value line :=
      event_instrOf d.scope value line
    rw [← hevent]
    by_cases hcalls : (!(d.instr value line).1.external.isEmpty ||
        !(d.instr value line).1.calls.isEmpty) = true
    · rw [List.filter_cons_of_pos (p := fun e : Event => !e.external.isEmpty || !e.calls.isEmpty)
        hcalls]
      simp only [hcalls, if_true]
      exact appends_emit (e := (d.instr value line).2) hd rfl rfl rfl _
    · rw [List.filter_cons_of_neg (p := fun e : Event => !e.external.isEmpty || !e.calls.isEmpty)
        hcalls]
      simp only [hcalls, if_false, Bool.false_eq_true]
      exact appends_nothing (e := (d.instr value line).2) hd rfl rfl rfl

/-! ### Choices and checks -/

/-- `e` is `d` with a condition, seen as `event`, and a branch on it to the blocks of `frame`. The
block behind the choice is a third one if there are two branches. -/
structure Chooses (d e : Draft) (event : Event) (both : Bool) (frame : ChoiceFrame) : Prop where
  grows : Grows d e
  loops : e.loops = d.loops
  current : e.current = none
  runs : ∀ n k, d.spot = some (n, k) → RunsAt e.blocks n k [event]
  branches : ∀ n k, d.spot = some (n, k) →
    ∃ v, EndsAt e.blocks n (k + 1) (.branch v frame.yes frame.no)
  yes : e.Reserved frame.yes
  no : e.Reserved frame.no
  join : e.Reserved frame.join
  length_le : d.blocks.length ≤ frame.yes
  yes_lt : frame.yes < frame.no
  no_le : frame.no ≤ frame.join
  join_eq : frame.no = frame.join ↔ both = false

lemma Chooses.of_opened {d₁ d₂ : Draft} {event : Event} {both : Bool} (frame : ChoiceFrame)
    {v : Var}
    (hcond : Appends d d₁ [event]) (hopen : OnlyOpens d₁ d₂) (hyes : d₂.Reserved frame.yes)
    (hno : d₂.Reserved frame.no) (hjoin : d₂.Reserved frame.join)
    (length_le : d.blocks.length ≤ frame.yes) (yes_lt : frame.yes < frame.no)
    (no_le : frame.no ≤ frame.join) (join_eq : frame.no = frame.join ↔ both = false) :
    Chooses d (d₂.terminate (.branch v frame.yes frame.no)) event both frame := by
  have hclose := closes_terminate hopen.grows.isOpen rfl rfl rfl (.branch v frame.yes frame.no)
  have hlater := hopen.grows.trans hclose.grows
  exact
    { grows := hcond.grows.trans hlater
      loops := hclose.loops.trans (hopen.loops.trans hcond.loops)
      current := hclose.current
      runs := fun n k hspot => (hcond.runs n k hspot).extend (hlater.toExtends hcond.grows.isOpen)
      branches := fun n k hspot =>
        ⟨v, hclose.ends n (k + 1) (hopen.spot.trans (hcond.spot n k hspot))⟩
      yes := hclose.grows.reserved hyes
      no := hclose.grows.reserved hno
      join := hclose.grows.reserved hjoin
      length_le, yes_lt, no_le, join_eq }

lemma chooses_openChoice (hd : d.Open) (cond : Expr) (line : Nat) (both : Bool) :
    Chooses d (d.openChoice cond line both).2 (condEvent cond line) both
      (d.openChoice cond line both).1 := by
  have hcond := appends_cond hd cond line
  have hopen₁ := onlyOpens_openBlock hcond.grows.isOpen
  have hopen₂ := onlyOpens_openBlock hopen₁.grows.isOpen
  have hyes := hopen₂.grows.reserved (reserved_openBlock hcond.grows.isOpen)
  have hno := reserved_openBlock hopen₁.grows.isOpen
  have hlt := openBlock_lt_openBlock (d.cond cond line).2
  cases both with
  | false =>
    exact .of_opened (d.openChoice cond line false).1 hcond (hopen₁.trans hopen₂) hyes hno hno
      hcond.grows.length_le hlt (Nat.le_refl _) (iff_of_true rfl rfl)
  | true =>
    have hopen₃ := onlyOpens_openBlock hopen₂.grows.isOpen
    have hlt' := openBlock_lt_openBlock (d.cond cond line).2.openBlock.2
    exact .of_opened (d.openChoice cond line true).1 hcond (hopen₁.trans (hopen₂.trans hopen₃))
      (hopen₃.grows.reserved hyes) (hopen₃.grows.reserved hno)
      (reserved_openBlock hopen₂.grows.isOpen) hcond.grows.length_le hlt (Nat.le_of_lt hlt')
      (iff_of_false (Nat.ne_of_lt hlt') (by decide))

/-- `e` is `d` with a check: its condition is seen as `event`, and `e` goes on where it holds. -/
structure Checks (d e : Draft) (event : Event) (reason : Text) : Prop where
  grows : Grows d e
  loops : e.loops = d.loops
  runs : ∀ n k, d.spot = some (n, k) → RunsAt e.blocks n k [event]
  branches : ∃ pass fail, e.spot = some (pass, 0) ∧ EndsAt e.blocks fail 0 (.revert reason) ∧
    ∀ n k, d.spot = some (n, k) → ∃ v, EndsAt e.blocks n (k + 1) (.branch v pass fail)

lemma checks_check (hd : d.Open) (cond : Expr) (line : Nat) (reason : Text) :
    Checks d (d.check cond line reason) (condEvent cond line) reason := by
  have hchoose := chooses_openChoice hd cond line false
  rw [check]
  generalize d.openChoice cond line false = choice at hchoose ⊢
  obtain ⟨frame, e⟩ := choice
  have hle := Nat.le_trans hchoose.length_le (Nat.le_of_lt hchoose.yes_lt)
  have hpass := hchoose.yes.setTerm (.revert reason) (Nat.ne_of_gt hchoose.yes_lt)
  have hext := hchoose.no.extends_setTerm (.revert reason)
  exact
    { grows := (hchoose.grows.setTerm hchoose.no hle _).goTo hpass hchoose.length_le
      loops := hchoose.loops
      runs := fun n k hspot => (hchoose.runs n k hspot).extend hext
      branches := by
        refine ⟨frame.yes, frame.no, hpass.spot_goTo, hchoose.no.endsAt_setTerm _,
          fun n k hspot => ?_⟩
        obtain ⟨v, hends⟩ := hchoose.branches n k hspot
        exact ⟨v, hends.extend nofun hext⟩ }

/-! ### Loops -/

/-- `e` is `d` with the blocks of `frame`, for a loop with the step `post`. -/
structure OpensLoop (d e : Draft) (post : Expr) (frame : LoopFrame) : Prop where
  opens : OnlyOpens d e
  header : e.Reserved frame.header
  body : e.Reserved frame.body
  latch : post.isEmpty = false → e.Reserved frame.latch
  exit : e.Reserved frame.exit
  length_le : d.blocks.length ≤ frame.header
  header_lt : frame.header < frame.body
  body_lt : frame.body < frame.exit
  latch_eq : post.isEmpty = true → frame.latch = frame.header
  latch_lt : post.isEmpty = false → frame.body < frame.latch ∧ frame.latch < frame.exit

lemma opensLoop_openLoop (hd : d.Open) (post : Expr) :
    OpensLoop d (d.openLoop post).2 post (d.openLoop post).1 := by
  have hopen₁ := onlyOpens_openBlock hd
  have hopen₂ := onlyOpens_openBlock hopen₁.grows.isOpen
  have hopen₃ := onlyOpens_openBlock hopen₂.grows.isOpen
  have hheader := (hopen₂.trans hopen₃).grows.reserved (reserved_openBlock hd)
  have hbody := hopen₃.grows.reserved (reserved_openBlock hopen₁.grows.isOpen)
  have hthird := reserved_openBlock hopen₂.grows.isOpen
  have hlt₁ := d.openBlock_lt_openBlock
  have hlt₂ := openBlock_lt_openBlock d.openBlock.2
  have hopened := hopen₁.trans (hopen₂.trans hopen₃)
  cases hpost : post.isEmpty with
  | true =>
    simp only [openLoop, hpost]
    exact ⟨hopened, hheader,
      hbody, by simp [hpost], hthird, Nat.le_refl _, hlt₁, hlt₂, fun _ => rfl, by simp [hpost]⟩
  | false =>
    have hopen₄ := onlyOpens_openBlock hopen₃.grows.isOpen
    have hlt₃ := openBlock_lt_openBlock d.openBlock.2.openBlock.2
    simp only [openLoop, hpost]
    exact ⟨hopened.trans hopen₄, hopen₄.grows.reserved hheader, hopen₄.grows.reserved hbody,
      fun _ => hopen₄.grows.reserved hthird, reserved_openBlock hopen₃.grows.isOpen, Nat.le_refl _,
      hlt₁, Nat.lt_trans hlt₂ hlt₃, by simp [hpost], fun _ => ⟨hlt₂, hlt₃⟩⟩

/-- Fills the header of a loop, in which the draft stands. -/
lemma fillsHeader (hd : d.Open) (frame : LoopFrame) (l : Loop) (hspot : d.spot = some
    (frame.header, 0)) (he : e = if l.cond.isEmpty then d.jump frame.body
      else (d.cond l.cond l.line).2.terminate
        (.branch (d.cond l.cond l.line).1 frame.body frame.exit)) :
    Grows d e ∧ e.loops = d.loops ∧ HeaderAt e.blocks frame l := by
  cases hcond : l.cond.isEmpty with
  | true =>
    rw [hcond, if_pos rfl] at he
    have hclose := closes_terminate hd rfl rfl rfl (.jump frame.body)
    rw [he]
    exact ⟨hclose.grows, hclose.loops,
      ⟨fun _ => hclose.ends _ _ hspot, by simp [hcond], by simp [hcond]⟩⟩
  | false =>
    rw [hcond, if_neg Bool.false_ne_true] at he
    have happ := appends_cond hd l.cond l.line
    have hclose := closes_terminate happ.grows.isOpen rfl rfl rfl
      (.branch (d.cond l.cond l.line).1 frame.body frame.exit)
    rw [he]
    exact ⟨happ.grows.trans hclose.grows, hclose.loops.trans happ.loops,
      ⟨by simp [hcond],
        fun _ => (happ.runs _ _ hspot).extend (hclose.grows.toExtends happ.grows.isOpen),
        fun _ => ⟨_, hclose.ends _ _ (happ.spot _ _ hspot)⟩⟩⟩

/-- `e` is `d` with a loop opened and entered at block `first`: its header is filled, and `e` stands
at the start of the body. -/
structure EntersLoop (d e : Draft) (l : Loop) (frame : LoopFrame) (first : Nat) : Prop where
  grows : Grows d e
  loops : e.loops = ⟨frame.exit, frame.latch⟩ :: d.loops
  spot : e.spot = some (frame.body, 0)
  enters : ∀ n k, d.spot = some (n, k) → EndsAt e.blocks n k (.jump first)
  header : HeaderAt e.blocks frame l
  latch : l.post.isEmpty = false → e.Reserved frame.latch ∧ d.blocks.length ≤ frame.latch
  latch_eq : l.post.isEmpty = true → frame.latch = frame.header
  exit : e.Reserved frame.exit
  length_le : d.blocks.length ≤ frame.exit
  latch_ne : l.post.isEmpty = false → frame.latch ≠ frame.exit

lemma entersLoop_enterLoop (hd : d.Open) (l : Loop) (bodyFirst : Bool) :
    EntersLoop d ((d.openLoop l.post).2.enterLoop (d.openLoop l.post).1 l.line l.cond bodyFirst) l
      (d.openLoop l.post).1
      (if bodyFirst then (d.openLoop l.post).1.body else (d.openLoop l.post).1.header) := by
  have hopen := opensLoop_openLoop hd l.post
  generalize d.openLoop l.post = opened at hopen ⊢
  obtain ⟨frame, d₀⟩ := opened
  simp only at hopen ⊢
  generalize hfirst : (if bodyFirst then frame.body else frame.header) = first
  -- closing the block in front of the loop
  have hclose := closes_terminate hopen.opens.grows.isOpen rfl rfl rfl (.jump first)
  have hheader := hclose.grows.reserved hopen.header
  have hgrows₂ := (hopen.opens.grows.trans hclose.grows).goTo hheader hopen.length_le
  -- filling the header
  obtain ⟨d₃, hd₃⟩ : ∃ d₃, d₃ = if l.cond.isEmpty then
      ((d₀.jump first).goTo frame.header).jump frame.body
    else (((d₀.jump first).goTo frame.header).cond l.cond l.line).2.terminate
      (.branch (((d₀.jump first).goTo frame.header).cond l.cond l.line).1 frame.body frame.exit) :=
    ⟨_, rfl⟩
  obtain ⟨hgrows₃, hloops₃, hheader₃⟩ :=
    fillsHeader hheader.open_goTo frame l hheader.spot_goTo hd₃
  have hreserved : ∀ n, d₀.Reserved n → frame.header ≠ n → d₃.Reserved n := fun n hn hne =>
    hgrows₃.reserved ((hclose.grows.reserved hn).goTo hne)
  have hbody := hreserved _ hopen.body (Nat.ne_of_lt hopen.header_lt)
  have hexit := hreserved _ hopen.exit (Nat.ne_of_lt (Nat.lt_trans hopen.header_lt hopen.body_lt))
  have hle := Nat.le_trans hopen.length_le (Nat.le_of_lt hopen.header_lt)
  rw [enterLoop, hfirst]
  simp only [← hd₃]
  exact
    { grows := ((hgrows₂.trans hgrows₃).goTo hbody hle).congr rfl rfl
      loops := congrArg _ (hloops₃.trans (hclose.loops.trans hopen.opens.loops))
      spot := hbody.spot_goTo
      enters := fun n k hspot => (hclose.ends n k (hopen.opens.spot.trans hspot)).extend nofun
        (hgrows₃.toExtends hheader.open_goTo)
      header := hheader₃
      latch := fun hpost => by
        obtain ⟨hlt, _⟩ := hopen.latch_lt hpost
        have hlatch := hreserved _ (hopen.latch hpost)
          (Nat.ne_of_lt (Nat.lt_trans hopen.header_lt hlt))
        exact ⟨hlatch.goTo (Nat.ne_of_lt hlt), Nat.le_trans hle (Nat.le_of_lt hlt)⟩
      latch_eq := hopen.latch_eq
      exit := hexit.goTo (Nat.ne_of_lt hopen.body_lt)
      length_le := Nat.le_trans hle (Nat.le_of_lt hopen.body_lt)
      latch_ne := fun hpost => Nat.ne_of_lt (hopen.latch_lt hpost).2 }

/-- `f` is `e`, which stands at the end of the body of a loop, with that loop left: its latch is
filled, and `f` goes on behind the loop. The loop was opened in `d`. -/
structure LeavesLoop (d e f : Draft) (l : Loop) (frame : LoopFrame) : Prop where
  grows : Grows d f
  loops : f.loops = d.loops
  spot : f.spot = some (frame.exit, 0)
  extendsBody : Extends e.blocks f.blocks
  returns : ∀ n k, e.spot = some (n, k) → EndsAt f.blocks n k (.jump frame.latch)
  latch : LatchAt f.blocks frame l

lemma EntersLoop.leavesLoop_leaveLoop {f : Draft} {frame : LoopFrame} {first : Nat}
    (henter : EntersLoop d e l frame first) (hbody : Grows e f) (hloops : f.loops = e.loops) :
    LeavesLoop d f (f.leaveLoop frame l.line l.post) l frame := by
  -- closing the end of the body
  obtain ⟨d₁, hd₁⟩ : ∃ d₁, d₁ = { f with loops := f.loops.drop 1 }.jump frame.latch := ⟨_, rfl⟩
  have hinner : Grows f { f with loops := f.loops.drop 1 } :=
    (Grows.refl hbody.isOpen).congr rfl rfl
  have hclose := closes_terminate hinner.isOpen rfl rfl rfl (.jump frame.latch)
  rw [show terminate _ _ = d₁ from hd₁.symm] at hclose
  have hgrows₁ := hinner.trans hclose.grows
  have hgrows := (henter.grows.trans hbody).trans hgrows₁
  have hext := hgrows₁.toExtends hbody.isOpen
  have hloops₁ : d₁.loops = d.loops := by
    rw [hclose.loops, hloops, henter.loops]
    rfl
  have hexit := hgrows₁.reserved (hbody.reserved henter.exit)
  rw [leaveLoop, ← hd₁]
  cases hpost : l.post.isEmpty with
  | true =>
    exact
      { grows := hgrows.goTo hexit henter.length_le
        loops := hloops₁
        spot := hexit.spot_goTo
        extendsBody := hext
        returns := hclose.ends
        latch := ⟨henter.latch_eq, by simp [hpost], by simp [hpost]⟩ }
  | false =>
    -- filling the latch
    obtain ⟨hreserved, hle⟩ := henter.latch hpost
    have hlatch := hgrows₁.reserved (hbody.reserved hreserved)
    have happ := appends_expr hlatch.open_goTo l.post l.line
    have hclose₂ := closes_terminate happ.grows.isOpen rfl rfl rfl (.jump frame.header)
    have hgrows₂ := happ.grows.trans hclose₂.grows
    have hext₂ := hgrows₂.toExtends hlatch.open_goTo
    have hexit₂ := hgrows₂.reserved (hexit.goTo (henter.latch_ne hpost))
    exact
      { grows := ((hgrows.goTo hlatch hle).trans hgrows₂).goTo hexit₂ henter.length_le
        loops := hclose₂.loops.trans (happ.loops.trans hloops₁)
        spot := hexit₂.spot_goTo
        extendsBody := hext.trans hext₂
        returns := fun n k hspot => (hclose.ends n k hspot).extend nofun hext₂
        latch :=
          { eq_header := by simp [hpost]
            runs := fun _ => (happ.runs _ _ hlatch.spot_goTo).extend
              (hclose₂.grows.toExtends happ.grows.isOpen)
            returns := fun _ => hclose₂.ends _ _ (happ.spot _ _ hlatch.spot_goTo) } }

end Draft

/-! ### Statements -/

lemma bind_eq_ok_iff {ε α β : Type} {x : Except ε α} {f : α → Except ε β} {b : β} :
    x >>= f = .ok b ↔ ∃ a, x = .ok a ∧ f a = .ok b := by
  cases x with
  | error _ => exact iff_of_false nofun fun ⟨_, h, _⟩ => nomatch h
  | ok a => exact ⟨fun h => ⟨a, rfl, h⟩, fun ⟨_, ha, h⟩ => by cases ha; exact h⟩

/-- What comes out of a computation can be tested by running it. -/
instance decidableExistsOk {ε α : Type} {p : α → Prop} [DecidablePred p] :
    (x : Except ε α) → Decidable (∃ a, x = .ok a ∧ p a)
  | .error _ => .isFalse fun ⟨_, h, _⟩ => nomatch h
  | .ok a => decidable_of_iff (p a) ⟨fun h => ⟨a, rfl, h⟩, fun ⟨_, ha, h⟩ => by cases ha; exact h⟩

/-- Lowering `s` grows a draft and ends inside the same loops. -/
def Steady (s : Stmt) : Prop :=
  ∀ d f : Draft, d.Open → lowerStmt s d = .ok f → d.Grows f ∧ f.loops = d.loops

/-- `s` is lowered into `blocks`, inside `loops`, from the start of block `start` on, and what it
falls through to is block `next`. -/
def PlacedAt (blocks : List DraftBlock) (loops : List LoopExits) (s : Stmt) (start next : Nat) :
    Prop :=
  ∃ d f : Draft, d.Open ∧ d.spot = some (start, 0) ∧ d.loops = loops ∧ lowerStmt s d = .ok f ∧
    Extends f.blocks blocks ∧ ∀ n k, f.spot = some (n, k) → EndsAt blocks n k (.jump next)

lemma PlacedAt.extend {loops : List LoopExits} {s : Stmt} {start next : Nat}
    (h : PlacedAt old loops s start next) (hext : Extends old new) :
    PlacedAt new loops s start next := by
  obtain ⟨d, f, hopen, hspot, hloops, hlower, hfinal, hends⟩ := h
  exact ⟨d, f, hopen, hspot, hloops, hlower, hfinal.trans hext,
    fun n k hn => (hends n k hn).extend nofun hext⟩

/-- Lowers a statement into a reserved block and goes on in another one. -/
lemma Steady.jump {s : Stmt} (hs : Steady s) {e : Draft} {start : Nat} (hstart : d.Reserved start)
    (h : lowerStmt s (d.goTo start) = .ok e) (next : Nat) :
    (d.goTo start).Grows (e.jump next) ∧ (e.jump next).loops = d.loops ∧
      PlacedAt (e.jump next).blocks d.loops s start next := by
  obtain ⟨hgrows, hloops⟩ := hs _ _ hstart.open_goTo h
  have hclose := Draft.closes_terminate hgrows.isOpen rfl rfl rfl (.jump next)
  exact ⟨hgrows.trans hclose.grows, hclose.loops.trans hloops, _, e, hstart.open_goTo,
    hstart.spot_goTo, rfl, h, hclose.grows.toExtends hgrows.isOpen, hclose.ends⟩

/-- The loop `l` is lowered from `d` to `f`, entered at its body or at its header. -/
def LowersLoop (l : Loop) (bodyFirst : Bool) (d f : Draft) : Prop :=
  ∃ e, lowerStmt l.body
      ((d.openLoop l.post).2.enterLoop (d.openLoop l.post).1 l.line l.cond bodyFirst) = .ok e ∧
    e.leaveLoop (d.openLoop l.post).1 l.line l.post = f

section Inversion

variable {d f : Draft} {line : Nat} {cond : Expr} {body : Stmt}

lemma lowerStmt_whileLoop : lowerStmt (.whileLoop line cond body) d = .ok f ↔
    LowersLoop ⟨line, cond, [], body⟩ false d f := by
  simp only [lowerStmt, bind_eq_ok_iff, LowersLoop, pure, Except.pure, Except.ok.injEq]

lemma lowerStmt_doLoop : lowerStmt (.doLoop line cond body) d = .ok f ↔
    LowersLoop ⟨line, cond, [], body⟩ true d f := by
  simp only [lowerStmt, bind_eq_ok_iff, LowersLoop, pure, Except.pure, Except.ok.injEq]

lemma lowerStmt_forLoop {init post : Expr} :
    lowerStmt (.forLoop line init cond post body) d = .ok f ↔
    LowersLoop ⟨line, cond, post, body⟩ false (if init.isEmpty then d else d.expr init init.line)
      f := by
  simp only [lowerStmt, bind_eq_ok_iff, LowersLoop, pure, Except.pure, Except.ok.injEq]

end Inversion

/-- The blocks of the loop `l`, which is lowered from `d` to `f` and entered at block `first`. -/
structure LoopLayout (d f : Draft) (l : Loop) (frame : LoopFrame) (first : Nat) : Prop where
  grows : d.Grows f
  loops : f.loops = d.loops
  spot : f.spot = some (frame.exit, 0)
  enters : ∀ n k, d.spot = some (n, k) → EndsAt f.blocks n k (.jump first)
  header : HeaderAt f.blocks frame l
  latch : LatchAt f.blocks frame l
  body : PlacedAt f.blocks (⟨frame.exit, frame.latch⟩ :: d.loops) l.body frame.body frame.latch

lemma LowersLoop.layout {bodyFirst : Bool} {f : Draft} (hbody : Steady l.body) (hd : d.Open)
    (h : LowersLoop l bodyFirst d f) :
    ∃ frame, LoopLayout d f l frame (if bodyFirst then frame.body else frame.header) := by
  obtain ⟨e, he, rfl⟩ := h
  have henter := Draft.entersLoop_enterLoop hd l bodyFirst
  obtain ⟨hgrows, hloops⟩ := hbody _ _ henter.grows.isOpen he
  have hleave := henter.leavesLoop_leaveLoop hgrows hloops
  have hext := (hgrows.toExtends henter.grows.isOpen).trans hleave.extendsBody
  exact ⟨_,
    { grows := hleave.grows
      loops := hleave.loops
      spot := hleave.spot
      enters := fun n k hspot => (henter.enters n k hspot).extend nofun hext
      header := henter.header.extend hext
      latch := hleave.latch
      body := ⟨_, e, henter.grows.isOpen, henter.spot, henter.loops, he, hleave.extendsBody,
        hleave.returns⟩ }⟩

/-- The blocks of a choice between `yes` and `no`, which is lowered from `d` to `f`. -/
structure ChoiceLayout (d f : Draft) (event : Event) (yes no : Stmt) (frame : ChoiceFrame) :
    Prop where
  grows : d.Grows f
  loops : f.loops = d.loops
  spot : f.spot = some (frame.join, 0)
  runs : ∀ n k, d.spot = some (n, k) → RunsAt f.blocks n k [event]
  branches : ∀ n k, d.spot = some (n, k) →
    ∃ v, EndsAt f.blocks n (k + 1) (.branch v frame.yes frame.no)
  placedYes : PlacedAt f.blocks d.loops yes frame.yes frame.join
  placedNo : no.isEmpty = false → PlacedAt f.blocks d.loops no frame.no frame.join
  no_eq : no.isEmpty = true → frame.no = frame.join

lemma choiceLayout_of_lowerStmt {line : Nat} {cond : Expr} {yes no : Stmt} {f : Draft}
    (hyes : Steady yes) (hno : Steady no) (hd : d.Open)
    (h : lowerStmt (.ifElse line cond yes no) d = .ok f) :
    ∃ frame, ChoiceLayout d f (condEvent cond line) yes no frame := by
  have hchoose := Draft.chooses_openChoice hd cond line (!no.isEmpty)
  simp only [lowerStmt, bind_eq_ok_iff] at h
  generalize d.openChoice cond line (!no.isEmpty) = choice at h hchoose
  obtain ⟨frame, d₁⟩ := choice
  obtain ⟨e, he, h⟩ := h
  -- the first branch, and the jump behind it
  obtain ⟨hgrows₂, hloops₂, hplaced₂⟩ := hyes.jump hchoose.yes he frame.join
  generalize e.jump frame.join = d₂ at h hgrows₂ hloops₂ hplaced₂
  have hext₂ := hgrows₂.toExtends hchoose.yes.open_goTo
  have hgrows := (hchoose.grows.goTo hchoose.yes hchoose.length_le).trans hgrows₂
  have hlt := Nat.lt_of_lt_of_le hchoose.yes_lt hchoose.no_le
  have hjoin := hgrows₂.reserved (hchoose.join.goTo (Nat.ne_of_lt hlt))
  have hjoin_le := Nat.le_trans hchoose.length_le (Nat.le_of_lt hlt)
  rw [hchoose.loops] at hloops₂ hplaced₂
  refine ⟨frame, ?_⟩
  cases hempty : no.isEmpty with
  | true =>
    simp only [hempty, if_true, pure, Except.pure, Except.ok.injEq] at h
    subst h
    exact
      { grows := hgrows.goTo hjoin hjoin_le
        loops := hloops₂
        spot := hjoin.spot_goTo
        runs := fun n k hspot => (hchoose.runs n k hspot).extend hext₂
        branches := fun n k hspot => by
          obtain ⟨v, hends⟩ := hchoose.branches n k hspot
          exact ⟨v, hends.extend nofun hext₂⟩
        placedYes := hplaced₂
        placedNo := by simp [hempty]
        no_eq := fun _ => hchoose.join_eq.mpr (by simp [hempty]) }
  | false =>
    simp only [hempty, Bool.false_eq_true, if_false, bind_eq_ok_iff, pure, Except.pure,
      Except.ok.injEq] at h
    obtain ⟨e', he', rfl⟩ := h
    -- the second branch, and the jump behind it
    have hsecond := hgrows₂.reserved (hchoose.no.goTo (Nat.ne_of_lt hchoose.yes_lt))
    obtain ⟨hgrows₃, hloops₃, hplaced₃⟩ := hno.jump hsecond he' frame.join
    generalize e'.jump frame.join = d₃ at hgrows₃ hloops₃ hplaced₃
    have hext₃ := hgrows₃.toExtends hsecond.open_goTo
    have hne : frame.no ≠ frame.join := fun heq => by simpa [hempty] using hchoose.join_eq.mp heq
    have hjoin₃ := hgrows₃.reserved (hjoin.goTo hne)
    have hno_le := Nat.le_trans hchoose.length_le (Nat.le_of_lt hchoose.yes_lt)
    rw [hloops₂] at hloops₃ hplaced₃
    exact
      { grows := ((hgrows.goTo hsecond hno_le).trans hgrows₃).goTo hjoin₃ hjoin_le
        loops := hloops₃
        spot := hjoin₃.spot_goTo
        runs := fun n k hspot => (hchoose.runs n k hspot).extend (hext₂.trans hext₃)
        branches := fun n k hspot => by
          obtain ⟨v, hends⟩ := hchoose.branches n k hspot
          exact ⟨v, hends.extend nofun (hext₂.trans hext₃)⟩
        placedYes := hplaced₂.extend hext₃
        placedNo := fun _ => hplaced₃
        no_eq := by simp [hempty] }

section Leaving

variable {d f : Draft} {line : Nat} (hd : d.Open)

include hd

lemma returnValue_layout {value : Expr} (h : lowerStmt (.returnValue line value) d = .ok f) :
    ∃ e, d.Appends e (returnEvents value line) ∧ e.Closes f (.done value.readNames) := by
  cases h
  have happ := Draft.appends_calling hd value line
  exact ⟨_, happ, Draft.closes_ensure_terminate happ.grows.isOpen _⟩

lemma revert_layout {args : Expr} (h : lowerStmt (.revert line args) d = .ok f) :
    ∃ e, d.Appends e (revertEvents args line) ∧ e.Closes f (.revert (revertReason args)) := by
  simp only [lowerStmt, Except.ok.injEq, revertText_eq] at h
  subst h
  have happ : d.Appends (if args.readNames.isEmpty then d
      else d.emit { op := .eval, uses := args.readNames, value := args, line })
      (revertEvents args line) := by
    unfold revertEvents
    split
    · exact Draft.appends_nothing hd rfl rfl rfl
    · exact Draft.appends_emit hd rfl rfl rfl _
  exact ⟨_, happ, Draft.closes_ensure_terminate happ.grows.isOpen _⟩

lemma breakLoop_layout (h : lowerStmt (.breakLoop line) d = .ok f) :
    ∃ top rest, d.loops = top :: rest ∧ d.Closes f (.jump top.exit) := by
  rw [lowerStmt] at h
  split at h
  · contradiction
  · next top rest hloops =>
    cases h
    exact ⟨top, rest, hloops, Draft.closes_ensure_terminate hd _⟩

lemma continueLoop_layout (h : lowerStmt (.continueLoop line) d = .ok f) :
    ∃ top rest, d.loops = top :: rest ∧ d.Closes f (.jump top.next) := by
  rw [lowerStmt] at h
  split at h
  · contradiction
  · next top rest hloops =>
    cases h
    exact ⟨top, rest, hloops, Draft.closes_ensure_terminate hd _⟩

end Leaving

/-! ### Lowering is steady -/

mutual

/-- Lowering a statement grows the draft and ends inside the same loops. -/
theorem lowerStmt_steady : ∀ s : Stmt, Steady s
  | .empty => fun d f hd h => by
    cases h
    exact ⟨.refl hd, rfl⟩
  | .placeholder _ => fun d f hd h => by
    cases h
    exact ⟨.refl hd, rfl⟩
  | .block _ body => fun d f hd h => lowerStmts_steady body d f hd h
  | .expr line value => fun d f hd h => by
    simp only [lowerStmt, Except.ok.injEq] at h
    have happ := Draft.appends_expr? hd value line
    exact h ▸ ⟨happ.grows, happ.loops⟩
  | .emit line _ args => fun d f hd h => by
    cases h
    exact ⟨(Draft.Grows.refl hd).emit _, d.loops_emit _⟩
  | .ifElse line cond yes no => fun d f hd h => by
    obtain ⟨frame, hlayout⟩ :=
      choiceLayout_of_lowerStmt (lowerStmt_steady yes) (lowerStmt_steady no) hd h
    exact ⟨hlayout.grows, hlayout.loops⟩
  | .whileLoop line cond body => fun d f hd h => by
    obtain ⟨frame, hlayout⟩ := (lowerStmt_whileLoop.mp h).layout (lowerStmt_steady body) hd
    exact ⟨hlayout.grows, hlayout.loops⟩
  | .doLoop line cond body => fun d f hd h => by
    obtain ⟨frame, hlayout⟩ := (lowerStmt_doLoop.mp h).layout (lowerStmt_steady body) hd
    exact ⟨hlayout.grows, hlayout.loops⟩
  | .forLoop line init cond post body => fun d f hd h => by
    have happ := Draft.appends_expr? hd init init.line
    obtain ⟨frame, hlayout⟩ :=
      (lowerStmt_forLoop.mp h).layout (lowerStmt_steady body) happ.grows.isOpen
    exact ⟨happ.grows.trans hlayout.grows, hlayout.loops.trans happ.loops⟩
  | .returnValue line value => fun d f hd h => by
    obtain ⟨e, happ, hclose⟩ := returnValue_layout hd h
    exact ⟨happ.grows.trans hclose.grows, hclose.loops.trans happ.loops⟩
  | .revert line args => fun d f hd h => by
    obtain ⟨e, happ, hclose⟩ := revert_layout hd h
    exact ⟨happ.grows.trans hclose.grows, hclose.loops.trans happ.loops⟩
  | .require line cond message internal => fun d f hd h => by
    cases h
    have hcheck := Draft.checks_check hd cond line (checkReason message internal)
    exact ⟨hcheck.grows, hcheck.loops⟩
  | .breakLoop line => fun d f hd h => by
    obtain ⟨_, _, _, hclose⟩ := breakLoop_layout hd h
    exact ⟨hclose.grows, hclose.loops⟩
  | .continueLoop line => fun d f hd h => by
    obtain ⟨_, _, _, hclose⟩ := continueLoop_layout hd h
    exact ⟨hclose.grows, hclose.loops⟩

theorem lowerStmts_steady : ∀ (body : List Stmt) (d f : Draft), d.Open → lowerStmts body d = .ok f →
    d.Grows f ∧ f.loops = d.loops
  | [], d, f, hd, h => by
    cases h
    exact ⟨.refl hd, rfl⟩
  | s :: rest, d, f, hd, h => by
    obtain ⟨e, he, h⟩ := bind_eq_ok_iff.mp h
    obtain ⟨hgrows, hloops⟩ := lowerStmt_steady s d e hd he
    obtain ⟨hgrows', hloops'⟩ := lowerStmts_steady rest e f hgrows.isOpen h
    exact ⟨hgrows.trans hgrows', hloops'.trans hloops⟩

end

/-! ### Bodies -/

lemma open_start (scope : Scope) : (Draft.start scope).Open := by
  intro n hn
  cases hn
  exact ⟨_, rfl, rfl⟩

lemma block?_graph {n : Nat} {b : DraftBlock} (h : d.blocks[n]? = some b) (name : Text) :
    (d.graph name).block? n = some (.ofTerminator n b.stmts b.term) := by
  refine Graph.block?_eq_some_iff.mpr ⟨?_, rfl⟩
  obtain ⟨hlt, rfl⟩ := List.getElem?_eq_some_iff.mp h
  exact List.mem_mapIdx.mpr ⟨n, hlt, rfl⟩

/-- A lowered body is the graph of a finished draft. -/
lemma lowerBody_eq_ok {name : Text} {scope : Scope} {named : List Var} {body : Stmt}
    {g : Graph Instr} (h : lowerBody name scope named body = .ok g) :
    ∃ d, lowerStmt body (Draft.start scope) = .ok d ∧
      g = ((d.terminate (.done named)).graph name).withMetadata := by
  obtain ⟨d, hd, h⟩ := bind_eq_ok_iff.mp h
  dsimp only at h
  split at h
  · cases h
    exact ⟨d, hd, rfl⟩
  · contradiction

end ContractAudit.Flow
