import ContractAudit.Flow.Program
import ContractAudit.Proofs.Flow.Layout

/-!
Lowering preserves meaning: walking the graph of a body shows what executing the body shows.

* `Built`: the blocks of a graph are those of a draft. The lemmas `walk_…` say what the walk does at
  a place of the draft.
* `Fits`: the tasks that are left to do are laid out from a place of the blocks on.
* `Moves`: what one step of an execution and the walk at the same place have in common. Every place
  that tasks fit has one (`Fits.moves`), reached through jumps alone.
* `execute_before_walk`, `walk_before_execute`: neither shows more than the other.
* `observed_lowerBody`, `observed_execute_iff_walk`: the result for bodies and for functions.
-/

namespace ContractAudit.Flow

open Source (Expr Stmt Contract Function SourceUnit)

/-! ### Walking through the blocks of a draft -/

/-- The graph has the given blocks. -/
def Built (g : Graph Instr) (blocks : List DraftBlock) : Prop :=
  ∀ (n : Nat) (b : DraftBlock), blocks[n]? = some b →
    ∃ c, g.block? n = some c ∧ c.stmts = b.stmts ∧ c.term = b.term

section Walk

-- its equations are made once, here, and not by each of the lemmas below
attribute [local simp] Graph.walk

variable {g : Graph Instr} {blocks : List DraftBlock} (hg : Built g blocks) {n k : Nat}

include hg

/-- A walk executes the instructions at its place, as far as it gets. -/
lemma walk_runsAt {events : List Event} (h : RunsAt blocks n k events) (m : Nat)
    (outcomes : List Bool) :
    g.walk m n k outcomes =
      (g.walk (m - events.length) n (k + events.length) outcomes).behind (events.take m) := by
  obtain ⟨b, hb, hevents⟩ := h
  obtain ⟨c, hc, hstmts, _⟩ := hg n b hb
  induction events generalizing k m with
  | nil => simp
  | cons event events ih =>
    cases m with
    | zero => simp [Graph.walk]
    | succ m =>
      -- the first of the instructions is the one at `k`
      obtain ⟨i, rest, hdrop, hi, hrest⟩ : ∃ i rest, b.stmts.drop k = i :: rest ∧
          i.event = event ∧ events <+: rest.map Instr.event := by
        cases hdrop : b.stmts.drop k with
        | nil => simp [hdrop] at hevents
        | cons i rest =>
          rw [hdrop, List.map_cons, List.cons_prefix_cons] at hevents
          exact ⟨i, rest, rfl, hevents.1.symm, hevents.2⟩
      have hget : c.stmts[k]? = some i := by
        rw [hstmts, ← List.head?_drop, hdrop]
        rfl
      have hnext : b.stmts.drop (k + 1) = rest := by
        rw [← List.drop_drop, hdrop]
        rfl
      have hwalk : g.walk (m + 1) n k outcomes =
          (g.walk m n (k + 1) outcomes).behind [i.event] := by
        simp only [Graph.walk, hc, hget]
      rw [hwalk, ih m (by rwa [hnext]), hi, ← Seen.behind_append, List.length_cons,
        Nat.add_sub_add_right, show k + 1 + events.length = k + (events.length + 1) by omega]
      rfl

lemma walk_jump {t : Nat} (h : EndsAt blocks n k (.jump t)) (m : Nat) (outcomes : List Bool) :
    g.walk m n k outcomes = g.walk (m - 1) t 0 outcomes := by
  obtain ⟨b, hb, rfl, hterm⟩ := h
  obtain ⟨c, hc, hstmts, hcterm⟩ := hg n b hb
  cases m with
  | zero => rfl
  | succ m => simp [Graph.walk, hc, hstmts, hcterm, hterm]

lemma walk_branch {v : Var} {yes no : Nat} (h : EndsAt blocks n k (.branch v yes no)) (m : Nat)
    (outcomes : List Bool) :
    g.walk (m + 1) n k outcomes = onOutcome (g.walk m yes 0) (g.walk m no 0) outcomes := by
  obtain ⟨b, hb, rfl, hterm⟩ := h
  obtain ⟨c, hc, hstmts, hcterm⟩ := hg n b hb
  simp [Graph.walk, hc, hstmts, hcterm, hterm]

lemma walk_done {values : List Var} (h : EndsAt blocks n k (.done values)) (m : Nat)
    (outcomes : List Bool) : g.walk (m + 1) n k outcomes = ⟨[], .returned values⟩ := by
  obtain ⟨b, hb, rfl, hterm⟩ := h
  obtain ⟨c, hc, hstmts, hcterm⟩ := hg n b hb
  simp [Graph.walk, hc, hstmts, hcterm, hterm]

lemma walk_revert {reason : Text} (h : EndsAt blocks n k (.revert reason)) (m : Nat)
    (outcomes : List Bool) : g.walk (m + 1) n k outcomes = ⟨[], .reverted reason⟩ := by
  obtain ⟨b, hb, rfl, hterm⟩ := h
  obtain ⟨c, hc, hstmts, hcterm⟩ := hg n b hb
  simp [Graph.walk, hc, hstmts, hcterm, hterm]

end Walk

/-! ### Tasks laid out in blocks -/

/-- The loop `l` is laid out in the blocks of `frame`, inside `loops`. -/
structure LoopAt (blocks : List DraftBlock) (loops : List LoopExits) (l : Loop)
    (frame : LoopFrame) :
    Prop where
  header : HeaderAt blocks frame l
  latch : LatchAt blocks frame l
  body : PlacedAt blocks (⟨frame.exit, frame.latch⟩ :: loops) l.body frame.body frame.latch

/-- The tasks are laid out in the blocks from the given place on, inside the given loops. There is
no place where control does not get. -/
inductive Fits (blocks : List DraftBlock) (named : List Var) :
    List Task → List LoopExits → Option (Nat × Nat) → Prop
  | done {n k : Nat} (h : EndsAt blocks n k (.done named)) : Fits blocks named [] [] (some (n, k))
  | dead : Fits blocks named [] [] none
  | stmt {s : Stmt} {d f : Draft} {tasks : List Task} {loops : List LoopExits}
      {place : Option (Nat × Nat)} (hd : d.Open) (h : lowerStmt s d = .ok f)
      (hext : Extends f.blocks blocks) (hloops : d.loops = loops) (hplace : d.spot = place)
      (hrest : Fits blocks named tasks loops f.spot) : Fits blocks named (.stmt s :: tasks) loops
        place
  | test {l : Loop} {frame : LoopFrame} {tasks : List Task} {loops : List LoopExits}
      (hloop : LoopAt blocks loops l frame)
      (hrest : Fits blocks named tasks loops (some (frame.exit, 0))) :
      Fits blocks named (.test l :: tasks) loops (some (frame.header, 0))
  | next {l : Loop} {frame : LoopFrame} {tasks : List Task} {loops : List LoopExits}
      (hloop : LoopAt blocks loops l frame)
      (hrest : Fits blocks named tasks loops (some (frame.exit, 0))) :
      Fits blocks named (.next l :: tasks) (⟨frame.exit, frame.latch⟩ :: loops)
        (some (frame.latch, 0))
  | jump {tasks : List Task} {loops : List LoopExits} {n k t : Nat}
      (h : EndsAt blocks n k (.jump t)) (hrest : Fits blocks named tasks loops (some (t, 0))) :
      Fits blocks named tasks loops (some (n, k))
  | lost {tasks : List Task} {loops : List LoopExits} {place : Option (Nat × Nat)}
      (h : Fits blocks named tasks loops place) : Fits blocks named tasks loops none

section Fits

variable {blocks : List DraftBlock} {named : List Var} {loops : List LoopExits} {tasks : List Task}
  {place : Option (Nat × Nat)} {l : Loop} {frame : LoopFrame} {events : List Event} {n k : Nat}

lemma PlacedAt.fits {s : Stmt} {start next : Nat} (h : PlacedAt blocks loops s start next)
    (hrest : Fits blocks named tasks loops (some (next, 0))) :
    Fits blocks named (.stmt s :: tasks) loops (some (start, 0)) := by
  obtain ⟨d, f, hopen, hspot, hloops, hlower, hext, hends⟩ := h
  refine .stmt hopen hlower hext hloops hspot ?_
  cases hf : f.spot with
  | none => exact .lost hrest
  | some place => exact .jump (hends _ _ hf) hrest

/-- Statements that are lowered one after the other fit as tasks. -/
lemma fits_of_lowerStmts :
    ∀ (body : List Stmt) {d f : Draft}, d.Open → lowerStmts body d = .ok f →
      Extends f.blocks blocks → d.loops = loops → Fits blocks named tasks loops f.spot →
      Fits blocks named (body.map .stmt ++ tasks) loops d.spot
  | [], d, f, _, h, _, _, hrest => by
    cases h
    exact hrest
  | s :: body, d, f, hd, h, hext, hloops, hrest => by
    obtain ⟨e, he, h⟩ := bind_eq_ok_iff.mp h
    obtain ⟨hgrows, heloops⟩ := lowerStmt_steady s d e hd he
    obtain ⟨hgrows', _⟩ := lowerStmts_steady body e f hgrows.isOpen h
    have hext' := (hgrows'.toExtends hgrows.isOpen).trans hext
    exact .stmt hd he hext' hloops rfl
      (fits_of_lowerStmts body hgrows.isOpen h hext (heloops.trans hloops) hrest)

/-- Where `break` and `continue` lead, the tasks behind the innermost loop and its next round
fit. -/
lemma Fits.innermost (h : Fits blocks named tasks loops place) {top : LoopExits}
    {rest : List LoopExits} (hloops : loops = top :: rest) :
    ∃ l tasks', innermost? tasks = some (l, tasks') ∧
      Fits blocks named tasks' rest (some (top.exit, 0)) ∧
      Fits blocks named (.next l :: tasks') loops (some (top.next, 0)) := by
  induction h with
  | done _ => contradiction
  | dead => contradiction
  | stmt _ _ _ _ _ _ ih => exact ih hloops
  | test _ _ ih => exact ih hloops
  | next hloop hrest _ =>
    obtain ⟨rfl, rfl⟩ := List.cons.inj hloops
    exact ⟨_, _, rfl, hrest, .next hloop hrest⟩
  | jump _ _ ih => exact ih hloops
  | lost _ ih => exact ih hloops

/-! ### Steps in common -/

/-- A bound on the steps that an execution takes before the walk takes one. -/
noncomputable def weight : List Task → Nat
  | [] => 0
  | .stmt s :: tasks => 1 + sizeOf s + weight tasks
  | .test _ :: tasks => weight tasks
  | .next _ :: tasks => 1 + weight tasks

variable (blocks named) in
/-- How an execution goes on, given by what it shows in each number of steps: by doing tasks that
fit at the start of block `n`, or by reverting as that block does. -/
def Follows (shows : Nat → List Bool → Seen) (n : Nat) : Prop :=
  (∃ tasks loops, Fits blocks named tasks loops (some (n, 0)) ∧
      shows = fun m => execute named m tasks) ∨
    ∃ reason, EndsAt blocks n 0 (.revert reason) ∧ shows = fun _ _ => ⟨[], .reverted reason⟩

variable (blocks named) in
/-- What one step of doing `tasks` and the walk from statement `k` of block `n` on have in
common. -/
inductive Moves (tasks : List Task) (n k : Nat) : Prop
  /-- Both show the same instructions, and the walk stays in the block. -/
  | stay {events : List Event} {next : List Task} {loops : List LoopExits}
      (hexec : ∀ m outcomes, execute named (m + 1) tasks outcomes =
        (execute named m next outcomes).behind events)
      (hruns : RunsAt blocks n k events) (hweight : events = [] → weight next < weight tasks)
      (hfits : Fits blocks named next loops (some (n, k + events.length)))
  /-- Both show the same instructions, and the walk goes on in another block. -/
  | leave {events : List Event} {next : List Task} {loops : List LoopExits} {t : Nat}
      (hexec : ∀ m outcomes, execute named (m + 1) tasks outcomes =
        (execute named m next outcomes).behind events)
      (hruns : RunsAt blocks n k events) (hends : EndsAt blocks n (k + events.length) (.jump t))
      (hfits : Fits blocks named next loops (some (t, 0)))
  /-- Both show a condition and go on by its outcome. -/
  | branch {event : Event} {v : Var} {yes no : Nat} {onYes onNo : Nat → List Bool → Seen}
      (hexec : ∀ m outcomes, execute named (m + 1) tasks outcomes =
        (onOutcome (onYes m) (onNo m) outcomes).behind [event])
      (hruns : RunsAt blocks n k [event]) (hends : EndsAt blocks n (k + 1) (.branch v yes no))
      (hyes : Follows blocks named onYes yes) (hno : Follows blocks named onNo no)
  /-- Both show the same instructions and return. -/
  | done {events : List Event} {values : List Var}
      (hexec : ∀ m outcomes, execute named (m + 1) tasks outcomes = ⟨events, .returned values⟩)
      (hruns : RunsAt blocks n k events) (hends : EndsAt blocks n (k + events.length)
        (.done values))
  /-- Both show the same instructions and revert. -/
  | revert {events : List Event} {reason : Text}
      (hexec : ∀ m outcomes, execute named (m + 1) tasks outcomes = ⟨events, .reverted reason⟩)
      (hruns : RunsAt blocks n k events)
      (hends : EndsAt blocks n (k + events.length) (.revert reason))

lemma RunsAt.nothing {t : Terminator} (h : EndsAt blocks n k t) :
    RunsAt blocks n k [] := by
  obtain ⟨b, hb, _⟩ := h
  exact ⟨b, hb, List.nil_prefix⟩

lemma HeaderAt.runs_nothing (h : HeaderAt blocks frame l) :
    RunsAt blocks frame.header 0 [] := by
  cases hcond : l.cond.isEmpty with
  | true => exact .nothing (h.forever hcond)
  | false =>
    obtain ⟨b, hb, _⟩ := h.tests hcond
    exact ⟨b, hb, List.nil_prefix⟩

lemma follows_execute (h : Fits blocks named tasks loops (some (n, 0))) :
    Follows blocks named (fun m => execute named m tasks) n :=
  .inl ⟨tasks, loops, h, rfl⟩

lemma LoopAt.fits_test (hloop : LoopAt blocks loops l frame)
    (hrest : Fits blocks named tasks loops (some (frame.exit, 0))) :
    Fits blocks named (.stmt l.body :: .next l :: tasks) (⟨frame.exit, frame.latch⟩ :: loops)
      (some (frame.body, 0)) :=
  hloop.body.fits (.next hloop hrest)

lemma LoopAt.moves_test (hloop : LoopAt blocks loops l frame)
    (hrest : Fits blocks named tasks loops (some (frame.exit, 0))) :
    Moves blocks named (.test l :: tasks) frame.header 0 := by
  cases hcond : l.cond.isEmpty with
  | true =>
    have hends := hloop.header.forever hcond
    refine .leave (fun m outcomes => ?_) (.nothing hends) hends
      (hloop.fits_test hrest)
    simp [execute, hcond]
  | false =>
    obtain ⟨v, hends⟩ := hloop.header.branches hcond
    refine .branch (fun m outcomes => ?_) (hloop.header.tests hcond) hends
      (follows_execute (hloop.fits_test hrest)) (follows_execute hrest)
    simp [execute, hcond]

lemma LoopAt.moves_next (hloop : LoopAt blocks loops l frame)
    (hrest : Fits blocks named tasks loops (some (frame.exit, 0))) :
    Moves blocks named (.next l :: tasks) frame.latch 0 := by
  cases hpost : l.post.isEmpty with
  | true =>
    have hlatch := hloop.latch.eq_header hpost
    have htest : Fits blocks named (.test l :: tasks) loops (some (frame.latch, 0)) := by
      rw [hlatch]
      exact .test hloop hrest
    have hruns : RunsAt blocks frame.latch 0 [] := hlatch ▸ hloop.header.runs_nothing
    refine .stay ?_ hruns ?_ htest
    · intro m outcomes
      simp [execute, exprEvents, hpost]
    · exact fun _ => Nat.lt_add_of_pos_left Nat.one_pos
  | false =>
    refine .leave (fun m outcomes => ?_) (hloop.latch.runs hpost) (hloop.latch.returns hpost)
      (.test hloop hrest)
    simp [execute, exprEvents, hpost]

lemma weight_lt_weight_cons (s : Stmt) (tasks : List Task) :
    weight tasks < weight (.stmt s :: tasks) := by
  rw [weight]
  omega

lemma weight_lt_weight_block (line : Nat) (body : List Stmt) (tasks : List Task) :
    weight (body.map .stmt ++ tasks) < weight (.stmt (.block line body) :: tasks) := by
  have hsum : weight (body.map .stmt ++ tasks) + 1 = sizeOf body + weight tasks := by
    induction body with
    | nil => simp [Nat.add_comm]
    | cons s body ih =>
      simp only [List.map_cons, List.cons_append, weight, List.cons.sizeOf_spec]
      omega
  simp only [weight, Stmt.block.sizeOf_spec]
  omega

section Statements

-- its equations are made once, here, and not by each of the lemmas below
attribute [local simp] execute

variable {d f : Draft} {line : Nat} {cond : Expr} {body : Stmt} (hd : d.Open)
  (hspot : d.spot = some (n, k)) (hext : Extends f.blocks blocks)
  (hrest : Fits blocks named tasks d.loops f.spot)

include hspot hext hrest

lemma moves_of_appends {s : Stmt} (happ : d.Appends f events)
    (hexec : ∀ m outcomes, execute named (m + 1) (.stmt s :: tasks) outcomes =
      (execute named m tasks outcomes).behind events) :
    Moves blocks named (.stmt s :: tasks) n k := by
  rw [happ.spot n k hspot] at hrest
  exact .stay hexec ((happ.runs n k hspot).extend hext) (fun _ => weight_lt_weight_cons s tasks)
    hrest

include hd

lemma moves_ifElse {yes no : Stmt} (h : lowerStmt (.ifElse line cond yes no) d = .ok f) :
    Moves blocks named (.stmt (.ifElse line cond yes no) :: tasks) n k := by
  obtain ⟨frame, hlayout⟩ :=
    choiceLayout_of_lowerStmt (lowerStmt_steady yes) (lowerStmt_steady no) hd h
  have hjoin : Fits blocks named tasks d.loops (some (frame.join, 0)) := hlayout.spot ▸ hrest
  have hno : Fits blocks named (.stmt no :: tasks) d.loops (some (frame.no, 0)) := by
    cases hempty : no.isEmpty with
    | false => exact ((hlayout.placedNo hempty).extend hext).fits hjoin
    | true =>
      -- a missing branch does nothing behind the choice
      obtain rfl : no = .empty := by cases no <;> simp_all [Stmt.isEmpty]
      rw [hlayout.no_eq hempty]
      exact .stmt hlayout.grows.isOpen rfl hext hlayout.loops hlayout.spot hrest
  obtain ⟨v, hends⟩ := hlayout.branches n k hspot
  exact .branch (fun _ _ => rfl) ((hlayout.runs n k hspot).extend hext) (hends.extend nofun hext)
    (follows_execute ((hlayout.placedYes.extend hext).fits hjoin)) (follows_execute hno)

lemma moves_require {message : Text} {internal : Bool}
    (h : lowerStmt (.require line cond message internal) d = .ok f) :
    Moves blocks named (.stmt (.require line cond message internal) :: tasks) n k := by
  rw [lowerStmt, checkReason_eq] at h
  cases h
  have hcheck := Draft.checks_check hd cond line (failureReason message internal)
  obtain ⟨pass, fail, hpass, hfail, hbranch⟩ := hcheck.branches
  obtain ⟨v, hends⟩ := hbranch n k hspot
  exact .branch (fun _ _ => rfl) ((hcheck.runs n k hspot).extend hext) (hends.extend nofun hext)
    (follows_execute (hpass ▸ hrest)) (.inr ⟨_, hfail.extend nofun hext, rfl⟩)

lemma moves_breakLoop (h : lowerStmt (.breakLoop line) d = .ok f) :
    Moves blocks named (.stmt (.breakLoop line) :: tasks) n k := by
  obtain ⟨top, rest, hloops, hclose⟩ := breakLoop_layout hd h
  obtain ⟨l, tasks', hinner, hexit, _⟩ := hrest.innermost hloops
  have hends := (hclose.ends n k hspot).extend nofun hext
  refine .leave (fun m outcomes => ?_) (.nothing hends) hends hexit
  simp [execute, hinner]

lemma moves_continueLoop (h : lowerStmt (.continueLoop line) d = .ok f) :
    Moves blocks named (.stmt (.continueLoop line) :: tasks) n k := by
  obtain ⟨top, rest, hloops, hclose⟩ := continueLoop_layout hd h
  obtain ⟨l, tasks', hinner, _, hnext⟩ := hrest.innermost hloops
  have hends := (hclose.ends n k hspot).extend nofun hext
  refine .leave (fun m outcomes => ?_) (.nothing hends) hends hnext
  simp [execute, hinner]

lemma moves_block {body : List Stmt} (h : lowerStmt (.block line body) d = .ok f) :
    Moves blocks named (.stmt (.block line body) :: tasks) n k := by
  have hfits := fits_of_lowerStmts body hd h hext rfl hrest
  rw [hspot] at hfits
  have hruns := (Draft.appends_nothing hd rfl rfl rfl).runs n k hspot
  have hext' := ((lowerStmts_steady body d f hd h).1.toExtends hd).trans hext
  exact .stay (fun _ _ => rfl) (hruns.extend hext')
    (fun _ => weight_lt_weight_block line body tasks)
    hfits

omit hd hspot in
/-- A loop is entered through a jump to its first block. -/
lemma LoopLayout.fits {first : Nat} (h : LoopLayout d f l frame first) :
    LoopAt blocks d.loops l frame ∧ Fits blocks named tasks d.loops (some (frame.exit, 0)) :=
  ⟨⟨h.header.extend hext, h.latch.extend hext, h.body.extend hext⟩, h.spot ▸ hrest⟩

lemma moves_whileLoop (h : lowerStmt (.whileLoop line cond body) d = .ok f) :
    Moves blocks named (.stmt (.whileLoop line cond body) :: tasks) n k := by
  obtain ⟨frame, hlayout⟩ := (lowerStmt_whileLoop.mp h).layout (lowerStmt_steady body) hd
  obtain ⟨hloop, hexit⟩ := hlayout.fits hext hrest
  have hends := (hlayout.enters n k hspot).extend nofun hext
  exact .leave (fun _ _ => rfl) (.nothing hends) hends (.test hloop hexit)

lemma moves_doLoop (h : lowerStmt (.doLoop line cond body) d = .ok f) :
    Moves blocks named (.stmt (.doLoop line cond body) :: tasks) n k := by
  obtain ⟨frame, hlayout⟩ := (lowerStmt_doLoop.mp h).layout (lowerStmt_steady body) hd
  obtain ⟨hloop, hexit⟩ := hlayout.fits hext hrest
  have hends := (hlayout.enters n k hspot).extend nofun hext
  exact .leave (fun _ _ => rfl) (.nothing hends) hends (hloop.fits_test hexit)

lemma moves_forLoop {init post : Expr}
    (h : lowerStmt (.forLoop line init cond post body) d = .ok f) :
    Moves blocks named (.stmt (.forLoop line init cond post body) :: tasks) n k := by
  have happ := Draft.appends_expr? hd init init.line
  obtain ⟨frame, hlayout⟩ :=
    (lowerStmt_forLoop.mp h).layout (lowerStmt_steady body) happ.grows.isOpen
  obtain ⟨hloop, hexit⟩ := hlayout.fits hext (happ.loops.symm ▸ hrest)
  have hruns :=
    (happ.runs n k hspot).extend ((hlayout.grows.toExtends happ.grows.isOpen).trans hext)
  have hends := (hlayout.enters _ _ (happ.spot n k hspot)).extend nofun hext
  exact .leave (fun _ _ => rfl) hruns hends (.test hloop hexit)

omit hrest in
lemma moves_returnValue {value : Expr} (h : lowerStmt (.returnValue line value) d = .ok f) :
    Moves blocks named (.stmt (.returnValue line value) :: tasks) n k := by
  obtain ⟨e, happ, hclose⟩ := returnValue_layout hd h
  have hext' := (hclose.grows.toExtends happ.grows.isOpen).trans hext
  exact .done (fun _ _ => rfl) ((happ.runs n k hspot).extend hext')
    ((hclose.ends _ _ (happ.spot n k hspot)).extend nofun hext)

omit hrest in
lemma moves_revert {args : Expr} (h : lowerStmt (.revert line args) d = .ok f) :
    Moves blocks named (.stmt (.revert line args) :: tasks) n k := by
  obtain ⟨e, happ, hclose⟩ := revert_layout hd h
  have hext' := (hclose.grows.toExtends happ.grows.isOpen).trans hext
  exact .revert (fun _ _ => rfl) ((happ.runs n k hspot).extend hext')
    ((hclose.ends _ _ (happ.spot n k hspot)).extend nofun hext)

/-- Every statement makes a move in common with the walk. -/
lemma moves_stmt (s : Stmt) (h : lowerStmt s d = .ok f) :
    Moves blocks named (.stmt s :: tasks) n k := by
  cases s with
  | empty =>
    cases h
    exact moves_of_appends hspot hext hrest (Draft.appends_nothing hd rfl rfl rfl) fun _ _ => rfl
  | placeholder line =>
    cases h
    exact moves_of_appends hspot hext hrest (Draft.appends_nothing hd rfl rfl rfl) fun _ _ => rfl
  | expr line value =>
    cases h
    exact moves_of_appends hspot hext hrest (Draft.appends_expr? hd value line) fun _ _ => rfl
  | emit line event args =>
    cases h
    exact moves_of_appends hspot hext hrest (Draft.appends_emit hd rfl rfl rfl _) fun _ _ => rfl
  | block line body => exact moves_block hd hspot hext hrest h
  | ifElse line cond yes no => exact moves_ifElse hd hspot hext hrest h
  | whileLoop line cond body => exact moves_whileLoop hd hspot hext hrest h
  | doLoop line cond body => exact moves_doLoop hd hspot hext hrest h
  | forLoop line init cond post body => exact moves_forLoop hd hspot hext hrest h
  | returnValue line value => exact moves_returnValue hd hspot hext h
  | revert line args => exact moves_revert hd hspot hext h
  | require line cond message internal => exact moves_require hd hspot hext hrest h
  | breakLoop line => exact moves_breakLoop hd hspot hext hrest h
  | continueLoop line => exact moves_continueLoop hd hspot hext hrest h

end Statements

/-! ### Neither shows more than the other -/

variable {g : Graph Instr} (hg : Built g blocks)

include hg

/-- From a place that tasks fit, jumps alone lead the walk to one where it makes a move in common
with doing them. -/
lemma Fits.moves (h : Fits blocks named tasks loops place) (hplace : place = some (n, k)) :
    ∃ j n' k' : Nat, (∀ m outcomes, g.walk m n k outcomes = g.walk (m - j) n' k' outcomes) ∧
      Moves blocks named tasks n' k' := by
  induction h generalizing n k with
  | done h =>
    cases hplace
    exact ⟨0, _, _, fun _ _ => rfl, .done (fun _ _ => rfl) (.nothing h) h⟩
  | dead => contradiction
  | @stmt s d f tasks loops place hd h hext hloops hspot hrest _ =>
    subst hloops
    exact ⟨0, n, k, fun _ _ => rfl, moves_stmt hd (hspot.trans hplace) hext hrest s h⟩
  | test hloop hrest _ =>
    cases hplace
    exact ⟨0, _, 0, fun _ _ => rfl, hloop.moves_test hrest⟩
  | next hloop hrest _ =>
    cases hplace
    exact ⟨0, _, 0, fun _ _ => rfl, hloop.moves_next hrest⟩
  | jump h _ ih =>
    cases hplace
    obtain ⟨j, n', k', hslide, hmoves⟩ := ih rfl
    refine ⟨j + 1, n', k', fun m outcomes => ?_, hmoves⟩
    rw [walk_jump hg h, hslide, Nat.sub_sub, Nat.add_comm]
  | lost _ _ => contradiction

lemma walk_add_runsAt (h : RunsAt blocks n k events) (m : Nat) (outcomes : List Bool) :
    g.walk (m + events.length) n k outcomes =
      (g.walk m n (k + events.length) outcomes).behind events := by
  rw [walk_runsAt hg h, Nat.add_sub_cancel, List.take_of_length_le (Nat.le_add_left ..)]

/-- The walk shows whatever an execution shows. -/
lemma execute_before_walk (m : Nat)
    (h : Fits blocks named tasks loops (some (n, k))) (outcomes : List Bool) :
    ∃ m', (execute named m tasks outcomes).Before (g.walk m' n k outcomes) := by
  induction m generalizing tasks loops n k outcomes with
  | zero => exact ⟨0, Seen.nothing_before _⟩
  | succ m ih =>
    obtain ⟨j, n', k', hslide, hmoves⟩ := h.moves hg rfl
    -- the walk may start where the jumps lead
    suffices hmove : ∃ m',
      (execute named (m + 1) tasks outcomes).Before (g.walk m' n' k' outcomes) by
      obtain ⟨m', hm'⟩ := hmove
      exact ⟨m' + j, by rwa [hslide, Nat.add_sub_cancel]⟩
    have hfollow : ∀ {shows t} outcomes, Follows blocks named shows t →
        ∃ m', (shows m outcomes).Before (g.walk m' t 0 outcomes) := by
      rintro shows t outcomes (⟨next, loops', hfits, rfl⟩ | ⟨reason, hends, rfl⟩)
      · exact ih hfits outcomes
      · exact ⟨1, .inl (walk_revert hg hends 0 outcomes).symm⟩
    cases hmoves with
    | @stay events _ _ hexec hruns _ hfits =>
      obtain ⟨m', hm'⟩ := ih hfits outcomes
      refine ⟨m' + events.length, ?_⟩
      rw [hexec, walk_add_runsAt hg hruns]
      exact hm'.behind _
    | @leave events _ _ _ hexec hruns hends hfits =>
      obtain ⟨m', hm'⟩ := ih hfits outcomes
      refine ⟨m' + 1 + events.length, ?_⟩
      rw [hexec, walk_add_runsAt hg hruns, walk_jump hg hends, Nat.add_sub_cancel]
      exact hm'.behind _
    | @branch event _ yes no onYes onNo hexec hruns hends hyes hno =>
      obtain ⟨m', hm'⟩ : ∃ m', (onOutcome (onYes m) (onNo m) outcomes).Before
          (onOutcome (g.walk m' yes 0) (g.walk m' no 0) outcomes) := by
        match outcomes with
        | [] => exact ⟨0, .refl _⟩
        | true :: outcomes => exact hfollow outcomes hyes
        | false :: outcomes => exact hfollow outcomes hno
      refine ⟨m' + 1 + [event].length, ?_⟩
      rw [hexec, walk_add_runsAt hg hruns, List.length_singleton, walk_branch hg hends]
      exact hm'.behind _
    | @done events _ hexec hruns hends =>
      refine ⟨0 + 1 + events.length, ?_⟩
      rw [hexec, walk_add_runsAt hg hruns, walk_done hg hends]
      simp [Seen.behind, Seen.Before]
    | @revert events _ hexec hruns hends =>
      refine ⟨0 + 1 + events.length, ?_⟩
      rw [hexec, walk_add_runsAt hg hruns, walk_revert hg hends]
      simp [Seen.behind, Seen.Before]

omit hg in
lemma Seen.Before.behind_take {s t : Seen} {m : Nat} (h : s.Before t)
    (hs : m < events.length → s = .nothing) :
    (s.behind (events.take m)).Before (t.behind events) := by
  by_cases hm : m < events.length
  · obtain rfl := hs hm
    refine .inr ⟨rfl, ?_⟩
    simp only [Seen.behind, Seen.nothing, List.append_nil]
    exact (List.take_prefix m events).trans (List.prefix_append ..)
  · rw [List.take_of_length_le (Nat.le_of_not_lt hm)]
    exact h.behind events

/-- What the walk shows behind some instructions is shown by an execution that shows those
instructions, and behind them what the walk does. -/
lemma walk_before_of_runsAt (h : RunsAt blocks n k events)
    {m : Nat} {outcomes : List Bool} {t : Seen}
    (ht : (g.walk (m - events.length) n (k + events.length) outcomes).Before t) :
    (g.walk m n k outcomes).Before (t.behind events) := by
  rw [walk_runsAt hg h]
  refine ht.behind_take fun hm => ?_
  rw [Nat.sub_eq_zero_of_le (Nat.le_of_lt hm)]
  rfl

/-- An execution shows whatever the walk shows. -/
lemma walk_before_execute (m : Nat)
    (h : Fits blocks named tasks loops (some (n, k))) (outcomes : List Bool) :
    ∃ m', (g.walk m n k outcomes).Before (execute named m' tasks outcomes) := by
  -- tasks that show nothing keep the walk where it is, but leave less to do
  induction m using Nat.strong_induction_on generalizing tasks loops n k outcomes with
  | _ m ih =>
  induction hw : weight tasks using Nat.strong_induction_on generalizing tasks loops n k with
  | _ w ihw =>
  have hrec : ∀ (m₂) {next loops₂ n₂ k₂}, m₂ ≤ m → m₂ < m ∨ weight next < weight tasks →
      Fits blocks named next loops₂ (some (n₂, k₂)) →
      ∃ m', (g.walk m₂ n₂ k₂ outcomes).Before (execute named m' next outcomes) := by
    intro m₂ next loops₂ n₂ k₂ hle hless hfits
    by_cases hlt : m₂ < m
    · exact ih m₂ hlt hfits outcomes
    · obtain rfl : m₂ = m := Nat.le_antisymm hle (Nat.le_of_not_lt hlt)
      exact ihw _ (hw ▸ hless.resolve_left hlt) hfits rfl
  obtain ⟨j, n', k', hslide, hmoves⟩ := h.moves hg rfl
  rw [hslide]
  have hle : m - j ≤ m := Nat.sub_le m j
  generalize m - j = m₁ at hle ⊢
  rcases Nat.eq_zero_or_pos m₁ with rfl | hpos
  · exact ⟨0, Seen.nothing_before _⟩
  cases hmoves with
  | @stay events next _ hexec hruns hweight hfits =>
    have hless : m₁ - events.length < m ∨ weight next < weight tasks := by
      cases events with
      | nil => exact .inr (hweight rfl)
      | cons event events =>
        left
        simp only [List.length_cons]
        omega
    obtain ⟨m', hm'⟩ := hrec _ (Nat.le_trans (Nat.sub_le ..) hle) hless hfits
    exact ⟨m' + 1, hexec m' outcomes ▸ walk_before_of_runsAt hg hruns hm'⟩
  | @leave events next _ _ hexec hruns hends hfits =>
    obtain ⟨m', hm'⟩ := hrec (m₁ - events.length - 1) (by omega) (.inl (by omega)) hfits
    rw [← walk_jump hg hends] at hm'
    exact ⟨m' + 1, hexec m' outcomes ▸ walk_before_of_runsAt hg hruns hm'⟩
  | @branch event _ yes no onYes onNo hexec hruns hends hyes hno =>
    have hfollow : ∀ {shows t r} outcomes, r < m → Follows blocks named shows t →
        ∃ m', (g.walk r t 0 outcomes).Before (shows m' outcomes) := by
      rintro shows t r outcomes hr (⟨next, loops', hfits, rfl⟩ | ⟨reason, hends, rfl⟩)
      · exact ih r hr hfits outcomes
      · refine ⟨0, ?_⟩
        cases r with
        | zero => exact Seen.nothing_before _
        | succ r => exact .inl (walk_revert hg hends r outcomes)
    obtain ⟨m', hm'⟩ : ∃ m', (g.walk (m₁ - [event].length) n' (k' + [event].length) outcomes).Before
        (onOutcome (onYes m') (onNo m') outcomes) := by
      rw [List.length_singleton]
      cases hr : m₁ - 1 with
      | zero => exact ⟨0, Seen.nothing_before _⟩
      | succ r =>
        rw [walk_branch hg hends]
        match outcomes with
        | [] => exact ⟨0, .refl _⟩
        | true :: outcomes => exact hfollow outcomes (by omega) hyes
        | false :: outcomes => exact hfollow outcomes (by omega) hno
    exact ⟨m' + 1, hexec m' outcomes ▸ walk_before_of_runsAt hg hruns hm'⟩
  | @done events values hexec hruns hends =>
    have ht : (g.walk (m₁ - events.length) n' (k' + events.length) outcomes).Before
        ⟨[], .returned values⟩ := by
      cases m₁ - events.length with
      | zero => exact Seen.nothing_before _
      | succ r => exact .inl (walk_done hg hends r outcomes)
    exact ⟨1, by simpa [hexec, Seen.behind] using walk_before_of_runsAt hg hruns ht⟩
  | @revert events reason hexec hruns hends =>
    have ht : (g.walk (m₁ - events.length) n' (k' + events.length) outcomes).Before
        ⟨[], .reverted reason⟩ := by
      cases m₁ - events.length with
      | zero => exact Seen.nothing_before _
      | succ r => exact .inl (walk_revert hg hends r outcomes)
    exact ⟨1, by simpa [hexec, Seen.behind] using walk_before_of_runsAt hg hruns ht⟩

end Fits

/-! ### Bodies and functions -/

lemma built_withMetadata (d : Draft) (name : Text) : Built (d.graph name).withMetadata d.blocks :=
  fun _ _ hb => Graph.block?_withMetadata (block?_graph hb name)

/-- The tasks of a whole body fit at the start of block zero. -/
lemma fits_of_lowerBody {scope : Scope} {named : List Var} {body : Stmt} {d : Draft}
    (h : lowerStmt body (Draft.start scope) = .ok d) :
    Fits (d.terminate (.done named)).blocks named [.stmt body] [] (some (0, 0)) := by
  have hopen := open_start scope
  obtain ⟨hgrows, _⟩ := lowerStmt_steady body _ _ hopen h
  have hclose := Draft.closes_terminate hgrows.isOpen rfl rfl rfl (.done named)
  refine .stmt hopen h (hclose.grows.toExtends hgrows.isOpen) rfl rfl ?_
  cases hspot : d.spot with
  | none => exact .dead
  | some place => exact .done (hclose.ends _ _ hspot)

/-- The graph of a body shows what the body shows. -/
lemma observed_lowerBody {name : Text} {scope : Scope} {named : List Var} {body : Stmt}
    {g : Graph Instr} (h : lowerBody name scope named body = .ok g) (outcomes : List Bool)
    (seen : Seen) :
    Observed (fun n => execute named n [.stmt body] outcomes) seen ↔
      Observed (fun n => g.walk n 0 0 outcomes) seen := by
  obtain ⟨d, hd, rfl⟩ := lowerBody_eq_ok h
  have hfits : Fits _ named _ _ _ := fits_of_lowerBody hd
  have hg := built_withMetadata (d.terminate (.done named)) name
  constructor
  · rintro ⟨n, hn⟩
    obtain ⟨m, hm⟩ := execute_before_walk hg n hfits outcomes
    exact ⟨m, hn.trans hm⟩
  · rintro ⟨n, hn⟩
    obtain ⟨m, hm⟩ := walk_before_execute hg n hfits outcomes
    exact ⟨m, hn.trans hm⟩

/-- Lowering a function preserves its meaning: whatever the outcomes of its conditions, executing
its body and walking its graph from block zero show the same instructions in the same order and end
the same way. Falling off the end of the body returns the named return values. -/
theorem observed_execute_iff_walk {u : SourceUnit} {c : Contract} {f : Function} {state : List Text}
    {body : Stmt} {lowered : LoweredFunction} (h : lowerMember u c f state body = .ok lowered)
    (outcomes : List Bool) (seen : Seen) :
    Observed (fun n => execute f.namedReturns n [.stmt body] outcomes) seen ↔
      Observed (fun n => lowered.graph.walk n 0 0 outcomes) seen := by
  obtain ⟨g, hg, h⟩ := bind_eq_ok_iff.mp h
  cases h
  exact observed_lowerBody hg outcomes seen

/-- A name of one letter. -/
def letter (c : UInt8) : Expr := [⟨.ident, [c], 1⟩]

/-- A body that nests two loops, leaves the inner one early and skips rounds of the outer one. An
assertion stands behind them. -/
def sampleBody : Stmt :=
  .block 1 [
    .forLoop 1 (letter 105) (letter 99) (letter 112) (.block 1
      [.ifElse 1 (letter 97) (.continueLoop 1) .empty,
        .doLoop 1 (letter 98) (.ifElse 1 (letter 100) (.breakLoop 1) (.expr 1 (letter 101)))]),
    .require 1 (letter 103) [] true]

/-- A function with one named return value. -/
def sampleFunction : Function :=
  { name := [102], kind := .function, visibility := [], mutability := [], modifiers := []
    params := [], returns := [⟨[120], []⟩], line := 1, endLine := 1, body? := some sampleBody }

/-- The sample function is lowered, and its graph shows what its body shows. Where no round is run
and the assertion fails, that is what is tested and the reason of an assertion. -/
theorem observed_execute_iff_walk_sample :
    ∃ lowered, lowerMember ⟨[], [], [], 0, [], []⟩ ⟨[67], [], false, [], 1, [], [], []⟩
        sampleFunction [] sampleBody = .ok lowered ∧
      (∀ outcomes seen, Observed (fun n => execute [[120]] n [.stmt sampleBody] outcomes) seen ↔
        Observed (fun n => lowered.graph.walk n 0 0 outcomes) seen) ∧
      Observed (fun n => lowered.graph.walk n 0 0 [false, false])
        ⟨[⟨.eval, letter 105, [], [], 1⟩, ⟨.cond, letter 99, [], [], 1⟩,
          ⟨.cond, letter 103, [], [], 1⟩], .reverted "assertion failed"⟩ := by
  have hok : (lowerMember ⟨[], [], [], 0, [], []⟩ ⟨[67], [], false, [], 1, [], [], []⟩
      sampleFunction [] sampleBody).isOk = true := by decide +kernel
  cases hlower : lowerMember ⟨[], [], [], 0, [], []⟩ ⟨[67], [], false, [], 1, [], [], []⟩
      sampleFunction [] sampleBody with
  | error _ =>
    rw [hlower] at hok
    contradiction
  | ok lowered =>
    refine ⟨lowered, rfl, observed_execute_iff_walk hlower, ?_⟩
    refine (observed_execute_iff_walk hlower _ _).mp ⟨4, .inl ?_⟩
    decide +kernel

end ContractAudit.Flow
