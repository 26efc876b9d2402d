import Mathlib.Data.List.Perm.Basic
import ContractAudit.Proofs.Flow.Parts

/-!
The blocks that the parts of a body go to.

Lowering takes the parts of a body one after the other into the block that is current. An account of
it (`Draft.Traced`) lists of each part the instruction made of it and the block that took it. Then a
block holds the instructions of the parts it took, in order, and nothing else. A return closes its
block, and nothing is put behind it. Where the body ends, the block that is still open returns as
well; all other blocks that return belong to returns.

* `allPartsOf`: the parts of a body, with the returns that have no value.
* `Draft.Traced`: an account. Accounts follow one another by `Draft.Traced.trans`, and
  `lowerStmt_lands` gives that of a statement.
* `lowerMember_placed`: the account of a whole function. `lowerMember_logged` forgets the blocks.
-/

namespace ContractAudit.Flow

open Source (Expr Stmt Contract Function SourceUnit)

/-! ### Parts and where they go -/

mutual

/-- The expressions of a statement, in the order in which they are lowered. A return without a value
is a result without tokens. -/
def allPartsOf : Stmt → List Part
  | .block _ body => allPartsOfAll body
  | .ifElse line cond yes no => ⟨.condition, line, cond⟩ :: (allPartsOf yes ++ allPartsOf no)
  | .whileLoop line cond body => partOf .condition line cond ++ allPartsOf body
  | .doLoop line cond body => partOf .condition line cond ++ allPartsOf body
  | .forLoop line init cond post body =>
    partOf .statement init.line init ++
      (partOf .condition line cond ++ (allPartsOf body ++ partOf .statement line post))
  | .returnValue line value => [⟨.result, line, value⟩]
  | s => partsOf s

/-- The expressions of some statements. -/
def allPartsOfAll : List Stmt → List Part
  | [] => []
  | s :: rest => allPartsOf s ++ allPartsOfAll rest

end

/-- Whether a part is a return without a value. -/
def Part.isBare (p : Part) : Bool := p.role == .result && p.value.isEmpty

/-- A part of a body, the instruction made of it, and the number of the block that took it. -/
structure Landing where
  part : Part
  made : Option Instr
  block : Nat
deriving DecidableEq, Repr

/-- The instructions that block `n` got. -/
def landedAt (n : Nat) (ls : List Landing) : List Instr := ls.filterMap fun l =>
    if l.block = n then l.made else none

lemma landedAt_append (n : Nat) (first second : List Landing) :
    landedAt n (first ++ second) = landedAt n first ++ landedAt n second := by
  rw [landedAt, List.filterMap_append, landedAt, landedAt]

lemma landedAt_cons (n : Nat) (l : Landing) (ls : List Landing) :
    landedAt n (l :: ls) = (if l.block = n then l.made.toList else []) ++ landedAt n ls := by
  rw [landedAt, List.filterMap_cons]
  by_cases hn : l.block = n <;> cases l.made <;> simp [hn, landedAt]

lemma flatMap_range_ite {α : Type} {m k : Nat} (h : m < k) (xs : List α) :
    ((List.range k).flatMap fun n => if m = n then xs else []) = xs := by
  obtain ⟨r, rfl⟩ := Nat.exists_eq_add_of_lt h
  have hfront : ((List.range m).flatMap fun n => if m = n then xs else []) = [] :=
    List.flatMap_eq_nil_iff.mpr fun n hn => if_neg (Nat.ne_of_gt (List.mem_range.mp hn))
  rw [Nat.add_assoc, List.range_add, List.flatMap_append, hfront, List.range_succ_eq_map]
  simp [List.flatMap_map]

/-- Block by block, all instructions are there. -/
lemma flatMap_landedAt_perm {k : Nat} {ls : List Landing} (h : ∀ l ∈ ls, l.made ≠ none →
    l.block < k) :
    ((List.range k).flatMap fun n => landedAt n ls).Perm (ls.filterMap (·.made)) := by
  induction ls with
  | nil => simp [landedAt]
  | cons l ls ih =>
    have hrest := ih fun l' hl' => h l' (List.mem_cons_of_mem _ hl')
    have hfirst : ((List.range k).flatMap fun n => if l.block = n then l.made.toList
      else []) = l.made.toList := by
      cases hmade : l.made with
      | none => simp
      | some i => exact flatMap_range_ite (h l (List.mem_cons_self ..) (hmade ▸ nofun)) _
    simp only [landedAt_cons]
    refine (List.flatMap_append_perm _ _ _).symm.trans ?_
    rw [hfirst, List.filterMap_cons]
    cases l.made with
    | none => exact hrest
    | some i => exact hrest.cons i

namespace Draft

variable {d e f : Draft} {n : Nat}

/-! ### The blocks of a draft -/

/-- Block number `n`. One that has not been opened is as good as an empty one without a
terminator. -/
def blockAt (d : Draft) (n : Nat) : DraftBlock := d.blocks[n]?.getD ⟨[], .unreachable⟩

lemma blockAt_congr (h : e.blocks = d.blocks) (n : Nat) : e.blockAt n = d.blockAt n := by
  rw [blockAt, blockAt, h]

lemma blockAt_openBlock (d : Draft) (n : Nat) : d.openBlock.2.blockAt n = d.blockAt n := by
  simp only [blockAt, openBlock, List.getElem?_append]
  split
  · rfl
  · next hlt =>
    rw [List.getElem?_eq_none (Nat.le_of_not_lt hlt)]
    cases h : [(⟨[], .unreachable⟩ : DraftBlock)][n - d.blocks.length]? with
    | none => rfl
    | some b => exact List.mem_singleton.mp (List.mem_of_getElem? h)

lemma blockAt_modify {m : Nat} (hm : m < d.blocks.length) (change : DraftBlock → DraftBlock)
    (n : Nat) :
    (d.modify m change).blockAt n = if m = n then change (d.blockAt n) else d.blockAt n := by
  simp only [blockAt, modify, List.getElem?_modify]
  by_cases h : m = n
  · subst h
    simp [List.getElem?_eq_getElem hm]
  · simp [h]

lemma blockAt_ensure (d : Draft) (n : Nat) : d.ensure.blockAt n = d.blockAt n := by
  unfold ensure
  split
  · rfl
  · exact d.blockAt_openBlock n

lemma blockAt_terminate (hd : d.Open) (t : Terminator) (n : Nat) :
    (d.terminate t).blockAt n = if d.current = some n then { d.blockAt n with term := t }
      else d.blockAt n := by
  unfold terminate
  split
  · next m hm =>
    simp only [hm, Option.some.injEq]
    exact blockAt_modify (hd.lt hm) ({ · with term := t }) n
  · next hnone => rw [hnone, if_neg nofun]

lemma blockAt_start (scope : Scope) (n : Nat) : (start scope).blockAt n = ⟨[], .unreachable⟩ := by
  cases n <;> rfl

/-- The current block has no terminator. -/
lemma Open.term_blockAt (h : d.Open) (hn : d.current = some n) :
    (d.blockAt n).term = .unreachable := by
  obtain ⟨b, hb, hterm⟩ := h n hn
  rw [blockAt, hb, Option.getD_some, hterm]

lemma Reserved.term_blockAt (h : d.Reserved n) : (d.blockAt n).term = .unreachable := by
  rw [blockAt, h.1]
  rfl

lemma scope_terminate (d : Draft) (t : Terminator) : (d.terminate t).scope = d.scope := by
  unfold terminate
  split <;> rfl

lemma scope_ensure (d : Draft) : d.ensure.scope = d.scope := by
  unfold ensure
  split <;> rfl

/-! ### Accounts -/

/-- From `d` to `f` some parts were lowered. -/
structure Traced (d f : Draft) (ls : List Landing) : Prop where
  logs : Logs d.scope (ls.map fun l => (l.part, l.made)) f.scope
  stmts : ∀ n, (f.blockAt n).stmts = (d.blockAt n).stmts ++ landedAt n ls
  /-- A block that has a terminator keeps it. -/
  terms : ∀ n, (d.blockAt n).term ≠ .unreachable → (f.blockAt n).term = (d.blockAt n).term
  /-- Parts go to blocks without a terminator. -/
  unended : ∀ l ∈ ls, (d.blockAt l.block).term = .unreachable
  /-- A return closes its block. -/
  ended : ∀ l ∈ ls, l.part.role = .result → (f.blockAt l.block).term = .done l.part.value.readNames
  /-- Nothing goes to a block behind a return. -/
  apart : ls.Pairwise fun l l' => l.part.role = .result → l'.block ≠ l.block
  /-- Values are returned by returns alone. -/
  returns : ∀ n values, (f.blockAt n).term = .done values →
    (d.blockAt n).term = .done values ∨ ∃ l ∈ ls, l.part.role = .result ∧ l.block = n

namespace Traced

lemma trans {first second : List Landing} (h : Traced d e first) (h' : Traced e f second) :
    Traced d f (first ++ second) where
  logs := by
    rw [List.map_append]
    exact h.logs.append h'.logs
  stmts n := by rw [h'.stmts, h.stmts, landedAt_append, List.append_assoc]
  terms n hn := by
    have hterm := h.terms n hn
    rw [h'.terms n (hterm ▸ hn), hterm]
  unended l hl := by
    rcases List.mem_append.mp hl with hl | hl
    · exact h.unended l hl
    · by_contra hne
      exact hne ((h.terms _ hne).symm.trans (h'.unended l hl))
  ended l hl hrole := by
    rcases List.mem_append.mp hl with hl | hl
    · have hterm := h.ended l hl hrole
      rw [h'.terms _ (by rw [hterm]; nofun), hterm]
    · exact h'.ended l hl hrole
  apart := by
    refine List.pairwise_append.mpr ⟨h.apart, h'.apart, fun l hl l' hl' hrole heq => ?_⟩
    -- what goes to a block later finds it without a terminator
    have hopen := h'.unended l' hl'
    rw [heq, h.ended l hl hrole] at hopen
    contradiction
  returns n values hn := by
    rcases h'.returns n values hn with hn | ⟨l, hl, hrole, hblock⟩
    · rcases h.returns n values hn with hn | ⟨l, hl, hrole, hblock⟩
      · exact .inl hn
      · exact .inr ⟨l, List.mem_append_left _ hl, hrole, hblock⟩
    · exact .inr ⟨l, List.mem_append_right _ hl, hrole, hblock⟩

/-- Nothing was lowered. -/
lemma nothing (hscope : f.scope = d.scope) (hblocks : ∀ n, f.blockAt n = d.blockAt n ∨
      (d.blockAt n).term = .unreachable ∧ (f.blockAt n).stmts = (d.blockAt n).stmts ∧
        ∀ values, (f.blockAt n).term ≠ .done values) : Traced d f [] where
  logs := hscope ▸ .nil _
  stmts n := by
    rw [landedAt, List.filterMap_nil, List.append_nil]
    exact (hblocks n).elim (congrArg DraftBlock.stmts) fun h => h.2.1
  terms n hn := congrArg DraftBlock.term ((hblocks n).resolve_right fun h => hn h.1)
  unended := nofun
  ended := nofun
  apart := .nil
  returns n values hn := by
    rcases hblocks n with h | ⟨-, -, hterm⟩
    · exact .inl (h ▸ hn)
    · exact absurd hn (hterm values)

/-- One part was lowered, into block `n`. -/
lemma single {p : Part} {v : Var} (hscope : f.scope = p.scopeAfter d.scope)
    (hn : (d.blockAt n).term = .unreachable)
    (hstmts : ∀ m, (f.blockAt m).stmts =
      (d.blockAt m).stmts ++ if n = m then (p.instr? d.scope v).toList else [])
    (hterms : ∀ m, (f.blockAt m).term =
      if p.role = .result ∧ n = m then .done p.value.readNames else (d.blockAt m).term) :
    Traced d f [⟨p, p.instr? d.scope v, n⟩] where
  logs := hscope ▸ .cons p v (.nil _)
  stmts m := by rw [hstmts, landedAt_cons, landedAt, List.filterMap_nil, List.append_nil]
  terms m hm := by rw [hterms, if_neg fun h : p.role = .result ∧ n = m => hm (h.2 ▸ hn)]
  unended := List.forall_mem_singleton.mpr hn
  ended := List.forall_mem_singleton.mpr fun hrole => by rw [hterms, if_pos ⟨hrole, rfl⟩]
  apart := List.pairwise_singleton ..
  returns m values hm := by
    rw [hterms] at hm
    split at hm
    · next h => exact .inr ⟨_, List.mem_singleton_self _, h⟩
    · exact .inl hm

end Traced

/-- From `d` to `f` these parts were lowered. -/
def Lands (d f : Draft) (parts : List Part) : Prop := ∃ ls, ls.map Landing.part = parts ∧
    Traced d f ls

lemma Traced.lands (h : Traced d f []) : Lands d f [] := ⟨[], rfl, h⟩

lemma Lands.trans {first second : List Part} (h : Lands d e first) (h' : Lands e f second) :
    Lands d f (first ++ second) := by
  obtain ⟨ls, rfl, hls⟩ := h
  obtain ⟨ls', rfl, hls'⟩ := h'
  exact ⟨ls ++ ls', List.map_append, hls.trans hls'⟩

lemma Lands.quiet {parts : List Part} (h : Lands d e parts) (h' : Traced e f []) :
    Lands d f parts :=
  List.append_nil parts ▸ h.trans h'.lands

lemma Traced.then {parts : List Part} (h : Traced d e []) (h' : Lands e f parts) :
    Lands d f parts :=
  h.lands.trans h'

/-! ### Steps that lower nothing -/

lemma traced_same (hblocks : f.blocks = d.blocks) (hscope : f.scope = d.scope) : Traced d f [] :=
  .nothing hscope fun n => .inl (blockAt_congr hblocks n)

lemma traced_self (d : Draft) : Traced d d [] := traced_same rfl rfl

lemma traced_openBlock (d : Draft) : Traced d d.openBlock.2 [] := .nothing rfl fun n =>
    .inl (d.blockAt_openBlock n)

lemma traced_goTo (d : Draft) (n : Nat) : Traced d (d.goTo n) [] := traced_same rfl rfl

/-- Closes the current block, but does not return from it. -/
lemma traced_terminate (hd : d.Open) {t : Terminator} (ht : ∀ values, t ≠ .done values) :
    Traced d (d.terminate t) [] := by
  refine .nothing (d.scope_terminate t) fun n => ?_
  rw [blockAt_terminate hd]
  split
  · next hn => exact .inr ⟨hd.term_blockAt hn, rfl, ht⟩
  · exact .inl rfl

lemma traced_jump (hd : d.Open) (n : Nat) : Traced d (d.jump n) [] := traced_terminate hd nofun

lemma traced_leave (hd : d.Open) {t : Terminator} (ht : ∀ values, t ≠ .done values) :
    Traced d (d.ensure.terminate t) [] := by
  have hensure : Traced d d.ensure [] := .nothing d.scope_ensure fun n => .inl (d.blockAt_ensure n)
  exact hensure.trans (traced_terminate (Grows.refl hd).ensure.isOpen ht)

lemma traced_revert (hn : d.Reserved n) (reason : Text) :
    Traced d (d.setTerm n (.revert reason)) [] := by
  refine .nothing rfl fun m => ?_
  rw [setTerm, blockAt_modify hn.lt]
  split
  · next heq => exact .inr ⟨heq ▸ hn.term_blockAt, rfl, fun _ => by simp⟩
  · exact .inl rfl

/-! ### Steps that lower a part -/

/-- Appends an instruction, if there is one. -/
def put (d : Draft) (made : Option Instr) : Draft := made.elim d d.emit

lemma scope_put (d : Draft) (made : Option Instr) : (d.put made).scope = d.scope := by
  cases made with
  | none => rfl
  | some i =>
    obtain ⟨n, hn⟩ := d.exists_current_ensure
    exact (congrArg Draft.scope (emit_eq_modify hn i)).trans d.scope_ensure

/-- What is appended goes to a block without a terminator, which is then the current one. -/
lemma exists_put (hd : d.Open) (made : Option Instr) :
    ∃ n, (d.put made).Open ∧ (d.put made).ensure.current = some n ∧
      (d.blockAt n).term = .unreachable ∧ ∀ m, (d.put made).blockAt m =
        if n = m then { d.blockAt m with stmts := (d.blockAt m).stmts ++ made.toList }
          else d.blockAt m := by
  have hopen := (Grows.refl hd).ensure.isOpen
  obtain ⟨n, hn⟩ := d.exists_current_ensure
  have hterm : (d.blockAt n).term = .unreachable := d.blockAt_ensure n ▸ hopen.term_blockAt hn
  cases made with
  | none => exact ⟨n, hd, hn, hterm, fun m => by simp [put]⟩
  | some i =>
    have hput : d.put (some i) = d.ensure.append n i := emit_eq_modify hn i
    have hcurrent : (d.put (some i)).current = some n := hput ▸ hn
    have hensure : (d.put (some i)).ensure.current = some n := by
      rw [ensure_of_current hcurrent, hcurrent]
    refine ⟨n, ((Grows.refl hd).emit i).isOpen, hensure, hterm, fun m => ?_⟩
    rw [hput, append, blockAt_modify (hopen.lt hn), blockAt_ensure, Option.toList_some]

section Part

variable {p : Part} {v : Var} (hd : d.Open) (hblocks : e.blocks = d.blocks)
    (hcurrent : e.current = d.current)
  (hscope : e.scope = p.scopeAfter d.scope)

include hd hblocks hcurrent hscope

/-- Lowers a part that is not returned. -/
lemma lands_put (hrole : p.role ≠ .result) : Lands d (e.put (p.instr? d.scope v)) [p] := by
  have he : e.Open := ((Grows.refl hd).congr hblocks hcurrent).isOpen
  obtain ⟨n, -, -, hn, hput⟩ := exists_put he (p.instr? d.scope v)
  simp only [blockAt_congr hblocks] at hn hput
  refine ⟨_, rfl, Traced.single (v := v) ((e.scope_put _).trans hscope) hn (fun m => ?_)
    fun m => ?_⟩
  · rw [hput]
    split <;> simp
  · rw [hput, if_neg fun h : p.role = .result ∧ n = m => hrole h.1]
    split <;> rfl

/-- Lowers a part that is returned. -/
lemma lands_return (hrole : p.role = .result) :
    Lands d ((e.put (p.instr? d.scope v)).ensure.terminate (.done p.value.readNames)) [p] := by
  have he : e.Open := ((Grows.refl hd).congr hblocks hcurrent).isOpen
  obtain ⟨n, hopen, hcurrent, hn, hput⟩ := exists_put he (p.instr? d.scope v)
  simp only [blockAt_congr hblocks] at hn hput
  have hclosed := blockAt_terminate (Grows.refl hopen).ensure.isOpen (.done p.value.readNames)
  simp only [blockAt_ensure, hcurrent, Option.some.injEq, hput] at hclosed
  have hscope' : ((e.put (p.instr? d.scope v)).ensure.terminate (.done p.value.readNames)).scope =
      p.scopeAfter d.scope := by rw [scope_terminate, scope_ensure, scope_put, hscope]
  refine ⟨_, rfl, Traced.single (v := v) hscope' hn (fun m => ?_) fun m => ?_⟩
  · rw [hclosed]
    split <;> simp
  · rw [hclosed]
    split <;> simp [*]

end Part

lemma lands_cond (hd : d.Open) (value : Expr) (line : Nat) :
    Lands d (d.cond value line).2 [⟨.condition, line, value⟩] :=
  lands_put (v := (d.cond value line).1) (e := { d with conds := d.conds + 1 }) hd rfl rfl rfl nofun

lemma lands_expr (hd : d.Open) (value : Expr) (line : Nat) :
    Lands d (d.expr value line) [⟨.statement, line, value⟩] :=
  lands_put (v := []) (e := (d.instr value line).2) hd rfl rfl rfl nofun

/-- Appends an expression statement that may be missing. -/
lemma lands_expr? (hd : d.Open) (value : Expr) (line : Nat) :
    Lands d (if value.isEmpty then d else d.expr value line) (partOf .statement line value) := by
  unfold partOf
  split
  · exact (traced_self d).lands
  · exact lands_expr hd value line

/-- What a return calls is appended. -/
lemma calling_eq_put (d : Draft) (value : Expr) (line : Nat) :
    d.calling value line =
      (d.instr value line).2.put (Part.instr? ⟨.result, line, value⟩ d.scope []) := by
  unfold calling
  split
  · next hempty =>
    obtain rfl := List.isEmpty_iff.mp hempty
    rfl
  · simp only [Part.instr?, Option.filter, instr]
    split
    · next hcalls => exact (if_pos hcalls)
    · next hcalls => exact (if_neg hcalls)

/-- The arguments of a revert are evaluated, if they read anything. -/
lemma lands_reason (hd : d.Open) (args : Expr) (line : Nat) :
    Lands d (if args.readNames.isEmpty then d
      else d.emit { op := .eval, uses := args.readNames, value := args, line })
      [⟨.reason, line, args⟩] := by
  have hput := lands_put (p := ⟨.reason, line, args⟩) (v := []) (e := d) hd rfl rfl rfl nofun
  simp only [Part.instr?] at hput
  split
  · next hreads =>
    rw [if_pos hreads] at hput
    exact hput
  · next hreads =>
    rw [if_neg hreads] at hput
    exact hput

/-! ### Choices and loops -/

lemma lands_openChoice (hd : d.Open) (cond : Expr) (line : Nat) (both : Bool) :
    Lands d (d.openChoice cond line both).2 [⟨.condition, line, cond⟩] := by
  have hcond := lands_cond hd cond line
  have hopen := (appends_cond hd cond line).grows.isOpen
  unfold openChoice
  generalize d.cond cond line = tested at hcond hopen ⊢
  obtain ⟨v, e⟩ := tested
  have hgrows := (Grows.refl hopen).openBlock.openBlock
  have htwo := (hcond.quiet (traced_openBlock e)).quiet (traced_openBlock _)
  cases both with
  | false => exact htwo.quiet (traced_terminate hgrows.isOpen nofun)
  | true =>
    exact (htwo.quiet (traced_openBlock _)).quiet (traced_terminate hgrows.openBlock.isOpen nofun)

lemma lands_check (hd : d.Open) (cond : Expr) (line : Nat) (reason : Text) :
    Lands d (d.check cond line reason) [⟨.condition, line, cond⟩] := by
  have hno := (chooses_openChoice hd cond line false).no
  exact ((lands_openChoice hd cond line false).quiet (traced_revert hno reason)).quiet
    (traced_goTo _ _)

lemma traced_openLoop (d : Draft) (post : Expr) : Traced d (d.openLoop post).2 [] := by
  have htwo := (traced_openBlock d).trans (traced_openBlock _)
  unfold openLoop
  cases post.isEmpty with
  | true => exact htwo.trans (traced_openBlock _)
  | false => exact (htwo.trans (traced_openBlock _)).trans (traced_openBlock _)

/-- Fills the header of a loop and enters its body. -/
lemma lands_enterLoop {frame : LoopFrame} (hd : d.Open) (hheader : d.Reserved frame.header)
    (line : Nat) (cond : Expr) (bodyFirst : Bool) : Lands d (d.enterLoop frame line cond bodyFirst)
      (partOf .condition line cond) := by
  unfold enterLoop partOf
  generalize (if bodyFirst then frame.body else frame.header) = first
  have hopen := (((Grows.refl hd).terminate (.jump first)).reserved hheader).open_goTo
  refine ((traced_jump hd first).trans (traced_goTo _ frame.header)).then ?_
  change ((d.jump first).goTo frame.header).Open at hopen
  generalize (d.jump first).goTo frame.header = e at hopen ⊢
  cases cond.isEmpty with
  | true => exact (traced_jump hopen frame.body).lands.quiet (traced_same rfl rfl)
  | false =>
    have hbranch := traced_terminate (appends_cond hopen cond line).grows.isOpen
      (t := .branch (e.cond cond line).1 frame.body frame.exit) nofun
    exact ((lands_cond hopen cond line).quiet hbranch).quiet (traced_same rfl rfl)

/-- Fills the latch of a loop and goes on behind it. -/
lemma lands_leaveLoop {frame : LoopFrame} (hd : d.Open) (post : Expr)
    (hlatch : post.isEmpty = false → d.Reserved frame.latch) (line : Nat) :
    Lands d (d.leaveLoop frame line post) (partOf .statement line post) := by
  have hinner : Grows d { d with loops := d.loops.drop 1 } := (Grows.refl hd).congr rfl rfl
  have hloops : Traced d { d with loops := d.loops.drop 1 } [] := traced_same rfl rfl
  have hclosed := hloops.trans (traced_jump hinner.isOpen frame.latch)
  unfold leaveLoop partOf
  cases hpost : post.isEmpty with
  | true => exact (hclosed.trans (traced_goTo _ frame.exit)).lands
  | false =>
    have hopen := ((hinner.terminate (.jump frame.latch)).reserved (hlatch hpost)).open_goTo
    have hgrows := (appends_expr hopen post line).grows
    have hstep := (lands_expr hopen post line).quiet (traced_jump hgrows.isOpen frame.header)
    exact ((hclosed.trans (traced_goTo _ frame.latch)).then hstep).quiet (traced_goTo _ frame.exit)

end Draft

/-- A choice lowers its condition, then the parts of its branches. -/
lemma lands_ifElse {line : Nat} {cond : Expr} {yes no : Stmt} {d f : Draft} (hd : d.Open)
    (h : lowerStmt (.ifElse line cond yes no) d = .ok f)
    (hyes : ∀ d f : Draft, d.Open → lowerStmt yes d = .ok f → d.Lands f (allPartsOf yes))
    (hno : ∀ d f : Draft, d.Open → lowerStmt no d = .ok f → d.Lands f (allPartsOf no)) :
    d.Lands f (allPartsOf (.ifElse line cond yes no)) := by
  have hchoose := Draft.chooses_openChoice hd cond line (!no.isEmpty)
  have hcond := Draft.lands_openChoice hd cond line (!no.isEmpty)
  simp only [lowerStmt, bind_eq_ok_iff] at h
  generalize d.openChoice cond line (!no.isEmpty) = choice at hchoose hcond h
  obtain ⟨frame, d₀⟩ := choice
  obtain ⟨e, he, h⟩ := h
  have hopen := (lowerStmt_steady yes _ _ hchoose.yes.open_goTo he).1.isOpen
  have hbranch := (d₀.traced_goTo frame.yes).then (hyes _ _ hchoose.yes.open_goTo he)
  have hfirst := (hcond.trans hbranch).quiet (Draft.traced_jump hopen frame.join)
  cases hempty : no.isEmpty with
  | true =>
    rw [hempty] at h
    cases h
    cases no with
    | empty =>
      have hparts : allPartsOf (.ifElse line cond yes .empty) = [⟨.condition, line, cond⟩] ++
        allPartsOf yes := by
        simp [allPartsOf, partsOf]
      exact hparts ▸ hfirst.quiet (Draft.traced_goTo _ frame.join)
    | _ => contradiction
  | false =>
    rw [hempty] at h
    obtain ⟨e', he', h⟩ := bind_eq_ok_iff.mp h
    cases h
    -- the second branch was opened before the first was lowered, and is still as it was
    obtain ⟨hgrows, -, -⟩ := (lowerStmt_steady yes).jump hchoose.yes he frame.join
    have hreserved := hgrows.reserved (hchoose.no.goTo (Nat.ne_of_lt hchoose.yes_lt))
    have hopen' := (lowerStmt_steady no _ _ hreserved.open_goTo he').1.isOpen
    have hboth := hfirst.trans ((Draft.traced_goTo _ frame.no).then
      (hno _ _ hreserved.open_goTo he'))
    exact (hboth.quiet (Draft.traced_jump hopen' frame.join)).quiet (Draft.traced_goTo _ frame.join)

/-- A loop lowers its condition, then the parts of its body, then its step. -/
lemma LowersLoop.lands {l : Loop} {bodyFirst : Bool} {d f : Draft} (hd : d.Open)
    (h : LowersLoop l bodyFirst d f)
    (hbody : ∀ d f : Draft, d.Open → lowerStmt l.body d = .ok f → d.Lands f (allPartsOf l.body)) :
    d.Lands f (partOf .condition l.line l.cond ++
      (allPartsOf l.body ++ partOf .statement l.line l.post)) := by
  obtain ⟨e, he, rfl⟩ := h
  have hopens := Draft.opensLoop_openLoop hd l.post
  have henter := Draft.entersLoop_enterLoop hd l bodyFirst
  have hgrows := (lowerStmt_steady l.body _ _ henter.grows.isOpen he).1
  have hlatch := fun hpost => hgrows.reserved (henter.latch hpost).1
  have hinside :=
    (Draft.lands_enterLoop hopens.opens.grows.isOpen hopens.header l.line l.cond bodyFirst).trans
    ((hbody _ _ henter.grows.isOpen he).trans (Draft.lands_leaveLoop hgrows.isOpen l.post
      hlatch l.line))
  exact (d.traced_openLoop l.post).then hinside

mutual

/-- Lowering a statement lowers its parts, each into one block. -/
theorem lowerStmt_lands : ∀ (s : Stmt) (d f : Draft), d.Open → lowerStmt s d = .ok f →
    d.Lands f (allPartsOf s)
  | .empty, d, f, hd, h => by
    cases h
    exact d.traced_self.lands
  | .placeholder _, d, f, hd, h => by
    cases h
    exact d.traced_self.lands
  | .block _ body, d, f, hd, h => lowerStmts_lands body d f hd h
  | .expr line value, d, f, hd, h => by
    cases h
    exact Draft.lands_expr? hd value line
  | .emit line _ args, d, f, hd, h => by
    cases h
    exact Draft.lands_put (v := []) (p := ⟨.event, line, args⟩) hd rfl rfl rfl nofun
  | .ifElse line cond yes no, d, f, hd, h =>
    lands_ifElse hd h (lowerStmt_lands yes) (lowerStmt_lands no)
  | .whileLoop line cond body, d, f, hd, h => by
    have hloop := (lowerStmt_whileLoop.mp h).lands hd (lowerStmt_lands body)
    rw [show partOf .statement line [] = [] from rfl, List.append_nil] at hloop
    exact hloop
  | .doLoop line cond body, d, f, hd, h => by
    have hloop := (lowerStmt_doLoop.mp h).lands hd (lowerStmt_lands body)
    rw [show partOf .statement line [] = [] from rfl, List.append_nil] at hloop
    exact hloop
  | .forLoop line init cond post body, d, f, hd, h => by
    have hopen := (Draft.appends_expr? hd init init.line).grows.isOpen
    have hloop := (lowerStmt_forLoop.mp h).lands hopen (lowerStmt_lands body)
    exact (Draft.lands_expr? hd init init.line).trans hloop
  | .returnValue line value, d, f, hd, h => by
    cases h
    rw [d.calling_eq_put]
    exact Draft.lands_return (p := ⟨.result, line, value⟩) hd rfl rfl rfl rfl
  | .revert line args, d, f, hd, h => by
    cases h
    refine (Draft.lands_reason hd args line).quiet (Draft.traced_leave ?_ nofun)
    split
    · exact hd
    · exact ((Draft.Grows.refl hd).emit _).isOpen
  | .require line cond message internal, d, f, hd, h => by
    cases h
    exact Draft.lands_check hd cond line _
  | .breakLoop line, d, f, hd, h => by
    rw [lowerStmt] at h
    split at h
    · contradiction
    · cases h
      exact (Draft.traced_leave hd (t := .jump _) nofun).lands
  | .continueLoop line, d, f, hd, h => by
    rw [lowerStmt] at h
    split at h
    · contradiction
    · cases h
      exact (Draft.traced_leave hd (t := .jump _) nofun).lands

theorem lowerStmts_lands : ∀ (body : List Stmt) (d f : Draft), d.Open → lowerStmts body d = .ok f →
    d.Lands f (allPartsOfAll body)
  | [], d, f, hd, h => by
    cases h
    exact d.traced_self.lands
  | s :: rest, d, f, hd, h => by
    obtain ⟨e, he, h⟩ := bind_eq_ok_iff.mp h
    have hopen := (lowerStmt_steady s d e hd he).1.isOpen
    exact (lowerStmt_lands s d e hd he).trans (lowerStmts_lands rest e f hopen h)

end

/-! ### Lowered functions -/

section Finished

variable {d : Draft} {name : Text}

/-- The blocks of a finished draft hold what was drafted. -/
lemma exists_blockAt {c : Block Instr} (hc : c ∈ (d.graph name).withMetadata.blocks) :
    ∃ n : Nat, c.id = n ∧ c.stmts = (d.blockAt n).stmts ∧ c.term = (d.blockAt n).term := by
  obtain ⟨n, b, hb, hid, hstmts, hterm, -⟩ := exists_drafted hc
  exact ⟨n, hid, by simp [hstmts, Draft.blockAt, hb], by simp [hterm, Draft.blockAt, hb]⟩

/-- A block that returns is there in the finished draft. -/
lemma exists_block?_of_done {n : Nat} {values : List Var} (h : (d.blockAt n).term = .done values)
    (name : Text) :
    ∃ c, (d.graph name).withMetadata.block? n = some c ∧ c.term = .done values := by
  rw [Draft.blockAt] at h
  cases hb : d.blocks[n]? with
  | none => simp [hb] at h
  | some b =>
    rw [hb, Option.getD_some] at h
    obtain ⟨c, hc, -, hterm⟩ := Graph.block?_withMetadata (block?_graph hb name)
    exact ⟨c, hc, hterm.trans h⟩

/-- The instructions of a finished draft are those of its parts. -/
lemma stmts_graph_perm {ls : List Landing} (h : ∀ n, (d.blockAt n).stmts = landedAt n ls)
    (name : Text) :
    ((d.graph name).withMetadata.blocks.flatMap (·.stmts)).Perm (ls.filterMap (·.made)) := by
  have hblocks : (d.graph name).withMetadata.blocks.map (·.stmts) =
      (List.range d.blocks.length).map fun n => landedAt n ls := by
    refine List.ext_getElem? fun n => ?_
    simp only [Graph.withMetadata, Graph.withReads, Graph.withExits, Graph.withOrder,
      Graph.withPredecessors_eq, Graph.withPreds,
      Graph.mapBlocks, Draft.graph, List.getElem?_map, List.getElem?_mapIdx, ← h, Draft.blockAt]
    by_cases hn : n < d.blocks.length
    · simp [hn, Block.ofTerminator, Block.withReads]
    · simp [hn]
  rw [List.flatMap_def, hblocks, ← List.flatMap_def]
  refine flatMap_landedAt_perm fun l hl hmade => ?_
  by_contra hlt
  obtain ⟨i, hi⟩ := Option.ne_none_iff_exists'.mp hmade
  have hmem : i ∈ landedAt l.block ls := List.mem_filterMap.mpr ⟨l, hl, by simp [hi]⟩
  simp [← h, Draft.blockAt, List.getElem?_eq_none (Nat.le_of_not_lt hlt)] at hmem

end Finished

/-- A lowered function is made of some parts, each in its block. -/
structure LoweredFunction.Placed (f : LoweredFunction) (ls : List Landing) : Prop where
  logs : ∃ s, Logs ⟨f.stateVars, outerNames f.function⟩ (ls.map fun l => (l.part, l.made)) s
  instrs : (f.instrs.map Prod.snd).Perm (ls.filterMap (·.made))
  stmts : ∀ b ∈ f.graph.blocks, ∃ n : Nat, b.id = n ∧ b.stmts = landedAt n ls
  ended : ∀ l ∈ ls, l.part.role = .result →
    ∃ b, f.graph.block? l.block = some b ∧ b.term = .done l.part.value.readNames
  apart : ls.Pairwise fun l l' => l.part.role = .result → l'.block ≠ l.block

/-- Control leaves a lowered function by its returns, and behind the end of its body from the block
`ending`, if that end is open. -/
structure LoweredFunction.Leaves (f : LoweredFunction) (ls : List Landing) (ending : Option Nat) :
    Prop where
  ended : ∀ n ∈ ending, ∃ b, f.graph.block? n = some b ∧ b.term = .done f.function.namedReturns
  apart : ∀ n ∈ ending, ∀ l ∈ ls, l.part.role = .result → l.block ≠ n
  all : ∀ b ∈ f.graph.blocks, ∀ values, b.term = .done values →
    (∃ l ∈ ls, l.part.role = .result ∧ b.id = l.block) ∨ ∃ n ∈ ending, b.id = n

variable {u : SourceUnit} {c : Contract} {fn : Function} {state : List Text} {body : Stmt}
  {f : LoweredFunction}

/-- Every part of a body is lowered into one block, and control leaves the function by the returns
of the body or behind its end. -/
theorem lowerMember_placed (h : lowerMember u c fn state body = .ok f) :
    ∃ ls ending, ls.map Landing.part = allPartsOf body ∧ f.Placed ls ∧ f.Leaves ls ending := by
  obtain ⟨g, hg, h⟩ := bind_eq_ok_iff.mp h
  cases h
  obtain ⟨d, hd, rfl⟩ := lowerBody_eq_ok hg
  have hopen := (lowerStmt_steady body _ d (open_start _) hd).1.isOpen
  obtain ⟨ls, hparts, htraced⟩ := lowerStmt_lands body _ d (open_start _) hd
  have hclosed := Draft.blockAt_terminate hopen (.done fn.namedReturns)
  -- the block of a return has its terminator already
  have hreturned : ∀ l ∈ ls, l.part.role = .result → d.current ≠ some l.block := by
    intro l hl hrole hcurrent
    have hterm := htraced.ended l hl hrole
    rw [hopen.term_blockAt hcurrent] at hterm
    contradiction
  have hstmts : ∀ n, ((d.terminate (.done fn.namedReturns)).blockAt n).stmts = landedAt n ls :=
    fun n => by
    have hlanded : (d.blockAt n).stmts = landedAt n ls := by
      rw [htraced.stmts, Draft.blockAt_start, List.nil_append]
    rw [hclosed]
    split <;> exact hlanded
  refine ⟨ls, d.current, hparts, ⟨⟨_, htraced.logs⟩, ?_, fun b hb => ?_, fun l hl hrole => ?_,
    htraced.apart⟩, ⟨fun n hn => ?_, fun n hn l hl hrole heq => ?_, fun b hb values hdone => ?_⟩⟩
  · have hsnd : ∀ b : Block Instr, (b.stmts.map fun i => (b, i)).map Prod.snd = b.stmts :=
      fun b => by
      rw [List.map_map]
      exact List.map_id _
    rw [LoweredFunction.instrs, List.map_flatMap]
    simp only [hsnd]
    exact stmts_graph_perm hstmts _
  · obtain ⟨n, hid, hb, -⟩ := exists_blockAt hb
    exact ⟨n, hid, hb.trans (hstmts n)⟩
  · refine exists_block?_of_done ?_ _
    rw [hclosed, if_neg (hreturned l hl hrole), htraced.ended l hl hrole]
  · refine exists_block?_of_done ?_ _
    rw [hclosed, if_pos (Option.mem_def.mp hn)]
  · exact hreturned l hl hrole (heq ▸ hn)
  · obtain ⟨n, hid, -, hterm⟩ := exists_blockAt hb
    rw [hdone, hclosed] at hterm
    split at hterm
    · next hn => exact .inr ⟨n, hn, hid⟩
    · rcases htraced.returns n values hterm.symm with hstart | ⟨l, hl, hrole, hblock⟩
      · rw [Draft.blockAt_start] at hstart
        contradiction
      · exact .inl ⟨l, hl, hrole, hblock ▸ hid⟩

/-! ### Returns without a value -/

/-- A return without a value neither makes an instruction nor changes the scope. -/
lemma Part.instr?_of_isBare {p : Part} (h : p.isBare = true) (s : Scope) (v : Var) :
    p.instr? s v = none ∧ p.scopeAfter s = s := by
  obtain ⟨role, line, value⟩ := p
  simp only [Part.isBare, Bool.and_eq_true, beq_iff_eq, List.isEmpty_iff] at h
  obtain ⟨rfl, rfl⟩ := h
  exact ⟨rfl, rfl⟩

/-- Returns without a value can be left out of a log. -/
lemma Logs.filter_isBare {s s' : Scope} {log : List (Part × Option Instr)} (h : Logs s log s') :
    Logs s (log.filter fun e => !e.1.isBare) s' ∧ ∀ e ∈ log, e.1.isBare = true → e.2 = none := by
  induction h with
  | nil s => exact ⟨.nil s, nofun⟩
  | @cons s s' rest p v _ ih =>
    cases hbare : p.isBare with
    | true =>
      obtain ⟨hmade, hscope⟩ := Part.instr?_of_isBare hbare s v
      rw [hscope] at ih
      rw [List.filter_cons_of_neg (by simp [hbare])]
      exact ⟨ih.1, List.forall_mem_cons.mpr ⟨fun _ => hmade, ih.2⟩⟩
    | false =>
      rw [List.filter_cons_of_pos (by simp [hbare])]
      exact ⟨.cons p v ih.1, List.forall_mem_cons.mpr ⟨fun h => by simp [hbare] at h, ih.2⟩⟩

lemma filter_partOf (role : Role) (h : role ≠ .result) (line : Nat) (value : Expr) :
    (partOf role line value).filter (!·.isBare) = partOf role line value := by
  unfold partOf
  split
  · rfl
  · exact List.filter_cons_of_pos (by simp [Part.isBare, h])

mutual

lemma filter_allPartsOf : ∀ s : Stmt, (allPartsOf s).filter (!·.isBare) = partsOf s
  | .block _ body => filter_allPartsOfAll body
  | .ifElse _ _ yes no => by
    rw [allPartsOf, List.filter_cons_of_pos rfl, List.filter_append, filter_allPartsOf yes,
      filter_allPartsOf no, partsOf]
  | .whileLoop line cond body => by
    rw [allPartsOf, List.filter_append, filter_partOf .condition nofun, filter_allPartsOf body,
      partsOf]
  | .doLoop line cond body => by
    rw [allPartsOf, List.filter_append, filter_partOf .condition nofun, filter_allPartsOf body,
      partsOf]
  | .forLoop line init cond post body => by
    rw [allPartsOf, List.filter_append, List.filter_append, List.filter_append, filter_partOf
      .statement nofun,
      filter_partOf .condition nofun, filter_partOf .statement nofun, filter_allPartsOf body,
        partsOf]
  | .returnValue line value => by
    cases hempty : value.isEmpty <;> simp [allPartsOf, partsOf, partOf, Part.isBare, hempty]
  | .expr line value => filter_partOf .statement nofun line value
  | .empty | .placeholder _ | .breakLoop _ | .continueLoop _ | .emit .. | .revert
    .. | .require .. => rfl

lemma filter_allPartsOfAll : ∀ body : List Stmt, (allPartsOfAll body).filter (!·.isBare) =
    partsOfAll body
  | [] => rfl
  | s :: rest => by
    rw [allPartsOfAll, List.filter_append, filter_allPartsOf s, filter_allPartsOfAll rest,
      partsOfAll]

end

/-- Returns without a value can be left out. -/
lemma LoweredFunction.Placed.filter_isBare {ls : List Landing} (h : f.Placed ls) :
    f.Placed (ls.filter (!·.part.isBare)) := by
  obtain ⟨s, hlogs⟩ := h.logs
  obtain ⟨hfiltered, hnone⟩ := hlogs.filter_isBare
  have hmade : ∀ made : Landing → Option Instr, (∀ l ∈ ls, l.made = none → made l = none) →
      (ls.filter (!·.part.isBare)).filterMap made = ls.filterMap made := by
    intro made hkeeps
    rw [List.filterMap_filter]
    refine List.filterMap_congr fun l hl => ?_
    split
    · rfl
    · next hbare =>
      have hbare : l.part.isBare = true := by simpa using hbare
      exact (hkeeps l hl (hnone (l.part, l.made) (List.mem_map_of_mem hl) hbare)).symm
  refine ⟨⟨s, ?_⟩, ?_, fun b hb => ?_, fun l hl => h.ended l (List.mem_of_mem_filter hl),
    h.apart.filter _⟩
  · rwa [List.filter_map] at hfiltered
  · rw [hmade _ fun _ _ => id]
    exact h.instrs
  · obtain ⟨n, hid, hstmts⟩ := h.stmts b hb
    refine ⟨n, hid, hstmts.trans (hmade _ fun l _ hl => ?_).symm⟩
    rw [hl, ite_self]

/-- Every expression of a body is lowered into one block. -/
theorem lowerMember_partsOf (h : lowerMember u c fn state body = .ok f) :
    ∃ ls, ls.map Landing.part = partsOf body ∧ f.Placed ls := by
  obtain ⟨ls, ending, hparts, hplaced, -⟩ := lowerMember_placed h
  refine ⟨_, ?_, hplaced.filter_isBare⟩
  rw [← filter_allPartsOf, ← hparts, List.filter_map]
  rfl

/-- The instructions of a lowered function are those of the parts of its body, in some order. -/
theorem lowerMember_logged (h : lowerMember u c fn state body = .ok f) :
    ∃ (log : List (Part × Option Instr)) (s : Scope), log.map Prod.fst = partsOf body ∧
      Logs ⟨state, outerNames fn⟩ log s ∧
        (f.instrs.map Prod.snd).Perm (log.filterMap Prod.snd) := by
  obtain ⟨-, -, hfunction, hstate⟩ := origin_lowerMember h
  obtain ⟨ls, hparts, hplaced⟩ := lowerMember_partsOf h
  obtain ⟨s, hlogs⟩ := hplaced.logs
  rw [hstate, hfunction] at hlogs
  refine ⟨_, s, ?_, hlogs, ?_⟩
  · rw [List.map_map]
    exact hparts
  · rw [List.filterMap_map]
    exact hplaced.instrs

end ContractAudit.Flow
