import Mathlib.Data.List.Basic
import ContractAudit.Fixpoint.Solver

/-!
The replay of a solution over the statements of blocks.

`walk_eq` says what a replay lists: every statement of every block, with the fact that statement by
statement transfer makes of the solution's fact at the boundary of the block. That fact crosses the
statements in front of the listed one (forward) or those behind it (backward).
-/

namespace ContractAudit.Fixpoint.Problem

open ContractAudit.Flow

variable {σ L : Type} (p : Problem σ L)

/-- The fact behind statements, from the fact in front of them. -/
def across (fact : L) (stmts : List σ) :
    L := stmts.foldl (fun fact s => p.transfer.stmt s fact) fact

/-- The fact in front of statements, from the fact behind them. -/
def acrossBack (fact : L) (stmts : List σ) : L := stmts.foldr p.transfer.stmt fact

lemma factsForward_getElem? (fact : L) (stmts : List σ) (i : Nat) :
    (p.factsForward fact stmts)[i]? =
      if i < stmts.length then some (p.across fact (stmts.take i)) else none := by
  induction stmts generalizing fact i with
  | nil => simp [factsForward]
  | cons s rest ih =>
    cases i with
    | zero => simp [factsForward, across]
    | succ i => simp [factsForward, ih, across]

lemma factsBackward_cons (fact : L) (s : σ) (rest : List σ) :
    p.factsBackward fact (s :: rest) =
      ((p.factsBackward fact rest).2 :: (p.factsBackward fact rest).1,
        p.transfer.stmt s (p.factsBackward fact rest).2) := rfl

lemma factsBackward_snd (fact : L) (stmts : List σ) :
    (p.factsBackward fact stmts).2 = p.acrossBack fact stmts := by
  induction stmts with
  | nil => rfl
  | cons s rest ih =>
    rw [factsBackward_cons, ih]
    rfl

lemma factsBackward_getElem? (fact : L) (stmts : List σ) (i : Nat) :
    (p.factsBackward fact stmts).1[i]? =
      if i < stmts.length then some (p.acrossBack fact (stmts.drop (i + 1))) else none := by
  induction stmts generalizing i with
  | nil => simp [factsBackward]
  | cons s rest ih =>
    rw [factsBackward_cons]
    cases i with
    | zero => simp [factsBackward_snd]
    | succ i => simp [ih]

/-- The fact that holds just before statement number `i` of a block (forward) or just behind it
(backward). -/
def factAtStmt (r : Solution L) (b : Block σ) (i : Nat) : L :=
  match p.direction with
  | .forward => p.across (p.factAt r.entry b.id) (b.stmts.take i)
  | .backward => p.acrossBack (p.acrossTerm b (p.factAt r.exit b.id)) (b.stmts.drop (i + 1))

/-- **What a replay lists**: the statements of the blocks in order, each with its fact. -/
theorem walk_eq (g : Graph σ) (r : Solution L) :
    p.walk g r = g.blocks.flatMap fun b => b.stmts.mapIdx fun i s =>
      (b, i, s, p.factAtStmt r b i) := by
  rw [walk]
  refine congrArg (g.blocks.flatMap ·) (funext fun b => List.ext_getElem? fun i => ?_)
  rw [List.getElem?_mapIdx, List.getElem?_mapIdx, List.zip, List.getElem?_zipWith]
  rcases Nat.lt_or_ge i b.stmts.length with hlt | hge
  · cases hdir : p.direction with
    | forward => simp [factsForward_getElem?, factAtStmt, hdir, hlt]
    | backward => simp [factsBackward_getElem?, factAtStmt, hdir, hlt]
  · rw [List.getElem?_eq_none hge]
    rfl

/-- A statement is listed with its fact, and with nothing else. -/
theorem mem_walk {g : Graph σ} {r : Solution L} {b : Block σ} {i : Nat} {s : σ} {fact : L} :
    (b, i, s, fact) ∈ p.walk g r ↔
      b ∈ g.blocks ∧ b.stmts[i]? = some s ∧ fact = p.factAtStmt r b i := by
  rw [walk_eq, List.mem_flatMap]
  constructor
  · rintro ⟨c, hc, hmem⟩
    obtain ⟨n, hn, heq⟩ := List.mem_mapIdx.mp hmem
    cases heq
    exact ⟨hc, List.getElem?_eq_getElem hn, rfl⟩
  · rintro ⟨hb, hs, rfl⟩
    obtain ⟨hlt, rfl⟩ := List.getElem?_eq_some_iff.mp hs
    exact ⟨b, hb, List.mem_mapIdx.mpr ⟨i, hlt, rfl⟩⟩

end ContractAudit.Fixpoint.Problem
