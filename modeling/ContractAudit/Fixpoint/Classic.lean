import ContractAudit.Fixpoint.Solver

/-!
Two classic problems: live variables and reaching definitions.
-/

namespace ContractAudit.Fixpoint

open Domain ContractAudit.Flow

variable {σ : Type} [Statement σ]

/-- Live variables, backward. The effect of a block is its summary: what is read before it is
defined becomes live, what is defined is live no more. -/
def liveness (σ : Type) [Statement σ] : Problem σ (FinSet Var) where
  lattice := powerset Var
  direction := .backward
  transfer :=
    { stmt := fun s live => (live.eraseAll (Statement.defs s)).insertAll (Statement.uses s)
      term? := some fun t live => live.insertAll t.uses
      block? := some fun b live => (live.eraseAll b.defs).insertAll b.exposed }

/-- The variables live at the block boundaries, when nothing is live behind an exit. -/
def liveVariables (g : Graph σ) : Solution (FinSet Var) := (liveness σ).solve g .empty

/-- A place where a variable gets a value: statement `index` of block `block`. -/
structure Definition where
  var : Var
  block : BlockId
  index : Int
deriving DecidableEq, Repr

/-- The block and index of a definition whose place is not known. -/
def unknownSite : Int := -1

/-- The definitions behind a statement at the given place, from those before it. -/
def defineAt (block : BlockId) (index : Int) (s : σ) (defs : FinSet Definition) :
    FinSet Definition :=
  let vars := Statement.defs s
  let kept := defs.filter fun d => !vars.contains d.var
  kept.insertAll (vars.map fun v => ⟨v, block, index⟩)

/-- The definitions behind statements numbered from `index` on. -/
def defineFrom (block : BlockId) : Nat → List σ → FinSet Definition → FinSet Definition
  | _, [], defs => defs
  | index, s :: rest, defs => defineFrom block (index + 1) rest (defineAt block index s defs)

/-- Reaching definitions, forward. A statement by itself does not know its place. -/
def reaching (σ : Type) [Statement σ] : Problem σ (FinSet Definition) where
  lattice := powerset Definition
  direction := .forward
  transfer :=
    { stmt := defineAt unknownSite unknownSite
      block? := some fun b defs => defineFrom b.id 0 b.stmts defs }

/-- The definitions that reach the block boundaries, when the parameters are defined on entry. -/
def reachingDefinitions (g : Graph σ) (params : List Var) : Solution (FinSet Definition) :=
  (reaching σ).solve g (.ofList (params.map fun p => ⟨p, unknownSite, unknownSite⟩))

end ContractAudit.Fixpoint
