/-!
Depth-first search.

The search enters a node, then everything its successors lead to, then leaves it; a node is entered
once. The trail records both orders: `entered` is the preorder, `left` the postorder. Fuel bounds
the depth, and one more than the number of nodes is always enough.
-/

namespace ContractAudit.Search

/-- The nodes a search has entered and left so far, each in order. -/
structure Trail (α : Type) where
  entered : List α
  left : List α
deriving Repr

/-- The trail before the search starts. -/
def Trail.start (α : Type) : Trail α := ⟨[], []⟩

variable {α : Type} [DecidableEq α]

/-- Searches from `x` on, at most `fuel` levels deep. -/
def visit (next : α → List α) : Nat → α → Trail α → Trail α
  | 0, _, trail => trail
  | fuel + 1, x, trail =>
    if x ∈ trail.entered then trail
    else
      let inside := (next x).foldl (fun trail y => visit next fuel y trail)
        { trail with entered := trail.entered ++ [x] }
      { inside with left := inside.left ++ [x] }

/-- The nodes reached from `roots`, in the order in which they are entered. -/
def preorder (next : α → List α) (fuel : Nat) (roots : List α) : List α :=
  (roots.foldl (fun trail x => visit next fuel x trail) (Trail.start α)).entered

/-- The nodes reached from `root`, each after everything it was entered for. -/
def postorder (next : α → List α) (fuel : Nat) (root : α) : List α :=
  (visit next fuel root (Trail.start α)).left

end ContractAudit.Search
