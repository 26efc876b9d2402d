import ContractAudit.Table
import ContractAudit.Plan.Failure

/-!
Dependencies between passes.

A dependency graph is a list of ids with two tables: what each id needs, and what needs it. `order`
visits an id only after everything it needs; a cycle is found where an id is needed that is still
being visited. `levels` groups ids by the length of their longest chain of needs.
-/

namespace ContractAudit.Plan

/-- Which passes there are, in order of registration, and which need which. -/
structure DependencyGraph where
  ids : List Text
  /-- What each pass needs, in the order in which that was recorded. -/
  needs : Table Text (List Text)
  /-- What needs each pass, in the same order. -/
  neededBy : Table Text (List Text)
deriving DecidableEq, Repr

/-- A cycle: the pass that is needed while it is being visited, and the pass that needs it. -/
structure Cycle where
  pass : Text
  visiting : Text
deriving DecidableEq, Repr

/-- The failure that reports a cycle. -/
def Cycle.failure (c : Cycle) : Failure :=
  .fault .circularDependency c.pass ("detected while visiting " ++ c.visiting)

namespace DependencyGraph

/-- The graph without passes. -/
def empty : DependencyGraph := ⟨[], .empty, .empty⟩

/-- Whether a pass is registered. -/
def has (g : DependencyGraph) (id : Text) : Bool := g.ids.contains id

/-- Registers a pass, unless it is there already. -/
def add (g : DependencyGraph) (id : Text) : DependencyGraph :=
  if g.has id then g else { g with ids := g.ids ++ [id] }

/-- What `id` needs. -/
def dependencies (g : DependencyGraph) (id : Text) : List Text := (g.needs.get? id).getD []

/-- What needs `id`. -/
def dependents (g : DependencyGraph) (id : Text) : List Text := (g.neededBy.get? id).getD []

/-- Appends an id, unless it is there already. -/
def withId (ids : List Text) (id : Text) : List Text :=
  if ids.contains id then ids else ids ++ [id]

/-- Records that `id` needs `dep`, and registers both. -/
def addDependency (g : DependencyGraph) (id dep : Text) : DependencyGraph :=
  let g := (g.add id).add dep
  { g with
    needs := g.needs.set id (withId (g.dependencies id) dep)
    neededBy := g.neededBy.set dep (withId (g.dependents dep) id) }

/-- Whether everything that `id` needs is among the completed passes. -/
def satisfied (g : DependencyGraph) (id : Text) (completed : List Text) : Bool :=
  (g.dependencies id).all completed.contains

@[simp]
theorem mem_withId {ids : List Text} {id x : Text} : x ∈ withId ids id ↔ x ∈ ids ∨ x = id := by
  rw [withId]
  split
  · next h =>
    exact ⟨.inl, fun hx => hx.elim (fun hx => hx) fun heq => heq ▸ List.contains_iff_mem.mp h⟩
  · simp

section Edges

variable (g : DependencyGraph) (id dep x : Text)

theorem dependencies_add : (g.add id).dependencies x = g.dependencies x := by
  rw [add]
  split <;> rfl

theorem dependents_add : (g.add id).dependents x = g.dependents x := by
  rw [add]
  split <;> rfl

theorem dependencies_addDependency :
    (g.addDependency id dep).dependencies x =
      if x = id then withId (g.dependencies x) dep else g.dependencies x := by
  simp only [addDependency, dependencies_add]
  rw [dependencies, Table.get?_set]
  split
  · next h => rw [h, Option.getD_some]
  · exact (dependencies_add ..).trans (dependencies_add ..)

theorem dependents_addDependency :
    (g.addDependency id dep).dependents x =
      if x = dep then withId (g.dependents x) id else g.dependents x := by
  simp only [addDependency, dependents_add]
  rw [dependents, Table.get?_set]
  split
  · next h => rw [h, Option.getD_some]
  · exact (dependents_add ..).trans (dependents_add ..)

end Edges

/-! ### Order -/

/-- Visits `x`, which is needed along `path`, and everything it leads to that is not in `done` yet.
Appends each id behind what it leads to. -/
def visit (next : Text → List Text) : Nat → List Text → Text → List Text → Except Cycle (List Text)
  | 0, _, _, done => .ok done
  | fuel + 1, path, x, done => do
    let done ← (next x).foldlM
      (fun done y =>
        if y ∈ done then .ok done
        else if y ∈ x :: path then .error ⟨y, x⟩
        else visit next fuel (x :: path) y done)
      done
    return done ++ [x]

/-- Fuel for a visit: every id on a path but the first is registered, and none is there twice. -/
def fuel (g : DependencyGraph) : Nat := g.ids.length + 1

/-- The passes, each behind everything it needs. -/
def order (g : DependencyGraph) : Except Cycle (List Text) :=
  g.ids.foldlM
    (fun done id =>
      if done.contains id then .ok done
      else visit (fun x => (g.dependencies x).filter g.has) g.fuel [] id done)
    []

/-- Everything that `id` needs, directly or not, each behind what it needs itself. -/
def ancestors (g : DependencyGraph) (id : Text) : Except Cycle (List Text) := do
  let visited ← visit (fun x => (g.dependencies x).filter g.has) g.fuel [] id []
  return visited.dropLast

/-- Everything that needs `id`, directly or not. -/
def descendants (g : DependencyGraph) (id : Text) : Except Cycle (List Text) := do
  let visited ← visit (fun x => (g.dependents x).filter g.has) g.fuel [] id []
  return visited.dropLast

/-! ### Levels -/

/-- Appends an id to level `n`, with empty levels before it where there are none. -/
def placeAt (id : Text) : Nat → List (List Text) → List (List Text)
  | 0, [] => [[id]]
  | 0, level :: levels => (level ++ [id]) :: levels
  | n + 1, [] => [] :: placeAt id n []
  | n + 1, level :: levels => level :: placeAt id n levels

/-- The level of an id whose needs have the given levels: one above the highest of them. -/
def levelAbove (depths : Table Text Nat) (needs : List Text) : Nat :=
  needs.foldl
    (fun n dep =>
      match depths.get? dep with
      | some d => max n (d + 1)
      | none => n)
    0

/-- The passes by the length of their longest chain of needs. Passes of one level do not need each
other. -/
def levels (g : DependencyGraph) : Except Cycle (List (List Text)) := do
  let order ← g.order
  let (_, levels) := order.foldl
    (fun (depths, levels) id =>
      let n := levelAbove depths (g.dependencies id)
      (depths.set id n, placeAt id n levels))
    ((.empty : Table Text Nat), [])
  return levels

end DependencyGraph

end ContractAudit.Plan
