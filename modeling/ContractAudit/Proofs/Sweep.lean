import Mathlib.Logic.Function.Iterate
import ContractAudit.Proofs.Search

/-!
Search with a stack.

A sweep takes the node on top of a stack. If it has been seen it is dropped, and otherwise its
successors go on the stack, also those that are there already. So nodes come up again and again, and
it is not the number of unseen nodes alone that shrinks with every step.

* `Sweep.Sound`: what has been seen or is on the stack is reached, and what has been seen leads to
  nothing else. A step keeps this (`Sound.step`).
* `Sweep.pending`: the nodes on the stack together with the successors of all unseen nodes. Every
  step has one less of them (`pending_step`).
* `Sweep.ends`: a sweep ends with what its roots reach.
-/

namespace ContractAudit.Search

variable {α : Type}

/-- The nodes seen so far, in order, and the nodes to look at, the next one first. -/
structure Sweep (α : Type) where
  seen : List α
  stack : List α

namespace Sweep

variable {next : α → List α} {nodes roots : List α} {w : Sweep α}

/-- The sweep before its first step. The last root is on top of the stack. -/
def start (roots : List α) : Sweep α := ⟨[], roots.reverse⟩

/-- What has been seen or is on the stack can be reached from the roots, and nothing is lost: the
roots and whatever the seen nodes lead to have been seen or are on the stack. -/
structure Sound (next : α → List α) (roots : List α) (w : Sweep α) : Prop where
  reached : ∀ x, x ∈ w.seen ∨ x ∈ w.stack → ∃ root ∈ roots, Reaches next root x
  roots : ∀ x ∈ roots, x ∈ w.seen ∨ x ∈ w.stack
  closed : ∀ x ∈ w.seen, ∀ y ∈ next x, y ∈ w.seen ∨ y ∈ w.stack

lemma sound_start (next : α → List α) (roots : List α) : (start roots).Sound next roots :=
  ⟨fun x hx => ⟨x, by simpa [start] using hx, .refl⟩, fun x hx => by simpa [start] using hx,
    fun x hx => by cases hx⟩

/-- When the stack is empty, the nodes that have been seen are those that the roots reach. -/
lemma Sound.mem_seen_iff (h : w.Sound next roots) (hempty : w.stack = []) {x : α} :
    x ∈ w.seen ↔ ∃ root ∈ roots, Reaches next root x := by
  have hseen : ∀ y, y ∈ w.seen ∨ y ∈ w.stack → y ∈ w.seen := by simp [hempty]
  constructor
  · exact fun hx => h.reached x (.inl hx)
  · rintro ⟨root, hroot, hx⟩
    induction hx with
    | refl => exact hseen root (h.roots root hroot)
    | tail _ hstep ih => exact hseen _ (h.closed _ ih _ hstep)

variable [DecidableEq α]

/-- Takes the node on top of the stack. The last of its successors comes up next. -/
def step (next : α → List α) : Sweep α → Sweep α
  | ⟨seen, []⟩ => ⟨seen, []⟩
  | ⟨seen, x :: rest⟩ =>
    if x ∈ seen then ⟨seen, rest⟩ else ⟨seen ++ [x], (next x).reverse ++ rest⟩

lemma Sound.step (h : w.Sound next roots) : (w.step next).Sound next roots := by
  obtain ⟨seen, _ | ⟨x, rest⟩⟩ := w
  · exact h
  rw [Sweep.step]
  split
  · next hseen =>
      -- the node on top has been seen, so nothing is lost with it
      have hkept : ∀ y, y ∈ seen ∨ y ∈ x :: rest → y ∈ seen ∨ y ∈ rest := by grind
      exact ⟨fun y hy => h.reached y (hy.imp_right (List.mem_cons_of_mem x)), fun y hy => hkept y
        (h.roots y hy), fun y hy z hz => hkept z (h.closed y hy z hz)⟩
  · have hkept : ∀ y, y ∈ seen ∨ y ∈ x :: rest → y ∈ seen ++ [x] ∨ y ∈ (next x).reverse ++
      rest := by grind
    obtain ⟨root, hroot, hx⟩ := h.reached x (.inr List.mem_cons_self)
    refine ⟨fun y hy => ?_, fun y hy => hkept y (h.roots y hy), fun y hy z hz => ?_⟩
    · by_cases hnext : y ∈ next x
      · exact ⟨root, hroot, hx.tail hnext⟩
      · exact h.reached y (by grind)
    · obtain hy | hy := List.mem_append.mp hy
      · exact hkept z (h.closed y hy z hz)
      · obtain rfl := List.mem_singleton.mp hy
        exact .inr (List.mem_append_left _ (List.mem_reverse.mpr hz))

/-- The number of steps that can be left: one for each node on the stack, and one for each successor
of an unseen node. -/
def pending (next : α → List α) (nodes : List α) (w : Sweep α) : Nat :=
  w.stack.length + ((nodes.filter fun x => x ∉ w.seen).flatMap next).length

/-- Seeing a node takes it out of the unseen ones. -/
lemma perm_filter_unseen (hnodup : nodes.Nodup) {x : α} (hx : x ∈ nodes) {seen : List α}
    (hnew : x ∉ seen) :
    (nodes.filter fun y => y ∉ seen).Perm (x :: nodes.filter fun y => y ∉ seen ++ [x]) := by
  refine (List.perm_ext_iff_of_nodup (hnodup.filter _) ?_).mpr fun y => ?_
  · exact List.nodup_cons.mpr ⟨by simp, hnodup.filter _⟩
  · by_cases hy : y = x
    · simp [hy, hx, hnew]
    · simp [hy]

/-- Every step has one less to do. -/
lemma pending_step (next : α → List α) (hnodup : nodes.Nodup) (hstack : ∀ x ∈ w.stack, x ∈ nodes)
    (hmore : w.stack ≠ []) :
    (w.step next).pending next nodes + 1 = w.pending next nodes := by
  obtain ⟨seen, _ | ⟨x, rest⟩⟩ := w
  · exact absurd rfl hmore
  rw [step]
  split
  · simp only [pending, List.length_cons]
    omega
  · next hnew =>
      have hperm :=
        (perm_filter_unseen hnodup (hstack x List.mem_cons_self) hnew).flatMap_right next
      have hlength := hperm.length_eq
      simp only [List.flatMap_cons, List.length_append] at hlength
      simp only [pending, List.length_append, List.length_reverse, List.length_cons]
      omega

section Closed

variable (hnodup : nodes.Nodup) (hclosed : ∀ x ∈ nodes, ∀ y ∈ next x, y ∈ nodes)
    (hroots : ∀ x ∈ roots, x ∈ nodes)
include hnodup hclosed hroots

/-- The stack of a sound sweep is empty after the steps that are pending. -/
lemma Sound.iterate (n : Nat) (h : w.Sound next roots) (hn : w.pending next nodes ≤ n) :
    ((Sweep.step next)^[n] w).Sound next roots ∧ ((Sweep.step next)^[n] w).stack = [] := by
  induction n generalizing w with
  | zero =>
    have hlength : w.stack.length ≤ w.pending next nodes := Nat.le_add_right _ _
    exact ⟨h, List.eq_nil_of_length_eq_zero (Nat.le_zero.mp (Nat.le_trans hlength hn))⟩
  | succ n ih =>
    by_cases hempty : w.stack = []
    · have hfixed : w.step next = w := by
        obtain ⟨seen, stack⟩ := w
        obtain rfl : stack = [] := hempty
        rfl
      rw [Function.iterate_fixed hfixed]
      exact ⟨h, hempty⟩
    · have hstack : ∀ x ∈ w.stack, x ∈ nodes := by
        intro x hx
        obtain ⟨root, hroot, hreach⟩ := h.reached x (.inr hx)
        clear hx
        induction hreach with
        | refl => exact hroots root hroot
        | tail _ hstep ih => exact hclosed _ ih _ hstep
      have hless := pending_step next hnodup hstack hempty
      rw [Function.iterate_succ_apply]
      exact ih h.step (by omega)

/-- **A sweep ends with what its roots reach**, when it has taken the steps pending at the start. -/
theorem ends : ∃ seen, (step next)^[(start roots).pending next nodes] (start roots) = ⟨seen, []⟩ ∧
    ∀ x, x ∈ seen ↔ ∃ root ∈ roots, Reaches next root x := by
  obtain ⟨hsound, hempty⟩ :=
    (sound_start next roots).iterate hnodup hclosed hroots _ (Nat.le_refl _)
  generalize (step next)^[(start roots).pending next nodes] (start roots) = w at hsound hempty
  exact ⟨w.seen, by rw [← hempty], fun x => hsound.mem_seen_iff hempty⟩

end Closed

end Sweep

end ContractAudit.Search
