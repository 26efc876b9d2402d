import Mathlib.Data.List.Basic
import Mathlib.Data.List.Nodup
import Mathlib.Data.List.Perm.Basic
import Mathlib.Logic.Relation
import Mathlib.Tactic.SplitIfs
import ContractAudit.Search

/-!
Depth-first search finds what its root reaches: every node of the postorder is reached, and a search
whose fuel covers all nodes leaves every node that is.

* `Trail.Explores`: what a finished piece of a search adds to a trail. Every node entered meanwhile
  has been left again, and all its successors have been entered. Pieces compose (`Explores.trans`).
* `visit_explores`: a search from a node explores its trail and enters the node, once the fuel
  covers the nodes not entered yet.
* `mem_postorder`: the postorder of a search lists every node that the root reaches.
* `reaches_of_mem_postorder`: it lists no others, whatever the fuel.
* `nodup_postorder`: it lists none of them twice.
* `mem_preorder_iff`: the preorder of a search from several roots lists what they reach, each node
  once (`nodup_preorder`) and a single root first (`exists_preorder_eq_cons`).
-/

namespace ContractAudit.Search

variable {α : Type} {a b : Trail α} {x : α}

/-- Whether `y` can be reached from `x` by any number of steps to a successor. -/
def Reaches (next : α → List α) : α → α → Prop := Relation.ReflTransGen fun a b => b ∈ next a

/-- A piece of a search that leads from one trail to another and is finished: nothing is forgotten,
and a node entered meanwhile has been left again, with all its successors entered. -/
structure Trail.Explores (next : α → List α) (before behind : Trail α) : Prop where
  entered : ∀ x ∈ before.entered, x ∈ behind.entered
  left : ∀ x ∈ before.left, x ∈ behind.left
  finished : ∀ x ∈ behind.entered, x ∉ before.entered →
    x ∈ behind.left ∧ ∀ y ∈ next x, y ∈ behind.entered

namespace Trail.Explores

variable {next : α → List α} {a b c : Trail α}

lemma refl (a : Trail α) : Explores next a a :=
  ⟨fun _ hx => hx, fun _ hx => hx, fun _ hx hx' => absurd hx hx'⟩

lemma trans (hab : Explores next a b) (hbc : Explores next b c) : Explores next a c := by
  refine ⟨fun x hx => hbc.entered x (hab.entered x hx), fun x hx => hbc.left x (hab.left x hx), ?_⟩
  intro x hx hxa
  by_cases hxb : x ∈ b.entered
  · obtain ⟨hleft, hnext⟩ := hab.finished x hxb hxa
    exact ⟨hbc.left x hleft, fun y hy => hbc.entered y (hnext y hy)⟩
  · exact hbc.finished x hx hxb

/-- A search that started with nothing entered has left everything it entered. -/
lemma mem_left (h : Explores next (Trail.start α) a) (hx : x ∈ a.entered) : x ∈ a.left :=
  (h.finished x hx (by simp [Trail.start])).1

/-- A search that started with nothing entered has entered whatever its nodes reach. -/
lemma mem_entered (h : Explores next (Trail.start α) a) {y : α} (hx : x ∈ a.entered)
    (hxy : Reaches next x y) : y ∈ a.entered := by
  induction hxy with
  | refl => exact hx
  | tail _ hstep ih => exact (h.finished _ ih (by simp [Trail.start])).2 _ hstep

end Trail.Explores

/-- A piece of a search adds to the nodes entered, each of them once. -/
structure Trail.Extends (before behind : Trail α) : Prop where
  entered : before.entered <+: behind.entered
  nodup : before.entered.Nodup → behind.entered.Nodup

lemma Trail.Extends.refl (trail : Trail α) : trail.Extends trail := ⟨List.prefix_refl _, id⟩

lemma Trail.Extends.trans {c : Trail α} (hab : a.Extends b) (hbc : b.Extends c) : a.Extends c :=
  ⟨hab.entered.trans hbc.entered, hbc.nodup ∘ hab.nodup⟩

lemma extends_open {trail : Trail α} (hx : x ∉ trail.entered) :
    trail.Extends { trail with entered := trail.entered ++ [x] } :=
  ⟨List.prefix_append .., fun h =>
    (List.perm_append_singleton x _).nodup_iff.mpr (List.nodup_cons.mpr ⟨hx, h⟩)⟩

variable [DecidableEq α] {next : α → List α} {nodes : List α} {fuel : Nat}

/-- The number of nodes that a search has not entered yet. -/
def unentered (nodes : List α) (trail : Trail α) : Nat :=
  (nodes.filter fun x => x ∉ trail.entered).length

/-- No node is entered again. -/
lemma unentered_sublist (nodes : List α) (h : ∀ x ∈ a.entered, x ∈ b.entered) :
    (nodes.filter fun x => x ∉ b.entered).Sublist (nodes.filter fun x => x ∉ a.entered) := by
  refine List.monotone_filter_right nodes fun x hx => ?_
  simp only [decide_eq_true_eq] at hx ⊢
  exact fun hxa => hx (h x hxa)

/-- When no node is left to enter, all have been entered. -/
lemma mem_entered_of_unentered {trail : Trail α} (h : unentered nodes trail = 0) (hx : x ∈ nodes) :
    x ∈ trail.entered := by
  by_contra hnew
  have hmem : x ∈ nodes.filter fun x => x ∉ trail.entered :=
    List.mem_filter.mpr ⟨hx, by simpa using hnew⟩
  rw [List.eq_nil_of_length_eq_zero h] at hmem
  cases hmem

/-- Entering a node leaves fewer nodes to enter. -/
lemma unentered_lt (h : ∀ x ∈ a.entered, x ∈ b.entered) (hx : x ∈ nodes) (hnew : x ∉ a.entered)
    (hb : x ∈ b.entered) : unentered nodes b < unentered nodes a := by
  have hsub := unentered_sublist nodes h
  refine Nat.lt_of_le_of_ne hsub.length_le fun heq => ?_
  have hmem : x ∈ nodes.filter fun x => x ∉ a.entered :=
    List.mem_filter.mpr ⟨hx, by simpa using hnew⟩
  rw [← hsub.eq_of_length heq] at hmem
  exact absurd hb (by simpa using (List.mem_filter.mp hmem).2)

/-- Several searches one after the other explore, if each of them does. -/
lemma foldl_explores
    (ih : ∀ x ∈ nodes, ∀ trail, unentered nodes trail ≤ fuel →
      trail.Explores next (visit next fuel x trail) ∧ x ∈ (visit next fuel x trail).entered) :
    ∀ xs : List α, (∀ x ∈ xs, x ∈ nodes) → ∀ trail, unentered nodes trail ≤ fuel →
      trail.Explores next (xs.foldl (fun trail x => visit next fuel x trail) trail) ∧
        ∀ x ∈ xs, x ∈ (xs.foldl (fun trail x => visit next fuel x trail) trail).entered := by
  intro xs
  induction xs with
  | nil => exact fun _ trail _ => ⟨.refl trail, by simp⟩
  | cons x rest ihxs =>
    intro hxs trail hfuel
    obtain ⟨hfirst, hx⟩ := ih x (hxs x (by simp)) trail hfuel
    have hless : unentered nodes (visit next fuel x trail) ≤ unentered nodes trail :=
      (unentered_sublist nodes hfirst.entered).length_le
    obtain ⟨hrest, hall⟩ := ihxs (fun y hy => hxs y (by simp [hy])) _ (Nat.le_trans hless hfuel)
    refine ⟨hfirst.trans hrest, fun y hy => ?_⟩
    rcases List.mem_cons.mp hy with rfl | hy
    · exact hrest.entered _ hx
    · exact hall y hy

/-- A search from a node explores its trail and enters the node, if the fuel covers the nodes not
entered yet. -/
lemma visit_explores (hclosed : ∀ x ∈ nodes, ∀ y ∈ next x, y ∈ nodes) :
    ∀ fuel, ∀ x ∈ nodes, ∀ trail, unentered nodes trail ≤ fuel →
      trail.Explores next (visit next fuel x trail) ∧ x ∈ (visit next fuel x trail).entered := by
  intro fuel
  induction fuel with
  | zero =>
    intro x hx trail hfuel
    rw [visit]
    exact ⟨.refl trail, mem_entered_of_unentered (Nat.le_zero.mp hfuel) hx⟩
  | succ fuel ih =>
    intro x hx trail hfuel
    by_cases hnew : x ∈ trail.entered
    · rw [visit, if_pos hnew]
      exact ⟨.refl trail, hnew⟩
    rw [visit, if_neg hnew]
    set opened : Trail α := { trail with entered := trail.entered ++ [x] } with hopened
    have hsub : ∀ y ∈ trail.entered, y ∈ opened.entered := fun y hy => by simp [hopened, hy]
    have hxo : x ∈ opened.entered := by simp [hopened]
    have hless := unentered_lt hsub hx hnew hxo
    obtain ⟨hin, hall⟩ := foldl_explores ih (next x) (hclosed x hx) opened (by omega)
    refine ⟨⟨fun y hy => hin.entered y (hsub y hy), fun y hy => ?_, fun y hy hyt => ?_⟩,
      hin.entered x hxo⟩
    · exact List.mem_append_left _ (hin.left y hy)
    · -- `x` itself is left last; every other node was entered for one of its successors
      by_cases hyx : y = x
      · subst hyx
        exact ⟨by simp, hall⟩
      · have hyo : y ∉ opened.entered := by simp [hopened, hyt, hyx]
        obtain ⟨hleft, hnext⟩ := hin.finished y hy hyo
        exact ⟨List.mem_append_left _ hleft, hnext⟩

/-- **The postorder is complete**: it lists every node that the root reaches, if the fuel covers all
nodes. -/
theorem mem_postorder (nodes : List α) (hclosed : ∀ x ∈ nodes, ∀ y ∈ next x, y ∈ nodes)
    (hfuel : nodes.length ≤ fuel) {root : α} (hroot : root ∈ nodes) (hx : Reaches next root x) :
    x ∈ postorder next fuel root := by
  have hstart : unentered nodes (Trail.start α) ≤ fuel :=
    Nat.le_trans (List.length_filter_le _ nodes) hfuel
  obtain ⟨hexp, hmem⟩ := visit_explores hclosed fuel root hroot _ hstart
  exact hexp.mem_left (hexp.mem_entered hmem hx)

/-- A search that starts inside a set which no step leaves stays there. -/
lemma visit_closed {P : α → Prop} (hP : ∀ x, P x → ∀ y ∈ next x, P y) :
    ∀ (fuel : Nat) (x : α), P x →
    ∀ trail : Trail α, (∀ y ∈ trail.left, P y) → ∀ y ∈ (visit next fuel x trail).left, P y := by
  intro fuel
  induction fuel with
  | zero => exact fun _ _ _ htrail => htrail
  | succ fuel ih =>
    intro x hx trail htrail y hy
    rw [visit] at hy
    split at hy
    · exact htrail y hy
    · rcases List.mem_append.mp hy with hy | hy
      · refine List.foldlRecOn (next x) _ (motive := fun trail => ∀ y ∈ trail.left, P y)
          (b := { trail with entered := trail.entered ++ [x] }) htrail ?_ y hy
        exact fun trail htrail z hz => ih z (hP x hx z hz) trail htrail
      · rwa [List.mem_singleton.mp hy]

/-- The postorder lists only nodes that the root reaches. -/
theorem reaches_of_mem_postorder {root : α} (h : x ∈ postorder next fuel root) :
    Reaches next root x :=
  visit_closed (fun _ hx _ hy => hx.tail hy) fuel root .refl (Trail.start α) (by simp [Trail.start])
    x h

/-- **The preorder is exact**: it lists the nodes that some root reaches, if the fuel covers all
nodes. -/
theorem mem_preorder_iff (nodes : List α) (hclosed : ∀ x ∈ nodes, ∀ y ∈ next x, y ∈ nodes)
    (hfuel : nodes.length ≤ fuel) {roots : List α} (hroots : ∀ x ∈ roots, x ∈ nodes) :
    x ∈ preorder next fuel roots ↔ ∃ root ∈ roots, Reaches next root x := by
  have hstart : unentered nodes (Trail.start α) ≤ fuel :=
    Nat.le_trans (List.length_filter_le _ nodes) hfuel
  obtain ⟨hexp, hall⟩ := foldl_explores (visit_explores hclosed fuel) roots hroots _ hstart
  constructor
  · intro hx
    refine List.foldlRecOn roots _ (b := Trail.start α)
      (motive := fun trail => ∀ y ∈ trail.left, ∃ root ∈ roots, Reaches next root y)
        (by simp [Trail.start])
      (fun trail htrail root hroot => ?_) x (hexp.mem_left hx)
    refine visit_closed ?_ fuel root ⟨root, hroot, .refl⟩ trail htrail
    rintro y ⟨root, hroot, hy⟩ z hz
    exact ⟨root, hroot, hy.tail hz⟩
  · rintro ⟨root, hroot, hx⟩
    exact hexp.mem_entered (hall root hroot) hx

/-! ### Each node once -/

/-- The nodes that have been left are distinct, and have been entered before. -/
structure Trail.Tidy (trail : Trail α) : Prop where
  nodup : trail.left.Nodup
  entered : ∀ x ∈ trail.left, x ∈ trail.entered

/-- A search keeps a trail tidy, and leaves no node that had been entered when it began. -/
lemma visit_tidy : ∀ (fuel : Nat) (x : α) {trail : Trail α}, trail.Tidy →
    (visit next fuel x trail).Tidy ∧ (∀ y ∈ trail.entered, y ∈ (visit next fuel x trail).entered) ∧
      ∀ y ∈ trail.entered, y ∈ (visit next fuel x trail).left → y ∈ trail.left := by
  intro fuel
  induction fuel with
  | zero => exact fun _ _ htidy => ⟨htidy, fun _ hy => hy, fun _ _ hy => hy⟩
  | succ fuel ih =>
    intro x trail htidy
    rw [visit]
    split_ifs with hx
    · exact ⟨htidy, fun _ hy => hy, fun _ _ hy => hy⟩
    set opened : Trail α := { trail with entered := trail.entered ++ [x] } with hopened
    have hsub : ∀ y ∈ trail.entered, y ∈ opened.entered := fun y hy => by simp [hopened, hy]
    have hxo : x ∈ opened.entered := by simp [hopened]
    have hinside := List.foldlRecOn (next x) (fun trail y => visit next fuel y trail)
      (motive := fun t : Trail α => t.Tidy ∧ (∀ y ∈ opened.entered, y ∈ t.entered) ∧
        ∀ y ∈ opened.entered, y ∈ t.left → y ∈ opened.left) (b := opened)
      ⟨⟨htidy.nodup, fun y hy => hsub y (htidy.entered y hy)⟩, fun _ hy => hy, fun _ _ hy => hy⟩
      fun t ⟨ht, hentered, hleft⟩ y _ => by
        obtain ⟨hvisit, hmore, hkept⟩ := ih y ht
        exact ⟨hvisit, fun z hz => hmore z (hentered z hz),
          fun z hz hzl => hleft z hz (hkept z (hentered z hz) hzl)⟩
    obtain ⟨htidy', hentered, hleft⟩ := hinside
    have hxleft : ∀ y ∈ trail.left, y ≠ x := fun y hy heq => hx (heq ▸ htidy.entered y hy)
    refine ⟨⟨?_, ?_⟩, fun y hy => hentered y (hsub y hy), ?_⟩
    · refine List.nodup_append.mpr ⟨htidy'.nodup, List.nodup_singleton x, ?_⟩
      intro y hy z hz heq
      obtain rfl := List.mem_singleton.mp hz
      subst heq
      exact hxleft y (hleft y hxo hy) rfl
    · intro y hy
      rcases List.mem_append.mp hy with hy | hy
      · exact htidy'.entered y hy
      · rw [List.mem_singleton.mp hy]
        exact hentered x hxo
    · intro y hy hyl
      rcases List.mem_append.mp hyl with hyl | hyl
      · exact hleft y (hsub y hy) hyl
      · exact absurd (List.mem_singleton.mp hyl ▸ hy) hx

/-- The postorder lists no node twice. -/
theorem nodup_postorder (fuel : Nat) (root : α) : (postorder next fuel root).Nodup :=
  (visit_tidy fuel root ⟨List.nodup_nil, by simp [Trail.start]⟩).1.nodup

/-! ### The order of entering -/

lemma foldl_extends (h : ∀ x (trail : Trail α), trail.Extends (visit next fuel x trail))
    (xs : List α) (trail : Trail α) :
    trail.Extends (xs.foldl (fun trail x => visit next fuel x trail) trail) :=
  List.foldlRecOn xs _ (motive := trail.Extends) (.refl trail) fun _ ht x _ => ht.trans (h x _)

lemma visit_extends : ∀ (fuel : Nat) (x : α) (trail : Trail α), trail.Extends
    (visit next fuel x trail) := by
  intro fuel
  induction fuel with
  | zero => exact fun _ trail => .refl trail
  | succ fuel ih =>
    intro x trail
    rw [visit]
    split_ifs with hx
    · exact .refl trail
    · have hinside := (extends_open hx).trans (foldl_extends ih (next x) _)
      exact ⟨hinside.entered, hinside.nodup⟩

/-- The preorder lists no node twice. -/
theorem nodup_preorder (fuel : Nat) (roots : List α) : (preorder next fuel roots).Nodup :=
  (foldl_extends (visit_extends fuel) roots (Trail.start α)).nodup List.nodup_nil

/-- The preorder of a search from one root begins with it. -/
theorem exists_preorder_eq_cons (next : α → List α) (fuel : Nat) (root : α) :
    ∃ rest, preorder next (fuel + 1) [root] = root :: rest := by
  have hvisit : ∀ (x : α) (trail : Trail α), trail.Extends (visit next fuel x trail) :=
    visit_extends fuel
  have hinside := foldl_extends hvisit (next root) ⟨[root], []⟩
  obtain ⟨rest, hrest⟩ := hinside.entered
  refine ⟨rest, Eq.trans ?_ hrest.symm⟩
  simp [preorder, visit, Trail.start]

end ContractAudit.Search
