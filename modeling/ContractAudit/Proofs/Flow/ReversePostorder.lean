import Mathlib.Data.List.Infix
import ContractAudit.Proofs.Flow.Metadata

/-!
The reverse postorder of a control-flow graph.

* `Precedes`: a node stands before another in a list.
* `Trail.Ordered`: in which order a piece of a search leaves its nodes. A successor of a node is
  left before the node, or leads back to it, or was open when the piece began. Pieces compose
  (`Ordered.trans`).
* `visit_ordered`: a search from a node leaves its nodes in such an order.
* `DepthFirst`: the orders that depth-first search can give. The postorder of a search is one of
  them in reverse (`depthFirst_postorder`).
* `withOrder_depthFirst`: so is the derived order of a graph, which is a topological order if no
  cycle can be entered.
-/

namespace ContractAudit.Search

variable {α : Type} {next : α → List α}

/-- Whether `x` stands before `y` in the list. -/
def Precedes (order : List α) (x y : α) : Prop := [x, y].Sublist order

lemma Precedes.mono {order longer : List α} {x y : α} (h : Precedes order x y)
    (hle : order <+: longer) : Precedes longer x y :=
  List.Sublist.trans h hle.sublist

lemma precedes_append_singleton {order : List α} {x : α} (h : x ∈ order) (y : α) :
    Precedes (order ++ [y]) x y :=
  (List.singleton_sublist.mpr h).append (.refl [y])

lemma precedes_reverse {order : List α} {x y : α} (h : Precedes order x y) :
    Precedes order.reverse y x :=
  List.Sublist.reverse h

instance [DecidableEq α] (order : List α) (x y : α) : Decidable (Precedes order x y) :=
  inferInstanceAs (Decidable ([x, y].Sublist order))

/-! ### The order of leaving -/

/-- A piece of a search that starts at the nodes `roots` leads from one trail to another. The nodes
that it leaves are reached from the roots, and each but the roots is left before a node it is a
successor of. Of their own successors, some have been entered and not left when the piece began; all
others are left earlier, or lead back. -/
structure Trail.Ordered (next : α → List α) (roots : List α) (before behind : Trail α) : Prop where
  left : before.left <+: behind.left
  reached : ∀ x ∈ behind.left, x ∉ before.left → ∃ r ∈ roots, Reaches next r x
  parent : ∀ x ∈ behind.left, x ∉ before.left →
    x ∈ roots ∨ ∃ p, x ∈ next p ∧ Precedes behind.left x p
  edge : ∀ x ∈ behind.left, x ∉ before.left → ∀ y ∈ next x,
    (y ∈ before.entered ∧ y ∉ before.left) ∨ Precedes behind.left y x ∨ Reaches next y x

namespace Trail.Ordered

variable {roots more : List α} {a b c : Trail α}

lemma refl (roots : List α) (a : Trail α) : Ordered next roots a a :=
  ⟨List.prefix_rfl, fun _ hx hx' => absurd hx hx', fun _ hx hx' => absurd hx hx',
    fun _ hx hx' => absurd hx hx'⟩

/-- Pieces one after the other, of which the first is finished. -/
lemma trans (hab : Ordered next roots a b) (hfinished : Explores next a b)
    (hbc : Ordered next more b c) : Ordered next (roots ++ more) a c where
  left := hab.left.trans hbc.left
  reached x hx hxa := by
    by_cases hxb : x ∈ b.left
    · obtain ⟨r, hr, hreach⟩ := hab.reached x hxb hxa
      exact ⟨r, List.mem_append_left _ hr, hreach⟩
    · obtain ⟨r, hr, hreach⟩ := hbc.reached x hx hxb
      exact ⟨r, List.mem_append_right _ hr, hreach⟩
  parent x hx hxa := by
    by_cases hxb : x ∈ b.left
    · refine (hab.parent x hxb hxa).imp (List.mem_append_left _) ?_
      rintro ⟨p, hp, hprecedes⟩
      exact ⟨p, hp, hprecedes.mono hbc.left⟩
    · exact (hbc.parent x hx hxb).imp_left (List.mem_append_right _)
  edge x hx hxa y hy := by
    by_cases hxb : x ∈ b.left
    · exact (hab.edge x hxb hxa y hy).imp_right fun h => h.imp_left (·.mono hbc.left)
    · -- what the second piece finds open the first one found open, since it is finished
      refine (hbc.edge x hx hxb y hy).imp_left fun ⟨hyb, hopen⟩ =>
        ⟨?_, fun h => hopen (hab.left.subset h)⟩
      by_contra hya
      exact hopen (hfinished.finished y hyb hya).1

end Trail.Ordered

variable [DecidableEq α] {nodes : List α}

/-- Several searches one after the other are ordered, if each of them is. -/
lemma foldl_ordered (hclosed : ∀ x ∈ nodes, ∀ y ∈ next x, y ∈ nodes) {fuel : Nat}
    (ih : ∀ x ∈ nodes, ∀ trail, unentered nodes trail ≤ fuel →
      trail.Ordered next [x] (visit next fuel x trail)) :
    ∀ xs : List α, (∀ x ∈ xs, x ∈ nodes) → ∀ trail, unentered nodes trail ≤ fuel →
      trail.Ordered next xs (xs.foldl (fun trail x => visit next fuel x trail) trail) := by
  intro xs
  induction xs with
  | nil => exact fun _ trail _ => .refl [] trail
  | cons x rest ihxs =>
    intro hxs trail hfuel
    obtain ⟨hexplores, -⟩ := visit_explores hclosed fuel x (hxs x (by simp)) trail hfuel
    have hless : unentered nodes (visit next fuel x trail) ≤ unentered nodes trail :=
      (unentered_sublist nodes hexplores.entered).length_le
    exact (ih x (hxs x (by simp)) trail hfuel).trans hexplores
      (ihxs (fun y hy => hxs y (by simp [hy])) _ (Nat.le_trans hless hfuel))

/-- A search from a node is ordered, if the fuel covers the nodes not entered yet. -/
lemma visit_ordered (hclosed : ∀ x ∈ nodes, ∀ y ∈ next x, y ∈ nodes) :
    ∀ fuel, ∀ x ∈ nodes, ∀ trail, unentered nodes trail ≤ fuel →
      trail.Ordered next [x] (visit next fuel x trail) := by
  intro fuel
  induction fuel with
  | zero => exact fun x _ trail _ => .refl [x] trail
  | succ fuel ih =>
    intro x hx trail hfuel
    by_cases hnew : x ∈ trail.entered
    · rw [visit, if_pos hnew]
      exact .refl [x] trail
    rw [visit, if_neg hnew]
    set opened : Trail α := { trail with entered := trail.entered ++ [x] } with hopened
    have hless : unentered nodes opened < unentered nodes trail :=
      unentered_lt (fun y hy => by simp [hopened, hy]) hx hnew (by simp [hopened])
    obtain ⟨hexplores, hall⟩ :=
      foldl_explores (visit_explores hclosed fuel) (next x) (hclosed x hx) opened
      (by omega)
    have hinside := foldl_ordered hclosed ih (next x) (hclosed x hx) opened (by omega)
    generalize (next x).foldl (fun trail y => visit next fuel y trail) opened = inside at *
    have hlonger : inside.left <+: inside.left ++ [x] := List.prefix_append ..
    have hreached : ∀ z ∈ inside.left, z ∉ trail.left → Reaches next x z := fun z hz hzt => by
      obtain ⟨r, hr, hreach⟩ := hinside.reached z hz hzt
      exact .head hr hreach
    refine ⟨hinside.left.trans hlonger, fun z hz hzt => ?_, fun z hz hzt => ?_,
      fun z hz hzt y hy => ?_⟩
    · rcases List.mem_append.mp hz with hz | hz
      · exact ⟨x, by simp, hreached z hz hzt⟩
      · exact ⟨x, by simp, List.mem_singleton.mp hz ▸ .refl⟩
    · rcases List.mem_append.mp hz with hz | hz
      · right
        rcases hinside.parent z hz hzt with hroot | ⟨p, hp, hprecedes⟩
        · exact ⟨x, hroot, precedes_append_singleton hz x⟩
        · exact ⟨p, hp, hprecedes.mono hlonger⟩
      · exact .inl hz
    · -- what is open inside is `x` or was open before
      have hopen : ∀ w, w ∈ opened.entered ∧ w ∉ opened.left →
          (w ∈ trail.entered ∧ w ∉ trail.left) ∨ w = x := by
        rintro w ⟨hw, hwl⟩
        rcases List.mem_append.mp hw with hw | hw
        · exact .inl ⟨hw, hwl⟩
        · exact .inr (List.mem_singleton.mp hw)
      rcases List.mem_append.mp hz with hz | hz
      · rcases hinside.edge z hz hzt y hy with hyopen | hprecedes | hback
        · refine (hopen y hyopen).imp_right fun hyx => .inr ?_
          exact hyx ▸ hreached z hz hzt
        · exact .inr (.inl (hprecedes.mono hlonger))
        · exact .inr (.inr hback)
      · obtain rfl := List.mem_singleton.mp hz
        by_cases hyleft : y ∈ inside.left
        · exact .inr (.inl (precedes_append_singleton hyleft z))
        · have hyopened : y ∈ opened.entered := by
            by_contra hyo
            exact hyleft (hexplores.finished y (hall y hy) hyo).1
          refine (hopen y ⟨hyopened, fun h => hyleft (hinside.left.subset h)⟩).imp_right fun hyz =>
            .inr ?_
          exact hyz ▸ .refl

/-! ### Reverse postorders -/

/-- An order of the nodes that depth-first search from a root can give, last left first. It lists
the nodes that the root reaches, each once and the root first. Each other node stands behind a node
that it is a successor of, and a successor that does not stand behind its node leads back to it. -/
structure DepthFirst (next : α → List α) (root : α) (order : List α) : Prop where
  mem_iff : ∀ x, x ∈ order ↔ Reaches next root x
  nodup : order.Nodup
  head : order.head? = some root
  parent : ∀ y ∈ order, y ≠ root → ∃ x, y ∈ next x ∧ Precedes order x y
  back : ∀ x ∈ order, ∀ y ∈ next x, ¬Precedes order x y → Reaches next y x

/-- The postorder of a search whose fuel covers all nodes is, in reverse, such an order. -/
theorem depthFirst_postorder (nodes : List α) (hclosed : ∀ x ∈ nodes, ∀ y ∈ next x, y ∈ nodes)
    {fuel : Nat} (hfuel : nodes.length ≤ fuel) {root : α} (hroot : root ∈ nodes) :
    DepthFirst next root (postorder next fuel root).reverse := by
  have hordered := visit_ordered hclosed fuel root hroot (Trail.start α)
    (Nat.le_trans (List.length_filter_le _ nodes) hfuel)
  refine ⟨fun x => ?_, List.nodup_reverse.mpr (nodup_postorder fuel root), ?_, fun y hy hne => ?_,
    fun x hx y hy hnot => ?_⟩
  · rw [List.mem_reverse]
    exact ⟨reaches_of_mem_postorder, mem_postorder nodes hclosed hfuel hroot⟩
  · obtain ⟨fuel, rfl⟩ := Nat.exists_eq_succ_of_ne_zero
      (Nat.ne_zero_of_lt (Nat.lt_of_lt_of_le (List.length_pos_of_mem hroot) hfuel))
    simp [postorder, visit, Trail.start]
  · rcases hordered.parent y (List.mem_reverse.mp hy) (by simp [Trail.start]) with hroot | ⟨p,
      hp, hprecedes⟩
    · exact absurd (List.mem_singleton.mp hroot) hne
    · exact ⟨p, hp, precedes_reverse hprecedes⟩
  · rcases hordered.edge x (List.mem_reverse.mp hx) (by simp [Trail.start]) y hy with
      ⟨hopen, -⟩ | hprecedes | hback
    · exact absurd hopen (by simp [Trail.start])
    · exact absurd (precedes_reverse hprecedes) hnot
    · exact hback

end ContractAudit.Search

namespace ContractAudit.Flow.Graph

variable {σ : Type}

/-- **The derived order of a graph is a depth-first order** of the blocks that the entry reaches,
all of which exist. If none of them lies on a cycle, it is a topological order: every block stands
before its successors. -/
theorem withOrder_depthFirst (g : Graph σ) (hentry : g.has g.entry = true) :
    (∀ id ∈ g.withOrder.order, g.has id = true) ∧
    Search.DepthFirst g.nexts g.entry g.withOrder.order ∧
    ((∀ u ∈ g.withOrder.order, ¬Relation.TransGen (fun a b => b ∈ g.nexts a) u u) →
      ∀ u ∈ g.withOrder.order, ∀ v ∈ g.nexts u, Search.Precedes g.withOrder.order u v) := by
  have horder : g.withOrder.order =
    (Search.postorder g.nexts (g.blocks.length + 1) g.entry).reverse := if_pos hentry
  have hdepth : Search.DepthFirst g.nexts g.entry g.withOrder.order := by
    rw [horder]
    refine Search.depthFirst_postorder g.ids (fun x _ y hy => ?_) ?_ (has_iff_mem_ids.mp hentry)
    · obtain ⟨_, _, _, hhas⟩ := mem_nexts.mp hy
      exact has_iff_mem_ids.mp hhas
    · rw [ids, List.length_map]
      omega
  refine ⟨fun id hid => Reachable.has ⟨hentry, (hdepth.mem_iff id).mp hid⟩, hdepth,
    fun hacyclic u hu v hv => ?_⟩
  by_contra hnot
  exact hacyclic u hu (.head' hv (hdepth.back u hu v hv hnot))

/-- A choice whose branches meet again, from where control may go back to one of them or to a block
that is missing. -/
def tangled : Graph Empty :=
  [Block.ofTerminator 0 [] (.branch "c" 1 2), .ofTerminator 1 [] (.jump 3), .ofTerminator 2
    [] (.jump 3), .ofTerminator 3 [] (.branch "d" 1 9)].foldl addBlock (.empty "f" 0)

/-- All blocks that are there are in the order. The edge from the last one back to an earlier one is
the only one against it. -/
theorem withOrder_depthFirst_tangled :
    tangled.has tangled.entry = true ∧ tangled.withOrder.order = [0, 2, 1, 3] ∧
      Search.DepthFirst tangled.nexts 0 [0, 2, 1, 3] ∧ tangled.nexts 3 = [1] ∧
      Search.Reaches tangled.nexts 1 3 := by
  have hentry : tangled.has tangled.entry = true := by decide
  have horder : tangled.withOrder.order = [0, 2, 1, 3] := by decide
  have hdepth : Search.DepthFirst tangled.nexts 0 [0, 2, 1, 3] :=
    horder ▸ (withOrder_depthFirst tangled hentry).2.1
  exact ⟨hentry, horder, hdepth, by decide, hdepth.back 3 (by decide) 1 (by decide) (by decide)⟩

end ContractAudit.Flow.Graph
