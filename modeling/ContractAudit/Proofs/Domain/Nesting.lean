import ContractAudit.Proofs.Domain.Laws

/-!
Lattices of facts built from others.

* `FactLattice.ByOrder`: the operations of a lattice are what its order says: equal facts are below
  each other, a join is below what both parts are below, and a meet is above what is below both
  parts. This is the form in which tables inherit the laws from their values (`pointwise_byOrder`),
  since a table is below another key by key (`leqTables_iff`).
* `FactLattice.LatticeLaws`: the laws in full. They follow from the order (`ByOrder.latticeLaws`).
* `Nested`: the lattices built from sets and flat values by tables and pairs, to any depth. Every
  shape is one (`Shape.nested`), and all of them satisfy the laws (`nested_latticeLaws`).
-/

namespace ContractAudit.Domain

variable {L M : Type} {l : FactLattice L}

/-! ### Laws from the order -/

/-- The operations of a lattice are what its order says. -/
structure FactLattice.ByOrder (l : FactLattice L) : Prop where
  equal_iff : ∀ a b, l.equal a b = true ↔ l.leq a b = true ∧ l.leq b a = true
  leq_refl : ∀ a, l.leq a a = true
  leq_trans : ∀ a b c, l.leq a b = true → l.leq b c = true → l.leq a c = true
  bottom_leq : ∀ a, l.leq l.bottom a = true
  join_leq_iff : ∀ a b c, l.leq (l.join a b) c = true ↔ l.leq a c = true ∧ l.leq b c = true
  leq_meet_iff : ∀ a b c, l.leq c (l.meet a b) = true ↔ l.leq c a = true ∧ l.leq c b = true
  leq_top : ∀ t, l.top = .ok t → ∀ a, l.leq a t = true

/-- The laws of a lattice in full: besides those of joins, that the order is one up to `equal`, that
joins and meets are the least fact above and the greatest fact below both of their parts, and that a
top is above everything if there is one. -/
structure FactLattice.LatticeLaws (l : FactLattice L) : Prop extends l.Lawful where
  leq_refl : ∀ a, l.leq a a = true
  leq_trans : ∀ a b c, l.leq a b = true → l.leq b c = true → l.leq a c = true
  leq_antisymm : ∀ a b, l.leq a b = true → l.leq b a = true → l.equal a b = true
  leq_of_equal : ∀ a b, l.equal a b = true → l.leq a b = true
  leq_join_left : ∀ a b, l.leq a (l.join a b) = true
  leq_join_right : ∀ a b, l.leq b (l.join a b) = true
  join_leq : ∀ a b c, l.leq a c = true → l.leq b c = true → l.leq (l.join a b) c = true
  meet_comm : ∀ a b, l.equal (l.meet a b) (l.meet b a) = true
  meet_leq_left : ∀ a b, l.leq (l.meet a b) a = true
  meet_leq_right : ∀ a b, l.leq (l.meet a b) b = true
  leq_meet : ∀ a b c, l.leq c a = true → l.leq c b = true → l.leq c (l.meet a b) = true
  leq_top : ∀ t, l.top = .ok t → ∀ a, l.leq a t = true

namespace FactLattice.ByOrder

variable {l : FactLattice L} (h : l.ByOrder) {a b : L}

include h

lemma leq_join (a b : L) : l.leq a (l.join a b) = true ∧ l.leq b (l.join a b) = true :=
  (h.join_leq_iff a b _).mp (h.leq_refl _)

lemma meet_leq (a b : L) : l.leq (l.meet a b) a = true ∧ l.leq (l.meet a b) b = true :=
  (h.leq_meet_iff a b _).mp (h.leq_refl _)

/-- Facts with the same facts above them are equal. -/
lemma equal_of_above (hab : ∀ c, l.leq a c = true ↔ l.leq b c = true) : l.equal a b = true :=
  (h.equal_iff a b).mpr ⟨(hab b).mpr (h.leq_refl b), (hab a).mp (h.leq_refl a)⟩

/-- Facts with the same facts below them are equal. -/
lemma equal_of_below (hab : ∀ c, l.leq c a = true ↔ l.leq c b = true) : l.equal a b = true :=
  (h.equal_iff a b).mpr ⟨(hab a).mp (h.leq_refl a), (hab b).mpr (h.leq_refl b)⟩

/-- Equal facts have the same facts above them. -/
lemma leq_congr (hab : l.equal a b = true) (c : L) : l.leq a c = true ↔ l.leq b c = true := by
  obtain ⟨hle, hge⟩ := (h.equal_iff a b).mp hab
  exact ⟨h.leq_trans b a c hge, h.leq_trans a b c hle⟩

/-- What follows for joins. -/
lemma lawful : l.Lawful where
  equal_refl a := h.equal_of_above fun _ => Iff.rfl
  equal_symm a b hab := h.equal_of_above fun c => (h.leq_congr hab c).symm
  equal_trans a b c hab hbc :=
    h.equal_of_above fun d => (h.leq_congr hab d).trans (h.leq_congr hbc d)
  join_congr a b c d hab hcd := h.equal_of_above fun e => by
    rw [h.join_leq_iff, h.join_leq_iff, h.leq_congr hab, h.leq_congr hcd]
  join_self a := h.equal_of_above fun c => by rw [h.join_leq_iff, and_self]
  join_comm a b := h.equal_of_above fun c => by rw [h.join_leq_iff, h.join_leq_iff, and_comm]
  join_assoc a b c := h.equal_of_above fun d => by simp only [h.join_leq_iff, and_assoc]
  bottom_leq := h.bottom_leq
  leq_iff a b := by
    constructor
    · intro hab
      refine h.equal_of_above fun c => ?_
      rw [h.join_leq_iff]
      exact ⟨And.right, fun hbc => ⟨h.leq_trans a b c hab hbc, hbc⟩⟩
    · intro hjoin
      have hle : l.leq (l.join a b) b = true := (h.leq_congr hjoin b).mpr (h.leq_refl b)
      exact ((h.join_leq_iff a b b).mp hle).1

/-- The laws in full. -/
lemma latticeLaws : l.LatticeLaws where
  toLawful := h.lawful
  leq_refl := h.leq_refl
  leq_trans := h.leq_trans
  leq_antisymm a b hab hba := (h.equal_iff a b).mpr ⟨hab, hba⟩
  leq_of_equal a b hab := ((h.equal_iff a b).mp hab).1
  leq_join_left a b := (h.leq_join a b).1
  leq_join_right a b := (h.leq_join a b).2
  join_leq a b c ha hb := (h.join_leq_iff a b c).mpr ⟨ha, hb⟩
  meet_comm a b := h.equal_of_below fun c => by rw [h.leq_meet_iff, h.leq_meet_iff, and_comm]
  meet_leq_left a b := (h.meet_leq a b).1
  meet_leq_right a b := (h.meet_leq a b).2
  leq_meet a b c ha hb := (h.leq_meet_iff a b c).mpr ⟨ha, hb⟩
  leq_top := h.leq_top

end FactLattice.ByOrder

/-! ### Sets and flat values -/

/-- Sets are ordered by inclusion. -/
lemma powerset_byOrder (α : Type) [DecidableEq α] : (powerset α).ByOrder where
  equal_iff s t := by
    show s.equal t = true ↔ s.subset t = true ∧ t.subset s = true
    rw [FinSet.equal_iff, FinSet.subset_iff, FinSet.subset_iff, ← forall_and]
    exact forall_congr' fun _ => iff_iff_implies_and_implies
  leq_refl _ := FinSet.subset_iff.mpr fun _ hx => hx
  leq_trans _ _ _ h h' :=
    FinSet.subset_iff.mpr fun x hx => FinSet.subset_iff.mp h' x (FinSet.subset_iff.mp h x hx)
  bottom_leq := (powerset_lawful α).bottom_leq
  join_leq_iff s t u := by
    show (s.union t).subset u = true ↔ s.subset u = true ∧ t.subset u = true
    simp only [FinSet.subset_iff, FinSet.mem_union, or_imp, forall_and]
  leq_meet_iff s t u := by
    show u.subset (s.inter t) = true ↔ u.subset s = true ∧ u.subset t = true
    simp only [FinSet.subset_iff, FinSet.mem_inter, imp_and, forall_and]
  leq_top _ h := by cases h

/-- Flat values are ordered with nothing between bottom and top but themselves. -/
lemma flat_byOrder (α : Type) [DecidableEq α] : (flat α).ByOrder where
  equal_iff a b := by
    show decide (a = b) = true ↔ a.leq b = true ∧ b.leq a = true
    cases a <;> cases b <;> simp [Flat.leq, eq_comm]
  leq_refl := (flat_lawful α).leq_refl
  leq_trans _ _ _ := (flat_lawful α).leq_trans
  bottom_leq := (flat_lawful α).bottom_leq
  join_leq_iff a b c := by
    show (a.join b).leq c = true ↔ a.leq c = true ∧ b.leq c = true
    cases a <;> cases b <;> cases c <;> grind [Flat.join, Flat.leq]
  leq_meet_iff a b c := by
    show c.leq (a.meet b) = true ↔ c.leq a = true ∧ c.leq b = true
    cases a <;> cases b <;> cases c <;> grind [Flat.meet, Flat.leq]
  leq_top t h a := by
    obtain rfl : Flat.top = t := Except.ok.inj h
    show a.leq .top = true
    cases a <;> rfl

/-! ### Tables -/

section Tables

variable {κ : Type} [DecidableEq κ] {l : FactLattice L} {a b c : Table κ L}

/-- A table is below another if the other has a value above its own for every key that it has. -/
lemma leqTables_iff :
    leqTables l a b = true ↔
      ∀ key v, a.get? key = some v → ∃ w, b.get? key = some w ∧ l.leq v w = true :=
  allKeys_iff

/-- A meet has the keys that both tables have. -/
lemma get?_meetTables (key : κ) :
    (meetTables l a b).get? key = (a.get? key).bind fun v => (b.get? key).map (l.meet v) := by
  have hfold :=
    Table.get?_foldl_entries (fun e _ => (b.get? e.1).map (l.meet e.2)) a.distinct .empty key
  rw [meetTables, hfold, ← Table.get?]
  cases a.get? key with
  | none => rfl
  | some v => exact Option.or_none ..

end Tables

/-- Tables are ordered key by key, where a key that is missing is below every value. -/
lemma pointwise_byOrder (κ : Type) [DecidableEq κ] (h : l.ByOrder) : (pointwise κ l).ByOrder where
  equal_iff a b := by
    show equalTables l a b = true ↔ leqTables l a b = true ∧ leqTables l b a = true
    rw [equalTables_iff, leqTables_iff, leqTables_iff, ← forall_and]
    refine forall_congr' fun key => ?_
    cases a.get? key <;> cases b.get? key <;> simp [h.equal_iff]
  leq_refl a := leqTables_iff.mpr fun key v hv => ⟨v, hv, h.leq_refl v⟩
  leq_trans a b c hab hbc := by
    refine leqTables_iff.mpr fun key v hv => ?_
    obtain ⟨w, hw, hvw⟩ := leqTables_iff.mp hab key v hv
    obtain ⟨x, hx, hwx⟩ := leqTables_iff.mp hbc key w hw
    exact ⟨x, hx, h.leq_trans v w x hvw hwx⟩
  bottom_leq _ := rfl
  join_leq_iff a b c := by
    show leqTables l (joinTables l a b) c = true ↔ leqTables l a c = true ∧ leqTables l b c = true
    rw [leqTables_iff, leqTables_iff, leqTables_iff, ← forall_and]
    refine forall_congr' fun key => ?_
    rw [get?_joinTables, joinedValue?]
    cases a.get? key <;> cases b.get? key <;> cases c.get? key <;> simp [h.join_leq_iff]
  leq_meet_iff a b c := by
    show leqTables l c (meetTables l a b) = true ↔ leqTables l c a = true ∧ leqTables l c b = true
    rw [leqTables_iff, leqTables_iff, leqTables_iff, ← forall_and]
    refine forall_congr' fun key => ?_
    rw [get?_meetTables]
    cases a.get? key <;> cases b.get? key <;> cases c.get? key <;> simp [h.leq_meet_iff]
  leq_top _ htop := by cases htop

/-! ### Pairs -/

/-- Pairs are ordered in both parts. -/
lemma product_byOrder {m : FactLattice M} (hl : l.ByOrder) (hm : m.ByOrder) :
    (product l m).ByOrder where
  equal_iff a b := by
    simp only [product, Bool.and_eq_true, hl.equal_iff, hm.equal_iff]
    exact and_and_and_comm
  leq_refl a := Bool.and_eq_true_iff.mpr ⟨hl.leq_refl a.1, hm.leq_refl a.2⟩
  leq_trans a b c hab hbc := by
    obtain ⟨h₁, h₂⟩ := Bool.and_eq_true_iff.mp hab
    obtain ⟨h₁', h₂'⟩ := Bool.and_eq_true_iff.mp hbc
    exact Bool.and_eq_true_iff.mpr ⟨hl.leq_trans _ _ _ h₁ h₁', hm.leq_trans _ _ _ h₂ h₂'⟩
  bottom_leq a := Bool.and_eq_true_iff.mpr ⟨hl.bottom_leq a.1, hm.bottom_leq a.2⟩
  join_leq_iff a b c := by
    simp only [product, Bool.and_eq_true, hl.join_leq_iff, hm.join_leq_iff]
    exact and_and_and_comm
  leq_meet_iff a b c := by
    simp only [product, Bool.and_eq_true, hl.leq_meet_iff, hm.leq_meet_iff]
    exact and_and_and_comm
  leq_top t htop a := by
    -- both parts have a top if the pair has one
    cases hfirst : l.top with
    | error e => simp [product, hfirst, bind, Except.bind] at htop
    | ok first =>
      cases hsecond : m.top with
      | error e => simp [product, hfirst, hsecond, bind, Except.bind] at htop
      | ok second =>
        simp only [product, hfirst, hsecond, bind, Except.bind, pure, Except.pure,
          Except.ok.injEq] at htop
        obtain rfl := htop
        exact Bool.and_eq_true_iff.mpr ⟨hl.leq_top first hfirst a.1, hm.leq_top second hsecond a.2⟩

/-! ### Every nesting -/

/-- The lattices that are built from sets and flat values, over any elements and keys, by tables and
pairs to any depth. -/
inductive Nested : {L : Type} → FactLattice L → Prop
  | powerset (α : Type) [DecidableEq α] : Nested (Domain.powerset α)
  | flat (α : Type) [DecidableEq α] : Nested (Domain.flat α)
  | pointwise (κ : Type) [DecidableEq κ] {L : Type} {l : FactLattice L} (h : Nested l) :
      Nested (Domain.pointwise κ l)
  | product {L M : Type} {l : FactLattice L} {m : FactLattice M} (hl : Nested l) (hm : Nested m) :
      Nested (Domain.product l m)

lemma Nested.byOrder (h : Nested l) : l.ByOrder := by
  induction h with
  | powerset α => exact powerset_byOrder α
  | flat α => exact flat_byOrder α
  | pointwise κ _ ih => exact pointwise_byOrder κ ih
  | product _ _ ihl ihm => exact product_byOrder ihl ihm

/-- The lattice of a shape is one of them. -/
lemma Shape.nested (s : Shape) : Nested s.lattice := by
  induction s with
  | powerset => exact .powerset Text
  | flat => exact .flat Text
  | pointwise _ ih => exact .pointwise Text ih
  | product _ _ ihfirst ihsecond => exact .product ihfirst ihsecond

/-- **Every nesting is a lattice.** Whatever is built from sets and flat values by tables and pairs
satisfies all laws, up to `equal`. -/
theorem nested_latticeLaws {L : Type} {l : FactLattice L} (h : Nested l) : l.LatticeLaws :=
  h.byOrder.latticeLaws

/-- Tables of pairs, each of a flat value and a table of sets. -/
def sampleShape : Shape := .pointwise (.product .flat (.pointwise .powerset))

/-- The laws hold for tables of pairs, although a key with a bottom value is more than no key. -/
theorem nested_latticeLaws_sample :
    Nested sampleShape.lattice ∧
      sampleShape.lattice.leq (.const ["x"] (.bottom, .empty)) sampleShape.lattice.bottom = false ∧
      sampleShape.lattice.LatticeLaws :=
  ⟨sampleShape.nested, rfl, nested_latticeLaws sampleShape.nested⟩

end ContractAudit.Domain
