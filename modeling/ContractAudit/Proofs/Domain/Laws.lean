import Mathlib.Data.Set.Image
import ContractAudit.Domain.Lattice

/-!
The laws of lattices of facts.

`Lawful` collects what a lattice promises, up to `equal`. The order is then transitive
(`leq_trans`), and a join is the least fact above both of its parts (`leq_join_left`,
`leq_join_right`, `join_leq`). Sets and flat values satisfy the laws (`powerset_lawful`,
`flat_lawful`), and so do pairs whose parts do (`product_lawful`).

`IsJoin` is the join of any number of facts. In sets it is the union, in pairs it is taken in both
parts, and of flat values it is the one value that all have, or top.
-/

namespace ContractAudit.Domain

variable {L : Type}

/-- The laws of a lattice. Facts are compared by `equal`, which joins respect; joining is
idempotent, commutative and associative; nothing is below bottom; and a fact is below another when
joining it changes nothing. -/
structure FactLattice.Lawful (l : FactLattice L) : Prop where
  equal_refl : ∀ a, l.equal a a = true
  equal_symm : ∀ a b, l.equal a b = true → l.equal b a = true
  equal_trans : ∀ a b c, l.equal a b = true → l.equal b c = true → l.equal a c = true
  join_congr : ∀ a b c d, l.equal a b = true → l.equal c d = true →
    l.equal (l.join a c) (l.join b d) = true
  join_self : ∀ a, l.equal (l.join a a) a = true
  join_comm : ∀ a b, l.equal (l.join a b) (l.join b a) = true
  join_assoc : ∀ a b c, l.equal (l.join a (l.join b c)) (l.join (l.join a b) c) = true
  bottom_leq : ∀ a, l.leq l.bottom a = true
  leq_iff : ∀ a b, l.leq a b = true ↔ l.equal (l.join a b) b = true

namespace FactLattice.Lawful

variable {l : FactLattice L} (hl : l.Lawful) {a b c : L}

include hl

lemma leq_trans (hab : l.leq a b = true) (hbc : l.leq b c = true) : l.leq a c = true := by
  rw [hl.leq_iff] at *
  -- `a ∨ c ≈ a ∨ (b ∨ c) ≈ (a ∨ b) ∨ c ≈ b ∨ c ≈ c`
  have hout := hl.join_congr _ _ _ _ (hl.equal_refl a) (hl.equal_symm _ _ hbc)
  have hin := hl.join_congr _ _ _ _ hab (hl.equal_refl c)
  exact hl.equal_trans _ _ _ hout
    (hl.equal_trans _ _ _ (hl.join_assoc a b c) (hl.equal_trans _ _ _ hin hbc))

lemma leq_of_equal (h : l.equal a b = true) : l.leq a b = true := by
  rw [hl.leq_iff]
  exact hl.equal_trans _ _ _ (hl.join_congr _ _ _ _ h (hl.equal_refl b)) (hl.join_self b)

lemma leq_refl (a : L) : l.leq a a = true := hl.leq_of_equal (hl.equal_refl a)

lemma leq_join_left (a b : L) : l.leq a (l.join a b) = true := by
  rw [hl.leq_iff]
  -- `a ∨ (a ∨ b) ≈ (a ∨ a) ∨ b ≈ a ∨ b`
  have hin := hl.join_congr _ _ _ _ (hl.join_self a) (hl.equal_refl b)
  exact hl.equal_trans _ _ _ (hl.join_assoc a a b) hin

lemma leq_join_right (a b : L) : l.leq b (l.join a b) = true :=
  hl.leq_trans (hl.leq_join_left b a) (hl.leq_of_equal (hl.join_comm b a))

/-- A join is the least fact above its parts. -/
lemma join_leq (ha : l.leq a c = true) (hb : l.leq b c = true) : l.leq (l.join a b) c = true := by
  rw [hl.leq_iff] at *
  -- `(a ∨ b) ∨ c ≈ a ∨ (b ∨ c) ≈ a ∨ c ≈ c`
  have hin := hl.join_congr _ _ _ _ (hl.equal_refl a) hb
  exact hl.equal_trans _ _ _ (hl.equal_symm _ _ (hl.join_assoc a b c))
    (hl.equal_trans _ _ _ hin ha)

end FactLattice.Lawful

lemma mem_powerset_join {α : Type} [DecidableEq α] {s t : FinSet α} {x : α} :
    x ∈ (powerset α).join s t ↔ x ∈ s ∨ x ∈ t :=
  FinSet.mem_union

/-- Sets under inclusion satisfy the laws. -/
theorem powerset_lawful (α : Type) [DecidableEq α] : (powerset α).Lawful where
  equal_refl _ := powerset_equal_iff.mpr fun _ => Iff.rfl
  equal_symm _ _ h := powerset_equal_iff.mpr fun x => (powerset_equal_iff.mp h x).symm
  equal_trans _ _ _ h h' :=
    powerset_equal_iff.mpr fun x => (powerset_equal_iff.mp h x).trans (powerset_equal_iff.mp h' x)
  join_congr _ _ _ _ h h' := by
    rw [powerset_equal_iff] at h h' ⊢
    exact fun x => mem_powerset_join.trans ((or_congr (h x) (h' x)).trans mem_powerset_join.symm)
  join_self _ := powerset_equal_iff.mpr fun _ => mem_powerset_join.trans or_self_iff
  join_comm _ _ := powerset_equal_iff.mpr fun x => by simp only [mem_powerset_join, or_comm]
  join_assoc _ _ _ := powerset_equal_iff.mpr fun x => by simp only [mem_powerset_join, or_assoc]
  bottom_leq s := (FinSet.subset_iff (t := s)).mpr fun x hx => absurd hx (FinSet.not_mem_empty x)
  leq_iff s t := by
    refine FinSet.subset_iff.trans (Iff.trans ?_ powerset_equal_iff.symm)
    simp only [mem_powerset_join]
    exact ⟨fun h x => ⟨fun hx => hx.elim (h x) id, .inr⟩, fun h x hx => (h x).mp (.inl hx)⟩

/-- Flat values satisfy the laws. -/
theorem flat_lawful (α : Type) [DecidableEq α] : (flat α).Lawful where
  equal_refl _ := decide_eq_true rfl
  equal_symm _ _ h := decide_eq_true (of_decide_eq_true h).symm
  equal_trans _ _ _ h h' := decide_eq_true ((of_decide_eq_true h).trans (of_decide_eq_true h'))
  join_congr _ _ _ _ h h' := by
    obtain rfl := of_decide_eq_true h
    obtain rfl := of_decide_eq_true h'
    exact decide_eq_true rfl
  join_self a := decide_eq_true (show a.join a = a by cases a <;> simp [Flat.join])
  join_comm a b := decide_eq_true (show a.join b = b.join a by
    cases a <;> cases b <;> grind [Flat.join])
  join_assoc a b c := decide_eq_true (show a.join (b.join c) = (a.join b).join c by
    cases a <;> cases b <;> cases c <;> grind [Flat.join])
  bottom_leq _ := rfl
  leq_iff a b := by
    show a.leq b = true ↔ decide (a.join b = b) = true
    cases a <;> cases b <;> grind [Flat.join, Flat.leq]

lemma flat_value_leq_iff {α : Type} [DecidableEq α] {v : α} {x : Flat α} :
    (flat α).leq (.value v) x = true ↔ x = .value v ∨ x = .top := by
  show Flat.leq (.value v) x = true ↔ _
  cases x <;> simp [Flat.leq, eq_comm]

lemma flat_leq_value_iff {α : Type} [DecidableEq α] {v : α} {x : Flat α} :
    (flat α).leq x (.value v) = true ↔ x = .bottom ∨ x = .value v := by
  show Flat.leq x (.value v) = true ↔ _
  cases x <;> simp [Flat.leq]

/-- Two lattices side by side satisfy the laws if both do. -/
theorem product_lawful {M : Type} {l : FactLattice L} {m : FactLattice M} (hl : l.Lawful)
    (hm : m.Lawful) : (product l m).Lawful where
  equal_refl a := Bool.and_eq_true_iff.mpr ⟨hl.equal_refl a.1, hm.equal_refl a.2⟩
  equal_symm a b h := by
    obtain ⟨h₁, h₂⟩ := Bool.and_eq_true_iff.mp h
    exact Bool.and_eq_true_iff.mpr ⟨hl.equal_symm _ _ h₁, hm.equal_symm _ _ h₂⟩
  equal_trans a b c h h' := by
    obtain ⟨h₁, h₂⟩ := Bool.and_eq_true_iff.mp h
    obtain ⟨h₁', h₂'⟩ := Bool.and_eq_true_iff.mp h'
    exact Bool.and_eq_true_iff.mpr ⟨hl.equal_trans _ _ _ h₁ h₁', hm.equal_trans _ _ _ h₂ h₂'⟩
  join_congr a b c d h h' := by
    obtain ⟨h₁, h₂⟩ := Bool.and_eq_true_iff.mp h
    obtain ⟨h₁', h₂'⟩ := Bool.and_eq_true_iff.mp h'
    exact Bool.and_eq_true_iff.mpr
      ⟨hl.join_congr _ _ _ _ h₁ h₁', hm.join_congr _ _ _ _ h₂ h₂'⟩
  join_self a := Bool.and_eq_true_iff.mpr ⟨hl.join_self a.1, hm.join_self a.2⟩
  join_comm a b := Bool.and_eq_true_iff.mpr ⟨hl.join_comm a.1 b.1, hm.join_comm a.2 b.2⟩
  join_assoc a b c :=
    Bool.and_eq_true_iff.mpr ⟨hl.join_assoc a.1 b.1 c.1, hm.join_assoc a.2 b.2 c.2⟩
  bottom_leq a := Bool.and_eq_true_iff.mpr ⟨hl.bottom_leq a.1, hm.bottom_leq a.2⟩
  leq_iff a b := by
    show (l.leq a.1 b.1 && m.leq a.2 b.2) = true ↔
      (l.equal (l.join a.1 b.1) b.1 && m.equal (m.join a.2 b.2) b.2) = true
    rw [Bool.and_eq_true, Bool.and_eq_true, hl.leq_iff, hm.leq_iff]

/-! ### Joins of any number of facts -/

/-- A fact is the join of facts: the least one above them all. -/
structure FactLattice.IsJoin (l : FactLattice L) (facts : Set L) (fact : L) : Prop where
  above : ∀ x ∈ facts, l.leq x fact = true
  least : ∀ bound, (∀ x ∈ facts, l.leq x bound = true) → l.leq fact bound = true

namespace FactLattice.IsJoin

/-- A join of sets is their union. -/
lemma mem_iff {α : Type} [DecidableEq α] {facts : Set (FinSet α)} {fact : FinSet α}
    (h : (powerset α).IsJoin facts fact) {x : α} : x ∈ fact ↔ ∃ s ∈ facts, x ∈ s := by
  constructor
  · intro hx
    by_contra hnone
    -- otherwise the set without `x` is above all of them too
    have hless := h.least (fact.eraseAll [x]) fun s hs => FinSet.subset_iff.mpr fun y hy => by
      refine FinSet.mem_eraseAll.mpr ⟨FinSet.subset_iff.mp (h.above s hs) y hy, fun heq => ?_⟩
      rw [List.mem_singleton.mp heq] at hy
      exact hnone ⟨s, hs, hy⟩
    exact (FinSet.mem_eraseAll.mp (FinSet.subset_iff.mp hless x hx)).2 (List.mem_singleton.mpr rfl)
  · rintro ⟨s, hs, hx⟩
    exact FinSet.subset_iff.mp (h.above s hs) x hx

section Pairs

variable {L M : Type} {l : FactLattice L} {m : FactLattice M} {facts : Set (L × M)} {fact : L × M}

lemma fst (h : (product l m).IsJoin facts fact) : l.IsJoin (Prod.fst '' facts) fact.1 where
  above := by
    rintro _ ⟨x, hx, rfl⟩
    exact (Bool.and_eq_true_iff.mp (h.above x hx)).1
  least bound hbound := by
    refine (Bool.and_eq_true_iff.mp (h.least (bound, fact.2) fun x hx => ?_)).1
    exact Bool.and_eq_true_iff.mpr
      ⟨hbound _ ⟨x, hx, rfl⟩, (Bool.and_eq_true_iff.mp (h.above x hx)).2⟩

lemma snd (h : (product l m).IsJoin facts fact) : m.IsJoin (Prod.snd '' facts) fact.2 where
  above := by
    rintro _ ⟨x, hx, rfl⟩
    exact (Bool.and_eq_true_iff.mp (h.above x hx)).2
  least bound hbound := by
    refine (Bool.and_eq_true_iff.mp (h.least (fact.1, bound) fun x hx => ?_)).2
    exact Bool.and_eq_true_iff.mpr
      ⟨(Bool.and_eq_true_iff.mp (h.above x hx)).1, hbound _ ⟨x, hx, rfl⟩⟩

end Pairs

section Values

variable {α : Type} [DecidableEq α] {values : Set α} {fact : Flat α}

variable (h : (flat α).IsJoin (Flat.value '' values) fact) (hne : values.Nonempty)
include h hne

/-- A join of values is a value if it is the only one. -/
lemma eq_value_iff {v : α} : fact = .value v ↔ ∀ w ∈ values, w = v := by
  constructor
  · rintro rfl w hw
    simpa [eq_comm] using flat_value_leq_iff.mp (h.above _ ⟨w, hw, rfl⟩)
  · intro hall
    obtain ⟨w, hw⟩ := hne
    have hle := flat_leq_value_iff.mp (h.least (.value v) (by
      rintro _ ⟨x, hx, rfl⟩
      rw [hall x hx]
      exact (flat_lawful α).leq_refl _))
    rcases flat_value_leq_iff.mp (h.above _ ⟨w, hw, rfl⟩) with heq | heq
    · rw [heq, hall w hw]
    · simp [heq] at hle

/-- A join of values is top if there are several. -/
lemma eq_top_iff : fact = .top ↔ ∃ v ∈ values, ∃ w ∈ values, w ≠ v := by
  obtain ⟨v, hv⟩ := hne
  constructor
  · rintro rfl
    by_contra hone
    simp only [ne_eq, not_exists, not_and, not_not] at hone
    have heq := (h.eq_value_iff ⟨v, hv⟩).mpr (hone v hv)
    contradiction
  · rintro ⟨v, hv, w, hw, hne⟩
    rcases flat_value_leq_iff.mp (h.above _ ⟨v, hv, rfl⟩) with heq | heq
    · exact absurd ((h.eq_value_iff ⟨v, hv⟩).mp heq w hw) hne
    · exact heq

end Values

end FactLattice.IsJoin

end ContractAudit.Domain
