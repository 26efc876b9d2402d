/-!
Finite sets as lists of their elements.

Only membership counts. Elements are kept in the order in which they were first added, and none is
there twice, so that `size` counts them. Inclusion and intersection use the sizes: a larger set is
not below a smaller one, and the smaller of two sets is searched for elements of the other.

* `length_le_of_nodup` and `mem_of_length_le`: distinct elements of a list are no more than it is
  long, and all of it if they are as many.
* `subset_iff` and `mem_inter`: what inclusion and intersection mean, whatever the sizes are.
* `equal_iff`: sets of one size are equal if one is below the other.
-/

namespace ContractAudit

/-- A finite set. -/
structure FinSet (α : Type) where
  elems : List α
  nodup : elems.Nodup
deriving Repr, DecidableEq

namespace FinSet

variable {α : Type}

instance : Membership α (FinSet α) := ⟨fun s x => x ∈ s.elems⟩

/-- The set without elements. -/
def empty : FinSet α := ⟨[], .nil⟩

instance : Inhabited (FinSet α) := ⟨empty⟩

/-- The elements that satisfy `p`. -/
def filter (p : α → Bool) (s : FinSet α) : FinSet α :=
  ⟨s.elems.filter p, s.nodup.sublist List.filter_sublist⟩

/-- The number of elements. -/
def size (s : FinSet α) : Nat := s.elems.length

variable [DecidableEq α]

instance (x : α) (s : FinSet α) : Decidable (x ∈ s) := inferInstanceAs (Decidable (x ∈ s.elems))

/-- Whether `x` is an element. -/
def has (s : FinSet α) (x : α) : Bool := s.elems.contains x

omit [DecidableEq α] in
theorem nodup_snoc {s : FinSet α} {x : α} (h : x ∉ s) : (s.elems ++ [x]).Nodup := by
  refine List.nodup_append.mpr ⟨s.nodup, List.nodup_cons.mpr ⟨List.not_mem_nil, .nil⟩, ?_⟩
  intro y hy z hz heq
  rw [List.mem_singleton.mp hz] at heq
  exact h (heq ▸ hy)

/-- The set with one element more. -/
def insert (s : FinSet α) (x : α) : FinSet α :=
  if h : x ∈ s then s else ⟨s.elems ++ [x], nodup_snoc h⟩

/-- The set with the elements of a list added. -/
def insertAll (s : FinSet α) (xs : List α) : FinSet α := xs.foldl insert s

/-- The set with the elements of a list removed. -/
def eraseAll (s : FinSet α) (xs : List α) : FinSet α := s.filter fun x => !xs.contains x

/-- The set of the elements of a list. -/
def ofList (xs : List α) : FinSet α := empty.insertAll xs

/-- The elements of both sets together. -/
def union (s t : FinSet α) : FinSet α := s.insertAll t.elems

/-- The elements that both sets have, as they stand in the smaller one. -/
def inter (s t : FinSet α) : FinSet α :=
  if t.size < s.size then t.filter s.has else s.filter t.has

/-- Whether every element of `s` is one of `t`. -/
def subset (s t : FinSet α) : Bool :=
  if t.size < s.size then false else s.elems.all t.has

/-- Whether two sets have the same elements. -/
def equal (s t : FinSet α) : Bool := s.size == t.size && s.subset t

/-! ### Membership -/

omit [DecidableEq α] in
@[simp]
theorem not_mem_empty (x : α) : x ∉ (empty : FinSet α) := List.not_mem_nil

omit [DecidableEq α] in
theorem mem_filter {p : α → Bool} {s : FinSet α} {x : α} : x ∈ s.filter p ↔ x ∈ s ∧ p x = true :=
  List.mem_filter

@[simp]
theorem has_iff {s : FinSet α} {x : α} : s.has x = true ↔ x ∈ s := List.contains_iff_mem

@[simp]
theorem mem_insert {s : FinSet α} {x y : α} : y ∈ s.insert x ↔ y ∈ s ∨ y = x := by
  rw [insert]
  split
  · next h =>
      refine ⟨.inl, ?_⟩
      rintro (hy | rfl)
      · exact hy
      · exact h
  · exact List.mem_append.trans (or_congr_right List.mem_singleton)

@[simp]
theorem mem_insertAll {s : FinSet α} {xs : List α} {y : α} :
    y ∈ s.insertAll xs ↔ y ∈ s ∨ y ∈ xs := by
  rw [insertAll]
  induction xs generalizing s with
  | nil => simp
  | cons x rest ih => rw [List.foldl_cons, ih, mem_insert, List.mem_cons, or_assoc]

@[simp]
theorem mem_eraseAll {s : FinSet α} {xs : List α} {y : α} :
    y ∈ s.eraseAll xs ↔ y ∈ s ∧ y ∉ xs := by
  refine List.mem_filter.trans (and_congr_right fun _ => ?_)
  simp

@[simp]
theorem mem_union {s t : FinSet α} {y : α} : y ∈ s.union t ↔ y ∈ s ∨ y ∈ t := mem_insertAll

omit [DecidableEq α] in
theorem size_ne_zero_iff {s : FinSet α} : s.size ≠ 0 ↔ ∃ x, x ∈ s :=
  Nat.pos_iff_ne_zero.symm.trans List.length_pos_iff_exists_mem

@[simp]
theorem mem_inter {s t : FinSet α} {x : α} : x ∈ s.inter t ↔ x ∈ s ∧ x ∈ t := by
  rw [inter]
  split
  · rw [mem_filter, has_iff, and_comm]
  · rw [mem_filter, has_iff]

/-! ### Sizes -/

/-- Distinct elements of a list are no more than it is long. -/
theorem length_le_of_nodup {xs ys : List α} (hnodup : xs.Nodup) (hsub : ∀ x ∈ xs, x ∈ ys) :
    xs.length ≤ ys.length := by
  induction xs generalizing ys with
  | nil => exact Nat.zero_le _
  | cons x xs ih =>
    obtain ⟨hx, hrest⟩ := List.nodup_cons.mp hnodup
    have hmem : x ∈ ys := hsub x (List.mem_cons_self ..)
    -- the others are in `ys` without `x`, which is one shorter
    have hothers : ∀ z ∈ xs, z ∈ ys.erase x := by
      intro z hz
      have hne : z ≠ x := fun heq => hx (heq ▸ hz)
      exact (List.mem_erase_of_ne hne).mpr (hsub z (List.mem_cons_of_mem x hz))
    have hle := ih hrest hothers
    have hpos := List.length_pos_of_mem hmem
    rw [List.length_erase_of_mem hmem] at hle
    rw [List.length_cons]
    omega

/-- Distinct elements of a list that are as many as it is long are all of it. -/
theorem mem_of_length_le {xs ys : List α} (hnodup : xs.Nodup) (hsub : ∀ x ∈ xs, x ∈ ys)
    (hlength : ys.length ≤ xs.length) {y : α} (hy : y ∈ ys) : y ∈ xs := by
  apply Decidable.byContradiction
  intro hnot
  have hle : (y :: xs).length ≤ ys.length :=
    length_le_of_nodup (List.nodup_cons.mpr ⟨hnot, hnodup⟩) fun x hx =>
      (List.mem_cons.mp hx).elim (fun heq => heq ▸ hy) (hsub x)
  rw [List.length_cons] at hle
  omega

theorem subset_iff {s t : FinSet α} : s.subset t = true ↔ ∀ x ∈ s, x ∈ t := by
  rw [subset]
  split
  · next hlt =>
    refine ⟨fun h => absurd h Bool.false_ne_true, fun h => ?_⟩
    exact absurd (length_le_of_nodup s.nodup h) (Nat.not_le.mpr hlt)
  · refine List.all_eq_true.trans (forall_congr' fun x => ?_)
    rw [has_iff]
    rfl

/-- Sets of one size are equal if one is below the other. -/
theorem equal_iff {s t : FinSet α} : s.equal t = true ↔ ∀ x, x ∈ s ↔ x ∈ t := by
  rw [equal, Bool.and_eq_true, beq_iff_eq, subset_iff]
  constructor
  · rintro ⟨hsize, hsub⟩ x
    exact ⟨hsub x, mem_of_length_le s.nodup hsub (Nat.le_of_eq hsize.symm)⟩
  · intro h
    have hle := length_le_of_nodup s.nodup fun x => (h x).mp
    have hge := length_le_of_nodup t.nodup fun x => (h x).mpr
    exact ⟨Nat.le_antisymm hle hge, fun x => (h x).mp⟩

end FinSet

end ContractAudit
