import ContractAudit.Text.Basic
import ContractAudit.Table
import ContractAudit.Domain.FinSet

/-!
Lattices of data-flow facts.

A `FactLattice` is a record of operations on facts. `powerset` orders sets by inclusion, `flat` puts
a bottom under and a top above incomparable values, `pointwise` orders tables key by key, and
`product` runs two lattices side by side. Facts are compared by `equal`; two facts that are equal
may be written down differently.
-/

namespace ContractAudit.Domain

/-- Why a lattice has no greatest element: no universe is fixed for its elements or keys. -/
inductive NoTop where
  | powerset
  | pointwise
deriving DecidableEq, Repr

/-- The wording of the reason. -/
def NoTop.message : NoTop → Text
  | .powerset => "powerset lattice has no top element: unsupported operation"
  | .pointwise => "map lattice has no top element: unsupported operation"

/-- The operations of a lattice. -/
structure FactLattice (L : Type) where
  bottom : L
  top : Except NoTop L
  join : L → L → L
  meet : L → L → L
  leq : L → L → Bool
  equal : L → L → Bool

/-! ### Sets -/

/-- Sets under inclusion. -/
def powerset (α : Type) [DecidableEq α] : FactLattice (FinSet α) where
  bottom := .empty
  top := .error .powerset
  join := FinSet.union
  meet := FinSet.inter
  leq := FinSet.subset
  equal := FinSet.equal

/-- Two sets are equal when they have the same elements. -/
theorem powerset_equal_iff {α : Type} [DecidableEq α] {s t : FinSet α} :
    (powerset α).equal s t = true ↔ ∀ x, x ∈ s ↔ x ∈ t :=
  FinSet.equal_iff

/-! ### Flat values -/

/-- A value, or nothing known yet, or nothing to be known. -/
inductive Flat (α : Type) where
  | bottom
  | value (v : α)
  | top
deriving DecidableEq, Repr

namespace Flat

variable {α : Type}

/-- The value, if it is known. -/
def value? : Flat α → Option α
  | .value v => some v
  | _ => none

/-- The fact as it is written in listings. -/
def text (write : α → Text) : Flat α → Text
  | .bottom => "⊥"
  | .value v => write v
  | .top => "⊤"

variable [DecidableEq α]

/-- The least fact above both. -/
def join : Flat α → Flat α → Flat α
  | .bottom, b => b
  | a, .bottom => a
  | .value v, .value w => if v = w then .value v else .top
  | _, _ => .top

/-- The greatest fact below both. -/
def meet : Flat α → Flat α → Flat α
  | .top, b => b
  | a, .top => a
  | .value v, .value w => if v = w then .value v else .bottom
  | _, _ => .bottom

/-- Whether the first fact is below the second. -/
def leq : Flat α → Flat α → Bool
  | .bottom, _ => true
  | _, .top => true
  | .value v, .value w => v = w
  | _, _ => false

end Flat

/-- Incomparable values between a bottom and a top. -/
def flat (α : Type) [DecidableEq α] : FactLattice (Flat α) where
  bottom := .bottom
  top := .ok .top
  join := Flat.join
  meet := Flat.meet
  leq := Flat.leq
  equal a b := a = b

/-! ### Tables -/

section Pointwise

variable {κ L : Type} [DecidableEq κ]

/-- Both tables together, joined where both have a value: the entries of the second are added to the
first in turn. -/
def joinTables (l : FactLattice L) (a b : Table κ L) : Table κ L :=
  b.entries.foldl
    (fun out e => out.set? e.1 (some ((out.get? e.1).elim e.2 fun prev => l.join prev e.2))) a

/-- The keys that both tables have, with the values met. -/
def meetTables (l : FactLattice L) (a b : Table κ L) : Table κ L :=
  a.entries.foldl (fun out e => out.set? e.1 ((b.get? e.1).map (l.meet e.2))) .empty

/-- Whether every key of the first table has a value in the second that is in a relation to its
own. -/
def allKeys (rel : L → L → Bool) (a b : Table κ L) : Bool :=
  a.entries.all fun e => (b.get? e.1).any (rel e.2)

/-- Whether every key of the first table has a value in the second that is above its own. A key that
is missing is not the same as one with the bottom value. -/
def leqTables (l : FactLattice L) (a b : Table κ L) : Bool := allKeys l.leq a b

/-- Whether both tables have the same keys with equal values: they have equally many, and those of
the first are keys of the second with equal values. -/
def equalTables (l : FactLattice L) (a b : Table κ L) : Bool :=
  a.size == b.size && allKeys l.equal a b

/-- Tables, key by key. -/
def pointwise (κ : Type) [DecidableEq κ] (l : FactLattice L) : FactLattice (Table κ L) where
  bottom := .empty
  top := .error .pointwise
  join := joinTables l
  meet := meetTables l
  leq := leqTables l
  equal := equalTables l

/-- What two tables together say about a key: the join where both have a value. -/
def joinedValue? (l : FactLattice L) (a b : Table κ L) (key : κ) : Option L :=
  match a.get? key, b.get? key with
  | some v, some w => some (l.join v w)
  | some v, none => some v
  | none, w => w

/-- A key that one table lacks keeps its value of the other. -/
theorem get?_joinTables (l : FactLattice L) (a b : Table κ L) (key : κ) :
    (joinTables l a b).get? key = joinedValue? l a b key := by
  have hfold := Table.get?_foldl_entries
    (fun e prev => some (prev.elim e.2 fun prev => l.join prev e.2)) b.distinct a key
  rw [joinTables, hfold, joinedValue?, ← Table.get?]
  cases a.get? key <;> cases b.get? key <;> rfl

theorem allKeys_iff {rel : L → L → Bool} {a b : Table κ L} :
    allKeys rel a b = true ↔
      ∀ key v, a.get? key = some v → ∃ w, b.get? key = some w ∧ rel v w = true := by
  rw [allKeys, List.all_eq_true]
  constructor
  · intro h key v hv
    exact (Option.any_eq_true ..).mp (h (key, v) (Table.mem_entries_iff.mpr hv))
  · intro h e he
    exact (Option.any_eq_true ..).mpr (h e.1 e.2 (Table.mem_entries_iff.mp he))

/-- A table that has a value for every key of another one, and no more keys, has only these. -/
theorem get?_eq_none_of_size {a b : Table κ L} (hsize : a.size = b.size)
    (hkeys : ∀ key ∈ a.keys, key ∈ b.keys) {key : κ} (h : a.get? key = none) :
    b.get? key = none := by
  cases hb : b.get? key with
  | none => rfl
  | some w =>
    have hlength : b.keys.length ≤ a.keys.length := by
      simp only [Table.keys, List.length_map]
      exact Nat.le_of_eq hsize.symm
    have hmem := FinSet.mem_of_length_le a.distinct hkeys hlength (Table.mem_keys_iff.mpr ⟨w, hb⟩)
    obtain ⟨v, hv⟩ := Table.mem_keys_iff.mp hmem
    cases h.symm.trans hv

/-- Equal tables have equal values, and a value for the same keys. -/
theorem equalTables_iff {l : FactLattice L} {a b : Table κ L} :
    equalTables l a b = true ↔ ∀ key,
      (a.get? key = none ∧ b.get? key = none) ∨
        ∃ v w, a.get? key = some v ∧ b.get? key = some w ∧ l.equal v w = true := by
  rw [equalTables, Bool.and_eq_true, beq_iff_eq, allKeys_iff]
  constructor
  · rintro ⟨hsize, hvalues⟩ key
    cases ha : a.get? key with
    | some v =>
      obtain ⟨w, hw, hequal⟩ := hvalues key v ha
      exact .inr ⟨v, w, rfl, hw, hequal⟩
    | none =>
      refine .inl ⟨rfl, get?_eq_none_of_size hsize (fun k hk => ?_) ha⟩
      obtain ⟨v, hv⟩ := Table.mem_keys_iff.mp hk
      obtain ⟨w, hw, -⟩ := hvalues k v hv
      exact Table.mem_keys_iff.mpr ⟨w, hw⟩
  · intro h
    have hkeys : ∀ key, key ∈ a.keys ↔ key ∈ b.keys := by
      intro key
      rw [Table.mem_keys_iff, Table.mem_keys_iff]
      obtain ⟨ha, hb⟩ | ⟨v, w, ha, hb, -⟩ := h key <;> simp [ha, hb]
    have hle := FinSet.length_le_of_nodup a.distinct fun key => (hkeys key).mp
    have hge := FinSet.length_le_of_nodup b.distinct fun key => (hkeys key).mpr
    simp only [Table.keys, List.length_map] at hle hge
    refine ⟨Nat.le_antisymm hle hge, fun key v hv => ?_⟩
    obtain ⟨ha, -⟩ | ⟨x, w, hx, hw, hequal⟩ := h key
    · cases ha.symm.trans hv
    · cases hx.symm.trans hv
      exact ⟨w, hw, hequal⟩

end Pointwise

/-! ### Pairs -/

/-- Two lattices side by side. -/
def product {L M : Type} (l : FactLattice L) (m : FactLattice M) : FactLattice (L × M) where
  bottom := (l.bottom, m.bottom)
  top := do return (← l.top, ← m.top)
  join a b := (l.join a.1 b.1, m.join a.2 b.2)
  meet a b := (l.meet a.1 b.1, m.meet a.2 b.2)
  leq a b := l.leq a.1 b.1 && m.leq a.2 b.2
  equal a b := l.equal a.1 b.1 && m.equal a.2 b.2

/-- A pair of facts as it is written in listings. -/
def pairText (a b : Text) : Text := "(" ++ a ++ ", " ++ b ++ ")"

/-! ### Every nesting -/

/-- How a lattice is built from sets and flat values by tables and pairs. -/
inductive Shape where
  | powerset
  | flat
  | pointwise (values : Shape)
  | product (first second : Shape)
deriving DecidableEq, Repr

namespace Shape

/-- The facts of a shape, over texts. -/
def Fact : Shape → Type
  | .powerset => FinSet Text
  | .flat => Flat Text
  | .pointwise values => Table Text values.Fact
  | .product first second => first.Fact × second.Fact

/-- The lattice of a shape. -/
def lattice : (s : Shape) → FactLattice s.Fact
  | .powerset => Domain.powerset Text
  | .flat => Domain.flat Text
  | .pointwise values => Domain.pointwise Text values.lattice
  | .product first second => Domain.product first.lattice second.lattice

end Shape

end ContractAudit.Domain
