import Mathlib.Data.List.Nodup
import Mathlib.Data.List.Permutation
import ContractAudit.Analysis.Types
import ContractAudit.Source.Parser
import ContractAudit.Proofs.Source.Folding
import ContractAudit.Proofs.Flow.Layout
import ContractAudit.Proofs.Analysis.Symbols

/-!
Folding constants in any order.

Constants are folded in rounds that visit all contracts, and a round may visit them in any order. A
visit records the value of a constant the first time its initialiser folds. The names in the
initialiser are looked up along the inheritance of the contract, where the first contract that has a
value counts: one that has none yet is passed over.

* `TypeIndex.FoldsTo`: what folding can end with, over all orders in all rounds.
  `foldsTo_ofSymbols`: the index of a symbol table is one of these.
* `FoldsTo.invariant`: what every recording keeps holds at the end. `FoldsTo.settled`: at the end
  there is nothing left to record.
* `Confluent`: all orders end with the same values, and each is the value of its initialiser at the
  end.
* `Unshadowed`: no name in an initialiser is that of constants of two contracts along the
  inheritance.
* `folding_confluent_iff`: the order does not matter exactly when the values that any order ends
  with are those of the initialisers where any other order ends (`JustifiedBy`). This is so where no
  constant is shadowed.
-/

namespace ContractAudit.Analysis

open Source ContractAudit.Flow

/-- Whether a state variable is a constant with an initialiser. -/
def IsFoldable (v : StateVar) : Prop := v.isConstant = true ∧ v.value ≠ []

instance (v : StateVar) : Decidable (IsFoldable v) := inferInstanceAs (Decidable (_ ∧ _))

/-- The state variables of contracts, each with the name of its contract, in the order in which they
are visited. -/
def visits (order : List (Text × Contract)) : List (Text × StateVar) :=
  order.flatMap fun (name, c) => c.stateVars.map fun v => (name, v)

lemma mem_visits_iff {order : List (Text × Contract)} {k : Text} {v : StateVar} :
    (k, v) ∈ visits order ↔ ∃ c, (k, c) ∈ order ∧ v ∈ c.stateVars := by
  simp only [visits, List.mem_flatMap, List.mem_map, Prod.mk.injEq, Prod.exists]
  constructor
  · rintro ⟨_, c, hc, _, hv, rfl, rfl⟩
    exact ⟨c, hc, hv⟩
  · rintro ⟨c, hc, hv⟩
    exact ⟨k, c, hc, v, hv, rfl, rfl⟩

namespace TypeIndex

variable {t t' : TypeIndex} {k x : Text} {v : StateVar} {n : Nat} {symbols : SymbolTable}
  {ws : List (Text × StateVar)}

/-! ### Recording values -/

/-- The value recorded for a constant of a contract. -/
def value? (t : TypeIndex) (contract name : Text) : Option Nat :=
  (t.constants.get? contract).bind (·.get? name)

/-- Records the value of a constant of a contract. -/
def record (t : TypeIndex) (contract name : Text) (n : Nat) : TypeIndex :=
  { t with
    constants := t.constants.set contract
      (((t.constants.get? contract).getD .empty).set name n) }

lemma get?_getD_eq_value? (t : TypeIndex) (k x : Text) :
    ((t.constants.get? k).getD .empty).get? x = t.value? k x := by
  rw [value?]
  cases t.constants.get? k <;> rfl

lemma value?_record (t : TypeIndex) (k x : Text) (n : Nat) (k' x' : Text) :
    (t.record k x n).value? k' x' = if k' = k ∧ x' = x then some n else t.value? k' x' := by
  rw [value?, record, Table.get?_set]
  by_cases hk : k' = k
  · subst hk
    rw [if_pos rfl, Option.bind_some, Table.get?_set, get?_getD_eq_value?]
    simp
  · simp [hk, value?]

lemma env_eq_findSome? (t : TypeIndex) (k x : Text) :
    t.env k x = (t.symbols.lineage k).findSome? fun c => t.value? c.name x := rfl

/-- A visit records the value of a constant that has none and whose initialiser folds, and does
nothing else. -/
lemma foldOne_cases (t : TypeIndex) (k : Text) (v : StateVar) :
    (t.foldOne k v = t ∧
      (IsFoldable v → t.value? k v.name = none → constantValue? v.value (t.env k) = none)) ∨
      ∃ n, IsFoldable v ∧ t.value? k v.name = none ∧ constantValue? v.value (t.env k) = some n ∧
        t.foldOne k v = t.record k v.name n := by
  have hknown : ((t.constants.get? k).getD .empty).has v.name = (t.value? k v.name).isSome := by
    rw [Table.has, get?_getD_eq_value?]
  simp only [foldOne, hknown]
  by_cases hskip : (!v.isConstant || v.value.isEmpty || (t.value? k v.name).isSome) = true
  · rw [if_pos hskip]
    refine .inl ⟨rfl, fun hfoldable hnone => ?_⟩
    simp [hfoldable.1, hfoldable.2, hnone] at hskip
  · rw [if_neg hskip]
    have hfoldable : IsFoldable v ∧ t.value? k v.name = none := by
      simpa [IsFoldable, and_assoc] using hskip
    cases hvalue : constantValue? v.value (t.env k) with
    | none => exact .inl ⟨rfl, fun _ _ => rfl⟩
    | some n => exact .inr ⟨n, hfoldable.1, hfoldable.2, rfl, rfl⟩

/-! ### Counting values -/

/-- A value that is recorded is one more. -/
lemma folded_record (h : t.value? k x = none) (n : Nat) :
    (t.record k x n).folded = t.folded + 1 := by
  have hcount : ∀ es : List (Text × Table Text Nat), ((Table.find? k es).bind (·.get? x)) = none →
      ((Table.put k (((Table.find? k es).getD .empty).set x n) es).flatMap fun e =>
        e.2.entries).length = (es.flatMap fun e => e.2.entries).length + 1 := by
    intro es
    induction es with
    | nil => exact fun _ => rfl
    | cons e rest ih =>
      obtain ⟨key, inner⟩ := e
      intro hnone
      by_cases heq : key = k
      · have hinner : Table.find? x inner.entries = none := by
          simpa [Table.find?, heq, Table.get?] using hnone
        simp only [Table.put, Table.find?, if_pos heq, Option.getD_some, Table.set,
          Table.put_eq_append hinner, List.flatMap_cons, List.length_append, List.length_singleton]
        omega
      · have hrest := ih (by simpa [Table.find?, heq] using hnone)
        simp only [Table.put, Table.find?, if_neg heq, List.flatMap_cons, List.length_append, hrest]
        omega
  exact hcount t.constants.entries h

/-! ### Rounds -/

/-- Visits state variables one after the other. -/
def foldVisits (t : TypeIndex) (ws : List (Text × StateVar)) :
    TypeIndex := ws.foldl (fun t w => t.foldOne w.1 w.2) t

lemma foldRound_eq (t : TypeIndex) :
    t.foldRound = t.foldVisits (visits t.symbols.contracts.entries) := by
  rw [foldRound, foldVisits, visits, List.foldl_flatMap]
  simp only [List.foldl_map]

/-- What every recording keeps is kept by visits. -/
lemma foldVisits_invariant {P : TypeIndex → Prop}
    (hrecord : ∀ t k v n, (k, v) ∈ ws → IsFoldable v → t.value? k v.name = none →
      constantValue? v.value (t.env k) = some n → P t → P (t.record k v.name n))
    (h : P t) : P (t.foldVisits ws) := by
  refine List.foldlRecOn (motive := P) ws _ h fun t ht w hw => ?_
  rcases t.foldOne_cases w.1 w.2 with ⟨hsame, -⟩ | ⟨n, hfoldable, hnone, hvalue, hrecorded⟩
  · rwa [hsame]
  · rw [hrecorded]
    exact hrecord t w.1 w.2 n hw hfoldable hnone hvalue ht

lemma symbols_foldVisits (t : TypeIndex) (ws : List (Text × StateVar)) :
    (t.foldVisits ws).symbols = t.symbols :=
  foldVisits_invariant (P := fun s => s.symbols = t.symbols) (fun _ _ _ _ _ _ _ _ h => h) rfl

/-- What has a value keeps it. -/
def Below (t t' : TypeIndex) : Prop := ∀ k x n, t.value? k x = some n → t'.value? k x = some n

lemma Below.refl (t : TypeIndex) : t.Below t := fun _ _ _ h => h

lemma Below.trans {t'' : TypeIndex} (h : t.Below t') (h' : t'.Below t'') : t.Below t'' :=
  fun k x n hn => h' k x n (h k x n hn)

lemma below_record (h : t.value? k x = none) (n : Nat) : t.Below (t.record k x n) := by
  intro k' x' m hm
  rw [value?_record, if_neg]
  · exact hm
  · rintro ⟨rfl, rfl⟩
    simp [h] at hm

lemma below_foldVisits (t : TypeIndex) (ws : List (Text × StateVar)) : t.Below (t.foldVisits ws) :=
  foldVisits_invariant (P := t.Below) (fun _ _ _ n _ _ hnone _ h => h.trans (below_record hnone n))
    (.refl t)

lemma folded_le_foldVisits (t : TypeIndex) (ws : List (Text × StateVar)) :
    t.folded ≤ (t.foldVisits ws).folded := by
  refine foldVisits_invariant (P := fun s => t.folded ≤ s.folded) (fun s k v n _ _ hnone _ h => ?_)
    (Nat.le_refl _)
  rw [folded_record hnone]
  exact Nat.le_succ_of_le h

/-- Where visits record nothing, none of them finds anything to record. -/
lemma foldOne_eq_of_folded_eq (h : (t.foldVisits ws).folded = t.folded) :
    t.foldVisits ws = t ∧ ∀ w ∈ ws, t.foldOne w.1 w.2 = t := by
  induction ws with
  | nil => exact ⟨rfl, nofun⟩
  | cons w ws ih =>
    have hfirst : t.foldOne w.1 w.2 = t := by
      rcases t.foldOne_cases w.1 w.2 with ⟨hsame, -⟩ | ⟨n, -, hnone, -, hrecorded⟩
      · exact hsame
      · have hle : (t.foldOne w.1 w.2).folded ≤ (t.foldVisits (w :: ws)).folded :=
          folded_le_foldVisits _ ws
        rw [h, hrecorded, folded_record hnone] at hle
        exact absurd hle (Nat.not_succ_le_self _)
    have hrest : t.foldVisits (w :: ws) = t.foldVisits ws := congrArg (foldVisits · ws) hfirst
    rw [hrest] at h ⊢
    exact ⟨(ih h).1, List.forall_mem_cons.mpr ⟨hfirst, (ih h).2⟩⟩

/-- Visits that record something give a value to a constant that had none. -/
lemma exists_recorded (h : (t.foldVisits ws).folded ≠ t.folded) :
    ∃ w ∈ ws, t.value? w.1 w.2.name = none ∧
      ((t.foldVisits ws).value? w.1 w.2.name).isSome = true := by
  induction ws with
  | nil => exact absurd rfl h
  | cons w ws ih =>
    have hstep : t.foldVisits (w :: ws) = (t.foldOne w.1 w.2).foldVisits ws := rfl
    rcases t.foldOne_cases w.1 w.2 with ⟨hsame, -⟩ | ⟨n, -, hnone, -, hrecorded⟩
    · rw [hstep, hsame] at h ⊢
      obtain ⟨w', hw', hvalue⟩ := ih h
      exact ⟨w', List.mem_cons_of_mem _ hw', hvalue⟩
    · rw [hstep, hrecorded]
      have hvalue : (t.record w.1 w.2.name n).value? w.1 w.2.name = some n := by
        simp [value?_record]
      exact ⟨w, List.mem_cons_self .., hnone,
        Option.isSome_iff_exists.mpr ⟨n, below_foldVisits _ ws _ _ _ hvalue⟩⟩

/-- What folding can end with: rounds go on while they record something, each in an order of its
own. -/
inductive FoldsTo : TypeIndex → TypeIndex → Prop
  | done {t : TypeIndex} {order : List (Text × Contract)}
      (horder : order.Perm t.symbols.contracts.entries)
      (h : (t.foldVisits (visits order)).folded = t.folded) : FoldsTo t t
  | round {t t' : TypeIndex} {order : List (Text × Contract)}
      (horder : order.Perm t.symbols.contracts.entries)
      (h : (t.foldVisits (visits order)).folded ≠ t.folded)
        (hrest : FoldsTo (t.foldVisits (visits order)) t') :
      FoldsTo t t'

lemma mem_visits_of_perm {order entries : List (Text × Contract)} (h : order.Perm entries)
    {w : Text × StateVar} :
    w ∈ visits order ↔ w ∈ visits entries :=
  (h.flatMap_right _).mem_iff

namespace FoldsTo

lemma symbols_eq (h : FoldsTo t t') : t'.symbols = t.symbols := by
  induction h with
  | done => rfl
  | round _ _ _ ih => exact ih.trans (symbols_foldVisits _ _)

/-- What every recording keeps holds at the end. -/
lemma invariant {P : TypeIndex → Prop} (h : FoldsTo t t')
    (hrecord : ∀ s k v n, s.symbols = t.symbols → (k, v) ∈ visits t.symbols.contracts.entries →
      IsFoldable v →
      s.value? k v.name = none → constantValue? v.value (s.env k) = some n → P s →
        P (s.record k v.name n))
    (ht : P t) : P t' := by
  induction h with
  | done => exact ht
  | @round t t' order horder _ _ ih =>
    have hround : (t.foldVisits (visits order)).symbols = t.symbols ∧
      P (t.foldVisits (visits order)) :=
      foldVisits_invariant (P := fun s => s.symbols = t.symbols ∧ P s)
        (fun s k v n hw hfoldable hnone hvalue hs => ⟨hs.1, hrecord s k v n hs.1
          ((mem_visits_of_perm horder).mp hw) hfoldable hnone hvalue hs.2⟩) ⟨rfl, ht⟩
    refine ih (fun s k v n hs hw => ?_) hround.2
    rw [hround.1] at hs hw
    exact hrecord s k v n hs hw

lemma keeps (h : FoldsTo t t') : t.Below t' :=
  h.invariant (P := t.Below) (fun _ _ _ n _ _ _ hnone _ hs => hs.trans (below_record hnone n))
    (.refl t)

/-- At the end every constant whose initialiser folds has a value. -/
lemma settled (h : FoldsTo t t') (hw : (k, v) ∈ visits t.symbols.contracts.entries)
    (hfoldable : IsFoldable v)
    (hvalue : constantValue? v.value (t'.env k) = some n) : ∃ m, t'.value? k v.name = some m := by
  induction h with
  | @done t order horder h =>
    have hsame := (foldOne_eq_of_folded_eq h).2 (k, v) ((mem_visits_of_perm horder).mpr hw)
    refine Option.ne_none_iff_exists'.mp fun hnone => ?_
    rcases t.foldOne_cases k v with ⟨-, hfolds⟩ | ⟨m, -, -, -, hrecorded⟩
    · simp [hfolds hfoldable hnone] at hvalue
    · have hcount := folded_record hnone m
      rw [← hrecorded, hsame] at hcount
      omega
  | @round t t' order _ _ _ ih =>
    rw [symbols_foldVisits] at ih
    exact ih hw hvalue

end FoldsTo

/-! ### The index of a symbol table -/

/-- The number of visits of a round that could still find something. -/
def waiting (t : TypeIndex) : Nat :=
  (visits t.symbols.contracts.entries).countP fun w => (t.value? w.1 w.2.name).isNone

/-- A round that records something leaves less to be found. -/
lemma waiting_foldRound (h : t.foldRound.folded ≠ t.folded) : t.foldRound.waiting < t.waiting := by
  rw [foldRound_eq] at h ⊢
  obtain ⟨w, hw, hnone, hsome⟩ := exists_recorded h
  have hstill : ∀ w : Text × StateVar,
      ((t.foldVisits (visits t.symbols.contracts.entries)).value? w.1 w.2.name).isNone = true →
      (t.value? w.1 w.2.name).isNone = true := by
    intro w hlater
    cases hvalue : t.value? w.1 w.2.name with
    | none => rfl
    | some n => simp [below_foldVisits t _ _ _ _ hvalue] at hlater
  rw [waiting, waiting, symbols_foldVisits]
  obtain ⟨before, behind, hsplit⟩ := List.append_of_mem hw
  rw [hsplit] at hsome hstill ⊢
  have hbefore := List.countP_mono_left (l := before) fun w _ => hstill w
  have hbehind := List.countP_mono_left (l := behind) fun w _ => hstill w
  simp only [List.countP_append, List.countP_cons, hnone, Option.isNone_none, if_true]
  have hfound : ((t.foldVisits (before ++ w :: behind)).value? w.1 w.2.name).isNone = false := by
    simpa using hsome
  simp only [hfound, Bool.false_eq_true, if_false]
  omega

lemma foldsTo_foldRounds {fuel : Nat} (h : t.waiting < fuel) : FoldsTo t (foldRounds fuel t) := by
  induction fuel generalizing t with
  | zero => exact absurd h (Nat.not_lt_zero _)
  | succ fuel ih =>
    rw [foldRounds]
    split
    · next hsame =>
      exact .done (.refl _) (foldRound_eq t ▸ beq_iff_eq.mp hsame)
    · next hnew =>
      rw [beq_iff_eq] at hnew
      have hrest := ih (Nat.lt_of_lt_of_le (waiting_foldRound hnew) (Nat.le_of_lt_succ h))
      rw [foldRound_eq] at hnew hrest
      rw [foldRound_eq]
      exact .round (.refl _) hnew hrest

/-- The index of a symbol table is one that folding can end with. -/
theorem foldsTo_ofSymbols (symbols : SymbolTable) :
    FoldsTo (start symbols) (ofSymbols symbols) := by
  refine foldsTo_foldRounds (Nat.lt_succ_of_le ?_)
  have hlength : (visits symbols.contracts.entries).length =
      (symbols.contracts.entries.flatMap fun (_, c) => c.stateVars).length := by
    simp [visits, List.length_flatMap]
  exact hlength ▸ List.countP_le_length

/-- Only constants that can be folded have values. -/
def Declared (t : TypeIndex) : Prop :=
  ∀ k x n, t.value? k x = some n → ∃ v, (k, v) ∈ visits t.symbols.contracts.entries ∧ IsFoldable v ∧
    v.name = x

lemma get?_constants_start {values : Table Text Nat}
    (h : (start symbols).constants.get? k = some values) :
    values = .empty := by
  obtain ⟨_, -, heq⟩ := List.mem_map.mp (Table.mem_of_get?_ofList h)
  exact (congrArg Prod.snd heq).symm

lemma value?_start (symbols : SymbolTable) (k x : Text) : (start symbols).value? k x = none := by
  rw [value?]
  cases hvalues : (start symbols).constants.get? k with
  | none => rfl
  | some values =>
    rw [get?_constants_start hvalues]
    rfl

lemma Declared.record (h : t.Declared) (hw : (k, v) ∈ visits t.symbols.contracts.entries)
    (hfoldable : IsFoldable v) (n : Nat) : (t.record k v.name n).Declared := by
  intro k' x m hm
  rw [value?_record] at hm
  split at hm
  · next heq =>
    obtain ⟨rfl, rfl⟩ := heq
    exact ⟨v, hw, hfoldable, rfl⟩
  · exact h k' x m hm

lemma FoldsTo.declared (h : FoldsTo (start symbols) t) : t.Declared := by
  refine h.invariant (P := Declared) (fun s k v n hs hw hfoldable _ _ hdeclared => ?_)
    fun k x n hn => ?_
  · exact hdeclared.record (hs ▸ hw) hfoldable n
  · simp [value?_start] at hn

/-- Folding leaves alone which contracts have a table of values. -/
lemma FoldsTo.isSome_get? (h : FoldsTo (start symbols) t) (k : Text) :
    t.constants.has k = (start symbols).constants.has k := by
  refine h.invariant (P := fun s => ∀ k, s.constants.has k = (start symbols).constants.has k)
    (fun s k v n _ hw _ _ _ hs k' => ?_) (fun _ => rfl) k
  have hk : s.constants.has k = true := by
    obtain ⟨c, hc, -⟩ := mem_visits_iff.mp hw
    rw [hs, Table.has, start, Table.get?_ofList]
    simp only [Option.isSome_map, List.find?_isSome, List.mem_reverse, List.mem_map]
    exact ⟨(k, .empty), ⟨(k, c), hc, rfl⟩, beq_self_eq_true k⟩
  exact (Table.has_set_of_has hk _ k').trans (hs k')

/-! ### Confluence -/

/-- The values that `t` records are those of the initialisers in `t'`. -/
def JustifiedBy (t t' : TypeIndex) : Prop :=
  ∀ k v n, (k, v) ∈ visits t.symbols.contracts.entries → IsFoldable v → t.value? k v.name = some n →
    constantValue? v.value (t'.env k) = some n

/-- Folding ends with the same values whatever the order of the visits, and each is the value of its
initialiser. -/
structure Confluent (symbols : SymbolTable) : Prop where
  same : ∀ t t', FoldsTo (start symbols) t → FoldsTo (start symbols) t' → ∀ contract,
    (t.constants.get? contract).map Table.get? = (t'.constants.get? contract).map Table.get?
  right : ∀ t, FoldsTo (start symbols) t → t.JustifiedBy t

/-- Indexes with the same values know the same names. -/
lemma env_congr (hsymbols : t.symbols = t'.symbols) (h : ∀ k x, t.value? k x = t'.value? k x)
    (k : Text) :
    t.env k = t'.env k := by
  funext x
  rw [env_eq_findSome?, env_eq_findSome?, hsymbols]
  simp only [h]

/-- Of two ends that justify each other, the second has the values of the first. -/
lemma below_of_justified (ht : FoldsTo (start symbols) t) (ht' : FoldsTo (start symbols) t')
    (h : t.JustifiedBy t') (h' : t'.JustifiedBy t') : t.Below t' := by
  intro k x n hn
  obtain ⟨v, hw, hfoldable, rfl⟩ := ht.declared k x n hn
  have hvalue := h k v n hw hfoldable hn
  rw [ht.symbols_eq] at hw
  obtain ⟨m, hm⟩ := ht'.settled hw hfoldable hvalue
  rw [← ht'.symbols_eq] at hw
  exact hm.trans ((h' k v m hw hfoldable hm).symm.trans hvalue)

lemma same_of_below (ht : FoldsTo (start symbols) t) (ht' : FoldsTo (start symbols) t')
    (h : t.Below t') (h' : t'.Below t) (k : Text) :
    (t.constants.get? k).map Table.get? = (t'.constants.get? k).map Table.get? := by
  have hvalue : ∀ x, t.value? k x = t'.value? k x := fun x =>
    Option.ext fun n => ⟨h k x n, h' k x n⟩
  have hhas : (t.constants.get? k).isSome = (t'.constants.get? k).isSome :=
    (ht.isSome_get? k).trans (ht'.isSome_get? k).symm
  simp only [value?] at hvalue
  generalize t.constants.get? k = values at hvalue hhas ⊢
  generalize t'.constants.get? k = values' at hvalue hhas ⊢
  cases values with
  | none =>
    cases values' with
    | none => rfl
    | some _ => contradiction
  | some _ =>
    cases values' with
    | none => contradiction
    | some _ => exact congrArg some (funext hvalue)

/-- The order of the visits does not matter exactly when any two ends justify each other. -/
lemma confluent_iff_justified (symbols : SymbolTable) : Confluent symbols ↔
    ∀ t t', FoldsTo (start symbols) t → FoldsTo (start symbols) t' → t.JustifiedBy t' := by
  constructor
  · intro h t t' ht ht' k v n hw hfoldable hn
    have hvalue : ∀ k x, t.value? k x = t'.value? k x := fun k x => by
      have hsame := congrArg (·.bind (· x)) (h.same t t' ht ht' k)
      simpa [value?, Option.bind_map, Function.comp_def] using hsame
    rw [← env_congr (ht.symbols_eq.trans ht'.symbols_eq.symm) hvalue]
    exact h.right t ht k v n hw hfoldable hn
  · intro h
    refine ⟨fun t t' ht ht' => same_of_below ht ht' ?_ ?_, fun t ht => h t t ht ht⟩
    · exact below_of_justified ht ht' (h t t' ht ht') (h t' t' ht' ht')
    · exact below_of_justified ht' ht (h t' t ht' ht) (h t t ht ht)

end TypeIndex

/-! ### Shadowed constants -/

/-- Whether a contract has a constant of the given name that can be folded. -/
def HasConstant (c : Contract) (x : Text) : Prop := ∃ v ∈ c.stateVars, IsFoldable v ∧ v.name = x

instance (c : Contract) (x : Text) : Decidable (HasConstant c x) :=
  inferInstanceAs (Decidable (∃ v ∈ _, _))

/-- No contract has two constants of one name, and no initialiser has a name that two contracts
along the inheritance give to constants. -/
structure Unshadowed (symbols : SymbolTable) : Prop where
  distinct : ∀ e ∈ symbols.contracts.entries, ∀ v ∈ e.2.stateVars, ∀ w ∈ e.2.stateVars,
    IsFoldable v → IsFoldable w → v.name = w.name → v = w
  single : ∀ e ∈ symbols.contracts.entries, ∀ v ∈ e.2.stateVars, IsFoldable v → ∀ x ∈ v.value.names,
    ∀ a ∈ symbols.lineage e.1, ∀ b ∈ symbols.lineage e.1, HasConstant a x → HasConstant b x →
      a.name = b.name

namespace TypeIndex

variable {t t' : TypeIndex} {k x : Text} {v : StateVar} {n : Nat} {symbols : SymbolTable}

/-- Along the inheritance only contracts with a constant of that name have a value for it. -/
lemma Declared.hasConstant (hfiled : t.symbols.Filed) (h : t.Declared) {a : Contract}
    (ha : a ∈ t.symbols.lineage k) (hn : t.value? a.name x = some n) : HasConstant a x := by
  obtain ⟨v, hw, hfoldable, rfl⟩ := h _ _ _ hn
  obtain ⟨c, hc, hv⟩ := mem_visits_iff.mp hw
  obtain rfl := Table.eq_of_mem_entries hc (hfiled.mem_of_lineage ha)
  exact ⟨v, hv, hfoldable, rfl⟩

/-- With more values recorded, a name that one constant along the inheritance has keeps its
value. -/
lemma env_mono (hsymbols : t.symbols = symbols) (hsymbols' : t'.symbols = symbols)
    (hfiled : symbols.Filed) (ht' : t'.Declared) (ht : t.Declared) (hbelow : t.Below t')
    (hsingle : ∀ a ∈ symbols.lineage k, ∀ b ∈ symbols.lineage k, HasConstant a x → HasConstant b x →
      a.name = b.name)
    (hn : t.env k x = some n) : t'.env k x = some n := by
  subst hsymbols
  rw [env_eq_findSome?] at hn ⊢
  obtain ⟨a, ha, hvalue⟩ := List.exists_of_findSome?_eq_some hn
  have hvalue' := hbelow _ _ _ hvalue
  rw [hsymbols']
  obtain ⟨m, hm⟩ : ∃ m, (t.symbols.lineage k).findSome? (fun c => t'.value? c.name x) = some m :=
    Option.isSome_iff_exists.mp (List.findSome?_isSome_iff.mpr ⟨a, ha, by simp [hvalue']⟩)
  obtain ⟨b, hb, hother⟩ := List.exists_of_findSome?_eq_some hm
  have hnames := hsingle a ha b hb (ht.hasConstant hfiled ha hvalue)
    (ht'.hasConstant (hsymbols' ▸ hfiled) (hsymbols' ▸ hb) hother)
  rw [← hnames, hvalue'] at hother
  rw [hm, hother]

end TypeIndex

namespace Unshadowed

open TypeIndex

variable {t t' : TypeIndex} {k : Text} {v : StateVar} {n : Nat} {symbols : SymbolTable}

/-- Where no constant is shadowed, an initialiser keeps its value when more values are recorded. -/
lemma constantValue?_mono (h : Unshadowed symbols) (hfiled : symbols.Filed)
    (hsymbols : t.symbols = symbols)
    (hsymbols' : t'.symbols = symbols) (ht : t.Declared) (ht' : t'.Declared) (hbelow : t.Below t')
    (hw : (k, v) ∈ visits symbols.contracts.entries) (hfoldable : IsFoldable v)
    (hn : constantValue? v.value (t.env k) = some n) :
    constantValue? v.value (t'.env k) = some n := by
  obtain ⟨c, hc, hv⟩ := mem_visits_iff.mp hw
  refine constantValue?_mono_at (fun x hx m hm => ?_) hn
  exact env_mono hsymbols hsymbols' hfiled ht' ht hbelow (h.single _ hc v hv hfoldable x hx) hm

/-- Where no constant is shadowed, what is recorded is justified at every moment. -/
lemma justified (h : Unshadowed symbols) (hfiled : symbols.Filed) (ht : FoldsTo (start symbols) t) :
    t.JustifiedBy t := by
  suffices hboth : t.symbols = symbols ∧ t.Declared ∧ t.JustifiedBy t from hboth.2.2
  refine ht.invariant (P := fun t => t.symbols = symbols ∧ t.Declared ∧ t.JustifiedBy t) ?_
    ⟨rfl, fun k x n hn => by simp [value?_start] at hn, fun k v n _ _ hn => by
      simp [value?_start] at hn⟩
  rintro s k v n (rfl : s.symbols = symbols) hw hfoldable hnone hvalue ⟨-, hdeclared, hjustified⟩
  have hdeclared' := hdeclared.record hw hfoldable n
  have hsymbols : (s.record k v.name n).symbols = s.symbols := rfl
  have hmono : ∀ k' v' m, (k', v') ∈ visits s.symbols.contracts.entries → IsFoldable v' →
      constantValue? v'.value (s.env k') = some m → constantValue? v'.value
        ((s.record k v.name n).env k') = some m :=
    fun _ _ _ => h.constantValue?_mono hfiled rfl hsymbols hdeclared hdeclared'
      (below_record hnone n)
  refine ⟨rfl, hdeclared', fun k' v' m hw' hfoldable' hm => ?_⟩
  rw [value?_record] at hm
  split at hm
  · next heq =>
    -- the constant that was recorded just now
    obtain ⟨rfl, hname⟩ := heq
    obtain ⟨c, hc, hv⟩ := mem_visits_iff.mp hw
    obtain ⟨c', hc', hv'⟩ := mem_visits_iff.mp hw'
    obtain rfl := Table.eq_of_mem_entries hc hc'
    obtain rfl := h.distinct _ hc v' hv' v hv hfoldable' hfoldable hname
    obtain rfl := Option.some.inj hm
    exact hmono _ _ _ hw hfoldable hvalue
  · exact hmono _ _ _ hw' hfoldable' (hjustified k' v' m hw' hfoldable' hm)

/-- Where no constant is shadowed, any end has the values of any other. -/
lemma below (h : Unshadowed symbols) (hfiled : symbols.Filed) (ht : FoldsTo (start symbols) t)
    (ht' : FoldsTo (start symbols) t') : t.Below t' := by
  suffices hboth : t.symbols = symbols ∧ t.Declared ∧ t.Below t' from hboth.2.2
  refine ht.invariant (P := fun t => t.symbols = symbols ∧ t.Declared ∧ t.Below t') ?_
    ⟨rfl, fun k x n hn => by simp [value?_start] at hn, fun k x n hn => by
      simp [value?_start] at hn⟩
  rintro s k v n (hs : s.symbols = symbols) hw hfoldable hnone hvalue ⟨-, hdeclared, hbelow⟩
  refine ⟨hs, hdeclared.record (hs ▸ hw) hfoldable n, fun k' x m hm => ?_⟩
  rw [value?_record] at hm
  split at hm
  · next heq =>
    -- the initialiser folds at the other end as well, and that end is justified
    obtain ⟨rfl, rfl⟩ := heq
    obtain rfl := Option.some.inj hm
    have hlater := h.constantValue?_mono hfiled hs ht'.symbols_eq hdeclared ht'.declared hbelow hw
      hfoldable hvalue
    obtain ⟨m, hm⟩ := ht'.settled hw hfoldable hlater
    have hjustified := h.justified hfiled ht' _ v m (ht'.symbols_eq ▸ hw) hfoldable hm
    exact hm.trans (hjustified.symm.trans hlater)
  · exact hbelow k' x m hm

end Unshadowed

open TypeIndex

/-- Folding the constants of some source units does not depend on the order of the visits exactly
when any two ends justify each other, and so it does not where no constant is shadowed. The index of
the units is one of the ends. -/
theorem folding_confluent_iff (units : List SourceUnit) :
    FoldsTo (start (.ofUnits units)) (ofSymbols (.ofUnits units)) ∧
      (Confluent (.ofUnits units) ↔ ∀ t t', FoldsTo (start (.ofUnits units)) t →
        FoldsTo (start (.ofUnits units)) t' → t.JustifiedBy t') ∧
      (Unshadowed (.ofUnits units) → Confluent (.ofUnits units)) := by
  have hfiled := SymbolTable.filed_ofUnits units
  refine ⟨foldsTo_ofSymbols _, confluent_iff_justified _, fun h => ?_⟩
  exact ⟨fun t t' ht ht' => same_of_below ht ht' (h.below hfiled ht ht') (h.below hfiled ht' ht),
    fun t ht => h.justified hfiled ht⟩

instance (symbols : SymbolTable) : Decidable (Unshadowed symbols) :=
  -- two instances fit an implication, so the one for `single` is named
  have (k : Text) (v : StateVar) : Decidable (IsFoldable v → ∀ x ∈ v.value.names,
    ∀ a ∈ symbols.lineage k,
      ∀ b ∈ symbols.lineage k, HasConstant a x → HasConstant b x →
        a.name = b.name) := instDecidableForall
  @decidable_of_iff _ (_ ∧ _) ⟨fun h => ⟨h.1, h.2⟩, fun h => ⟨h.distinct, h.single⟩⟩
    (@instDecidableAnd _ _ inferInstance inferInstance)

/-- Constants that refer to each other and to those of a base, in an order in which it takes three
rounds to fold them. -/
def inheritingSource : Text :=
  "contract B \x7b uint256 constant a = c + 1; uint256 constant c = 2; \x7d " ++
    "contract D is B \x7b uint256 constant d = a * b; uint256 constant b = e; " ++
    "uint256 constant e = 5; \x7d"

/-- The constants of a contract and its base fold to the same values in any order. -/
theorem folding_confluent_inheriting :
    ∃ u, parse "a.sol" inheritingSource = .ok u ∧ Unshadowed (.ofUnits [u]) ∧
      Confluent (.ofUnits [u]) ∧ (ofSymbols (.ofUnits [u])).value? "D" "d" = some 15 := by
  obtain ⟨u, hparse, hunshadowed, hvalue⟩ : ∃ u, parse "a.sol" inheritingSource = .ok u ∧
      Unshadowed (.ofUnits [u]) ∧ (ofSymbols (.ofUnits [u])).value? "D" "d" = some 15 := by
    decide +kernel
  exact ⟨u, hparse, hunshadowed, (folding_confluent_iff [u]).2.2 hunshadowed, hvalue⟩

/-- The constant `x` of `D` takes three rounds to fold, and until then the private one of the base
is found. -/
def hiddenSource : Text :=
  "contract B \x7b uint256 private constant x = 1; \x7d " ++
    "contract D is B \x7b uint256 constant z = x; " ++
    "uint256 constant x = w; uint256 constant w = v; uint256 constant v = 3; \x7d"

/-- Whether the constant `x` of `D` or that of the base is found first depends on the order. -/
def overtakenSource : Text :=
  "contract B \x7b uint256 private constant x = 1; \x7d " ++
    "contract D is B \x7b uint256 constant z = x; " ++
    "uint256 constant x = 5; \x7d"

/-- Whether the constant has the value `n` after some rounds in any orders, each of which records
something. -/
def SureWithin (k x : Text) (n : Nat) : Nat → TypeIndex → Prop
  | 0, t => t.value? k x = some n
  | rounds + 1, t => ∀ order ∈ t.symbols.contracts.entries.permutations',
      (t.foldVisits (visits order)).folded ≠ t.folded ∧
        SureWithin k x n rounds (t.foldVisits (visits order))

instance decidableSureWithin (k x : Text) (n : Nat) : (rounds : Nat) → (t : TypeIndex) →
    Decidable (SureWithin k x n rounds t)
  | 0, _ => inferInstanceAs (Decidable (_ = _))
  | rounds + 1, _ =>
    have := decidableSureWithin k x n rounds
    inferInstanceAs (Decidable (∀ order ∈ _, _ ∧ _))

/-- Then every order ends with that value. -/
lemma SureWithin.value?_eq {k x : Text} {n rounds : Nat} {t t' : TypeIndex}
    (h : SureWithin k x n rounds t) (hfolds : FoldsTo t t') : t'.value? k x = some n := by
  induction rounds generalizing t with
  | zero => exact hfolds.keeps k x n h
  | succ rounds ih =>
    cases hfolds with
    | done horder hsame => exact absurd hsame (h _ (List.mem_permutations'.mpr horder)).1
    | round horder _ hrest => exact ih (h _ (List.mem_permutations'.mpr horder)).2 hrest

/-- Folding may end with a value that is not that of its initialiser, and depends on the order of
the visits. The constant `z` of the first source ends as one in any order, while its initialiser `x`
ends as three. The `z` of the second source ends as one or as five. -/
theorem not_confluent_shadowed :
    (∃ u, parse "a.sol" hiddenSource = .ok u ∧ ¬ Confluent (.ofUnits [u]) ∧
      ∀ t, FoldsTo (start (.ofUnits [u])) t → t.value? "D" "z" = some 1 ∧
        t.value? "D" "x" = some 3) ∧
    ∃ u t t', parse "a.sol" overtakenSource = .ok u ∧ FoldsTo (start (.ofUnits [u])) t ∧
      FoldsTo (start (.ofUnits [u])) t' ∧ t.value? "D" "z" = some 1 ∧
        t'.value? "D" "z" = some 5 := by
  constructor
  · obtain ⟨u, hparse, ⟨⟨k, v⟩, hw, hfoldable, hvalue, hinitialiser⟩, hz, hx⟩ :
        ∃ u, parse "a.sol" hiddenSource = .ok u ∧
        (∃ w ∈ visits (ofSymbols (.ofUnits [u])).symbols.contracts.entries, IsFoldable w.2 ∧
          (ofSymbols (.ofUnits [u])).value? w.1 w.2.name = some 1 ∧
          constantValue? w.2.value ((ofSymbols (.ofUnits [u])).env w.1) = some 3) ∧
        SureWithin "D" "z" 1 3 (start (.ofUnits [u])) ∧
        SureWithin "D" "x" 3 3 (start (.ofUnits [u])) := by decide +kernel
    refine ⟨u, hparse, fun hconfluent => ?_, fun t ht => ⟨hz.value?_eq ht, hx.value?_eq ht⟩⟩
    have hright := hconfluent.right _ (foldsTo_ofSymbols _) k v 1 hw hfoldable hvalue
    exact absurd (Option.some.inj (hinitialiser.symm.trans hright)) (by decide)
  · -- the second order visits the contracts the other way round
    obtain ⟨u, hparse, hfirst, hsecond, hdone, hfive, hone⟩ :
        ∃ u, parse "a.sol" overtakenSource = .ok u ∧
        let symbols := SymbolTable.ofUnits [u]
        let backwards := visits symbols.contracts.entries.reverse
        let first := (start symbols).foldVisits backwards
        let second := first.foldVisits backwards
        first.folded ≠ (start symbols).folded ∧ second.folded ≠ first.folded ∧
          (second.foldVisits backwards).folded = second.folded ∧ second.value? "D" "z" = some 5 ∧
          (ofSymbols symbols).value? "D" "z" = some 1 := by decide +kernel
    have hbackwards : ∀ t : TypeIndex, t.symbols = .ofUnits [u] →
        (SymbolTable.ofUnits [u]).contracts.entries.reverse.Perm t.symbols.contracts.entries :=
      fun t ht => ht ▸ List.reverse_perm _
    refine ⟨u, _, _, hparse, foldsTo_ofSymbols _, .round (hbackwards _ rfl) hfirst ?_, hone, hfive⟩
    refine .round (hbackwards _ (symbols_foldVisits _ _)) hsecond ?_
    exact .done (hbackwards _ ((symbols_foldVisits _ _).trans (symbols_foldVisits _ _))) hdone

end ContractAudit.Analysis
