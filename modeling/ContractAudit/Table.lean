/-!
Finite maps as lists of entries.

A table keeps its keys in the order in which they were first set, and none is there twice
(`nodup_put`). Only what `get?` answers counts: `get?_set` says what setting a key changes.
-/

namespace ContractAudit

/-- A finite map. -/
structure Table (κ α : Type) where
  entries : List (κ × α)
  distinct : (entries.map (·.1)).Nodup
deriving Repr, DecidableEq

namespace Table

variable {κ α β : Type} [DecidableEq κ]

/-- The table without entries. -/
def empty : Table κ α := ⟨[], List.nodup_nil⟩

instance : Inhabited (Table κ α) := ⟨empty⟩

/-- The value of a key in a list of entries. -/
def find? (key : κ) : List (κ × α) → Option α
  | [] => none
  | (k, v) :: rest => if k = key then some v else find? key rest

/-- The value of a key. -/
def get? (t : Table κ α) (key : κ) : Option α := find? key t.entries

/-- Whether a key has a value. -/
def has (t : Table κ α) (key : κ) : Bool := (t.get? key).isSome

/-- Gives a key a value in a list of entries, in the place of its old one or at the end. -/
def put (key : κ) (value : α) : List (κ × α) → List (κ × α)
  | [] => [(key, value)]
  | (k, v) :: rest => if k = key then (k, value) :: rest else (k, v) :: put key value rest

theorem map_put (key : κ) (value : α) (es : List (κ × α)) :
    (put key value es).map (·.1) =
      if key ∈ es.map (·.1) then es.map (·.1) else es.map (·.1) ++ [key] := by
  induction es with
  | nil => simp [put]
  | cons e rest ih =>
    obtain ⟨k, v⟩ := e
    by_cases h : k = key
    · simp [put, h]
    · by_cases hmem : key ∈ rest.map (·.1)
      · rw [if_pos hmem] at ih
        simp only [put, if_neg h, List.map_cons, ih, List.mem_cons, hmem, or_true, if_true]
      · rw [if_neg hmem] at ih
        simp only [put, if_neg h, List.map_cons, ih, List.mem_cons, hmem, or_false, Ne.symm h,
          if_false, List.cons_append]

/-- Giving a key a value puts no key in twice. -/
theorem nodup_put (key : κ) (value : α) {es : List (κ × α)} (h : (es.map (·.1)).Nodup) :
    ((put key value es).map (·.1)).Nodup := by
  rw [map_put]
  split
  · exact h
  · next hnew =>
    refine List.nodup_append.mpr ⟨h, List.nodup_cons.mpr ⟨List.not_mem_nil, .nil⟩, ?_⟩
    intro k hk k' hk' heq
    rw [List.mem_singleton.mp hk'] at heq
    exact hnew (heq ▸ hk)

/-- Gives a key a value. -/
def set (t : Table κ α) (key : κ) (value : α) : Table κ α :=
  ⟨put key value t.entries, nodup_put key value t.distinct⟩

/-- Gives a key a value, if there is one to give. -/
def set? (t : Table κ α) (key : κ) : Option α → Table κ α
  | some value => t.set key value
  | none => t

/-- The keys, in the order in which they were first set. -/
def keys (t : Table κ α) : List κ := t.entries.map (·.1)

/-- The number of keys. -/
def size (t : Table κ α) : Nat := t.entries.length

/-- The table of a list of entries, of which a later one with the same key wins. -/
def ofList (entries : List (κ × α)) : Table κ α :=
  entries.foldl (fun t (k, v) => t.set k v) empty

/-- The table with every value changed. -/
def mapValues (f : α → β) (t : Table κ α) : Table κ β :=
  ⟨t.entries.map fun e => (e.1, f e.2), by simpa [Function.comp_def] using t.distinct⟩

/-- The table with the entries whose keys satisfy `p`. -/
def filterKeys (p : κ → Bool) (t : Table κ α) : Table κ α :=
  ⟨t.entries.filter fun e => p e.1, t.distinct.sublist (List.filter_sublist.map _)⟩

/-- The table that gives every key of a list one value. -/
def const (keys : List κ) (value : α) : Table κ α :=
  keys.foldl (fun t k => t.set k value) empty

theorem find?_put_self (key : κ) (value : α) (es : List (κ × α)) :
    find? key (put key value es) = some value := by
  induction es with
  | nil => simp [put, find?]
  | cons e rest ih =>
    obtain ⟨k, v⟩ := e
    by_cases h : k = key <;> simp [put, find?, h, ih]

theorem find?_put_ne {key other : κ} (value : α) (es : List (κ × α)) (h : other ≠ key) :
    find? other (put key value es) = find? other es := by
  induction es with
  | nil => simp [put, find?, h.symm]
  | cons e rest ih =>
    obtain ⟨k, v⟩ := e
    by_cases hk : k = key
    · subst hk
      simp [put, find?, h.symm]
    · simp only [put, if_neg hk, find?, ih]

/-- A key that was just set has its new value. -/
@[simp]
theorem get?_set_self (t : Table κ α) (key : κ) (value : α) :
    (t.set key value).get? key = some value :=
  find?_put_self key value t.entries

/-- Setting a key leaves every other key alone. -/
@[simp]
theorem get?_set_ne (t : Table κ α) {key other : κ} (value : α) (h : other ≠ key) :
    (t.set key value).get? other = t.get? other :=
  find?_put_ne value t.entries h

theorem get?_set (t : Table κ α) (key other : κ) (value : α) :
    (t.set key value).get? other = if other = key then some value else t.get? other := by
  by_cases h : other = key
  · subst h
    rw [get?_set_self, if_pos rfl]
  · rw [get?_set_ne t value h, if_neg h]

/-- The keys are those that have a value. -/
theorem mem_keys_iff {t : Table κ α} {key : κ} : key ∈ t.keys ↔ ∃ v, t.get? key = some v := by
  rw [keys, get?]
  induction t.entries with
  | nil => simp [find?]
  | cons e rest ih =>
    obtain ⟨k, v⟩ := e
    by_cases h : k = key
    · simp [find?, h]
    · simp [find?, h, ← ih, Ne.symm h]

theorem find?_eq_none {key : κ} {es : List (κ × α)} (h : key ∉ es.map (·.1)) :
    find? key es = none := by
  induction es with
  | nil => rfl
  | cons e rest ih =>
    rw [List.map_cons, List.mem_cons, not_or] at h
    rw [find?, if_neg (Ne.symm h.1), ih h.2]

/-- The entries are the keys with their values. -/
theorem mem_entries_iff {t : Table κ α} {key : κ} {value : α} :
    (key, value) ∈ t.entries ↔ t.get? key = some value := by
  obtain ⟨es, hnodup⟩ := t
  simp only [get?]
  induction es with
  | nil => simp [find?]
  | cons e rest ih =>
    obtain ⟨k, v⟩ := e
    obtain ⟨hnew, hrest⟩ := List.nodup_cons.mp hnodup
    by_cases h : k = key
    · subst h
      have hnot : (k, value) ∉ rest := fun hmem => hnew (List.mem_map.mpr ⟨_, hmem, rfl⟩)
      simp [find?, hnot, eq_comm]
    · simp [find?, h, Ne.symm h, ih hrest]

/-- The keys that a table keeps have their values. -/
theorem get?_filterKeys (p : κ → Bool) (t : Table κ α) (key : κ) :
    (t.filterKeys p).get? key = if p key then t.get? key else none := by
  refine Option.ext fun value => ?_
  rw [← mem_entries_iff, filterKeys, List.mem_filter, mem_entries_iff]
  split <;> simp [*]

theorem mem_entries_set {t : Table κ α} {key : κ} {value : α} {e : κ × α}
    (h : e ∈ (t.set key value).entries) : e = (key, value) ∨ e ∈ t.entries := by
  obtain ⟨k, v⟩ := e
  rw [mem_entries_iff, get?_set] at h
  split at h
  · next heq => exact .inl (by rw [heq, Option.some.inj h])
  · exact .inr (mem_entries_iff.mpr h)

/-- Giving each key of some entries a value, from its entry and the value it has, changes every key
by its own entry alone. -/
theorem get?_foldl_entries (value? : κ × β → Option α → Option α) {es : List (κ × β)}
    (hnodup : (es.map (·.1)).Nodup) (t : Table κ α) (key : κ) :
    (es.foldl (fun t e => t.set? e.1 (value? e (t.get? e.1))) t).get? key =
      match find? key es with
      | some w => (value? (key, w) (t.get? key)).or (t.get? key)
      | none => t.get? key := by
  induction es generalizing t with
  | nil => rfl
  | cons e rest ih =>
    obtain ⟨k, w⟩ := e
    obtain ⟨hnew, hrest⟩ := List.nodup_cons.mp hnodup
    rw [List.foldl_cons, ih hrest]
    by_cases h : k = key
    · subst h
      rw [find?_eq_none hnew]
      cases hvalue : value? (k, w) (t.get? k) <;> simp [set?, find?, hvalue]
    · have hsame : (t.set? k (value? (k, w) (t.get? k))).get? key = t.get? key := by
        cases value? (k, w) (t.get? k) <;> simp [set?, Ne.symm h]
      simp only [find?, if_neg h, hsame]

/-- Giving a value to a key that has one changes no key's having a value. -/
theorem has_set_of_has {t : Table κ α} {key : κ} (h : t.has key = true) (value : α) (other : κ) :
    (t.set key value).has other = t.has other := by
  rw [has, get?_set]
  split
  · next heq => rw [heq, h]; rfl
  · rfl

/-- Giving one value to several keys gives every key that value or leaves it its own. -/
theorem get?_foldl_set (keys : List κ) (value : α) (t : Table κ α) (key : κ) :
    (keys.foldl (fun t k => t.set k value) t).get? key =
      if key ∈ keys then some value else t.get? key := by
  induction keys generalizing t with
  | nil => rfl
  | cons k rest ih =>
    rw [List.foldl_cons, ih, get?_set]
    by_cases h : key = k <;> simp [h]

/-- Of several entries of a list with one key the last counts. -/
theorem get?_ofList [BEq κ] [LawfulBEq κ] (entries : List (κ × α)) (key : κ) :
    (ofList entries).get? key = (entries.reverse.find? fun e => e.1 == key).map (·.2) := by
  have hfold : ∀ t : Table κ α, (entries.foldl (fun t (k, v) => t.set k v) t).get? key =
      ((entries.reverse.find? fun e => e.1 == key).map (·.2)).or (t.get? key) := by
    induction entries with
    | nil => exact fun _ => rfl
    | cons e rest ih =>
      intro t
      rw [List.foldl_cons, ih, get?_set, List.reverse_cons, List.find?_append]
      by_cases hkey : key = e.1
      · subst hkey
        cases rest.reverse.find? fun other => other.1 == e.1 <;> simp
      · cases rest.reverse.find? fun other => other.1 == key <;> simp [hkey, Ne.symm hkey]
  exact (hfold empty).trans (Option.or_none ..)

/-- The values in the table of a list are those of its entries. -/
theorem mem_of_get?_ofList {entries : List (κ × α)} {key : κ} {value : α}
    (h : (ofList entries).get? key = some value) : (key, value) ∈ entries := by
  rw [get?_ofList, Option.map_eq_some_iff] at h
  obtain ⟨e, hfind, rfl⟩ := h
  have hkey := List.find?_some hfind
  obtain rfl : e.1 = key := eq_of_beq hkey
  exact List.mem_reverse.mp (List.mem_of_find?_eq_some hfind)

/-- The table that gives the listed keys one value has a value for these. -/
theorem get?_const (keys : List κ) (value : α) (key : κ) :
    (const keys value).get? key = if key ∈ keys then some value else none :=
  get?_foldl_set keys value empty key

theorem eq_of_get?_const {keys : List κ} {value a : α} {key : κ}
    (h : (const keys value).get? key = some a) : a = value := by
  rw [get?_const] at h
  split at h
  · exact (Option.some.inj h).symm
  · contradiction

end Table

end ContractAudit
