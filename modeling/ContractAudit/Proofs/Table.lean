import Mathlib.Data.List.Nodup
import Mathlib.Data.List.Perm.Basic
import ContractAudit.Table

/-!
Tables and their entries.

* `put_eq_append`: a new key gets its entry at the end. So a list of entries with distinct keys is
  kept as it is by the table of the list (`entries_ofList`).
* `filter_entries`: the value of a key is that of its only entry. So the order of the entries makes
  no difference (`get?_of_perm`).
-/

namespace ContractAudit.Table

variable {κ α β : Type} [DecidableEq κ]

/-- A key that is not there is put at the end. -/
lemma put_eq_append {key : κ} {es : List (κ × α)} (h : find? key es = none) (value : α) :
    put key value es = es ++ [(key, value)] := by
  induction es with
  | nil => rfl
  | cons e rest ih =>
    obtain ⟨key', value'⟩ := e
    by_cases heq : key' = key
    · simp [find?, heq] at h
    · simp only [find?, if_neg heq] at h
      simp [put, heq, ih h]

/-- Entries with distinct keys are those of their table. -/
lemma entries_ofList {es : List (κ × α)} (hnodup : (es.map (·.1)).Nodup) :
    (ofList es).entries = es := by
  have hfold : ∀ t : Table κ α, ((t.entries ++ es).map (·.1)).Nodup →
      (es.foldl (fun t e => t.set e.1 e.2) t).entries = t.entries ++ es := by
    clear hnodup
    induction es with
    | nil => exact fun t _ => (List.append_nil _).symm
    | cons e rest ih =>
      intro t ht
      have hnew : find? e.1 t.entries = none := by
        rw [List.map_append, List.map_cons] at ht
        exact find?_eq_none fun hmem => (List.nodup_append.mp ht).2.2 _ hmem _ (by simp) rfl
      have hentries : (t.set e.1 e.2).entries = t.entries ++ [e] := put_eq_append hnew e.2
      rw [List.foldl_cons, ih _ (by rw [hentries]; simpa using ht), hentries]
      simp
  exact hfold empty hnodup

lemma ofList_entries (t : Table κ α) : ofList t.entries = t := by
  have h := entries_ofList t.distinct
  cases ht : ofList t.entries
  rw [ht] at h
  cases t
  exact (mk.injEq ..).mpr h

/-- Changing every value leaves the keys alone. -/
lemma get?_mapValues (f : α → β) (t : Table κ α) (key : κ) :
    (t.mapValues f).get? key = (t.get? key).map f := by
  obtain ⟨es, _⟩ := t
  simp only [mapValues, get?]
  clear * -
  induction es with
  | nil => rfl
  | cons e rest ih =>
    rw [List.map_cons, find?, find?, ih]
    split <;> rfl

variable {t t' : Table κ α}

/-- A key has one value. -/
lemma eq_of_mem_entries {key : κ} {v w : α} (hv : (key, v) ∈ t.entries)
    (hw : (key, w) ∈ t.entries) : v = w :=
  Option.some.inj ((mem_entries_iff.mp hv).symm.trans (mem_entries_iff.mp hw))

/-- The entries of a key. -/
lemma filter_entries (t : Table κ α) (key : κ) :
    t.entries.filter (fun e => e.1 = key) = ((t.get? key).map fun v => (key, v)).toList := by
  obtain ⟨entries, hnodup⟩ := t
  simp only [get?]
  induction entries with
  | nil => rfl
  | cons e rest ih =>
    obtain ⟨k, v⟩ := e
    obtain ⟨hnew, hrest⟩ := List.nodup_cons.mp hnodup
    by_cases hk : k = key
    · subst hk
      have hnone : rest.filter (fun e => e.1 = k) = [] :=
        List.filter_eq_nil_iff.mpr fun e he heq =>
          hnew (List.mem_map.mpr ⟨e, he, by simpa using heq⟩)
      simp [find?, hnone]
    · simp [find?, hk, ih hrest]

/-- The order of the entries makes no difference to what a key has. -/
lemma get?_of_perm (h : t'.entries.Perm t.entries) (key : κ) : t'.get? key = t.get? key := by
  refine Option.ext fun value => ?_
  rw [← mem_entries_iff, ← mem_entries_iff, h.mem_iff]

end ContractAudit.Table
