import Mathlib.Data.List.Basic
import ContractAudit.Json.Decode

/-!
Records are read back from the members they are written as.

* `items_map`: a list is read back when its items are.
* `record_flatten_cons`: members that are written group by group are read group by group.
* `record_cons`: what one member puts into a record.
* `record_textMember`, `record_listMember`: a text or a list that is left out when it is empty is
  read back over a record that has nothing there.
-/

namespace ContractAudit.Json.Decoder

variable {α β : Type}

/-- A list that is read over the empty list is read back when its items are. -/
lemma items_map {fresh : β} {item : Decoder β} {f : β → Json} {xs : List β}
    (h : ∀ x ∈ xs, item fresh (f x) = some x) : items fresh item [] (xs.map f) = some xs := by
  induction xs with
  | nil => rfl
  | cons x xs ih =>
    obtain ⟨hx, hxs⟩ := List.forall_mem_cons.mp h
    simp [items, hx, ih hxs]

variable {fields : List (Text × Decoder α)} {name : String} {old next : α}

lemma members_append (ms more : List (Text × Json)) :
    members fields old (ms ++ more) = (members fields old ms).bind fun next =>
      members fields next more := by
  induction ms generalizing old with
  | nil => rfl
  | cons m ms ih =>
    obtain ⟨name, v⟩ := m
    rw [List.cons_append, members, members]
    cases field? fields name with
    | none => exact ih
    | some read =>
      cases h : read old v with
      | none => simp [h]
      | some next => simpa [h] using ih

/-- Members in groups are read group by group. -/
lemma record_flatten_cons {ms : List (String × Json)} {more : List (List (String × Json))}
    (h : record fields old (object ms) = some next) :
    record fields old (object (ms :: more).flatten) = record fields next (object more.flatten) := by
  rw [object, record] at h
  rw [object, List.flatten_cons, List.map_append, record, members_append, h]
  rfl

/-! ### What a member puts into a record -/

/-- The first member puts what is read from it into its field. -/
lemma record_cons {get : α → β} {put : α → β → α} {read : Decoder β} {v : Json} {x : β}
    {ms : List (String × Json)}
    (hfield : field? fields name = some (field get put read)) (hread : read (get old) v = some x)
    (hput : put old x = next) : record fields old (object ((name, v) :: ms)) =
      record fields next (object ms) := by
  rw [object, List.map_cons, record, members, hfield]
  simp [field, hread, hput, record, object]

/-- A text that is left out when it is empty. -/
lemma record_textMember {get : α → Text} {put : α → Text → α} {t : Text}
    (hfield : field? fields name = some (field get put text)) (hempty : put old [] = old)
      (hput : put old t = next) :
    record fields old (object (textMember name t)) = some next := by
  cases t with
  | nil =>
    rw [← hput, hempty]
    rfl
  | cons c t => exact record_cons hfield rfl hput

/-- A list that is left out when it is empty. -/
lemma record_listMember {get : α → List β} {put : α → List β → α} {fresh : β} {item : Decoder β}
    {f : β → Json}
    {xs : List β} (hfield : field? fields name = some (field get put (list fresh item)))
      (hget : get old = [])
    (hempty : put old [] = old) (hput : put old xs = next)
      (hitems : ∀ x ∈ xs, item fresh (f x) = some x) :
    record fields old (object (listMember name f xs)) = some next := by
  cases xs with
  | nil =>
    rw [← hput, hempty]
    rfl
  | cons x xs =>
    refine record_cons hfield ?_ hput
    rw [hget]
    exact items_map hitems

end ContractAudit.Json.Decoder
