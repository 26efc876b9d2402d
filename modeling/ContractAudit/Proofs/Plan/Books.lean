import ContractAudit.Proofs.Plan.Ledger
import ContractAudit.Proofs.Plan.Parallel

/-!
The books of passes that run: what is reported of each of them, and what the session counts.

* `Entry`: a pass and what became of it. A result is the record of its entries
  (`RunResult.recordAll_eq`).
* `Accounts`: the ledger of a session has grown by the entries, and by nothing else. Accounts of
  parts of a run add up to accounts of the whole (`Accounts.append`).
* `Move`: what a step of a pass can do to the ledger (`move_advance`).
* `Work.Balanced`: the invariant of a group under way. A step of any pass keeps it
  (`Work.Balanced.turn`), so the ledger has grown by the entries of the group when all passes are
  finished (`Work.accounts_turns`).
-/

namespace ContractAudit.Plan

variable {S A I : Type} {passes : PassTable S A I}

/-! ### Entries -/

/-- A pass and what became of it: nothing if it was skipped. -/
structure Entry where
  id : Text
  outcome : Option (PassRecord × Option Failure)

namespace Entry

/-- The pass, if it has succeeded. -/
def success? : Entry → Option Text
  | ⟨id, some (_, none)⟩ => some id
  | _ => none

/-- Why the pass has failed, if it has. -/
def failure? : Entry → Option Failure
  | ⟨_, some (_, some e)⟩ => some e
  | _ => none

/-- The record of the pass. -/
def record? (x : Entry) : Option PassRecord := x.outcome.map (·.1)

/-- Whether the pass was skipped. -/
def isSkip (x : Entry) : Bool := x.outcome.isNone

/-- Whether the record has the name of the pass, and says whether and why it has failed. -/
def Reported (x : Entry) : Prop :=
  ∀ record cause, x.outcome = some (record, cause) →
    record.id = x.id ∧ record.success = cause.isNone ∧
      record.error = (cause.map (·.message)).getD []

end Entry

section Entries

attribute [local simp] Entry.record? Entry.success? Entry.failure? Entry.isSkip List.filterMap_cons
  List.countP_cons

/-- Records what became of passes, one after the other. -/
def RunResult.recordAll (r : RunResult) (entries : List Entry) : RunResult :=
  entries.foldl (fun r x => r.record x.outcome) r

/-- What the entries add to a result. -/
lemma RunResult.recordAll_eq (r : RunResult) (entries : List Entry) :
    r.recordAll entries =
      { passes := r.passes ++ entries.filterMap Entry.record?
        successful := r.successful + (entries.filterMap Entry.success?).length
        failed := r.failed + (entries.filterMap Entry.failure?).length
        skipped := r.skipped + entries.countP Entry.isSkip
        errors := r.errors ++ entries.filterMap Entry.failure? } := by
  induction entries generalizing r with
  | nil => simp [recordAll]
  | cons x rest ih =>
    have hfirst : r.recordAll (x :: rest) = (r.record x.outcome).recordAll rest := rfl
    rw [hfirst, ih]
    obtain ⟨id, _ | ⟨record, _ | e⟩⟩ := x <;>
      simp [RunResult.record] <;> omega

/-- Every pass is a success, a failure or a skip, and there are records of the successes and the
failures. -/
lemma length_entries (entries : List Entry) :
    (entries.filterMap Entry.success?).length + (entries.filterMap Entry.failure?).length +
        entries.countP Entry.isSkip = entries.length ∧
      (entries.filterMap Entry.record?).length =
        (entries.filterMap Entry.success?).length + (entries.filterMap Entry.failure?).length := by
  induction entries with
  | nil => exact ⟨rfl, rfl⟩
  | cons x rest ih =>
    obtain ⟨id, _ | ⟨record, _ | e⟩⟩ := x <;> simp <;> omega

variable {entries : List Entry} (h : ∀ x ∈ entries, x.Reported)
include h

/-- The records have the names of the passes that were not skipped, in order. -/
lemma sublist_of_reported : ((entries.filterMap Entry.record?).map (·.id)).Sublist
    (entries.map (·.id)) := by
  induction entries with
  | nil => exact .slnil
  | cons x rest ih =>
    obtain ⟨hx, hrest⟩ := List.forall_mem_cons.mp h
    obtain ⟨id, _ | ⟨record, cause⟩⟩ := x
    · exact (ih hrest).cons id
    · have hid : record.id = id := (hx record cause rfl).1
      simpa [hid] using ih hrest

/-- The records that say so are those of the passes that have succeeded. -/
lemma successes_of_reported :
    ((entries.filterMap Entry.record?).filter (·.success)).map (·.id) =
      entries.filterMap Entry.success? := by
  induction entries with
  | nil => rfl
  | cons x rest ih =>
    obtain ⟨hx, hrest⟩ := List.forall_mem_cons.mp h
    obtain ⟨id, _ | ⟨record, _ | e⟩⟩ := x
    · simpa using ih hrest
    · obtain ⟨hid, hsuccess, -⟩ := hx record none rfl
      simpa [hid, hsuccess] using ih hrest
    · obtain ⟨-, hsuccess, -⟩ := hx record (some e) rfl
      simpa [hsuccess] using ih hrest

/-- The other records have the messages of the failures. -/
lemma failures_of_reported :
    ((entries.filterMap Entry.record?).filter (!·.success)).map (·.error) =
      (entries.filterMap Entry.failure?).map (·.message) := by
  induction entries with
  | nil => rfl
  | cons x rest ih =>
    obtain ⟨hx, hrest⟩ := List.forall_mem_cons.mp h
    obtain ⟨id, _ | ⟨record, _ | e⟩⟩ := x
    · simpa using ih hrest
    · obtain ⟨-, hsuccess, -⟩ := hx record none rfl
      simpa [hsuccess] using ih hrest
    · obtain ⟨-, hsuccess, herror⟩ := hx record (some e) rfl
      simpa [hsuccess, herror] using ih hrest

/-- The first record of a failure is that of the first pass that has failed. -/
lemma find?_of_reported {e : Failure} (hfirst : (entries.filterMap Entry.failure?).head? = some e) :
    ∃ x ∈ entries, ∃ record, x.failure? = some e ∧ record.id = x.id ∧ record.error = e.message ∧
      (entries.filterMap Entry.record?).find? (!·.success) = some record := by
  induction entries with
  | nil => cases hfirst
  | cons x rest ih =>
    obtain ⟨hx, hrest⟩ := List.forall_mem_cons.mp h
    obtain ⟨id, _ | ⟨record, _ | cause⟩⟩ := x
    · obtain ⟨y, hy, record, hfound⟩ := ih hrest (by simpa using hfirst)
      exact ⟨y, List.mem_cons_of_mem _ hy, record, by simpa using hfound⟩
    · obtain ⟨-, hsuccess, -⟩ := hx record none rfl
      obtain ⟨y, hy, record', hfound⟩ := ih hrest (by simpa using hfirst)
      exact ⟨y, List.mem_cons_of_mem _ hy, record', by simpa [hsuccess] using hfound⟩
    · obtain ⟨hid, hsuccess, herror⟩ := hx record (some cause) rfl
      obtain rfl : cause = e := by simpa using hfirst
      exact ⟨_, List.mem_cons_self, record, rfl, hid, herror, by simp [hsuccess]⟩

end Entries

/-! ### The ledger of a session -/

/-- Whether a pass leaves all the counts of the session to those who run it, and the completed
passes. -/
structure Pass.LeavesCounts (p : Pass S A I) : Prop where
  ledger : p.LeavesLedger
  skipped : ∀ s, (p.run s).1.stats.skipped = s.stats.skipped

/-- Whether the ledger has grown by just these entries. -/
structure Accounts (s : Session S A I) (entries : List Entry) (t : Session S A I) : Prop where
  executed : t.stats.executed = s.stats.executed + (entries.filterMap Entry.success?).length
  skipped : t.stats.skipped = s.stats.skipped + entries.countP Entry.isSkip
  completed : t.completed.Perm (s.completed ++ entries.filterMap Entry.success?)
  fresh : ∀ id ∈ entries.filterMap Entry.success?, id ∉ s.completed

namespace Accounts

lemma nil (s : Session S A I) : Accounts s [] s := ⟨rfl, rfl, by simp, by simp⟩

lemma append {s t u : Session S A I} {xs ys : List Entry} (h : Accounts s xs t)
    (h' : Accounts t ys u) : Accounts s (xs ++ ys) u := by
  refine ⟨?_, ?_, ?_, fun id hid => ?_⟩
  · rw [h'.executed, h.executed, List.filterMap_append, List.length_append, Nat.add_assoc]
  · rw [h'.skipped, h.skipped, List.countP_append, Nat.add_assoc]
  · rw [List.filterMap_append, ← List.append_assoc]
    exact h'.completed.trans (h.completed.append_right _)
  · rw [List.filterMap_append, List.mem_append] at hid
    refine hid.elim (h.fresh id) fun hid hold => h'.fresh id hid ?_
    exact h.completed.mem_iff.mpr (List.mem_append_left _ hold)

end Accounts

/-! ### Groups under way -/

namespace Progress

/-- Whether the pass is finished and has succeeded. -/
def succeeded : Progress → Bool
  | finished (some (_, none)) => true
  | _ => false

/-- Whether the pass is finished and was skipped. -/
def skipped : Progress → Bool
  | finished none => true
  | _ => false

/-- Whether the pass was found not to have completed before. -/
def begun : Progress → Bool
  | waiting | finished none => false
  | _ => true

end Progress

/-- What a step of a pass can do to the ledger: the pass is skipped, or it is marked as completed,
or the ledger stays as it is. -/
inductive Move (id : Text) : Progress × Session S A I → Progress × Session S A I → Prop
  | skips (s : Session S A I) : Move id (.waiting, s) (.finished none, s.skip)
  | marks (s : Session S A I) (record : PassRecord) (h : Entry.Reported ⟨id, some (record, none)⟩) :
      Move id (.noted none, s) (.finished (some (record, none)), s.complete id)
  | keeps {old new : Progress} {s t : Session S A I}
      (hledger : t.completed = s.completed ∧ t.stats.executed = s.stats.executed ∧
        t.stats.skipped = s.stats.skipped)
      (htally : new.succeeded = old.succeeded ∧ new.skipped = old.skipped)
      (hbegun : new.begun = true → old.begun = true ∨ id ∉ s.completed)
      (hreported : Entry.Reported ⟨id, old.outcome⟩ → Entry.Reported ⟨id, new.outcome⟩) :
      Move id (old, s) (new, t)

lemma Session.skipped_complete (s : Session S A I) (id : Text) :
    (s.complete id).stats.skipped = s.stats.skipped := by
  unfold complete
  split <;> rfl

lemma Move.still (id : Text) (now : Progress × Session S A I) : Move id now now :=
  .keeps ⟨rfl, rfl, rfl⟩ ⟨rfl, rfl⟩ .inl fun h => h

section Steps

variable (hleaves : ∀ id p, passes.get? id = some p → p.LeavesCounts)

/-- The refusal of a pass has its name and the reason. -/
lemma reported_of_lookUp_error {id : Text} {record : PassRecord} {e : Failure}
    (h : lookUp passes id = .error (record, e)) : Entry.Reported ⟨id, some (record, some e)⟩ := by
  rintro _ _ ⟨⟩
  unfold lookUp at h
  split at h
  · cases h
    exact ⟨rfl, rfl, rfl⟩
  · split at h
    · cases h
      exact ⟨rfl, rfl, rfl⟩
    · cases h

include hleaves

lemma move_advance (id : Text) (now : Progress × Session S A I) :
    Move id now (advance passes id now) := by
  obtain ⟨progress, s⟩ := now
  cases progress with
  | waiting =>
    rw [advance]
    split
    · exact .skips s
    · next hnew =>
        have hfresh : id ∉ s.completed := mt s.isCompleted_iff.mpr hnew
        split
        · next record e hrefused =>
            exact .keeps ⟨rfl, rfl, rfl⟩ ⟨rfl, rfl⟩ (fun _ => .inr hfresh)
              fun _ => reported_of_lookUp_error hrefused
        · exact .keeps ⟨rfl, rfl, rfl⟩ ⟨rfl, rfl⟩ (fun _ => .inr hfresh) fun h => h
  | entered =>
    rw [advance]
    split
    · exact .still id _
    · next p hp =>
        have hcounts := hleaves id p (get?_of_lookUp hp)
        exact .keeps ⟨(hcounts.ledger s).1, (hcounts.ledger s).2, hcounts.skipped s⟩ ⟨rfl, rfl⟩
          (fun _ => .inl rfl) fun h => h
  | ran cause => exact .keeps ⟨rfl, rfl, rfl⟩ ⟨rfl, rfl⟩ (fun _ => .inl rfl) fun h => h
  | noted cause =>
    cases hp : lookUp passes id with
    | error refusal => simpa [advance, hp] using Move.still id (Progress.noted cause, s)
    | ok p =>
      cases cause with
      | none =>
        simp only [advance, hp]
        refine .marks s _ ?_
        rintro _ _ ⟨⟩
        exact ⟨rfl, rfl, rfl⟩
      | some cause =>
        simp only [advance, hp]
        refine .keeps ⟨rfl, rfl, rfl⟩ ⟨rfl, rfl⟩ (fun _ => .inl rfl) fun _ => ?_
        rintro _ _ ⟨⟩
        exact ⟨rfl, rfl, rfl⟩
  | finished outcome => exact .still id _

end Steps

section Selections

variable (f : Progress → Bool) (progress : Text → Progress) (id : Text) (new : Progress)

/-- A selection of passes stays as it is if the next step of a pass makes no difference to it. -/
lemma filter_update_of_eq (h : f new = f (progress id)) (ids : List Text) :
    ids.filter (fun x => f (Function.update progress id new x)) = ids.filter fun x =>
      f (progress x) := by
  refine List.filter_congr fun x _ => ?_
  by_cases hx : x = id
  · rw [hx, Function.update_self, h]
  · rw [Function.update_of_ne hx]

/-- Otherwise the pass joins it. -/
lemma perm_filter_update (hold : f (progress id) = false) (hnew : f new = true) {ids : List Text}
    (hnodup : ids.Nodup) (hid : id ∈ ids) :
    (ids.filter fun x => f (Function.update progress id new x)).Perm
      ((ids.filter fun x => f (progress x)) ++ [id]) := by
  refine (List.perm_ext_iff_of_nodup (hnodup.filter _) ?_).mpr fun x => ?_
  · refine List.nodup_append.mpr ⟨hnodup.filter _, List.nodup_singleton id, fun x hx y hy hxy => ?_⟩
    obtain rfl := List.mem_singleton.mp hy
    simp [hxy, hold] at hx
  · by_cases hx : x = id
    · simp [hx, hid, hnew]
    · simp [hx]

end Selections

namespace Work

/-- Whether a pass of a group that began in the session `s` has come this far in good order: it has
begun only if it had not completed, and what became of it is reported. -/
structure Fair (s : Session S A I) (id : Text) (progress : Progress) : Prop where
  fresh : progress.begun = true → id ∉ s.completed
  reported : Entry.Reported ⟨id, progress.outcome⟩

/-- The books of a group under way that began in the session `s`: the passes that are finished are
in the ledger, and those that have begun were not in it. -/
structure Balanced (ids : List Text) (s : Session S A I) (w : Work S A I) : Prop where
  executed : w.session.stats.executed =
    s.stats.executed + (ids.filter fun id => (w.progress id).succeeded).length
  skipped : w.session.stats.skipped = s.stats.skipped +
    (ids.filter fun id => (w.progress id).skipped).length
  completed : w.session.completed.Perm (s.completed ++ ids.filter fun id =>
    (w.progress id).succeeded)
  fair : ∀ id, Fair s id (w.progress id)

variable {ids : List Text} {s : Session S A I} {w : Work S A I}

lemma balanced_start (ids : List Text) (s : Session S A I) : (start s).Balanced ids s := by
  refine ⟨?_, ?_, ?_, fun _ => ⟨fun h => (by cases h), fun _ _ h => (by cases h)⟩⟩ <;>
    simp [start, Progress.succeeded, Progress.skipped]

section Turns

variable (hleaves : ∀ id p, passes.get? id = some p → p.LeavesCounts) (hnodup : ids.Nodup)
include hleaves hnodup

/-- A step of any pass of the group keeps the books balanced. -/
lemma Balanced.turn (h : w.Balanced ids s) {id : Text} (hid : id ∈ ids) :
    (w.turn passes id).Balanced ids s := by
  have hmove := move_advance hleaves id (w.progress id, w.session)
  obtain ⟨progress, session⟩ := w
  rw [Work.turn]
  dsimp only at hmove ⊢
  generalize advance passes id (progress id, session) = next at hmove ⊢
  generalize hnow : progress id = now at hmove
  cases hmove with
  | skips =>
    have hsucceeded :=
      filter_update_of_eq Progress.succeeded progress id (.finished none) (by rw [hnow]; rfl) ids
    have hskipped := perm_filter_update Progress.skipped progress id (.finished none)
      (by rw [hnow]; rfl) rfl hnodup hid
    refine ⟨?_, ?_, ?_, (Function.forall_update_iff _ _).mpr ⟨⟨?_, ?_⟩, fun x _ => h.fair x⟩⟩
    · rw [hsucceeded]
      exact h.executed
    · rw [hskipped.length_eq, List.length_append, ← Nat.add_assoc]
      exact congrArg (· + 1) h.skipped
    · rw [hsucceeded]
      exact h.completed
    · intro hbegun
      cases hbegun
    · rintro _ _ ⟨⟩
  | marks _ record hrecord =>
    have hfresh : id ∉ s.completed := (h.fair id).fresh (by simp [hnow, Progress.begun])
    -- the other passes of the group have marked themselves only
    have hunmarked : id ∉ session.completed := by
      intro hmem
      obtain hold | hmem := List.mem_append.mp (h.completed.mem_iff.mp hmem)
      · exact hfresh hold
      · simp [hnow, Progress.succeeded] at hmem
    have hsucceeded := perm_filter_update Progress.succeeded progress id
      (.finished (some (record, none))) (by rw [hnow]; rfl) rfl hnodup hid
    have hskipped := filter_update_of_eq Progress.skipped progress id
      (.finished (some (record, none))) (by rw [hnow]; rfl) ids
    refine ⟨?_, ?_, ?_, (Function.forall_update_iff _ _).mpr ⟨⟨fun _ => hfresh, hrecord⟩,
      fun x _ => h.fair x⟩⟩
    · rw [hsucceeded.length_eq, List.length_append, ← Nat.add_assoc,
        session.executed_complete hunmarked]
      exact congrArg (· + 1) h.executed
    · rw [hskipped, session.skipped_complete]
      exact h.skipped
    · rw [session.completed_complete hunmarked]
      refine (h.completed.append_right [id]).trans ?_
      rw [List.append_assoc]
      exact hsucceeded.symm.append_left _
  | @keeps _ new _ t hledger htally hbegun hreported =>
    obtain ⟨hcompleted, hexecuted, hskips⟩ := hledger
    have hsucceeded :=
      filter_update_of_eq Progress.succeeded progress id new (by rw [hnow, htally.1]) ids
    have hskipped :=
      filter_update_of_eq Progress.skipped progress id new (by rw [hnow, htally.2]) ids
    refine ⟨?_, ?_, ?_, (Function.forall_update_iff _ _).mpr ⟨⟨?_, ?_⟩, fun x _ => h.fair x⟩⟩
    · rw [hsucceeded, hexecuted]
      exact h.executed
    · rw [hskipped, hskips]
      exact h.skipped
    · rw [hsucceeded, hcompleted]
      exact h.completed
    · intro hnew
      obtain hold | hunmarked := hbegun hnew
      · exact (h.fair id).fresh (by rwa [← hnow] at hold)
      · exact fun hmem => hunmarked (h.completed.mem_iff.mpr (List.mem_append_left _ hmem))
    · exact hreported (hnow ▸ (h.fair id).reported)

lemma Balanced.turns {order : List Text} (honly : ∀ id ∈ order, id ∈ ids)
    (h : w.Balanced ids s) : (w.turns passes order).Balanced ids s := by
  induction order generalizing w with
  | nil => exact h
  | cons id rest ih =>
    obtain ⟨hid, hrest⟩ := List.forall_mem_cons.mp honly
    exact ih hrest (h.turn hleaves hnodup hid)

end Turns

/-- The entries of a group, in order. -/
def entries (w : Work S A I) (ids : List Text) : List Entry := ids.map fun id =>
    ⟨id, (w.progress id).outcome⟩

lemma record_eq_recordAll (w : Work S A I) (ids : List Text) (r : RunResult) :
    w.record ids r = r.recordAll (w.entries ids) := by
  rw [record, RunResult.recordAll, entries, List.foldl_map]

/-- When all passes are finished, the ledger has grown by the entries of the group. -/
lemma Balanced.accounts (h : w.Balanced ids s) (hfinished : w.Finished ids) :
    Accounts s (w.entries ids) w.session := by
  have hsuccesses : (w.entries ids).filterMap Entry.success? = ids.filter fun id =>
    (w.progress id).succeeded := by
    rw [entries, List.filterMap_map, ← List.filterMap_eq_filter]
    refine List.filterMap_congr fun id _ => ?_
    rcases hprogress : w.progress id with _ | _ | _ | _ | _ | ⟨record, _ | e⟩ <;>
      simp [Entry.success?, Progress.outcome, Progress.succeeded, hprogress, Option.guard]
  have hskips : (w.entries ids).countP Entry.isSkip =
    (ids.filter fun id => (w.progress id).skipped).length := by
    rw [entries, List.countP_map, ← List.countP_eq_length_filter]
    refine List.countP_congr fun id hid => ?_
    have hdone := hfinished id hid
    rcases hprogress : w.progress id with _ | _ | _ | _ | _ | ⟨record, _ | e⟩ <;>
      simp [Entry.isSkip, Progress.outcome, Progress.skipped, Progress.isFinished, hprogress]
        at hdone ⊢
  refine ⟨?_, ?_, ?_, fun id hid => ?_⟩
  · rw [hsuccesses, h.executed]
  · rw [hskips, h.skipped]
  · rw [hsuccesses]
    exact h.completed
  · rw [hsuccesses, List.mem_filter] at hid
    refine (h.fair id).fresh ?_
    rcases hprogress : w.progress id with _ | _ | _ | _ | _ | ⟨record, _ | e⟩ <;>
      simp [Progress.succeeded, Progress.begun, hprogress] at hid ⊢

/-- Passes that have had their turns in any order until all were finished. -/
lemma accounts_turns (hleaves : ∀ id p, passes.get? id = some p → p.LeavesCounts)
    {order : List Text} (hnodup : ids.Nodup) (honly : ∀ id ∈ order, id ∈ ids)
    (hfinished : ((start s).turns passes order).Finished ids) :
    Accounts s (((start s).turns passes order).entries ids) ((start s).turns passes order).session ∧
      ∀ x ∈ ((start s).turns passes order).entries ids, x.Reported := by
  have hbalanced := (balanced_start ids s).turns hleaves hnodup honly
  refine ⟨hbalanced.accounts hfinished, fun x hx => ?_⟩
  obtain ⟨id, -, rfl⟩ := List.mem_map.mp hx
  exact (hbalanced.fair id).reported

end Work

end ContractAudit.Plan
