import ContractAudit.Proofs.Plan.Levels
import ContractAudit.Proofs.Plan.Trace

/-!
What a pass finds done when it is run.

* `Settled`: a pass has completed, or has failed under a policy that goes on, or reads the
  intermediate representation and was passed over while there was none. More events keep it so
  (`Settled.mono`).
* `Stage.Settles`: a stage that does not fail settles its passes. Groups do (`settles_group`,
  `settles_overIR`), hence levels do (`settles_level`).
* `Orderly`: every run finds settled what the pass needs. Levels that are `InTurn` run in that way
  (`orderly_levels`), and so they do in a schedule with its groups in any order
  (`inTurn_of_earlier`, `InTurn.arranged`).
* `needs_settled_at_run`: all that a pass needs is settled when the pass is run. It need not have
  completed: `needs_open_at_run` has a pass that runs behind one that failed, and one that runs
  behind one passed over.
-/

namespace ContractAudit.Plan

open Relation (TransGen)

variable {S A I : Type} {id : Text} {log more : List (Event S A I)}

/-! ### Settled passes -/

/-- Whether a pass strikes nothing off the ledger. There is no operation on sessions that would. -/
def Pass.KeepsLedger (p : Pass S A I) : Prop := ∀ s, s.completed ⊆ (p.run s).1.completed

/-- Whether no pass of the table strikes anything off the ledger. -/
def KeepLedger (passes : PassTable S A I) : Prop := ∀ id p, passes.get? id = some p → p.KeepsLedger

/-- Whether the pass was run and failed. -/
def FailedIn (log : List (Event S A I)) (id : Text) : Prop :=
  ∃ p b, .ran p b ∈ log ∧ p.id = id ∧ ¬ p.Succeeds b

/-- Whether the pass was passed over for want of the intermediate representation. -/
def WithheldIn (log : List (Event S A I)) (id : Text) : Prop :=
  ∃ b, .withheld id b ∈ log ∧ b.hasIR = false

/-- Whether nothing more is to be done about a pass, where `ir` are the passes over the intermediate
representation. -/
def Settled (policy : RunPolicy) (ir : Text → Prop) (log : List (Event S A I)) (s : Session S A I)
    (id : Text) : Prop :=
  id ∈ s.completed ∨ (policy.failFast = false ∧ FailedIn log id) ∨ (ir id ∧ WithheldIn log id)

lemma failedIn_append : FailedIn (log ++ more) id ↔ FailedIn log id ∨ FailedIn more id := by
  simp only [FailedIn, List.mem_append, or_and_right, exists_or]

lemma FailedIn.mono (h : FailedIn log id) (hmore : log ⊆ more) : FailedIn more id := by
  obtain ⟨p, b, hran, hid, hrun⟩ := h
  exact ⟨p, b, hmore hran, hid, hrun⟩

lemma Settled.mono {policy : RunPolicy} {ir : Text → Prop} {s t : Session S A I}
    (h : Settled policy ir log s id) (hlog : log ⊆ more) (hcompleted : s.completed ⊆ t.completed) :
    Settled policy ir more t id := by
  obtain hdone | ⟨hpolicy, hfailed⟩ | ⟨hir, b, hb, hnone⟩ := h
  · exact .inl (hcompleted hdone)
  · exact .inr (.inl ⟨hpolicy, hfailed.mono hlog⟩)
  · exact .inr (.inr ⟨hir, b, hlog hb, hnone⟩)

/-- What has completed stays completed. -/
lemma Trace.completed_subset {passes : PassTable S A I} (hkeeps : KeepLedger passes)
    {s t : Session S A I} (h : Trace passes s log t) : s.completed ⊆ t.completed := by
  induction h with
  | nil => exact fun _ hid => hid
  | @snoc log e _ he ih =>
    intro id hid
    have hbefore := ih hid
    cases e with
    | ran p b =>
      have hafter : id ∈ (p.run b).1.completed := hkeeps p.id p he.1 b hbefore
      rw [Event.after]
      split_ifs <;> simp [hafter]
    | repeated other b => exact hbefore
    | withheld other b => exact hbefore

/-! ### Turns -/

section Passes

variable {passes : PassTable S A I} {policy : RunPolicy} {ir : Text → Prop} {ids seen : List Text}
  {s t : Session S A I} {log done : List (Event S A I)}
  {outcome : Option (PassRecord × Option Failure)} {ls : List ScheduleLevel}

/-- A known pass has completed behind its turn, or has failed in it and left an error. -/
lemma Turn.settles (h : Turn passes id s log t outcome) (hnamed : Named passes)
    (hknown : Known passes id) (failFast : Bool) (r : RunResult) :
    (id ∈ t.completed ∧ (∀ other, ¬ FailedIn log other) ∧ stopsAt failFast outcome = false ∧
        (r.record outcome).errors = r.errors) ∨
      (FailedIn log id ∧ stopsAt failFast outcome = failFast ∧
        ∃ e, (r.record outcome).errors = r.errors ++ [e]) := by
  cases h with
  | repeated h => exact .inl ⟨h, by simp [FailedIn], rfl, rfl⟩
  | unknown h record e => exact absurd hknown h
  | succeeded p hp h hrun record =>
    refine .inl ⟨by simp, ?_, rfl, rfl⟩
    rintro other ⟨q, b, hq, -, hfailed⟩
    obtain ⟨rfl, rfl⟩ : q = p ∧ b = s := by simpa using hq
    exact hfailed hrun
  | failed p hp h hrun record e =>
    exact .inr ⟨⟨p, s, List.mem_singleton_self _, hnamed id p hp, hrun⟩, rfl, e, rfl⟩

/-- A turn runs no other pass. -/
lemma Turn.id_of_ran {b : Session S A I} {p : Pass S A I} (h : Turn passes id s log t outcome)
    (hnamed : Named passes) (hran : .ran p b ∈ log) : p.id = id := by
  cases h with
  | repeated h => simp at hran
  | unknown h record e => simp at hran
  | succeeded q hq h hrun record =>
    obtain ⟨rfl, rfl⟩ : p = q ∧ b = s := by simpa using hran
    exact hnamed id p hq
  | failed q hq h hrun record e =>
    obtain ⟨rfl, rfl⟩ : p = q ∧ b = s := by simpa using hran
    exact hnamed id p hq

lemma id_mem_of_ran_mem_eachLog (hnamed : Named passes) {failFast : Bool} {b : Session S A I}
    {p : Pass S A I} (hran : .ran p b ∈ eachLog passes failFast ids s) : p.id ∈ ids := by
  induction ids generalizing s with
  | nil => cases hran
  | cons id rest ih =>
    rw [eachLog, List.mem_append] at hran
    obtain hturn | hrest := hran
    · have hid : p.id = id := (turn_runSingle passes id s).id_of_ran hnamed hturn
      exact List.mem_cons.mpr (.inl hid)
    · split at hrest
      · cases hrest
      · exact List.mem_cons_of_mem _ (ih hrest)

/-- Passes that have their turns one after the other leave an error for each that failed. If they
all have their turns, each has completed or failed. -/
lemma runEach_settles (hnamed : Named passes) (hkeeps : KeepLedger passes) (failFast : Bool)
    (hknown : ∀ id ∈ ids, Known passes id) (s : Session S A I) (r : RunResult) :
    ∃ added, (runEach passes failFast ids s r).2.errors = r.errors ++ added ∧
      (added = [] → ∀ id, ¬ FailedIn (eachLog passes failFast ids s) id) ∧
      (failFast = false ∨ added = [] → ∀ id ∈ ids,
        id ∈ (runEach passes failFast ids s r).1.completed ∨
          FailedIn (eachLog passes failFast ids s) id) := by
  induction ids generalizing s r with
  | nil => exact ⟨[], by simp [runEach], by simp [FailedIn, eachLog], by simp⟩
  | cons id rest ih =>
    obtain ⟨hid, hrest⟩ := List.forall_mem_cons.mp hknown
    have hturn := (turn_runSingle passes id s).settles hnamed hid failFast r
    obtain ⟨added, herrors, hnone, hsettled⟩ :=
      ih hrest (runSingle passes id s).1 (r.record (runSingle passes id s).2)
    have hkept : (runSingle passes id s).1.completed ⊆ _ :=
      (trace_runEach hnamed failFast rest _ (r.record (runSingle passes id s).2)).completed_subset
        hkeeps
    simp only [runEach, eachLog]
    obtain ⟨hdone, hclean, hgoesOn, hrecord⟩ | ⟨hfailed, hstop, e, hrecord⟩ := hturn
    · simp only [hgoesOn, Bool.false_eq_true, if_false, failedIn_append, hclean, false_or]
      refine ⟨added, herrors.trans (by rw [hrecord]), hnone, fun hall other hother => ?_⟩
      obtain rfl | hother := List.mem_cons.mp hother
      · exact .inl (hkept hdone)
      · exact hsettled hall other hother
    · cases failFast with
      | true =>
        simp only [hstop, if_true]
        exact ⟨[e], hrecord, by simp, by simp⟩
      | false =>
        simp only [hstop, Bool.false_eq_true, if_false, failedIn_append]
        refine ⟨e :: added, herrors.trans (by simp [hrecord]), by simp, fun _ other hother => ?_⟩
        obtain rfl | hother := List.mem_cons.mp hother
        · exact .inr (.inl hfailed)
        · exact (hsettled (.inl rfl) other hother).imp_right .inr

/-! ### Stages -/

namespace Stage

/-- Whether the stage settles the passes `ids` if it does not fail. -/
def Settles (policy : RunPolicy) (ir : Text → Prop) (a : Stage S A I) (ids : List Text) : Prop :=
  ∀ s r, (a.run s r).2.2 = none → ∀ id ∈ ids, Settled policy ir (a.log s r) (a.run s r).1 id

/-- Whether the stage runs no other passes than `ids`. -/
def RunsOnly (a : Stage S A I) (ids : List Text) : Prop :=
  ∀ s r p b, .ran p b ∈ a.log s r → p.id ∈ ids

lemma Settles.andThen (hkeeps : KeepLedger passes) {a b : Stage S A I} {more : List Text}
    (ha : a.Settles policy ir ids) (hb : b.Settles policy ir more) (htraced : b.Traced passes) :
    (a.andThen b).Settles policy ir (ids ++ more) := by
  intro s r hrun id hid
  have hfirst := ha s r
  simp only [Stage.andThen] at hrun ⊢
  rcases hstage : a.run s r with ⟨t, q, _ | e⟩
  · rw [hstage] at hfirst
    simp only [hstage] at hrun ⊢
    obtain hid | hid := List.mem_append.mp hid
    · exact (hfirst rfl id hid).mono (List.subset_append_left _ _)
        ((htraced t q).completed_subset hkeeps)
    · exact (hb t q hrun id hid).mono (List.subset_append_right _ _) fun _ h => h
  · simp [hstage] at hrun

lemma RunsOnly.andThen {a b : Stage S A I} {more : List Text} (ha : a.RunsOnly ids)
    (hb : b.RunsOnly more) : (a.andThen b).RunsOnly (ids ++ more) := by
  intro s r p c hran
  have hfirst := ha s r p c
  simp only [Stage.andThen] at hran
  rcases hstage : a.run s r with ⟨t, q, _ | e⟩
  · simp only [hstage, List.mem_append] at hran
    exact List.mem_append.mpr (hran.imp hfirst (hb t q p c))
  · simp only [hstage] at hran
    exact List.mem_append_left _ (hfirst hran)

lemma settles_group (hnamed : Named passes) (hkeeps : KeepLedger passes)
    (hknown : ∀ id ∈ ids, Known passes id) : (group policy passes ids).Settles policy ir ids := by
  intro s r hrun id hid
  simp only [group, runTogether] at hrun ⊢
  obtain ⟨added, herrors, hnone, hsettled⟩ := runEach_settles hnamed hkeeps
    (policy.failFast && !(policy.parallel && 1 < ids.length)) hknown s r
  -- a group that does not fail under the fail-fast policy has left no error, so none of its passes
  -- failed
  by_cases hpolicy : policy.failFast = true
  · rw [if_pos hpolicy, herrors, List.drop_left, List.head?_eq_none_iff] at hrun
    exact .inl ((hsettled (.inr hrun) id hid).resolve_right (hnone hrun id))
  · have hall : (policy.failFast && !(policy.parallel && 1 < ids.length)) = false := by
      simp [hpolicy]
    exact (hsettled (.inl hall) id hid).imp_right fun hfailed =>
      .inl ⟨by simpa using hpolicy, hfailed⟩

lemma mem_withheldLog (hid : id ∈ ids) (hir : s.hasIR = false) :
    WithheldIn (withheldLog ids s) id := by
  induction ids generalizing s with
  | nil => cases hid
  | cons other rest ih =>
    obtain rfl | hrest := List.mem_cons.mp hid
    · exact ⟨s, List.mem_cons_self, hir⟩
    · obtain ⟨b, hb, hnone⟩ := ih hrest (s := s.skip) hir
      exact ⟨b, List.mem_cons_of_mem _ hb, hnone⟩

lemma settles_overIR (hnamed : Named passes) (hkeeps : KeepLedger passes)
    (hknown : ∀ id ∈ ids, Known passes id) (hir : ∀ id ∈ ids, ir id) :
    (overIR policy passes ids).Settles policy ir ids := by
  intro s r hrun id hid
  by_cases hhas : s.hasIR = true
  · simp only [overIR, hhas, if_true] at hrun ⊢
    exact settles_group hnamed hkeeps hknown s r hrun id hid
  · simp only [overIR, hhas, Bool.false_eq_true, if_false]
    exact .inr (.inr ⟨hir id hid, mem_withheldLog hid (by simpa using hhas)⟩)

lemma runsOnly_group (hnamed : Named passes) (ids : List Text) :
    (group policy passes ids).RunsOnly ids :=
  fun _ _ _ _ hran => id_mem_of_ran_mem_eachLog hnamed hran

lemma runsOnly_overIR (hnamed : Named passes) (ids : List Text) :
    (overIR policy passes ids).RunsOnly ids := by
  have hwithheld : ∀ (ids : List Text) (s : Session S A I) (p : Pass S A I) (b : Session S A I),
      .ran p b ∉ withheldLog ids s := by
    intro ids
    induction ids with
    | nil => simp [withheldLog]
    | cons id rest ih => exact fun s p b hran => ih s.skip p b (by simpa [withheldLog] using hran)
  intro s r p b hran
  simp only [overIR] at hran
  split at hran
  · exact runsOnly_group hnamed ids s r p b hran
  · exact absurd hran (hwithheld ids s p b)

lemma settles_level (hnamed : Named passes) (hkeeps : KeepLedger passes) {l : ScheduleLevel}
    (hknown : ∀ id ∈ l.all, Known passes id) (hir : ∀ id ∈ l.ir, ir id) :
    (level policy passes l).Settles policy ir l.all := by
  simp only [ScheduleLevel.all, List.append_assoc, List.forall_mem_append] at hknown ⊢
  obtain ⟨hast, hover, hhybrid⟩ := hknown
  exact (settles_group hnamed hkeeps hast).andThen hkeeps
    ((settles_overIR hnamed hkeeps hover hir).andThen hkeeps (settles_group hnamed hkeeps hhybrid)
      (traced_group hnamed _))
    ((traced_overIR hnamed _).andThen (traced_group hnamed _))

lemma runsOnly_level (hnamed : Named passes) (l : ScheduleLevel) :
    (level policy passes l).RunsOnly l.all := by
  rw [ScheduleLevel.all, List.append_assoc]
  exact (runsOnly_group hnamed _).andThen ((runsOnly_overIR hnamed _).andThen
    (runsOnly_group hnamed _))

end Stage

/-! ### Levels in turn -/

/-- Whether every run finds settled what the pass needs, behind the events `done`. -/
def Orderly (policy : RunPolicy) (ir : Text → Prop) (done log : List (Event S A I)) : Prop :=
  ∀ earlier p b later, log = earlier ++ .ran p b :: later → ∀ dep ∈ p.requires,
    Settled policy ir (done ++ earlier) b dep

lemma orderly_nil : Orderly policy ir done [] := by
  intro earlier p b later heq
  simp at heq

lemma Orderly.append (h : Orderly policy ir done log) (hmore : Orderly policy ir (done ++ log) more)
    : Orderly policy ir done (log ++ more) := by
  intro earlier p b later heq dep hdep
  obtain ⟨between, rfl, hsplit⟩ | ⟨between, hlog, hsplit⟩ := List.append_eq_append_iff.mp heq
  · simpa using hmore between p b later hsplit dep hdep
  · cases between with
    | nil =>
      obtain rfl : log = earlier := by simpa using hlog
      simpa using hmore [] p b later hsplit.symm dep hdep
    | cons e rest =>
      obtain ⟨rfl, -⟩ := List.cons_eq_cons.mp hsplit
      exact h earlier p b rest hlog dep hdep

/-- Events of passes all of whose needs were settled before. -/
lemma Trace.orderly (hkeeps : KeepLedger passes) (h : Trace passes s log t)
    (hneeds : ∀ p b, .ran p b ∈ log → ∀ dep ∈ p.requires, Settled policy ir done s dep) :
    Orderly policy ir done log := by
  intro earlier p b later heq dep hdep
  rw [heq] at h
  have hbefore : s.completed ⊆ b.completed := h.of_append_cons.1.completed_subset hkeeps
  exact (hneeds p b (by simp [heq]) dep hdep).mono (List.subset_append_left _ _) hbefore

/-- Whether every pass of the levels is known and needs only passes of `seen` and of levels before
its own, and all passes that read the intermediate representation are in `ir`. -/
def InTurn (passes : PassTable S A I) (ir : Text → Prop) : List Text → List ScheduleLevel → Prop
  | _, [] => True
  | seen, l :: rest =>
    (∀ id ∈ l.all, Known passes id ∧ ∀ p, passes.get? id = some p → ∀ dep ∈ p.requires,
      dep ∈ seen) ∧ (∀ id ∈ l.ir, ir id) ∧ InTurn passes ir (seen ++ l.all) rest

/-- Levels in turn run in order: each of them settles its passes before the next. -/
lemma orderly_levels (hnamed : Named passes) (hkeeps : KeepLedger passes) (canceled : Bool)
    (n : Nat) (hturn : InTurn passes ir seen ls) (r : RunResult)
    (hseen : ∀ id ∈ seen, Settled policy ir done s id) :
    Orderly policy ir done ((Stage.levels policy passes canceled n ls).log s r) := by
  induction ls generalizing n seen done s r with
  | nil => exact orderly_nil
  | cons l rest ih =>
    obtain ⟨hlevel, hir, hrest⟩ := hturn
    rw [Stage.levels]
    split
    · exact orderly_nil
    have htrace : Trace passes s ((Stage.level policy passes l).log s r) _ :=
      Stage.traced_level hnamed l s r
    have hsettles : (Stage.level policy passes l).Settles policy ir l.all :=
      Stage.settles_level hnamed hkeeps (fun id hid => (hlevel id hid).1) hir
    have hfirst : Orderly policy ir done ((Stage.level policy passes l).log s r) := by
      refine htrace.orderly hkeeps fun p b hran dep hdep => hseen dep ?_
      have hid : p.id ∈ l.all := Stage.runsOnly_level hnamed l s r p b hran
      exact (hlevel p.id hid).2 p (htrace.allowed hran).1 dep hdep
    simp only [Stage.andThen]
    rcases hstage : (Stage.level policy passes l).run s r with ⟨t, q, _ | e⟩
    · have hall := hsettles s r
      rw [hstage] at htrace hall
      -- the next levels find settled what was so before, and the passes of this one
      refine hfirst.append (ih _ hrest q fun id hid => ?_)
      obtain hid | hid := List.mem_append.mp hid
      · exact (hseen id hid).mono (List.subset_append_left _ _) (htrace.completed_subset hkeeps)
      · exact (hall rfl id hid).mono (List.subset_append_right _ _) fun _ h => h
    · exact hfirst

/-! ### Schedules -/

/-- Whether a level has the groups of another, each in any order. -/
structure ScheduleLevel.Arranges (l m : ScheduleLevel) : Prop where
  ast : l.ast.Perm m.ast
  ir : l.ir.Perm m.ir
  hybrid : l.hybrid.Perm m.hybrid

/-- Whether a schedule has the groups of another, each in any order. In parallel a schedule may run
in the order of any of its arrangements. -/
def Schedule.Arranges (s t : Schedule) :
    Prop := List.Forall₂ ScheduleLevel.Arranges s.levels t.levels

lemma ScheduleLevel.Arranges.all {l m : ScheduleLevel} (h : l.Arranges m) : l.all.Perm m.all :=
  (h.ast.append h.ir).append h.hybrid

lemma InTurn.arranged {ms : List ScheduleLevel} (h : List.Forall₂ ScheduleLevel.Arranges ls ms)
    {more : List Text} (hseen : seen ⊆ more) (hturn : InTurn passes ir seen ms) :
    InTurn passes ir more ls := by
  induction h generalizing seen more with
  | nil => trivial
  | cons hl _ ih =>
    obtain ⟨hlevel, hir, hrest⟩ := hturn
    refine ⟨fun id hid => ?_, fun id hid => hir id (hl.ir.mem_iff.mp hid), ih ?_ hrest⟩
    · obtain ⟨hknown, hneeds⟩ := hlevel id (hl.all.mem_iff.mp hid)
      exact ⟨hknown, fun p hp dep hdep => hseen (hneeds p hp dep hdep)⟩
    · exact List.append_subset.mpr ⟨fun id hid => List.mem_append_left _ (hseen hid),
        fun id hid => List.mem_append_right _ (hl.all.mem_iff.mpr hid)⟩

/-- Levels are in turn if every pass needs only passes of `seen` and of earlier levels. -/
lemma inTurn_of_earlier (hknown : ∀ l ∈ ls, ∀ id ∈ l.all, Known passes id)
    (hir : ∀ l ∈ ls, ∀ id ∈ l.ir, ir id)
    (hearlier : ∀ (n : Nat) (l : ScheduleLevel), ls[n]? = some l → ∀ id ∈ l.all, ∀ p,
      passes.get? id = some p → ∀ dep ∈ p.requires,
        dep ∈ seen ∨ ∃ m < n, ∃ l' : ScheduleLevel, ls[m]? = some l' ∧ dep ∈ l'.all) :
    InTurn passes ir seen ls := by
  induction ls generalizing seen with
  | nil => trivial
  | cons l rest ih =>
    obtain ⟨hfirst, hrest⟩ := List.forall_mem_cons.mp hknown
    obtain ⟨hfirstIR, hrestIR⟩ := List.forall_mem_cons.mp hir
    refine ⟨fun id hid => ⟨hfirst id hid, fun p hp dep hdep => ?_⟩, hfirstIR, ih hrest hrestIR ?_⟩
    · obtain hseen | ⟨m, hm, -⟩ := hearlier 0 l rfl id hid p hp dep hdep
      · exact hseen
      · omega
    · intro n l' hl' id hid p hp dep hdep
      obtain hseen | ⟨m, hm, l'', hl'', hmem⟩ := hearlier (n + 1) l' hl' id hid p hp dep hdep
      · exact .inl (List.mem_append_left _ hseen)
      · cases m with
        | zero =>
          obtain rfl : l = l'' := Option.some.inj hl''
          exact .inl (List.mem_append_right _ hmem)
        | succ m => exact .inr ⟨m, by omega, l'', hl'', hmem⟩

end Passes

/-! ### Rosters -/

lemma exists_of_recorded_ir {ps : List PassSpec} (h : recorded ps id = .ir) :
    ∃ p ∈ ps, p.id = id ∧ p.representation = .ir := by
  unfold recorded at h
  cases hfound : ps.reverse.find? (·.id == id) with
  | none => simp [hfound] at h
  | some p =>
    have hid : p.id = id := by simpa using List.find?_some hfound
    exact ⟨p, List.mem_reverse.mp (List.mem_of_find?_eq_some hfound),
      hid, by simpa [hfound] using h⟩

namespace Roster

variable (r : Roster S A I)

/-- What the passes of a roster are called and need. -/
def specs : List PassSpec := r.passes.map (·.toPassSpec)

lemma graph_eq_built : r.graph = .built (r.specs.flatMap (·.registrations)) := by
  rw [graph, scheduler_eq]
  exact graph_ofPasses _

lemma has_table_iff : r.table.has id = true ↔ ∃ p ∈ r.passes, p.id = id := by
  simp [Table.has, r.table_passes _, List.find?_isSome]

/-- If every needed pass is there, everything that is registered is known. -/
lemma known_of_registered (hregistered : ∀ p ∈ r.passes, ∀ dep ∈ p.requires, ∃ q ∈ r.passes,
    q.id = dep) (h : Registered r.specs id) : Known r.table id := by
  have hmember : ∃ p ∈ r.passes, p.id = id := by
    obtain ⟨spec, hspec, hid⟩ := h
    obtain ⟨p, hp, rfl⟩ := List.mem_map.mp hspec
    obtain hid | hdep := hid
    · exact ⟨p, hp, hid⟩
    · exact hregistered p hp id hdep
  obtain ⟨p, hp⟩ : ∃ p, r.table.get? id = some p :=
    Option.isSome_iff_exists.mp (r.has_table_iff.mpr hmember)
  exact ⟨p, hp, fun dep hdep =>
    r.has_table_iff.mpr (hregistered p (r.mem_of_get?_table hp) dep hdep)⟩

/-- The levels of a schedule are in turn. -/
lemma inTurn_of_scheduled
    (hregistered : ∀ p ∈ r.passes, ∀ dep ∈ p.requires, ∃ q ∈ r.passes, q.id = dep)
    {levels : List (List Text)} {schedule : Schedule} (hlayered : Layered r.specs levels)
    (h : Scheduled r.specs levels schedule) :
    InTurn r.table (fun id => recorded r.specs id = .ir) [] schedule.levels := by
  refine inTurn_of_earlier (fun l hl id hid => ?_) (fun l hl id hid => ?_) ?_
  · obtain ⟨n, hn⟩ := List.mem_iff_getElem?.mp hl
    have hplaced : DependencyGraph.InLevel levels n id := (h.kept.2 n id).mp ⟨l, hn, hid⟩
    exact r.known_of_registered hregistered
      (hlayered.registered_iff.mpr (DependencyGraph.exists_inLevel_iff.mp ⟨n, hplaced⟩))
  · have hall : id ∈ l.all := by simp [ScheduleLevel.all, hid]
    exact (h.grouped l hl id hall).1.mp hid
  · intro n l hl id hid p hp dep hdep
    have hrequires : Requires r.specs id dep :=
      ⟨p.toPassSpec, List.mem_map_of_mem (r.mem_of_get?_table hp), r.named_table id p hp, hdep⟩
    obtain ⟨m, hlt, l', hl', hmem⟩ := h.earlier n id dep ⟨l, hl, hid⟩ hrequires
    exact .inr ⟨m, hlt, l', hl', hmem⟩

end Roster

/-- **What a pass needs is settled when it is run.** Passes that do not need each other in a circle,
and of which none needs one that is not there, have a schedule. Whenever a pass is run in it, in
whatever order groups run in parallel, everything the pass needs has had its turn before: it has
completed by then, or it has failed and failures do not end the run, or it is a pass over the
intermediate representation and was passed over because there was none. -/
theorem needs_settled_at_run (r : Roster S A I) (hacyclic : ∀ id, ¬ TransGen (Requires r.specs) id
    id) (hregistered : ∀ p ∈ r.passes, ∀ dep ∈ p.requires, ∃ q ∈ r.passes, q.id = dep)
    (hkeeps : ∀ p ∈ r.passes, p.KeepsLedger) :
    ∃ schedule, r.schedule = .ok schedule ∧ ∀ turns : Schedule, turns.Arranges schedule →
      ∀ canceled s, Trace r.table s (executeLog r.policy r.table canceled turns s)
        (execute r.policy r.table canceled turns s).1 ∧
      ∀ earlier p b later,
        executeLog r.policy r.table canceled turns s = earlier ++ .ran p b :: later →
        ∀ dep ∈ p.requires, dep ∈ b.completed ∨
          (r.policy.failFast = false ∧ FailedIn earlier dep) ∨
          ((∃ q ∈ r.passes, q.id = dep ∧ q.representation = .ir) ∧ WithheldIn earlier dep) := by
  obtain ⟨levels, hlevels, hlayered⟩ := levels_layered r.specs hacyclic
  have hturn := r.inTurn_of_scheduled hregistered hlayered hlayered.scheduled
  have hschedule := schedule_of_levels hlevels hlayered.full
  refine ⟨_, by rw [Roster.schedule, r.scheduler_eq, ← Roster.specs, hschedule], ?_⟩
  intro turns harranged canceled s
  refine ⟨trace_execute r.named_table r.policy canceled turns s, ?_⟩
  intro earlier p b later hlog dep hdep
  cases hpolicy : r.policy.failure? with
  | some e => simp [executeLog, hpolicy] at hlog
  | none =>
    simp only [executeLog, hpolicy] at hlog
    have horderly : Orderly r.policy (fun id => recorded r.specs id = .ir) []
        ((Stage.levels r.policy r.table canceled 0 turns.levels).log s {}) :=
      orderly_levels r.named_table (fun id p hp => hkeeps p (r.mem_of_get?_table hp)) canceled 0
        (hturn.arranged harranged (List.Subset.refl _)) {} (by simp)
    obtain hdone | hfailed | ⟨hir, hwithheld⟩ := horderly earlier p b later hlog dep hdep
    · exact .inl hdone
    · exact .inr (.inl hfailed)
    · obtain ⟨spec, hspec, hid, hrep⟩ := exists_of_recorded_ir hir
      obtain ⟨q, hq, rfl⟩ := List.mem_map.mp hspec
      exact .inr (.inr ⟨⟨q, hq, hid, hrep⟩, hwithheld⟩)

/-- A first pass, which may fail. -/
def firstPass (representation : Representation) (fails : Bool) : Pass Unit Unit Unit where
  toPassSpec := ⟨"first", "first", [], .program, representation, []⟩
  tag := 0
  run s := (s, if fails then some .canceled else none)

/-- A second pass, which needs the first. -/
def secondPass : Pass Unit Unit Unit where
  toPassSpec := ⟨"second", "second", [], .program, .ast, ["first"]⟩
  tag := 1
  run s := (s, none)

/-- Both of them. -/
def twoPasses (failFast : Bool) (representation : Representation) (fails : Bool) :
    Roster Unit Unit Unit :=
  .ofPasses ⟨failFast, false, 0⟩ [firstPass representation fails, secondPass]

lemma twoPasses_acyclic (failFast : Bool) (representation : Representation) (fails : Bool)
    (id : Text) :
    ¬ TransGen (Requires (twoPasses failFast representation fails).specs) id id := by
  refine acyclic_of_rank (fun id => if id = "first" then 0 else 1) ?_ id
  intro p hp dep hdep
  simp only [Roster.specs, twoPasses, Roster.ofPasses, List.map_cons, List.map_nil, List.mem_cons,
    List.not_mem_nil, or_false] at hp
  obtain rfl | rfl := hp
  · cases hdep
  · obtain rfl : dep = "first" := List.mem_singleton.mp hdep
    decide

lemma twoPasses_registered (failFast : Bool) (representation : Representation) (fails : Bool) :
    ∀ p ∈ (twoPasses failFast representation fails).passes, ∀ dep ∈ p.requires,
      ∃ q ∈ (twoPasses failFast representation fails).passes, q.id = dep := by
  intro p hp dep hdep
  simp only [twoPasses, Roster.ofPasses, List.mem_cons, List.not_mem_nil, or_false] at hp
  obtain rfl | rfl := hp
  · cases hdep
  · obtain rfl : dep = "first" := List.mem_singleton.mp hdep
    exact ⟨_, List.mem_cons_self, rfl⟩

/-- The first pass reads the intermediate representation, of which there is none: the second one
runs behind it, although the first failure would end the run. -/
theorem needs_settled_at_run_sample :
    (∀ p ∈ (twoPasses true .ir false).passes, p.KeepsLedger) ∧
      ∃ schedule, (twoPasses true .ir false).schedule = .ok schedule ∧
        executeLog (twoPasses true .ir false).policy (twoPasses true .ir false).table false schedule
          newSession = [.withheld "first" newSession, .ran secondPass newSession.skip] ∧
        (("first" : Text) ∈ newSession.skip.completed ∨
          ((twoPasses true .ir false).policy.failFast = false ∧
            FailedIn [.withheld "first" newSession] "first") ∨
          ((∃ q ∈ (twoPasses true .ir false).passes, q.id = "first" ∧ q.representation = .ir) ∧
            WithheldIn [.withheld "first" newSession] "first")) := by
  have hkeeps : ∀ p ∈ (twoPasses true .ir false).passes, p.KeepsLedger := by
    intro p hp s
    simp only [twoPasses, Roster.ofPasses, List.mem_cons, List.not_mem_nil, or_false] at hp
    obtain rfl | rfl := hp <;> exact List.Subset.refl _
  obtain ⟨schedule, hschedule, hsettled⟩ := needs_settled_at_run (twoPasses true .ir false)
    (twoPasses_acyclic true .ir false) (twoPasses_registered true .ir false) hkeeps
  have hcomputed : (twoPasses true .ir false).schedule =
      .ok ⟨[⟨[], ["first"], []⟩, ⟨["second"], [], []⟩], true, none⟩ := by rfl
  obtain rfl := Except.ok.inj (hschedule.symm.trans hcomputed)
  refine ⟨hkeeps, _, hcomputed, rfl, ?_⟩
  have hsame : ∀ l : ScheduleLevel, l.Arranges l := fun l => ⟨.refl _, .refl _, .refl _⟩
  exact (hsettled _ (List.forall₂_same.mpr fun l _ => hsame l) false newSession).2
    [.withheld "first" newSession] secondPass newSession.skip [] rfl "first"
      (List.mem_singleton_self _)

/-- Whether everything has completed that a pass needs, whenever one is run. -/
def CompletedAtRuns (log : List (Event S A I)) : Prop :=
  ∀ earlier p b later, log = earlier ++ .ran p b :: later → ∀ dep ∈ p.requires, dep ∈ b.completed

/-- A pass is run although one that it needs has failed, if failures do not end the run; and,
whatever the policy, although one that it needs was passed over for want of the intermediate
representation. -/
theorem needs_open_at_run :
    (∀ failFast representation fails id,
      ¬ TransGen (Requires (twoPasses failFast representation fails).specs) id id) ∧
      ¬ CompletedAtRuns ((twoPasses false .ast true).runLog false newSession) ∧
      ¬ CompletedAtRuns ((twoPasses true .ir false).runLog false newSession) := by
  refine ⟨twoPasses_acyclic, ?_, ?_⟩
  · intro h
    have hdone := h [.ran (firstPass .ast true) newSession] secondPass (newSession.spend "first" 0)
      [] rfl
      "first" (List.mem_singleton_self _)
    cases hdone
  · intro h
    have hdone := h [.withheld "first" newSession] secondPass newSession.skip [] rfl "first"
      (List.mem_singleton_self _)
    cases hdone

end ContractAudit.Plan
