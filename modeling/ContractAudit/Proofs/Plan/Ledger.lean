import ContractAudit.Proofs.Plan.Trace

/-!
The ledger of completed passes.

* `successes`: the passes that succeeded in a trace, in order. An event adds its success to the
  ledger and changes nothing else in it (`after_ledger`), so a trace adds its successes
  (`Trace.completed_eq`, `Trace.executed_eq`).
* `Trace.ran_once`: behind a success the pass is not run again, since the ledger lists it from there
  on.
* `Request`: runs of every pass and runs on demand. `serve` takes any number of them in any order,
  on one session, and `trace_serve` says that the events of all of them make up one trace.
* `at_most_one_success`: what the ledger says at the end of it all (`Accounted`).
-/

namespace ContractAudit.Plan

variable {S A I : Type}

/-! ### What a trace adds to the ledger -/

/-- Whether a pass leaves the ledger to those who run it. -/
def Pass.LeavesLedger (p : Pass S A I) : Prop :=
  ∀ s, (p.run s).1.completed = s.completed ∧ (p.run s).1.stats.executed = s.stats.executed

/-- Whether all passes of the table leave it to them. -/
def LeaveLedger (passes : PassTable S A I) : Prop := ∀ id p, passes.get? id = some p →
    p.LeavesLedger

/-- The pass that succeeds in the event. -/
def Event.success? : Event S A I → Option Text
  | ran p s => if p.Succeeds s then some p.id else none
  | repeated _ _ | withheld _ _ => none

/-- The passes that succeed, one after the other. -/
def successes (log : List (Event S A I)) : List Text := log.filterMap Event.success?

lemma mem_successes_iff {log : List (Event S A I)} {id : Text} :
    id ∈ successes log ↔ ∃ p b, .ran p b ∈ log ∧ p.id = id ∧ p.Succeeds b := by
  simp only [successes, List.mem_filterMap]
  constructor
  · rintro ⟨⟨p, b⟩ | _ | _, he, hid⟩
    · simp only [Event.success?, Option.ite_none_right_eq_some, Option.some.injEq] at hid
      exact ⟨p, b, he, hid.2, hid.1⟩
    · cases hid
    · cases hid
  · rintro ⟨p, b, he, rfl, hrun⟩
    exact ⟨_, he, by simp [Event.success?, hrun]⟩

lemma successes_snoc (log : List (Event S A I)) (e : Event S A I) :
    successes (log ++ [e]) = successes log ++ e.success?.toList := by
  cases h : e.success? <;> simp [successes, h]

/-- A run of a pass that leaves the ledger alone. -/
lemma Pass.LeavesLedger.after_ran {p : Pass S A I} (hp : p.LeavesLedger) {s : Session S A I}
    (hnew : p.id ∉ s.completed) :
    (Event.ran p s).after.completed = s.completed ++ (Event.ran p s).success?.toList ∧
      (Event.ran p s).after.stats.executed =
        s.stats.executed + (Event.ran p s).success?.toList.length := by
  obtain ⟨hcompleted, hexecuted⟩ := hp s
  have hfirst : p.id ∉ ((p.run s).1.spend p.id 0).completed := by simpa [hcompleted] using hnew
  by_cases hrun : p.Succeeds s
  · simp [Event.after, Event.success?, hrun, Session.completed_complete _ hfirst,
      Session.executed_complete _ hfirst, hcompleted, hexecuted]
  · simp [Event.after, Event.success?, hrun, hcompleted, hexecuted]

/-- An event adds its success to the ledger, and counts it. -/
lemma after_ledger {passes : PassTable S A I} (hleaves : LeaveLedger passes) {e : Event S A I}
    (he : e.Allowed passes) :
    e.after.completed = e.before.completed ++ e.success?.toList ∧
      e.after.stats.executed = e.before.stats.executed + e.success?.toList.length := by
  cases e with
  | ran p s => exact (hleaves p.id p he.1).after_ran he.2
  | repeated id s => simp [Event.after, Event.before, Event.success?]
  | withheld id s => simp [Event.after, Event.before, Event.success?]

namespace Trace

variable {passes : PassTable S A I} {s t : Session S A I} {log : List (Event S A I)}

lemma completed_eq (hleaves : LeaveLedger passes) (h : Trace passes s log t) :
    t.completed = s.completed ++ successes log := by
  induction h with
  | nil => simp [successes]
  | snoc _ he ih =>
    rw [(after_ledger hleaves he).1, ih, successes_snoc, List.append_assoc]

lemma executed_eq (hleaves : LeaveLedger passes) (h : Trace passes s log t) :
    t.stats.executed = s.stats.executed + (successes log).length := by
  induction h with
  | nil => simp [successes]
  | snoc _ he ih =>
    rw [(after_ledger hleaves he).2, ih, successes_snoc, List.length_append, Nat.add_assoc]

lemma completed_nodup (hleaves : LeaveLedger passes) (h : Trace passes s log t)
    (hs : s.completed.Nodup) : t.completed.Nodup := by
  induction h with
  | nil => exact hs
  | @snoc log e _ he ih =>
    rw [(after_ledger hleaves he).1, List.nodup_append]
    refine ⟨ih, by cases e.success? <;> simp, fun id hid other hother => ?_⟩
    -- only a run can succeed, and the pass was not in the ledger when it was run
    cases e with
    | ran p b =>
      obtain ⟨-, rfl⟩ : p.Succeeds b ∧ p.id = other := by simpa [Event.success?] using hother
      exact fun hsame => he.2 (hsame ▸ hid)
    | repeated id b => simp [Event.success?] at hother
    | withheld id b => simp [Event.success?] at hother

/-- What has completed is not run. -/
lemma not_completed_of_ran (hleaves : LeaveLedger passes) (h : Trace passes s log t)
    {p : Pass S A I} {b : Session S A I} (hp : .ran p b ∈ log) : p.id ∉ s.completed := by
  obtain ⟨earlier, later, rfl⟩ := List.append_of_mem hp
  obtain ⟨hbefore, hallowed, -⟩ := h.of_append_cons
  intro hdone
  refine hallowed.2 ?_
  have hcompleted : b.completed = s.completed ++ successes earlier := hbefore.completed_eq hleaves
  rw [hcompleted]
  exact List.mem_append_left _ hdone

/-- Behind a success the pass is not run again. -/
lemma ran_once (hleaves : LeaveLedger passes) {earlier later : List (Event S A I)}
    {p q : Pass S A I} {b c : Session S A I} (h : Trace passes s (earlier ++ .ran p b :: later) t)
    (hrun : p.Succeeds b) (hq : .ran q c ∈ later) : q.id ≠ p.id := by
  obtain ⟨-, hallowed, hlater⟩ := h.of_append_cons
  have hnew : q.id ∉ (Event.ran p b).after.completed := hlater.not_completed_of_ran hleaves hq
  intro hsame
  refine hnew ?_
  rw [(after_ledger hleaves hallowed).1]
  simp [Event.success?, hrun, hsame]

end Trace

/-! ### Requests -/

/-- What can be asked of a roster. Passes of a group that runs in parallel have their turns in some
order, which the schedule of an arranged run gives. -/
inductive Request where
  | all (canceled : Bool)
  | arranged (schedule : Schedule) (canceled : Bool)
  | one (id : Text) (canceled : Bool)

namespace Roster

/-- The session that a request leaves behind. -/
def answer (r : Roster S A I) (s : Session S A I) : Request → Session S A I
  | .all canceled => (r.run canceled s).1
  | .arranged schedule canceled => (execute r.policy r.table canceled schedule s).1
  | .one id canceled => (r.runOne canceled id s).1

/-- The events of a request. -/
def answerLog (r : Roster S A I) (s : Session S A I) : Request → List (Event S A I)
  | .all canceled => r.runLog canceled s
  | .arranged schedule canceled => executeLog r.policy r.table canceled schedule s
  | .one id canceled => r.demandLog canceled (r.passes.length + 2) [] id s

/-- The session behind any number of requests. -/
def serve (r : Roster S A I) (requests : List Request) (s : Session S A I) : Session S A I :=
  requests.foldl r.answer s

/-- The events of any number of requests. -/
def serveLog (r : Roster S A I) : List Request → Session S A I → List (Event S A I)
  | [], _ => []
  | request :: rest, s => r.answerLog s request ++ r.serveLog rest (r.answer s request)

lemma trace_answer (r : Roster S A I) (s : Session S A I) (request : Request) :
    Trace r.table s (r.answerLog s request) (r.answer s request) := by
  cases request with
  | all canceled => exact r.trace_run canceled s
  | arranged schedule canceled => exact trace_execute r.named_table r.policy canceled schedule s
  | one id canceled => exact r.trace_demand canceled _ [] id s

lemma trace_serve (r : Roster S A I) (requests : List Request) (s : Session S A I) :
    Trace r.table s (r.serveLog requests s) (r.serve requests s) := by
  induction requests generalizing s with
  | nil => exact .nil
  | cons request rest ih => exact (r.trace_answer s request).append (ih _)

end Roster

/-- What the ledger of a session says about the events that led to it. -/
structure Accounted (s : Session S A I) (log : List (Event S A I)) (t : Session S A I) : Prop where
  once : ∀ earlier p b later, log = earlier ++ .ran p b :: later → p.Succeeds b →
    ∀ q c, .ran q c ∈ later → q.id ≠ p.id
  fresh : ∀ p b, .ran p b ∈ log → p.id ∉ s.completed
  order : t.completed = s.completed ++ successes log
  nodup : t.completed.Nodup
  completed_iff : ∀ id, id ∈ t.completed ↔
    id ∈ s.completed ∨ ∃ p b, .ran p b ∈ log ∧ p.id = id ∧ p.Succeeds b
  executed : t.stats.executed = t.completed.length

/-- **At most one successful run per pass.** Whatever is asked of a roster, in whatever order and
however often: no pass is run again once it has succeeded, and the ledger lists the passes that did,
in the order in which they did and each of them once. -/
theorem at_most_one_success (r : Roster S A I) (hleaves : ∀ p ∈ r.passes, p.LeavesLedger)
    (requests : List Request) (s : Session S A I) (hnodup : s.completed.Nodup)
    (hexecuted : s.stats.executed = s.completed.length) :
    Trace r.table s (r.serveLog requests s) (r.serve requests s) ∧
      Accounted s (r.serveLog requests s) (r.serve requests s) := by
  have htrace := r.trace_serve requests s
  have hknown : LeaveLedger r.table := fun id p hp => hleaves p (r.mem_of_get?_table hp)
  have horder := htrace.completed_eq hknown
  refine ⟨htrace, ?_, fun p b hp => htrace.not_completed_of_ran hknown hp, horder,
    htrace.completed_nodup hknown hnodup, fun id => ?_, ?_⟩
  · intro earlier p b later hlog hrun q c hq
    rw [hlog] at htrace
    exact htrace.ran_once hknown hrun hq
  · rw [horder, List.mem_append, mem_successes_iff]
  · rw [htrace.executed_eq hknown, horder, hexecuted, List.length_append]

/-- A pass that fails without the intermediate representation, and the one that generates it. -/
def sampleRoster : Roster Unit Unit Unit :=
  .ofPasses ⟨false, false, 0⟩ [
    ⟨⟨"late", "late", [], .program, .ast, []⟩, 0,
      fun s => (s, if s.hasIR then none else some .canceled)⟩,
    ⟨⟨irGeneration, irGeneration, [], .program, .ast, []⟩, 1, fun s => (s.setIR (), none)⟩]

/-- The late pass on demand, both passes twice, and the late one again. -/
def sampleRequests : List Request := [.one "late" false, .all false, .all false, .one "late" false]

/-- The late pass fails twice and succeeds once, behind the other one. -/
theorem at_most_one_success_sample :
    (∀ p ∈ sampleRoster.passes, p.LeavesLedger) ∧
      (sampleRoster.serveLog sampleRequests newSession).length = 5 ∧
      (sampleRoster.serve sampleRequests newSession).completed = [irGeneration, "late"] ∧
      Trace sampleRoster.table newSession (sampleRoster.serveLog sampleRequests newSession)
        (sampleRoster.serve sampleRequests newSession) ∧
      Accounted newSession (sampleRoster.serveLog sampleRequests newSession)
        (sampleRoster.serve sampleRequests newSession) := by
  have hleaves : ∀ p ∈ sampleRoster.passes, p.LeavesLedger := by
    intro p hp s
    simp only [sampleRoster, Roster.ofPasses, List.mem_cons, List.not_mem_nil, or_false] at hp
    obtain rfl | rfl := hp <;> exact ⟨rfl, rfl⟩
  exact ⟨hleaves, by decide +kernel, by decide +kernel,
    at_most_one_success sampleRoster hleaves sampleRequests newSession (by decide) (by decide)⟩

end ContractAudit.Plan
