import ContractAudit.Proofs.Plan.Books

/-!
A run accounts for every scheduled pass.

* `reached`: the passes that have a turn when passes run one after the other. A run that stops early
  is a run of these (`runEach_eq_reached`).
* `GroupRuns`, `GroupsRun`, `ScheduleRun`: runs of groups and of schedules under a policy, with the
  turns of passes that run in parallel in any order. The run in order is one of them
  (`exists_scheduleRun_execute`).
* `Settles`: what such a run comes to, put together from what its groups come to
  (`GroupsRun.settles`).
* `execute_accounts`: the result and the ledger agree, every pass is counted unless a failure has
  ended the run, and then it is the first one.
-/

namespace ContractAudit.Plan

variable {S A I : Type} {passes : PassTable S A I}

/-! ### Passes one after the other -/

/-- The passes that have a turn when they run one after the other: with `failFast` none behind the
first that fails. -/
def reached (passes : PassTable S A I) (failFast : Bool) : List Text → Session S A I → List Text
  | [], _ => []
  | id :: rest, s =>
    id :: if stopsAt failFast (runSingle passes id s).2 then []
      else reached passes failFast rest (runSingle passes id s).1

lemma reached_isPrefix (passes : PassTable S A I) (failFast : Bool) (ids : List Text)
    (s : Session S A I) :
    List.IsPrefix (reached passes failFast ids s) ids := by
  induction ids generalizing s with
  | nil => exact List.prefix_rfl
  | cons id rest ih =>
    rw [reached]
    refine (List.prefix_cons_inj id).mpr ?_
    split
    · exact List.nil_prefix
    · exact ih _

lemma reached_false (ids : List Text) (s : Session S A I) : reached passes false ids s = ids := by
  induction ids generalizing s with
  | nil => rfl
  | cons id rest ih =>
    rw [reached, stopsAt_false, ih]
    rfl

/-- A run that stops early is a run of the passes it reaches. -/
lemma runEach_eq_reached (failFast : Bool) (ids : List Text) (s : Session S A I) (r : RunResult) :
    runEach passes failFast ids s r = runEach passes false (reached passes failFast ids s) s r := by
  induction ids generalizing s r with
  | nil => rfl
  | cons id rest ih =>
    rw [reached, runEach_cons]
    simp only [runEach]
    split
    · rfl
    · exact ih _ _

/-- It stops early at a failure only. -/
lemma reached_eq_or_failed (failFast : Bool) (ids : List Text) (s : Session S A I) (r : RunResult) :
    reached passes failFast ids s = ids ∨
      r.errors.length < (runEach passes failFast ids s r).2.errors.length := by
  induction ids generalizing s r with
  | nil => exact .inl rfl
  | cons id rest ih =>
    rw [reached]
    simp only [runEach]
    have hgrows : r.errors.length ≤ (r.record (runSingle passes id s).2).errors.length := by
      rcases (runSingle passes id s).2 with _ | ⟨record, _ | e⟩ <;> simp [RunResult.record]
    split
    · next hstops =>
        right
        rcases hrun : (runSingle passes id s).2 with _ | ⟨record, _ | e⟩
        · simp [hrun, stopsAt] at hstops
        · simp [hrun, stopsAt] at hstops
        · simp [RunResult.record]
    · exact (ih _ _).imp (congrArg (id :: ·)) hgrows.trans_lt

/-- The body of a pass is called only if the pass is reached. -/
lemma exists_reached_of_ran {failFast : Bool} {ids : List Text} {s b : Session S A I}
    {p : Pass S A I} (h : .ran p b ∈ eachLog passes failFast ids s) :
    ∃ id ∈ reached passes failFast ids s, passes.get? id = some p := by
  induction ids generalizing s with
  | nil => cases h
  | cons id rest ih =>
    rw [eachLog, List.mem_append] at h
    rw [reached]
    obtain hturn | hlater := h
    · refine ⟨id, List.mem_cons_self, ?_⟩
      unfold turnLog at hturn
      split at hturn
      · simp at hturn
      · split at hturn
        · cases hturn
        · next q hq =>
            split at hturn
            · obtain ⟨rfl, -⟩ : p = q ∧ b = s := by simpa using hturn
              exact hq
            · cases hturn
    · split at hlater
      · cases hlater
      · next hgoesOn =>
          obtain ⟨other, hother, hp⟩ := ih hlater
          rw [if_neg hgoesOn]
          exact ⟨other, List.mem_cons_of_mem id hother, hp⟩

/-! ### Runs of groups -/

/-- A group of passes, and whether they need the intermediate representation. -/
structure Group where
  ids : List Text
  overIR : Bool

/-- The groups of a level, in the order in which they run. -/
def ScheduleLevel.groups (l : ScheduleLevel) :
    List Group := [⟨l.ast, false⟩, ⟨l.ir, true⟩, ⟨l.hybrid, false⟩]

/-- The groups of a schedule. -/
def Schedule.groups (schedule : Schedule) : List Group := schedule.levels.flatMap (·.groups)

lemma Schedule.flatMap_groups (schedule : Schedule) :
    schedule.groups.flatMap (·.ids) = schedule.levels.flatMap (·.all) := by
  rw [groups, List.flatMap_assoc]
  refine List.flatMap_congr fun l _ => ?_
  simp [ScheduleLevel.groups, ScheduleLevel.all]

/-- A run of a group under a policy: the passes that have turns, in the order in which they have
them, the session and the result behind it, and the failure that ends the whole run. Without the
intermediate representation a group that needs it is skipped. In parallel the turns come in any
order until all passes are finished, and what became of the passes is recorded in the order of the
group. -/
inductive GroupRuns (policy : RunPolicy) (passes : PassTable S A I) (g : Group) (s : Session S A I)
    (r : RunResult) : List Text → Session S A I → RunResult → Option Failure → Prop
  | withheld (hneeds : g.overIR = true) (hir : s.hasIR = false) :
      GroupRuns policy passes g s r [] (skipAll g.ids s r).1 (skipAll g.ids s r).2 none
  | inOrder (hready : g.overIR = true → s.hasIR = true)
      (hmode : (policy.parallel && decide (1 < g.ids.length)) = false) :
      GroupRuns policy passes g s r (reached passes policy.failFast g.ids s)
        (runTogether policy passes g.ids s r).1 (runTogether policy passes g.ids s r).2.1
        (runTogether policy passes g.ids s r).2.2
  | atOnce (hready : g.overIR = true → s.hasIR = true)
      (hmode : (policy.parallel && decide (1 < g.ids.length)) = true) (order : List Text)
      (honly : ∀ id ∈ order, id ∈ g.ids) (hfinished : ((Work.start s).turns passes order).Finished
        g.ids) :
      GroupRuns policy passes g s r order ((Work.start s).turns passes order).session
        (((Work.start s).turns passes order).record g.ids r)
        (if policy.failFast then
          ((((Work.start s).turns passes order).record g.ids r).errors.drop r.errors.length).head?
        else none)

/-- Groups run one after the other until a failure ends the run. -/
inductive GroupsRun (policy : RunPolicy) (passes : PassTable S A I) :
    List Group → Session S A I → RunResult → List Text → Session S A I → RunResult →
      Option Failure → Prop
  | done (s : Session S A I) (r : RunResult) : GroupsRun policy passes [] s r [] s r none
  | stopped {g : Group} {s t : Session S A I} {r q : RunResult} {turns : List Text} {e : Failure}
      (h : GroupRuns policy passes g s r turns t q (some e)) (rest : List Group) :
      GroupsRun policy passes (g :: rest) s r turns t q (some e)
  | next {g : Group} {rest : List Group} {s s₁ t : Session S A I} {r r₁ q : RunResult}
      {turns later : List Text} {failure : Option Failure}
        (h : GroupRuns policy passes g s r turns s₁ r₁ none)
      (hrest : GroupsRun policy passes rest s₁ r₁ later t q failure) :
      GroupsRun policy passes (g :: rest) s r (turns ++ later) t q failure

/-! ### What a run comes to -/

/-- What a run of groups comes to: the entries it has made, in the order of the groups, all of them
unless a failure has ended the run, and the failure that did. Nothing but the failing group and the
groups before it have had turns. -/
structure Settles (policy : RunPolicy) (groups : List Group) (s : Session S A I)
    (entries : List Entry)
    (turns : List Text) (t : Session S A I) (failure : Option Failure) : Prop where
  accounts : Accounts s entries t
  reported : ∀ x ∈ entries, x.Reported
  part : List.IsPrefix (entries.map (·.id)) (groups.flatMap (·.ids))
  full : failure = none → entries.map (·.id) = groups.flatMap (·.ids)
  first : failure = if policy.failFast then (entries.filterMap Entry.failure?).head? else none
  inside : ∀ id ∈ turns, id ∈ groups.flatMap (·.ids)
  last : failure ≠ none → ∃ earlier g later, groups = earlier ++ g :: later ∧
    (∀ x ∈ entries, x.failure? ≠ none → x.id ∈ g.ids) ∧
      ∀ id ∈ turns, id ∈ (earlier ++ [g]).flatMap (·.ids)

namespace Settles

variable {policy : RunPolicy} {groups : List Group} {g : Group} {s t u : Session S A I}
    {xs ys : List Entry}
  {turns later : List Text} {failure : Option Failure} {e : Failure}

lemma nil (policy : RunPolicy) (s : Session S A I) : Settles policy [] s [] [] s none :=
  ⟨.nil s, by simp, by simp, by simp, by simp, by simp, by simp⟩

/-- A run of one group that has come as far as `part`. -/
lemma single {part : List Text} (haccounts : Accounts s xs t) (hreported : ∀ x ∈ xs, x.Reported)
    (hids : xs.map (·.id) = part) (hpart : List.IsPrefix part g.ids) (hfull : failure = none →
      part = g.ids)
    (hfailure : failure = if policy.failFast then (xs.filterMap Entry.failure?).head? else none)
    (hinside : ∀ id ∈ turns, id ∈ g.ids) : Settles policy [g] s xs turns t failure := by
  subst hids
  have hgroup : [g].flatMap (·.ids) = g.ids := by simp
  refine ⟨haccounts, hreported, by rwa [hgroup], by rwa [hgroup], hfailure, by
    rwa [hgroup], fun _ => ?_⟩
  refine ⟨[], g, [], rfl, fun x hx _ => hpart.subset (List.mem_map_of_mem hx), ?_⟩
  rwa [List.nil_append, hgroup]

/-- A failure ends the run, whatever comes behind. -/
lemma stop (h : Settles policy groups s xs turns t (some e)) (rest : List Group) :
    Settles policy (groups ++ rest) s xs turns t (some e) := by
  have hids : (groups ++ rest).flatMap (·.ids) = groups.flatMap (·.ids) ++ rest.flatMap (·.ids) :=
    List.flatMap_append
  refine ⟨h.accounts, h.reported, ?_, fun hnone => (by cases hnone), h.first, fun id hid => ?_,
    fun hsome => ?_⟩
  · rw [hids]
    exact h.part.trans (List.prefix_append _ _)
  · rw [hids]
    exact List.mem_append_left _ (h.inside id hid)
  · obtain ⟨earlier, g, later, hgroups, hlast⟩ := h.last hsome
    exact ⟨earlier, g, later ++ rest, by simp [hgroups], hlast⟩

/-- Otherwise the rest of the groups go on. -/
lemma append (h : Settles policy [g] s xs turns t none)
    (h' : Settles policy groups t ys later u failure) :
    Settles policy (g :: groups) s (xs ++ ys) (turns ++ later) u failure := by
  have hids : (g :: groups).flatMap (·.ids) = [g].flatMap (·.ids) ++ groups.flatMap (·.ids) := by
    simp
  have hmap : (xs ++ ys).map (·.id) = [g].flatMap (·.ids) ++ ys.map (·.id) := by
    rw [List.map_append, h.full rfl]
  -- under the fail-fast policy the first group had no failures
  have hclean : policy.failFast = true → xs.filterMap Entry.failure? = [] := fun hfast => by
    have hnone := h.first
    rw [if_pos hfast] at hnone
    exact List.head?_eq_none_iff.mp hnone.symm
  refine ⟨h.accounts.append h'.accounts, fun x hx => ?_, ?_, fun hnone => ?_, ?_, fun id hid => ?_,
    fun hsome => ?_⟩
  · exact (List.mem_append.mp hx).elim (h.reported x) (h'.reported x)
  · rw [hmap, hids]
    exact (List.prefix_append_right_inj _).mpr h'.part
  · rw [hmap, hids, h'.full hnone]
  · rw [h'.first]
    split
    · next hfast => rw [List.filterMap_append, hclean hfast, List.nil_append]
    · rfl
  · rw [hids]
    exact List.mem_append.mpr ((List.mem_append.mp hid).imp (h.inside id) (h'.inside id))
  · obtain ⟨earlier, last, rest, hgroups, hfailed, hturns⟩ := h'.last hsome
    have hfast : policy.failFast = true := by
      by_contra hslow
      exact hsome (h'.first.trans (if_neg hslow))
    refine ⟨g :: earlier, last, rest, by rw [hgroups]; rfl, fun x hx hx' => ?_, fun id hid => ?_⟩
    · obtain hx | hx := List.mem_append.mp hx
      · obtain ⟨cause, hcause⟩ := Option.ne_none_iff_exists'.mp hx'
        have hmem : cause ∈ xs.filterMap Entry.failure? := List.mem_filterMap.mpr ⟨x, hx, hcause⟩
        rw [hclean hfast] at hmem
        cases hmem
      · exact hfailed x hx hx'
    · rw [List.cons_append, List.flatMap_cons]
      refine List.mem_append.mpr ((List.mem_append.mp hid).imp (fun hid => ?_) (hturns id))
      simpa using h.inside id hid

end Settles

/-- The failures that entries add to a result. -/
lemma RunResult.drop_errors_recordAll (r : RunResult) (entries : List Entry) :
    (r.recordAll entries).errors.drop r.errors.length = entries.filterMap Entry.failure? := by
  rw [recordAll_eq]
  exact List.drop_left

/-- Passes that are skipped for want of the intermediate representation. -/
lemma accounts_skipAll (ids : List Text) (s : Session S A I) (r : RunResult) :
    Accounts s (ids.map fun id => ⟨id, none⟩) (skipAll ids s r).1 ∧
      (skipAll ids s r).2 = r.recordAll (ids.map fun id => ⟨id, none⟩) := by
  induction ids generalizing s r with
  | nil => exact ⟨.nil s, rfl⟩
  | cons id rest ih =>
    obtain ⟨haccounts, hresult⟩ := ih s.skip (r.record none)
    have hfirst : Accounts s [⟨id, none⟩] s.skip := by
      refine ⟨rfl, rfl, ?_, ?_⟩ <;> simp [List.filterMap_cons, Entry.success?]
    refine ⟨hfirst.append haccounts, Eq.trans ?_ hresult⟩
    simp [skipAll, RunResult.record, Nat.add_comm, Nat.add_left_comm]

/-- The entries of passes have the names of the passes. -/
lemma map_id_entries (outcome : Text → Option (PassRecord × Option Failure)) (ids : List Text) :
    (ids.map fun id => (⟨id, outcome id⟩ : Entry)).map (·.id) = ids := by
  simp [Function.comp_def]

section Settled

variable (hleaves : ∀ id p, passes.get? id = some p → p.LeavesCounts)
include hleaves

/-- Passes that run one after the other have their turns in blocks. -/
lemma exists_entries_runEach (failFast : Bool) {ids : List Text} (hnodup : ids.Nodup)
    (s : Session S A I) (r : RunResult) :
    ∃ entries, Accounts s entries (runEach passes failFast ids s r).1 ∧
      (∀ x ∈ entries, x.Reported) ∧ entries.map (·.id) = reached passes failFast ids s ∧
      (runEach passes failFast ids s r).2 = r.recordAll entries := by
  have hdistinct := hnodup.sublist (reached_isPrefix passes failFast ids s).sublist
  have hfinished : ((Work.start s).turns passes (blocks (fun _ => 4) _)).Finished _ :=
    Work.finished_blocks hdistinct fun _ _ => rfl
  obtain ⟨hsession, hrecord⟩ := Work.turns_blocks hdistinct (fun _ _ => rfl) hfinished r
  obtain ⟨haccounts, hreported⟩ :=
    Work.accounts_turns hleaves hdistinct (fun _ => mem_of_mem_blocks) hfinished
  rw [Work.record_eq_recordAll, Work.start, ← runEach_eq_reached] at hrecord
  rw [hsession, Work.start, ← runEach_eq_reached] at haccounts
  exact ⟨_, haccounts, hreported, map_id_entries _ _, hrecord.symm⟩

lemma GroupRuns.settles {policy : RunPolicy} {g : Group} {s t : Session S A I} {r q : RunResult}
    {turns : List Text} {failure : Option Failure} (hnodup : g.ids.Nodup)
    (h : GroupRuns policy passes g s r turns t q failure) :
    ∃ entries, Settles policy [g] s entries turns t failure ∧ q = r.recordAll entries := by
  cases h with
  | withheld _ _ =>
    obtain ⟨haccounts, hresult⟩ := accounts_skipAll g.ids s r
    have hfailures : (g.ids.map fun id => (⟨id, none⟩ : Entry)).filterMap Entry.failure? = [] := by
      simp [List.filterMap_eq_nil_iff, Entry.failure?]
    refine ⟨_, .single haccounts (fun x hx => ?_) (map_id_entries _ _) List.prefix_rfl
      (fun _ => rfl) ?_ (by simp), hresult⟩
    · obtain ⟨id, -, rfl⟩ := List.mem_map.mp hx
      rintro _ _ ⟨⟩
    · simp [hfailures]
  | inOrder _ hmode =>
    have hreached := reached_isPrefix passes policy.failFast g.ids s
    obtain ⟨entries, haccounts, hreported, hids, hresult⟩ :=
      exists_entries_runEach hleaves policy.failFast hnodup s r
    have hrun : runTogether policy passes g.ids s r = ((runEach passes policy.failFast g.ids s r).1,
        r.recordAll entries, if policy.failFast then (entries.filterMap Entry.failure?).head?
          else none) := by
      simp [runTogether, hmode, hresult, RunResult.drop_errors_recordAll]
    rw [hrun]
    refine ⟨entries, .single haccounts hreported hids hreached (fun hnone => ?_) rfl
      fun id hid => hreached.subset hid, rfl⟩
    -- a run that stops early has a failure
    cases hfast : policy.failFast with
    | false => exact reached_false g.ids s
    | true =>
      rw [hfast, if_pos rfl, List.head?_eq_none_iff] at hnone
      obtain hall | hfailed := reached_eq_or_failed true g.ids s r
      · exact hall
      · rw [hfast] at hresult
        simp [hresult, RunResult.recordAll_eq, hnone] at hfailed
  | atOnce _ _ order honly hfinished =>
    obtain ⟨haccounts, hreported⟩ := Work.accounts_turns hleaves hnodup honly hfinished
    refine ⟨_, .single haccounts hreported (map_id_entries _ _) List.prefix_rfl
      (fun _ => rfl) ?_ honly, Work.record_eq_recordAll _ _ _⟩
    rw [Work.record_eq_recordAll, RunResult.drop_errors_recordAll]

lemma GroupsRun.settles {policy : RunPolicy} {groups : List Group} {s t : Session S A I}
    {r q : RunResult}
    {turns : List Text} {failure : Option Failure} (hnodup : ∀ g ∈ groups, g.ids.Nodup)
    (h : GroupsRun policy passes groups s r turns t q failure) :
    ∃ entries, Settles policy groups s entries turns t failure ∧ q = r.recordAll entries := by
  induction h with
  | done s r => exact ⟨[], .nil policy s, rfl⟩
  | stopped hgroup rest =>
    obtain ⟨entries, hsettles, hresult⟩ := hgroup.settles hleaves (hnodup _ List.mem_cons_self)
    exact ⟨entries, hsettles.stop rest, hresult⟩
  | next hgroup _ ih =>
    obtain ⟨hfirst, hrest⟩ := List.forall_mem_cons.mp hnodup
    obtain ⟨xs, hsettles, hresult⟩ := hgroup.settles hleaves hfirst
    obtain ⟨ys, hsettles', hresult'⟩ := ih hrest
    refine ⟨xs ++ ys, hsettles.append hsettles', ?_⟩
    rw [hresult', hresult, RunResult.recordAll, RunResult.recordAll, RunResult.recordAll,
      List.foldl_append]

end Settled

/-! ### Runs of schedules -/

section Schedules

variable {policy : RunPolicy} {s t : Session S A I} {r q : RunResult} {turns : List Text}

lemma GroupsRun.single {g : Group} {failure : Option Failure}
    (h : GroupRuns policy passes g s r turns t q failure) :
    GroupsRun policy passes [g] s r turns t q failure := by
  cases failure with
  | some e => exact .stopped h []
  | none => simpa using GroupsRun.next h (.done t q)

lemma GroupsRun.stop {groups : List Group} {e : Failure}
    (h : GroupsRun policy passes groups s r turns t q (some e)) (rest : List Group) :
    GroupsRun policy passes (groups ++ rest) s r turns t q (some e) := by
  generalize hfailure : some e = failure at h
  induction h with
  | done s r => cases hfailure
  | stopped hgroup later => exact .stopped hgroup (later ++ rest)
  | next hgroup _ ih => exact .next hgroup (ih hfailure)

lemma GroupsRun.append {groups later : List Group} {s₁ : Session S A I} {r₁ : RunResult}
    {turns' : List Text} {failure : Option Failure}
    (h : GroupsRun policy passes groups s r turns s₁ r₁ none)
    (h' : GroupsRun policy passes later s₁ r₁ turns' t q failure) :
    GroupsRun policy passes (groups ++ later) s r (turns ++ turns') t q failure := by
  generalize hnone : (none : Option Failure) = none' at h
  induction h with
  | done s r => exact h'
  | stopped hgroup rest => cases hnone
  | next hgroup _ ih =>
    rw [List.append_assoc]
    exact .next hgroup (ih h' hnone)

namespace Stage

/-- Whether a stage runs these groups, and calls the bodies only of passes that have turns. -/
def RunsGroups (policy : RunPolicy) (passes : PassTable S A I) (a : Stage S A I)
    (groups : List Group) : Prop :=
  ∀ s r, ∃ turns, GroupsRun policy passes groups s r turns (a.run s r).1 (a.run s r).2.1
    (a.run s r).2.2 ∧ ∀ p b, .ran p b ∈ a.log s r → ∃ id ∈ turns, passes.get? id = some p

lemma RunsGroups.andThen {a b : Stage S A I} {groups later : List Group}
    (ha : a.RunsGroups policy passes groups) (hb : b.RunsGroups policy passes later) :
    (a.andThen b).RunsGroups policy passes (groups ++ later) := by
  intro s r
  obtain ⟨turns, hrun, hcalls⟩ := ha s r
  simp only [Stage.andThen]
  rcases hfirst : a.run s r with ⟨t, q, _ | e⟩
  · rw [hfirst] at hrun
    obtain ⟨turns', hrun', hcalls'⟩ := hb t q
    refine ⟨turns ++ turns', hrun.append hrun', fun p b hp => ?_⟩
    simp only [List.mem_append] at hp ⊢
    obtain hp | hp := hp
    · obtain ⟨id, hid, hget⟩ := hcalls p b hp
      exact ⟨id, .inl hid, hget⟩
    · obtain ⟨id, hid, hget⟩ := hcalls' p b hp
      exact ⟨id, .inr hid, hget⟩
  · rw [hfirst] at hrun
    exact ⟨turns, hrun.stop later, hcalls⟩

/-- A group of passes runs as a group, in parallel with the turns in blocks. -/
lemma exists_groupRuns (policy : RunPolicy) (passes : PassTable S A I) {g : Group}
    (hnodup : g.ids.Nodup) (hready : g.overIR = true → s.hasIR = true) (r : RunResult) :
    ∃ turns, GroupRuns policy passes g s r turns ((group policy passes g.ids).run s r).1
        ((group policy passes g.ids).run s r).2.1 ((group policy passes g.ids).run s r).2.2 ∧
      ∀ p b, .ran p b ∈ (group policy passes g.ids).log s r → ∃ id ∈ turns,
        passes.get? id = some p := by
  simp only [group]
  cases hmode : policy.parallel && decide (1 < g.ids.length) with
  | false =>
    refine ⟨_, .inOrder hready hmode, fun p b hp => ?_⟩
    rw [Bool.not_false, Bool.and_true] at hp
    exact exists_reached_of_ran hp
  | true =>
    have hfinished : ((Work.start s).turns passes (blocks (fun _ => 4) g.ids)).Finished g.ids :=
      Work.finished_blocks hnodup fun _ _ => rfl
    obtain ⟨hsession, hrecord⟩ := Work.turns_blocks hnodup (fun _ _ => rfl) hfinished r
    have hrun := GroupRuns.atOnce (r := r) hready hmode _ (fun _ => mem_of_mem_blocks) hfinished
    refine ⟨blocks (fun _ => 4) g.ids, ?_, fun p b hp => ?_⟩
    · rw [hsession, hrecord] at hrun
      simpa [runTogether, hmode, Work.start] using hrun
    · rw [Bool.not_true, Bool.and_false] at hp
      obtain ⟨id, hid, hget⟩ := exists_reached_of_ran hp
      rw [reached_false] at hid
      exact ⟨id, List.mem_flatMap.mpr ⟨id, hid, by simp⟩, hget⟩

lemma runsGroups_group {ids : List Text} (hnodup : ids.Nodup) :
    (group policy passes ids).RunsGroups policy passes [⟨ids, false⟩] := by
  intro s r
  obtain ⟨turns, hrun, hcalls⟩ :=
    exists_groupRuns policy passes (g := ⟨ids, false⟩) hnodup (s := s) (fun h => by cases h) r
  exact ⟨turns, .single hrun, hcalls⟩

lemma runsGroups_overIR {ids : List Text} (hnodup : ids.Nodup) :
    (overIR policy passes ids).RunsGroups policy passes [⟨ids, true⟩] := by
  intro s r
  cases hir : s.hasIR with
  | true =>
    obtain ⟨turns, hrun, hcalls⟩ :=
      exists_groupRuns policy passes (g := ⟨ids, true⟩) hnodup (fun _ => hir) r
    refine ⟨turns, ?_, fun p b hp => hcalls p b ?_⟩
    · simpa [overIR, hir] using GroupsRun.single hrun
    · simpa [overIR, hir] using hp
  | false =>
    have hnone : ∀ (xs : List Text) (t b : Session S A I) (p : Pass S A I),
      .ran p b ∉ withheldLog xs t := by
      intro xs t b p
      induction xs generalizing t with
      | nil => simp [withheldLog]
      | cons id rest ih => simp [withheldLog, ih]
    refine ⟨[], ?_, fun p b hp => ?_⟩
    · simpa [overIR, hir] using GroupsRun.single (.withheld (g := ⟨ids, true⟩) (r := r) rfl hir)
    · simp [overIR, hir, hnone] at hp

lemma runsGroups_levels {levels : List ScheduleLevel} (hnodup : ∀ l ∈ levels, l.all.Nodup)
    (n : Nat) : (Stage.levels policy passes false n levels).RunsGroups policy passes
      (levels.flatMap (·.groups)) := by
  induction levels generalizing n with
  | nil => exact fun s r => ⟨[], .done s r, fun p b hp => by cases hp⟩
  | cons l rest ih =>
    obtain ⟨hfirst, hrest⟩ := List.forall_mem_cons.mp hnodup
    obtain ⟨hast, hir, hhybrid⟩ := nodup_groups hfirst
    have hlevel : (level policy passes l).RunsGroups policy passes l.groups :=
      (runsGroups_group hast).andThen ((runsGroups_overIR hir).andThen (runsGroups_group hhybrid))
    exact hlevel.andThen (ih hrest (n + 1))

end Stage

/-- A run of a schedule: the turns of its passes, the session and the result behind it, and the
failure that ended it. -/
def ScheduleRun (policy : RunPolicy) (passes : PassTable S A I) (schedule : Schedule)
    (s : Session S A I) :
    List Text → Session S A I → RunResult → Option Failure → Prop :=
  GroupsRun policy passes schedule.groups s {}

/-- The run in order is one of them. -/
lemma exists_scheduleRun_execute (hworkers : 0 ≤ policy.workers) {schedule : Schedule}
    (hnodup : ∀ l ∈ schedule.levels, l.all.Nodup) (s : Session S A I) :
    ∃ turns t q failure, execute policy passes false schedule s = (t, some q, failure) ∧
      ScheduleRun policy passes schedule s turns t q failure ∧
      ∀ p b, .ran p b ∈ executeLog policy passes false schedule s → ∃ id ∈ turns,
        passes.get? id = some p := by
  have hpolicy : policy.failure? = none := by simp [RunPolicy.failure?, hworkers]
  have hlevels : (Stage.levels policy passes false 0 schedule.levels).RunsGroups policy passes
    schedule.groups := Stage.runsGroups_levels hnodup 0
  obtain ⟨turns, hrun, hcalls⟩ := hlevels s {}
  rw [Stage.run_levels] at hrun
  refine ⟨turns, _, _, _, ?_, hrun, fun p b hp => hcalls p b ?_⟩
  · simp [execute, hpolicy]
  · simpa [executeLog, hpolicy] using hp

end Schedules

/-- How the result of a run and the ledger of its session agree: every record is that of one pass,
in the order of the schedule, the failures come with their records, and the session has the
successes and the skips. -/
structure Tallies (schedule : Schedule) (s t : Session S A I) (q : RunResult) : Prop where
  inOrder : (q.passes.map (·.id)).Sublist (schedule.levels.flatMap (·.all))
  recorded : q.passes.length = q.successful + q.failed
  failures : q.errors.length = q.failed
  messages : (q.passes.filter (!·.success)).map (·.error) = q.errors.map (·.message)
  executed : t.stats.executed = s.stats.executed + q.successful
  skipped : t.stats.skipped = s.stats.skipped + q.skipped
  completed : t.completed.Perm (s.completed ++ (q.passes.filter (·.success)).map (·.id))
  fresh : ∀ record ∈ q.passes, record.success = true → record.id ∉ s.completed

/-- Where a failure has ended a run: it is the first one of the result, with the first record that
is not of a success. No pass of a group behind that of the failed pass has had a turn. -/
structure EndedBy (schedule : Schedule) (turns : List Text) (q : RunResult) (e : Failure) :
    Prop where
  first : q.errors.head? = some e
  behind : ∃ earlier g later record, schedule.groups = earlier ++ g :: later ∧
    q.passes.find? (!·.success) = some record ∧ record.error = e.message ∧ record.id ∈ g.ids ∧
    ∀ id ∈ later.flatMap (·.ids), id ∉ turns

section Results

variable {policy : RunPolicy} {schedule : Schedule} {s t : Session S A I} {entries : List Entry}
  {turns : List Text} {failure : Option Failure}

lemma RunResult.recordAll_empty (entries : List Entry) :
    RunResult.recordAll {} entries =
      { passes := entries.filterMap Entry.record?
        successful := (entries.filterMap Entry.success?).length
        failed := (entries.filterMap Entry.failure?).length
        skipped := entries.countP Entry.isSkip
        errors := entries.filterMap Entry.failure? } := by
  simp [recordAll_eq]

lemma Settles.tallies (h : Settles policy schedule.groups s entries turns t failure) :
    Tallies schedule s t (RunResult.recordAll {} entries) := by
  have hsuccesses := successes_of_reported h.reported
  have hcompleted := h.accounts.completed
  rw [← hsuccesses] at hcompleted
  have hpart := h.part.sublist
  rw [schedule.flatMap_groups] at hpart
  rw [RunResult.recordAll_empty]
  refine ⟨(sublist_of_reported h.reported).trans hpart, (length_entries entries).2, rfl,
    failures_of_reported h.reported, h.accounts.executed, h.accounts.skipped, hcompleted,
    fun record hrecord hsuccess => h.accounts.fresh record.id ?_⟩
  rw [← hsuccesses]
  exact List.mem_map_of_mem (List.mem_filter.mpr ⟨hrecord, hsuccess⟩)

/-- Every pass is counted once, if no failure has ended the run. -/
lemma Settles.size_eq (h : Settles policy schedule.groups s entries turns t none) :
    (RunResult.recordAll {} entries).successful + (RunResult.recordAll {} entries).failed +
      (RunResult.recordAll {} entries).skipped = schedule.size := by
  rw [RunResult.recordAll_empty, Schedule.size, ← schedule.flatMap_groups, ← h.full rfl,
    List.length_map]
  exact (length_entries entries).1

lemma Settles.endedBy {e : Failure} (hnodup : (schedule.groups.flatMap (·.ids)).Nodup)
    (h : Settles policy schedule.groups s entries turns t (some e)) :
    EndedBy schedule turns (RunResult.recordAll {} entries) e := by
  have hfirst : (entries.filterMap Entry.failure?).head? = some e := by
    have hfirst := h.first
    split at hfirst
    · exact hfirst.symm
    · cases hfirst
  obtain ⟨x, hx, record, hcause, hid, herror, hfind⟩ := find?_of_reported h.reported hfirst
  obtain ⟨earlier, g, later, hgroups, hfailed, hturns⟩ := h.last (by simp)
  have hxg : x.id ∈ g.ids := hfailed x hx (by simp [hcause])
  rw [RunResult.recordAll_empty]
  refine ⟨hfirst, earlier, g, later, record, hgroups, hfind, herror, hid ▸ hxg,
    fun id hid hturn => ?_⟩
  -- the passes of the schedule are distinct, so those of a later group are not among those with
  -- turns
  rw [hgroups, List.append_cons, List.flatMap_append, List.nodup_append] at hnodup
  exact hnodup.2.2 id (hturns id hturn) id hid rfl

end Results

/-- **A run accounts for every scheduled pass.** Let a schedule be that of some passes, and let the
passes that are run leave the ledger of the session alone. However the turns of passes in parallel
fall, the result and the ledger agree in the end. If failures do not end the run, nothing else does,
and every pass of the schedule is counted as successful, failed or skipped. Otherwise the first
failure does, and no pass of a later group has had a turn. The run in order is such a run. -/
theorem execute_accounts {ps : List PassSpec} {schedule : Schedule}
    (hschedule : (Scheduler.ofPasses ps).schedule = .ok schedule) (policy : RunPolicy)
    (hworkers : 0 ≤ policy.workers) {passes : PassTable S A I}
    (hleaves : ∀ id p, passes.get? id = some p → p.LeavesCounts) (s : Session S A I) :
    (∃ turns t q failure, execute policy passes false schedule s = (t, some q, failure) ∧
      ScheduleRun policy passes schedule s turns t q failure ∧
      ∀ p b, .ran p b ∈ executeLog policy passes false schedule s → ∃ id ∈ turns,
        passes.get? id = some p) ∧
    ∀ turns t q failure, ScheduleRun policy passes schedule s turns t q failure →
      Tallies schedule s t q ∧ failure = (if policy.failFast then q.errors.head? else none) ∧
      (failure = none → q.successful + q.failed + q.skipped = schedule.size) ∧
      ∀ e, failure = some e → EndedBy schedule turns q e := by
  have hnodup := nodup_of_schedule hschedule
  refine ⟨exists_scheduleRun_execute hworkers (List.nodup_flatMap.mp hnodup).1 s, ?_⟩
  intro turns t q failure hrun
  rw [← schedule.flatMap_groups] at hnodup
  obtain ⟨entries, hsettles, hresult⟩ :=
    GroupsRun.settles hleaves (List.nodup_flatMap.mp hnodup).1 hrun
  subst hresult
  refine ⟨hsettles.tallies, ?_, ?_, ?_⟩
  · rw [RunResult.recordAll_empty]
    exact hsettles.first
  · rintro rfl
    exact hsettles.size_eq
  · rintro e rfl
    exact hsettles.endedBy hnodup

/-- The sample passes, and one over the intermediate representation behind them. -/
def gatedRoster : Roster Unit Unit Unit :=
  .ofPasses ⟨true, true, 2⟩ (sampleRoster.passes ++
    [⟨⟨"over-ir", "over-ir", [], .program, .ir, [irGeneration]⟩, 2, fun s => (s, none)⟩])

/-- The late pass looks for the intermediate representation before there is one. Its failure ends a
run in parallel when the other pass of the group has completed, and the pass behind them is not
reached. A run in order that goes on has a success more. -/
theorem execute_accounts_gated :
    ∃ schedule turns t q t' q', (Scheduler.ofPasses gatedRoster.specs).schedule = .ok schedule ∧
      ScheduleRun gatedRoster.policy gatedRoster.table schedule newSession turns t q
        (some (.inside "late" .canceled)) ∧
      Tallies schedule newSession t q ∧ EndedBy schedule turns q (.inside "late" .canceled) ∧
      t.completed = [irGeneration] ∧ ("over-ir" : Text) ∉ turns ∧
      execute ⟨false, false, 0⟩ gatedRoster.table false schedule newSession = (t', some q', none) ∧
      Tallies schedule newSession t' q' ∧ q'.successful = 2 ∧ q'.failed = 1 ∧
      q'.successful + q'.failed + q'.skipped = schedule.size := by
  let group : List Text := ["late", irGeneration]
  let order : List Text := ["late", irGeneration, "late", irGeneration, irGeneration, irGeneration,
    "late", "late"]
  let schedule : Schedule := ⟨[⟨group, [], []⟩, ⟨[], ["over-ir"], []⟩], true, some 0⟩
  have hschedule : (Scheduler.ofPasses gatedRoster.specs).schedule = .ok schedule := by
    decide +kernel
  have hleaves : ∀ id p, gatedRoster.table.get? id = some p → p.LeavesCounts := by
    intro id p hp
    have hmem := gatedRoster.mem_of_get?_table hp
    simp only [gatedRoster, sampleRoster, Roster.ofPasses, List.cons_append, List.nil_append,
      List.mem_cons, List.not_mem_nil, or_false] at hmem
    obtain rfl | rfl | rfl := hmem <;> exact ⟨fun s => ⟨rfl, rfl⟩, fun s => rfl⟩
  have hgroup : GroupRuns gatedRoster.policy gatedRoster.table ⟨group, false⟩ newSession {}
    order _ _ _ := .atOnce (by simp) rfl order (by decide) (by decide +kernel)
  rw [show (if gatedRoster.policy.failFast = true then _ else none : Option Failure) =
    some (.inside "late" .canceled) from by decide +kernel] at hgroup
  have hrun : ScheduleRun gatedRoster.policy gatedRoster.table schedule newSession order _ _ _ :=
    .stopped hgroup _
  obtain ⟨htallies, -, -, hended⟩ :=
    (execute_accounts hschedule gatedRoster.policy (by decide) hleaves newSession).2 _ _ _ _ hrun
  obtain ⟨⟨_, t', q', failure, hexecute, hrun', -⟩, hall⟩ :=
    execute_accounts hschedule ⟨false, false, 0⟩ (by decide) hleaves newSession
  obtain ⟨htallies', rfl, hsize, -⟩ := hall _ _ _ _ hrun'
  have hq' : (execute ⟨false, false, 0⟩ gatedRoster.table false schedule newSession).2.1.map
      (fun q => (q.successful, q.failed)) = some (2, 1) := by decide +kernel
  rw [hexecute] at hq'
  obtain ⟨hsuccessful, hfailed⟩ := Prod.mk.inj (Option.some.inj hq')
  exact ⟨schedule, order, _, _, t', q', hschedule, hrun, htallies, hended _ rfl, by decide +kernel,
    by decide +kernel, hexecute, htallies', hsuccessful, hfailed, hsize rfl⟩

end ContractAudit.Plan
