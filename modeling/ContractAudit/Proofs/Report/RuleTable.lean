import Mathlib.Data.List.Induction
import ContractAudit.Proofs.Mentions
import ContractAudit.Report.Sarif

/-!
The table of rules in a log, and the results that refer to it.

The table grows at its end only, by rules that are not in it. So the place that a rule gets when it
is mentioned first is its place in the finished table.

* `firstMentions_ruleTable`: the table lists the rules in the order of their first mention.
* `ruleTable_isPrefix`, `indexOf_ruleTable`: more findings do not move a rule.
* `getElem?_indexOf`: at the place of a rule stands its entry.
* `foldl_addFinding`, `log_eq`: the loop keeps the table and its index in step.
* `log_refers`: so every result of a log refers to its rule.
-/

namespace ContractAudit.Report.Sarif

open Plan Rule

/-- The rules that are mentioned: those that are given, and behind them those that findings name. -/
def mentioned (rules : List RuleInfo) (fs : List Finding) :
    List Text := rules.map (·.id) ++ fs.map (·.rule)

/-! ### The table -/

/-- Adds an entry to a table, unless the rule is there. -/
def addEntry (table : List Entry) (e : Entry) : List Entry :=
  if table.any (·.id == e.id) then table else table ++ [e]

/-- The table of the given rules and of those that findings name. -/
def ruleTable (rules : List RuleInfo) (fs : List Finding) : List Entry :=
  (rules.map Entry.ofRule ++ fs.map Entry.ofFinding).foldl addEntry []

/-- The place of a rule in a table. -/
def indexOf (table : List Entry) (rule : Text) : Nat := table.findIdx (·.id == rule)

lemma rules_add (l : RuleList) (e : Entry) : (l.add e).rules = addEntry l.rules e := by
  rw [RuleList.add, addEntry]
  split
  · next h =>
    rw [l.places, List.findIdx?_eq_none_iff] at h
    rw [if_neg (by simpa using h)]
  · next h =>
    rw [l.places, List.findIdx?_eq_none_iff] at h
    rw [if_pos (by simpa using h)]

variable {table : List Entry} {rule : Text}

lemma any_id_iff {id : Text} : table.any (·.id == id) = true ↔
    id ∈ table.map (·.id) := by
  simp

/-- A table that entries are added to one by one lists their rules in the order of first mention. -/
lemma firstMentions_foldl_addEntry (es : List Entry) :
    FirstMentions (es.map (·.id)) ((es.foldl addEntry []).map (·.id)) := by
  induction es using List.reverseRecOn with
  | nil => exact .nil
  | append_singleton es e ih =>
    rw [List.map_append, List.foldl_append, List.foldl_cons, List.foldl_nil, addEntry,
      apply_ite (List.map Entry.id), List.map_append]
    exact ih.add any_id_iff

lemma firstMentions_ruleTable (rules : List RuleInfo) (fs : List Finding) :
    FirstMentions (mentioned rules fs) ((ruleTable rules fs).map (·.id)) := by
  have h := firstMentions_foldl_addEntry (rules.map Entry.ofRule ++ fs.map Entry.ofFinding)
  rwa [List.map_append, List.map_map, List.map_map] at h

lemma addEntry_isPrefix (table : List Entry) (e : Entry) : table <+: addEntry table e := by
  rw [addEntry]
  split_ifs
  · exact List.prefix_rfl
  · exact List.prefix_append table [e]

lemma foldl_addEntry_isPrefix (table : List Entry) (es : List Entry) :
    table <+: es.foldl addEntry table := by
  induction es generalizing table with
  | nil => exact List.prefix_rfl
  | cons e es ih => exact (addEntry_isPrefix table e).trans (ih (addEntry table e))

/-- With more findings the table goes on where it ended. -/
lemma ruleTable_append (rules : List RuleInfo) (fs more : List Finding) :
    ruleTable rules (fs ++ more) =
      (more.map Entry.ofFinding).foldl addEntry (ruleTable rules fs) := by
  rw [ruleTable, ruleTable, ← List.foldl_append, List.map_append, List.append_assoc]

lemma ruleTable_isPrefix (rules : List RuleInfo) (fs more : List Finding) :
    ruleTable rules fs <+: ruleTable rules (fs ++ more) := by
  rw [ruleTable_append]
  exact foldl_addEntry_isPrefix ..

/-! ### Places in the table -/

lemma indexOf_lt (h : rule ∈ table.map (·.id)) : indexOf table rule < table.length := by
  obtain ⟨e, he, rfl⟩ := List.mem_map.mp h
  exact List.findIdx_lt_length_of_exists ⟨e, he, beq_self_eq_true e.id⟩

/-- At the place of a rule stands its entry. -/
lemma getElem?_indexOf (h : rule ∈ table.map (·.id)) :
    ∃ e, table[indexOf table rule]? = some e ∧ e.id = rule := by
  have hlt := indexOf_lt h
  exact ⟨table[indexOf table rule], List.getElem?_eq_getElem hlt, beq_iff_eq.mp
    (List.findIdx_getElem (w := hlt))⟩

lemma mem_ruleTable (rules : List RuleInfo) {fs : List Finding} {f : Finding} (hf : f ∈ fs) :
    f.rule ∈ (ruleTable rules fs).map (·.id) :=
  ((firstMentions_ruleTable rules fs).mem_iff _).mpr (List.mem_append_right _
    (List.mem_map_of_mem hf))

/-- Later findings do not move the rule of a finding. -/
lemma indexOf_ruleTable (rules : List RuleInfo) {fs : List Finding} {f : Finding} (hf : f ∈ fs)
    (more : List Finding) :
    indexOf (ruleTable rules (fs ++ more)) f.rule = indexOf (ruleTable rules fs) f.rule :=
  (ruleTable_isPrefix rules fs more).findIdx_eq_of_findIdx_lt_length
    (indexOf_lt (mem_ruleTable rules hf))

/-! ### Logs -/

/-- The index of a table has the place of every rule that is listed. -/
lemma RuleList.get?_index (l : RuleList) (h : rule ∈ l.rules.map (·.id)) :
    l.index.get? rule = some (indexOf l.rules rule) := by
  rw [l.places, List.findIdx?_eq_guard_findIdx_lt]
  exact (Option.guard_eq_some_iff ..).mpr ⟨rfl, by simpa using h⟩

lemma rules_foldl_ofRule (rules : List RuleInfo) (l : RuleList) :
    (rules.foldl (fun list r => list.add (.ofRule r)) l).rules =
      (rules.map Entry.ofRule).foldl addEntry l.rules := by
  induction rules generalizing l with
  | nil => rfl
  | cons r rest ih => rw [List.foldl_cons, ih, rules_add, List.map_cons, List.foldl_cons]

/-- The loop over the findings lists their rules, and gives each result the place of its rule. -/
lemma foldl_addFinding (rules : List RuleInfo) (fs : List Finding) {given : RuleList}
    (hgiven : given.rules = ruleTable rules []) :
    (fs.foldl addFinding (given, [])).1.rules = ruleTable rules fs ∧
      (fs.foldl addFinding (given, [])).2 =
        fs.map fun f => ⟨indexOf (ruleTable rules fs) f.rule, f⟩ := by
  induction fs using List.reverseRecOn with
  | nil => exact ⟨hgiven, rfl⟩
  | append_singleton fs f ih =>
    rw [List.foldl_append, List.foldl_cons, List.foldl_nil]
    set s := fs.foldl addFinding (given, [])
    have hrules : (s.1.add (.ofFinding f)).rules = ruleTable rules (fs ++ [f]) := by
      rw [rules_add, ih.1, ruleTable_append]
      rfl
    have hplace : (s.1.add (.ofFinding f)).index.get? f.rule = some (indexOf _ f.rule) :=
      RuleList.get?_index _ (hrules ▸ mem_ruleTable rules (by simp))
    refine ⟨hrules, ?_⟩
    simp only [addFinding, hplace, hrules, ih.2, Option.getD_some, List.map_append]
    congr 1
    exact List.map_congr_left fun x hx => by rw [indexOf_ruleTable rules hx]

/-- A log has the finished table, and in every result the place of its rule there. -/
lemma log_eq (fs : List Finding) (rules : List RuleInfo) (run : Option RunReport) :
    log fs rules run =
      ⟨ruleTable rules fs, fs.map fun f => ⟨indexOf (ruleTable rules fs) f.rule, f⟩,
        run.map Invocation.ofRun⟩ := by
  have hgiven := rules_foldl_ofRule rules .empty
  obtain ⟨hrules, hresults⟩ := foldl_addFinding rules fs
    (hgiven.trans (by rw [ruleTable, List.map_nil, List.append_nil, RuleList.empty]))
  rw [← hresults, ← hrules]
  rfl

/-- The notifications of a run are its failures, in order. -/
lemma notifications_ofRun (r : RunReport) :
    (Invocation.ofRun r).notifications =
      r.passes.filterMap fun p => if p.success then none else some ⟨p.id, p.error⟩ := by
  simp only [Invocation.ofRun, RunReport.failed]
  induction r.passes with
  | nil => rfl
  | cons p passes ih => cases hp : p.success <;> simp [hp, ih]

/-- **The references of a log are valid.** Its rules are different from each other and are the ones
mentioned, in the order of first mention. There is one result for each finding, in order, and it
refers to an entry of its rule, by the place that the rule had in the table when the finding was
reached. The notifications are the passes that failed, in the order of the run. -/
theorem log_refers (fs : List Finding) (rules : List RuleInfo) (run : Option RunReport) :
    ((log fs rules run).rules.map (·.id)).Nodup ∧
      FirstMentions (mentioned rules fs) ((log fs rules run).rules.map (·.id)) ∧
      (log fs rules run).results.map (·.finding) = fs ∧
      (∀ r ∈ (log fs rules run).results,
        ∃ e, (log fs rules run).rules[r.ruleIndex]? = some e ∧ e.id = r.finding.rule) ∧
      (∀ before f behind, fs = before ++ f :: behind →
        (log fs rules run).results[before.length]? =
          some ⟨indexOf (ruleTable rules (before ++ [f])) f.rule, f⟩) ∧
      (log fs rules run).invocation?.map (·.notifications) =
        run.map fun r => r.passes.filterMap fun p => if p.success then none
          else some ⟨p.id, p.error⟩ := by
  have hrules := firstMentions_ruleTable rules fs
  rw [log_eq]
  refine ⟨hrules.nodup, hrules, ?_, ?_, ?_, ?_⟩
  · simp [Function.comp_def]
  · intro r hr
    obtain ⟨f, hf, rfl⟩ := List.mem_map.mp hr
    exact getElem?_indexOf (mem_ruleTable rules hf)
  · rintro before f behind rfl
    have hplace :=
      indexOf_ruleTable rules (List.mem_append_right before (List.mem_singleton_self f)) behind
    rw [List.append_assoc, List.singleton_append] at hplace
    simp [hplace]
  · rw [Option.map_map]
    exact congrArg (run.map ·) (funext notifications_ofRun)

end ContractAudit.Report.Sarif
