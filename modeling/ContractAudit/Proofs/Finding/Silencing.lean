import ContractAudit.Proofs.Finding.Calibration
import ContractAudit.Proofs.Json.Decoding
import ContractAudit.Proofs.Json.RoundTrip
import ContractAudit.Scan

/-!
What a baseline silences.

A scan reports one finding for each spot, and a baseline that is written from its report accepts the
fingerprint of the first finding there. The other findings at the spot are reported by the next
scan, unless their fingerprints are accepted on account of another spot.

* `reported`: what a scan reports of the findings of its detectors (`findings_scan`).
* `Leads`: the first finding at its spot. The fingerprints of a report are those of the findings
  that lead (`exists_mem_calibrate_iff`).
* `accepts_ofFingerprints`, `read?_write`: what a baseline accepts that was written and read.
* `reported_nil_iff_led`: a scan with the baseline of its own report reports nothing exactly if
  every finding to report has the fingerprint of one that leads.
* `reported_beside_baseline`: two findings at one spot, of which the second is reported again.
-/

namespace ContractAudit.Finding

open Calendar

variable {fs : List Finding}

/-! ### Reports -/

/-- What a scan reports of the findings of its detectors. -/
def reported (s : Settings) (source? : Text → Option Text) (now : Instant) (b : Baseline)
    (fs : List Finding) : List Finding :=
  sorted (calibrate (select s source? now b fs))

/-- The findings of a scan are what is reported of the findings of its detectors, under its
baseline. -/
lemma findings_scan {files : FileSystem} {now : Instant} {r : ScanTarget} {s : Settings}
    {out : ScanOutcome} (h : scan files now r s = .ok out) :
    ∃ b found source?, Scan.baselineAt files (if r.baseline.isEmpty then s.baseline
      else r.baseline) = .ok b ∧ out.findings = reported s source? now b found := by
  simp only [scan, bind, Except.bind] at h
  split at h
  · cases h
  split at h
  · cases h
  split at h
  · cases h
  split at h
  · cases h
  next b hb =>
    cases hread : Scan.baselineAt files (if r.baseline.isEmpty then s.baseline else r.baseline) with
    | error e =>
      rw [hread] at hb
      cases hb
    | ok b' =>
      rw [hread] at hb
      cases hb
      cases h
      exact ⟨_, _, _, rfl, rfl⟩

/-- `f` is the first of the findings at its spot. -/
def Leads (fs : List Finding) (f : Finding) : Prop :=
  ∃ before behind, fs = before ++ f :: behind ∧ ∀ g ∈ before, g.spot ≠ f.spot

/-- Findings that are merged keep the fingerprint of the first. -/
lemma map_fingerprint_merge (fs : List Finding) :
    (merge fs).map (·.fingerprint) = fs.head?.map (·.fingerprint) := by
  match fs with
  | [] => rfl
  | [_] => rfl
  | _ :: _ :: _ => rfl

variable {f : Finding}

lemma leads_iff_find? :
    Leads fs f ↔ fs.find? (fun g => g.spot == f.spot) = some f := by
  rw [List.find?_eq_some_iff_append]
  simp [Leads]

/-- The fingerprints of calibrated findings are those of the findings that lead. -/
lemma exists_mem_calibrate_iff {fp : Text} :
    (∃ f ∈ calibrate fs, f.fingerprint = fp) ↔ ∃ f, Leads fs f ∧ f.fingerprint = fp := by
  have hmerge : ∀ p, (merge (fs.filter fun f => f.spot == p)).map (·.fingerprint) =
      (fs.find? fun f => f.spot == p).map (·.fingerprint) := by
    intro p
    rw [map_fingerprint_merge, List.head?_filter]
  constructor
  · rintro ⟨f, hf, hfp⟩
    obtain ⟨p, -, hp⟩ := List.mem_filterMap.mp hf
    have hfound := hmerge p
    rw [hp, Option.map_some, hfp, eq_comm, Option.map_eq_some_iff] at hfound
    obtain ⟨g, hg, hgfp⟩ := hfound
    obtain rfl : g.spot = p := by simpa using List.find?_some hg
    exact ⟨g, leads_iff_find?.mpr hg, hgfp⟩
  · rintro ⟨g, hg, rfl⟩
    have hfound := leads_iff_find?.mp hg
    have hmerged := hmerge g.spot
    rw [hfound, Option.map_some, Option.map_eq_some_iff] at hmerged
    obtain ⟨f, hf, hfp⟩ := hmerged
    have hspot : g.spot ∈ spots fs := ((firstMentions_spots fs).mem_iff g.spot).mpr
      (List.mem_map_of_mem (List.mem_of_find?_eq_some hfound))
    exact ⟨f, List.mem_filterMap.mpr ⟨g.spot, hspot, hf⟩, hfp⟩

/-- Every finding is at the spot of one that leads. -/
lemma exists_leads (hf : f ∈ fs) : ∃ g, Leads fs g ∧ g.spot = f.spot := by
  have hsome : (fs.find? fun g => g.spot == f.spot).isSome = true :=
    List.find?_isSome.mpr ⟨f, hf, beq_self_eq_true f.spot⟩
  obtain ⟨g, hg⟩ := Option.isSome_iff_exists.mp hsome
  have hspot : g.spot = f.spot := by simpa using List.find?_some hg
  exact ⟨g, leads_iff_find?.mpr (hspot ▸ hg), hspot⟩

lemma calibrate_eq_nil_iff : calibrate fs = [] ↔ fs = [] := by
  constructor
  · refine fun h => List.eq_nil_iff_forall_not_mem.mpr fun f hf => ?_
    obtain ⟨g, hg, -⟩ := exists_leads hf
    obtain ⟨c, hc, -⟩ := exists_mem_calibrate_iff.mpr ⟨g, hg, rfl⟩
    exact List.not_mem_nil (h ▸ hc)
  · rintro rfl
    rfl

lemma mem_sorted : f ∈ sorted fs ↔ f ∈ fs := List.mem_mergeSort

lemma sorted_eq_nil_iff : sorted fs = [] ↔ fs = [] := by
  simp only [List.eq_nil_iff_forall_not_mem, mem_sorted]

lemma isNew_of_fingerprint {b : Baseline} (hf : f.fingerprint ≠ []) :
    f.isNew b = !b.accepts f.fingerprint := by
  simp [isNew, hf]

/-- Nothing is reported exactly if the baseline accepts everything that is to be reported. -/
lemma reported_eq_nil_iff {s : Settings} {source? : Text → Option Text} {now : Instant}
    {b : Baseline} (hfs : ∀ f ∈ fs, f.fingerprint ≠ []) :
    reported s source? now b fs = [] ↔
      ∀ f ∈ fs, f.isReportable s source? now = true → b.accepts f.fingerprint = true := by
  rw [reported, sorted_eq_nil_iff, calibrate_eq_nil_iff, select, List.filter_eq_nil_iff]
  refine forall₂_congr fun f hf => ?_
  simp [isNew_of_fingerprint (hfs f hf)]

/-- Without a baseline everything that is to be reported is kept. -/
lemma select_empty (s : Settings) (source? : Text → Option Text) (now : Instant)
    (fs : List Finding) :
    select s source? now .empty fs = fs.filter fun f => f.isReportable s source? now := by
  have hnew : ∀ f : Finding, f.isNew .empty = true := fun f => Bool.or_true _
  simp [select, hnew]

end ContractAudit.Finding

namespace ContractAudit.Baseline

/-! ### Baselines -/

lemma accepts_ofFingerprints (fps : List Text) (fp : Text) :
    (ofFingerprints fps).accepts fp = true ↔ fp ∈ fps := by
  rw [accepts, ofFingerprints, Table.ofList, List.foldl_map, Table.get?_foldl_set]
  by_cases h : fp ∈ fps <;> simp [h, Table.empty, Table.get?, Table.find?]

lemma mem_withoutRepeats {ts : List Text} {t : Text} : t ∈ withoutRepeats ts ↔ t ∈ ts := by
  fun_induction withoutRepeats ts with
  | case1 a b rest h ih => grind
  | case2 a b rest h ih => grind
  | case3 ts => rfl

/-- A baseline keeps the fingerprints of the findings it is written from, each once and in order. -/
lemma mem_fingerprintsOf {fp : Text} :
    fp ∈ fingerprintsOf fs ↔ fp ≠ [] ∧ ∃ f ∈ fs, f.fingerprint = fp := by
  rw [fingerprintsOf, mem_withoutRepeats, Text.sorted, List.mem_mergeSort, List.mem_filter,
    List.mem_map, and_comm]
  simp

/-- A baseline that is written and read accepts the fingerprints it was written from, with every
stray byte in them replaced. -/
lemma read?_write (fs : List Finding) :
    read? (write fs) = some (ofFingerprints ((fingerprintsOf fs).map Text.scrub)) := by
  rw [read?, write, Json.read?_indented_texts, Option.bind_some, ofJson?, Json.texts,
    Json.Decoder.list, Json.Decoder.items_map fun _ _ => rfl]

end ContractAudit.Baseline

namespace ContractAudit.Finding

open Calendar

/-- What the baseline of a report accepts. -/
lemma accepts_written_iff {s : Settings} {source? : Text → Option Text} {now : Instant}
    (hfs : ∀ f ∈ fs, f.fingerprint ≠ []) (fp : Text) :
    (Baseline.ofFingerprints
        ((Baseline.fingerprintsOf (reported s source? now .empty fs)).map Text.scrub)).accepts
          fp = true ↔
      ∃ g, Leads (fs.filter fun f => f.isReportable s source? now) g ∧
        g.fingerprint.scrub = fp := by
  have hmem : ∀ t, t ∈ Baseline.fingerprintsOf (reported s source? now .empty fs) ↔
      t ≠ [] ∧ ∃ g, Leads (fs.filter fun f => f.isReportable s source? now) g ∧
        g.fingerprint = t := by
    intro t
    rw [Baseline.mem_fingerprintsOf, ← exists_mem_calibrate_iff, ← select_empty]
    simp only [reported, mem_sorted]
  rw [Baseline.accepts_ofFingerprints, List.mem_map]
  constructor
  · rintro ⟨t, ht, rfl⟩
    obtain ⟨-, g, hg, rfl⟩ := (hmem t).mp ht
    exact ⟨g, hg, rfl⟩
  · rintro ⟨g, hg, rfl⟩
    obtain ⟨before, behind, hall, -⟩ := id hg
    have hkept : g ∈ fs.filter fun f => f.isReportable s source? now := by
      simp [hall]
    exact ⟨g.fingerprint, (hmem _).mpr ⟨hfs g (List.mem_filter.mp hkept).1, g, hg, rfl⟩, rfl⟩

/-- **A baseline silences the findings that lead, and no others.** The baseline that is written from
the report of a scan can be read, and a scan of the same findings with it reports nothing exactly if
every finding that is to be reported has the fingerprint of one that is the first at its spot. -/
theorem reported_nil_iff_led (s : Settings) (source? : Text → Option Text) (now : Instant)
    {fs : List Finding} (hfs : ∀ f ∈ fs, f.fingerprint ≠ []) :
    ∃ b, Baseline.read? (Baseline.write (reported s source? now .empty fs)) = some b ∧
      (reported s source? now b fs = [] ↔
        ∀ f ∈ fs, f.isReportable s source? now = true →
          ∃ g, Leads (fs.filter fun f => f.isReportable s source? now) g ∧
            g.fingerprint.scrub = f.fingerprint) := by
  refine ⟨_, Baseline.read?_write _, ?_⟩
  rw [reported_eq_nil_iff hfs]
  simp only [accepts_written_iff hfs]

/-- A finding about a function that writes behind a call, with a given line and fingerprint. -/
def sampleFinding (line : Int) (fingerprint : Text) : Finding where
  rule := "SOL-REENTRANCY"
  severity := .high
  confidence := 0.9
  detector := "solidity-reentrancy"
  file := "a.sol"
  startLine := line
  endLine := line
  snippet := []
  entity := "A.f"
  message := "state written behind a call"
  rationale := []
  remediation := []
  references := []
  fingerprint

/-- What the default settings report of findings, without sources. -/
def sampleReport (b : Baseline) (fs : List Finding) : List Finding :=
  reported .default (fun _ => none) .unset b fs

lemma isReportable_sampleFinding (line : Int) (fp : Text) :
    (sampleFinding line fp).isReportable .default (fun _ => none) .unset = true := by
  have hsevere : Severity.high.atLeast (Severity.read (Text.ofString "low")) = true := by
    decide +kernel
  simp [isReportable, sampleFinding, hsevere, isExempt, Settings.default]

/-- Three findings at two spots: the second at the first spot has the fingerprint of the one at the
other. -/
def sharedFindings : List Finding := [sampleFinding 4 "e0", sampleFinding 4 "e1",
    sampleFinding 9 "e1"]

/-- Findings at one spot are silenced together when the fingerprints of the later ones are accepted
on account of another spot. -/
theorem reported_nil_iff_led_shared :
    (∀ f ∈ sharedFindings, f.fingerprint ≠ []) ∧
      ∃ b, Baseline.read? (Baseline.write (sampleReport .empty sharedFindings)) = some b ∧
        sampleReport b sharedFindings = [] := by
  have hfs : ∀ f ∈ sharedFindings, f.fingerprint ≠ [] := by
    decide +kernel
  obtain ⟨b, hb, hiff⟩ := reported_nil_iff_led .default (fun _ => none) .unset hfs
  refine ⟨hfs, b, hb, hiff.mpr fun f hf _ => ?_⟩
  have hall : (sharedFindings.filter fun f => f.isReportable .default (fun _ => none) .unset) =
      sharedFindings := by
    simp [sharedFindings, isReportable_sampleFinding]
  have hfirst : Leads sharedFindings (sampleFinding 4 "e0") := ⟨[], _, rfl, by simp⟩
  have hother : Leads sharedFindings (sampleFinding 9 "e1") :=
    ⟨[sampleFinding 4 "e0", sampleFinding 4 "e1"], [], rfl, by simp [spot, sampleFinding]⟩
  rw [hall]
  rcases List.mem_cons.mp hf with rfl | hf
  · exact ⟨_, hfirst, by decide +kernel⟩
  rcases List.mem_cons.mp hf with rfl | hf
  · exact ⟨_, hother, by decide +kernel⟩
  · obtain rfl := List.mem_singleton.mp hf
    exact ⟨_, hother, by decide +kernel⟩

/-- Two findings at one spot with different fingerprints. -/
def besideFindings : List Finding := [sampleFinding 4 "e0", sampleFinding 4 "e1"]

/-- Only the first of the two leads. -/
lemma fingerprint_of_leads_beside (hf : Leads besideFindings f) : f.fingerprint = "e0" := by
  obtain ⟨before, behind, hall, hspot⟩ := hf
  cases before with
  | nil =>
    obtain ⟨rfl, -⟩ := List.cons.inj hall
    rfl
  | cons g before =>
    obtain ⟨rfl, hbehind⟩ := List.cons.inj hall
    have hmem : f ∈ [sampleFinding 4 "e1"] := by
      simp [hbehind]
    obtain rfl := List.mem_singleton.mp hmem
    exact absurd rfl (hspot (sampleFinding 4 "e0") (List.mem_cons_self ..))

/-- **A baseline does not silence the second finding at a spot**, although the finding that was
reported stood for both: the next scan reports it. -/
theorem reported_beside_baseline :
    (∀ f ∈ besideFindings, f.fingerprint ≠ []) ∧
      ∃ b, Baseline.read? (Baseline.write (sampleReport .empty besideFindings)) = some b ∧
        sampleReport b besideFindings = [sampleFinding 4 "e1"] := by
  have hfs : ∀ f ∈ besideFindings, f.fingerprint ≠ [] := by
    decide +kernel
  have hall : (besideFindings.filter fun f => f.isReportable .default (fun _ => none) .unset) =
      besideFindings := by
    simp [besideFindings, isReportable_sampleFinding]
  refine ⟨hfs, _, Baseline.read?_write _, ?_⟩
  set b := Baseline.ofFingerprints
    ((Baseline.fingerprintsOf (sampleReport .empty besideFindings)).map Text.scrub)
    with hb
  have haccepts : ∀ fp, b.accepts fp = true ↔ fp = "e0" := by
    intro fp
    rw [hb, sampleReport, accepts_written_iff hfs, hall]
    constructor
    · rintro ⟨g, hg, rfl⟩
      rw [fingerprint_of_leads_beside hg]
      decide +kernel
    · rintro rfl
      exact ⟨sampleFinding 4 "e0", ⟨[], _, rfl, by simp⟩, by decide +kernel⟩
  have hfirst : (sampleFinding 4 "e0").isNew b = false := by
    rw [isNew_of_fingerprint (hfs _ (List.mem_cons_self ..)), Bool.not_eq_false', haccepts]
    rfl
  have hsecond : (sampleFinding 4 "e1").isNew b = true := by
    rw [isNew_of_fingerprint (hfs _ (List.mem_cons_of_mem _ (List.mem_cons_self ..))),
      Bool.not_eq_true', ← Bool.not_eq_true, haccepts]
    decide +kernel
  have hselect : select .default (fun _ => none) .unset b besideFindings = [sampleFinding
    4 "e1"] := by
    simp [select, besideFindings, isReportable_sampleFinding, hfirst, hsecond]
  rw [sampleReport, reported, hselect]
  simp [calibrate, spots, merge, sorted]

end ContractAudit.Finding
