import ContractAudit.Proofs.File.Writing
import ContractAudit.Proofs.Json.Decoding
import ContractAudit.Proofs.Json.Values
import ContractAudit.Settings.File

/-!
Settings in a JSON file come back as they were written.

* `decoder_toJson`: settings are read over the default ones from all their members. What is left out
  because it is empty is empty in the default settings too, and what is false or zero is written.
* `faithful_toJson`: the text of settings can be read, if their own texts are UTF-8.
* `readFile_write_fileText`: what is written to a file whose name ends in `.json` is read from it.
-/

namespace ContractAudit.Settings

open Json Decoder

/-- The texts in settings. -/
def texts (s : Settings) : List Text :=
  [s.severityThreshold, s.baseline, s.compiler.path, s.cache.dir, s.logLevel] ++ s.rules ++
    s.disabledPasses ++ s.ignore.flatMap fun r => [r.rule, r.path, r.reason, r.expires]

/-- The numbers in settings. -/
def numbers (s : Settings) : List Int := [s.timeBudget, s.workers, s.maxIterations]

/-! ### From members to settings -/

lemma ignoreDecoder_ignoreJson (r : Exemption) : ignoreDecoder {} (ignoreJson r) = some r := by
  obtain ⟨rule, path, reason, expires⟩ := r
  exact Eq.trans (record_flatten_cons rfl) (record_flatten_cons (record_textMember rfl rfl rfl))

lemma compilerDecoder_compilerJson (c : CompilerSettings) :
    compilerDecoder {} (compilerJson c) = some c := by
  obtain ⟨enabled, path⟩ := c
  exact Eq.trans (record_cons rfl rfl rfl) (record_textMember rfl rfl rfl)

/-- Whether the cache is on is always written, so that it makes no difference what it was before. -/
lemma cacheDecoder_cacheJson (old : Bool) (c : CacheSettings) :
    cacheDecoder { enabled := old } (cacheJson c) = some c := by
  obtain ⟨enabled, dir⟩ := c
  exact Eq.trans (record_cons rfl rfl rfl) (record_textMember rfl rfl rfl)

/-- **Settings are read over the default ones from their members.** -/
lemma decoder_toJson {s : Settings} (h : ∀ n ∈ s.numbers, readInt? (Text.ofInt n) = some n) :
    decoder .default s.toJson = some s := by
  obtain ⟨hbudget, hworkers, hiterations⟩ : readInt? (Text.ofInt s.timeBudget) = some s.timeBudget ∧
      readInt? (Text.ofInt s.workers) = some s.workers ∧
      readInt? (Text.ofInt s.maxIterations) = some s.maxIterations := by
    simpa [numbers] using h
  -- One step a group of members. For a member that is always written, its field is found, its value
  -- is read, and the
  -- value is put. For one that may be left out, the field is empty so far: nothing has been put
  -- into it yet, and the
  -- default settings have nothing there.
  refine Eq.trans (record_flatten_cons (Eq.trans (record_cons rfl rfl rfl)
    (record_cons rfl hbudget rfl))) ?_
  refine Eq.trans (record_flatten_cons (record_listMember rfl rfl rfl rfl fun r _ =>
    ignoreDecoder_ignoreJson r)) ?_
  refine Eq.trans (record_flatten_cons (record_listMember rfl rfl rfl rfl fun _ _ => rfl)) ?_
  refine Eq.trans (record_flatten_cons (record_listMember rfl rfl rfl rfl fun _ _ => rfl)) ?_
  refine Eq.trans (record_flatten_cons (Eq.trans (record_cons rfl rfl rfl)
    (Eq.trans (record_cons rfl rfl rfl)
    (Eq.trans (record_cons rfl hworkers rfl) (record_cons rfl hiterations rfl))))) ?_
  refine Eq.trans (record_flatten_cons (record_textMember rfl rfl rfl)) ?_
  exact record_flatten_cons (Eq.trans (record_cons rfl (compilerDecoder_compilerJson s.compiler)
    rfl)
    (Eq.trans (record_cons rfl (cacheDecoder_cacheJson true s.cache) rfl)
      (record_cons rfl rfl rfl)))

/-! ### The text of settings -/

/-- Settings are objects in arrays in an object at the deepest. -/
lemma faithful_toJson {s : Settings} (h : ∀ t ∈ s.texts, t.isUtf8 = true) :
    Faithful 3 s.toJson := by
  simp only [texts, List.forall_mem_append, List.forall_mem_cons, List.forall_mem_flatMap] at h
  obtain ⟨⟨⟨⟨hthreshold, hbaseline, hpath, hdir, hlevel, -⟩, hrules⟩, hpasses⟩, hignore⟩ := h
  have hignore : ∀ r ∈ s.ignore, Faithful 1 (ignoreJson r) := by
    intro r hr
    obtain ⟨hrule, hpath, hreason, hexpires, -⟩ := hignore r hr
    refine faithful_object ?_
    simp only [List.forall_mem_flatten, List.forall_mem_cons, List.not_mem_nil, false_imp_iff,
      implies_true, and_true]
    exact ⟨⟨⟨rfl, .str hrule⟩, ⟨rfl, .str hpath⟩, ⟨rfl, .str hreason⟩⟩, legible_of_mem_textMember
      rfl hexpires⟩
  have hcompiler : Faithful 2 (compilerJson s.compiler) :=
    faithful_object (List.forall_mem_cons.mpr ⟨⟨rfl, .bool _⟩, legible_of_mem_textMember rfl hpath⟩)
  have hcache : Faithful 2 (cacheJson s.cache) :=
    faithful_object (List.forall_mem_cons.mpr ⟨⟨rfl, .bool _⟩, legible_of_mem_textMember rfl hdir⟩)
  refine faithful_object ?_
  simp only [List.forall_mem_flatten, List.forall_mem_cons, List.not_mem_nil, false_imp_iff,
    implies_true, and_true]
  exact ⟨⟨⟨rfl, .str hthreshold⟩, ⟨rfl, .int _⟩⟩,
    legible_of_mem_listMember rfl hignore,
    legible_of_mem_listMember rfl fun t ht => .str (hrules t ht),
    legible_of_mem_listMember rfl fun t ht => .str (hpasses t ht),
    ⟨⟨rfl, .bool _⟩, ⟨rfl, .bool _⟩, ⟨rfl, .int _⟩, ⟨rfl, .int _⟩⟩,
    legible_of_mem_textMember rfl hbaseline,
    ⟨⟨rfl, hcompiler⟩, ⟨rfl, hcache⟩, ⟨rfl, .str hlevel⟩⟩⟩

/-! ### Files -/

lemma nonneg_of_negative {name : Text} {n : Int} (h : negative name n = []) : 0 ≤ n := by
  rw [negative] at h
  split_ifs at h with hn
  exact Int.not_lt.mp hn

/-- There is nothing wrong with settings only if no number is negative. -/
lemma nonneg_of_faults {s : Settings} (h : s.faults = []) : ∀ n ∈ s.numbers, 0 ≤ n := by
  simp only [faults, List.append_eq_nil_iff] at h
  obtain ⟨⟨⟨⟨-, hbudget⟩, hworkers⟩, hiterations⟩, -⟩ := h
  simp only [numbers, List.forall_mem_cons, List.not_mem_nil, false_imp_iff, implies_true, and_true]
  exact ⟨nonneg_of_negative hbudget, nonneg_of_negative hworkers, nonneg_of_negative hiterations⟩

lemma isYaml_of_json (front : Text) : isYaml (front ++ (".json" : Text)) = false := by
  have hextension : Path.extension (front ++ (".json" : Text)) = (".json" : Text) := by
    rw [Path.extension, List.reverse_append]
    rfl
  rw [isYaml, hextension]
  rfl

lemma endsWith_slash_of_json (front : Text) :
    Text.endsWith (front ++ (".json" : Text)) "/" = false := by
  rw [Text.endsWith, List.isSuffixOf, List.reverse_append]
  rfl

/-- **Settings are read from the JSON file that they were written to.** The text of valid settings
with texts in UTF-8 and numbers within 64 bits is read as these settings, and so is a file at `path`
once this text was written there, which can be done wherever `path` leads to a place for a file. -/
theorem readFile_write_fileText (path : Text) (hpath : path.endsWith ".json" = true) (s : Settings)
    (hvalid : s.faults = []) (htexts : ∀ t ∈ s.texts, t.isUtf8 = true)
    (hnumbers : ∀ n ∈ s.numbers, n < (Nat.pow 2 63 : Nat)) :
    ofFileText path (s.fileText path) = .ok s ∧
      ∀ fs : FileSystem, (fs.Writable path → ∃ fs', fs.write path (s.fileText path) = .ok fs') ∧
        ∀ fs', fs.write path (s.fileText path) = .ok fs' → readFile fs' path = .ok s := by
  obtain ⟨front, rfl⟩ := List.isSuffixOf_iff_suffix.mp hpath
  have hslash := endsWith_slash_of_json front
  have hints : ∀ n ∈ s.numbers, readInt? (Text.ofInt n) = some n := by
    intro n hn
    have hnonneg := nonneg_of_faults hvalid n hn
    exact readInt?_ofInt (by omega) (hnumbers n hn)
  have hread : ofFileText (front ++ (".json" : Text)) (s.fileText (front ++ (".json" : Text))) = .ok
    s := by
    rw [ofFileText, ofFileText?, fileText, isYaml_of_json]
    simp [(faithful_toJson htexts).read?_indented (by decide), decoder_toJson hints, hvalid]
  refine ⟨hread, fun fs => ⟨?_, fun fs' hwrite => ?_⟩⟩
  · rintro ⟨place, hplace, hentry⟩
    exact ⟨_, (FileSystem.write_eq_ok_iff hslash).mpr ⟨place, hplace, hentry, rfl⟩⟩
  · rw [readFile, FileSystem.read_of_write hslash hwrite]
    exact hread

/-- Settings that switch off what is on by default, with an ignore rule whose texts need escapes. -/
def switchedOff : Settings where
  severityThreshold := "HIGH"
  ignore := [{ path := "lib/\"<é>\"", reason := "tab\tand\nline", expires := "2030-01-31" }]
  rules := ["reentrancy"]
  compiler := { path := "C:\\solc" }

/-- What is off comes back as off, though it is on in the default settings. -/
theorem readFile_write_switchedOff :
    (switchedOff.faults = [] ∧ (∀ t ∈ switchedOff.texts, t.isUtf8 = true) ∧
        ∀ n ∈ switchedOff.numbers, n < (Nat.pow 2 63 : Nat)) ∧
      ∃ fs', FileSystem.write {} "audit.json" (switchedOff.fileText "audit.json") = .ok fs' ∧
        readFile fs' "audit.json" = .ok switchedOff := by
  have hread := readFile_write_fileText "audit.json" (by decide) switchedOff (by decide)
    (by decide) (by decide)
  obtain ⟨hwrite, hback⟩ := hread.2 {}
  obtain ⟨fs', hfs⟩ := hwrite ⟨["audit.json"], rfl, by decide⟩
  exact ⟨by decide, fs', hfs, hback fs' hfs⟩

end ContractAudit.Settings
