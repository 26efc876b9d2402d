import ContractAudit.Proofs.File.Components
import ContractAudit.Service.Analyze

/-!
Where the service looks for what a request names.

* `Below`: a path is the root or lies below it, by its components.
* `pathBelow_eq_ok_iff`, `sourceBelow_eq_ok_iff`: what is accepted is what stays below its start,
  and it is joined to the root.
* `scanPlace_confined`: so every path that a request leads to is the root or lies below it.
-/

namespace ContractAudit.Service

/-- The path is the root or lies below it: both are rooted or none, and the components of the path
begin with those of the root. -/
def Below (root path : Text) : Prop :=
  Path.isRooted path = Path.isRooted root ∧ Path.components root <+: Path.components path

lemma below_join {t : Text} (h : Path.Stays t) (root : Text) :
    Below root (Path.join [root, t]) := by
  have hlocal := Path.isLocal_iff_stays.mpr h
  refine ⟨Path.isRooted_join hlocal root, ?_⟩
  rw [Path.components_join hlocal root]
  exact List.prefix_append ..

variable {root dir : Text} {fs fs' : FileSystem}

lemma pathBelow_eq_ok_iff {path joined : Text} :
    pathBelow root path = .ok joined ↔ root ≠ [] ∧ Path.Stays path ∧
      Path.join [root, path] = joined := by
  rw [pathBelow, ← Path.isLocal_iff_stays]
  split_ifs with hroot hlocal
  · simp [List.isEmpty_iff.mp hroot]
  · simp [List.isEmpty_iff.not.mp hroot, hlocal]
  · simp [hlocal]

lemma sourceBelow_eq_ok_iff {name joined : Text} :
    sourceBelow dir name = .ok joined ↔ Path.Stays name ∧ Path.join [dir, name] = joined := by
  rw [sourceBelow, ← Path.isLocal_iff_stays]
  split_ifs with hlocal <;> simp [hlocal]

/-- A source is written under its name below the directory, and then the others are. -/
lemma writeSources_cons {s : InlineSource} {rest : List InlineSource}
    (h : writeSources dir fs (s :: rest) = .ok fs') :
    ∃ next, Path.Stays s.name ∧ fs.place (Path.join [dir, s.name]) s.content = .ok next ∧
      writeSources dir next rest = .ok fs' := by
  rw [writeSources] at h
  cases hpath : sourceBelow dir s.name with
  | error e =>
    rw [hpath] at h
    cases h
  | ok path =>
    obtain ⟨hstays, rfl⟩ := sourceBelow_eq_ok_iff.mp hpath
    rw [hpath] at h
    change (fs.place (Path.join [dir, s.name]) s.content).mapError _ >>= _ = _ at h
    cases hplace : fs.place (Path.join [dir, s.name]) s.content with
    | error fault =>
      rw [hplace] at h
      cases h
    | ok next =>
      rw [hplace] at h
      exact ⟨next, hstays, rfl, h⟩

/-- The sources that are written have names that stay below the directory. -/
lemma stays_of_writeSources {sources : List InlineSource}
    (h : writeSources dir fs sources = .ok fs') : ∀ s ∈ sources, Path.Stays s.name := by
  induction sources generalizing fs with
  | nil => simp
  | cons s rest ih =>
    obtain ⟨next, hstays, -, hrest⟩ := writeSources_cons h
    exact List.forall_mem_cons.mpr ⟨hstays, ih hrest⟩

/-- A path is looked at where it is accepted, among the files of the service. -/
lemma scanPlace_of_path {place : Text} {r : AuditRequest} (hpath : r.path ≠ []) :
    scanPlace fs dir root r = .ok (fs', place) ↔ pathBelow root r.path = .ok place ∧ fs = fs' := by
  rw [scanPlace, if_neg (List.isEmpty_iff.not.mpr hpath)]
  cases hbelow : pathBelow root r.path with
  | error e => simp [bind, Except.bind]
  | ok path => simp [bind, Except.bind, pure, Except.pure, and_comm]

/-- Without a path the sources are written below the directory. -/
lemma scanPlace_of_sources {place : Text} {r : AuditRequest} (hpath : r.path = [])
    (h : scanPlace fs dir root r = .ok (fs', place)) :
    place = dir ∧ ∃ fresh, writeSources dir fresh r.sources = .ok fs' := by
  rw [scanPlace, if_pos (List.isEmpty_iff.mpr hpath)] at h
  cases hfresh : ({} : FileSystem).makeDirectory dir with
  | error fault =>
    rw [hfresh] at h
    cases h
  | ok fresh =>
    rw [hfresh] at h
    change writeSources dir fresh r.sources >>= _ = _ at h
    cases hwrite : writeSources dir fresh r.sources with
    | error e =>
      rw [hwrite] at h
      cases h
    | ok written =>
      rw [hwrite] at h
      cases h
      exact ⟨rfl, fresh, hwrite⟩

/-- **What the service looks at lies below its root.** A path is accepted exactly if the service has
a root and the path stays below its start, and the name of an inline source if it stays below its
start. An accepted path is joined to the root, which gives the root or a path below it. An accepted
name is joined to the directory the source is written to, which gives the directory or a path below
it, also if another name of the request is refused. -/
theorem scanPlace_confined (fs : FileSystem) (dir root : Text) (r : AuditRequest) :
    (r.path ≠ [] → ((∃ out, scanPlace fs dir root r = .ok out) ↔ root ≠ [] ∧ Path.Stays r.path)) ∧
      (∀ name, (∃ path, sourceBelow dir name = .ok path) ↔ Path.Stays name) ∧
      (∀ name path, sourceBelow dir name = .ok path →
        path = Path.join [dir, name] ∧ Below dir path) ∧
      ∀ fs' place, scanPlace fs dir root r = .ok (fs', place) →
        (r.path ≠ [] → place = Path.join [root, r.path] ∧ Below root place) ∧
          (r.path = [] → place = dir ∧ ∀ s ∈ r.sources,
            sourceBelow dir s.name = .ok (Path.join [dir, s.name]) ∧
              Below dir (Path.join [dir, s.name])) := by
  refine ⟨fun hpath => ?_, fun name => ?_, fun name path h => ?_,
    fun fs' place h => ⟨fun hpath => ?_, fun hpath => ?_⟩⟩
  · simp [scanPlace_of_path hpath, pathBelow_eq_ok_iff]
  · simp [sourceBelow_eq_ok_iff]
  · obtain ⟨hstays, rfl⟩ := sourceBelow_eq_ok_iff.mp h
    exact ⟨rfl, below_join hstays dir⟩
  · obtain ⟨-, hstays, rfl⟩ := pathBelow_eq_ok_iff.mp ((scanPlace_of_path hpath).mp h).1
    exact ⟨rfl, below_join hstays root⟩
  · obtain ⟨rfl, fresh, hwrite⟩ := scanPlace_of_sources hpath h
    refine ⟨rfl, fun s hs => ?_⟩
    have hstays := stays_of_writeSources hwrite s hs
    exact ⟨sourceBelow_eq_ok_iff.mpr ⟨hstays, rfl⟩, below_join hstays place⟩

/-- A source that is written after a detour. -/
def sampleSource : InlineSource := { name := "a/../b.sol", content := "contract B {}" }

/-- Detours inside a path or a name are accepted, and those of the root are taken first. -/
theorem scanPlace_confined_detours :
    (scanPlace {} "/tmp/x" "/srv/../data" { path := "a//./b/../c" } = .ok ({}, "/data/a/c") ∧
      Below "/srv/../data" "/data/a/c") ∧
      (∃ fs', scanPlace {} "/tmp/x" "/srv" { sources := [sampleSource] } = .ok (fs', "/tmp/x") ∧
        sourceBelow "/tmp/x" sampleSource.name = .ok "/tmp/x/b.sol" ∧
        Below "/tmp/x" "/tmp/x/b.sol") := by
  have hpath : scanPlace {} "/tmp/x" "/srv/../data" { path := "a//./b/../c" } =
      .ok ({}, "/data/a/c") := by rfl
  have hsource : ∃ fs', scanPlace {} "/tmp/x" "/srv" { sources := [sampleSource] } =
      .ok (fs', "/tmp/x") := ⟨_, rfl⟩
  obtain ⟨fs', hsource⟩ := hsource
  have hbelow := (((scanPlace_confined _ _ _ _).2.2.2 _ _ hsource).2 rfl).2 sampleSource (.head _)
  exact ⟨⟨hpath, (((scanPlace_confined _ _ _ _).2.2.2 _ _ hpath).1 (by decide)).2⟩, fs', hsource,
    hbelow⟩

end ContractAudit.Service
