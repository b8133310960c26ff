import Dpc.Core.RawFrames
import Dpc.Core.ScanFacts

namespace Dpc
open Text FileTree Effects ManifestStore BackupEngine FileScanner

variable {env : Env} {s t : Fs} {now : UInt64} {fault : FaultStage} {w : World} {root base : Path}
  {mode : ChunkingMode} {r : BackupResult}

theorem safePath_below {rest : List Bytes} (hr : rest ≠ []) (hn : ∀ n ∈ rest, LexPath.IsName n) :
    FileUtils.SafePath (joinWith LexPath.slash rest) :=
  ⟨rest, FileUtils.safeRelativePath_names "" hr hn⟩

/-- A path that begins by going up is refused. -/
theorem not_safePath_up (ups : List Bytes) :
    ¬FileUtils.SafePath (joinWith LexPath.slash (LexPath.dotdot :: ups)) := by
  rintro ⟨p, h⟩
  obtain ⟨ns, he⟩ := LexPath.elements_up ups
  have hmem := LexPath.dotdot_mem_lexicallyNormal ns
  simp only [FileUtils.safeRelativePath, he, hmem, if_true] at h
  split at h
  · contradiction
  split at h
  · contradiction
  split at h
  · contradiction
  · contradiction

namespace FileScanner

/-- The entry itself is a symbolic link. -/
def IsLink (w : World) (p : Path) : Prop :=
  ∃ absolute target, w.tree.get? p = some (.leaf (.link absolute target))

/-- The relative path that the scanner gives an entry that it accepts. -/
def scannedPath (w : World) (base p : Path) : Bytes :=
  relativePath base (((w.regular p).map Prod.fst).getD [])

theorem scannedPath_eq {p q : Path} {f : File} (h : w.regular p = some (q, f)) :
    scannedPath w base p = relativePath base q := by
  simp [scannedPath, h]

/-- An accepted entry that is no link is the file itself. -/
theorem regular_of_not_link {p q : Path} {f : File} (h : w.regular p = some (q, f))
    (hp : w.tree.get? p ≠ none) (hl : ¬IsLink w p) :
    q = p ∧ w.tree.get? p = some (.leaf (.file f)) := by
  obtain ⟨hc, hg⟩ := World.regular_eq_some.mp h
  have hsolid : w.Solid p := by
    cases hn : w.tree.get? p with
    | none => exact absurd hn hp
    | some node =>
      cases node with
      | dir => exact .inl hn
      | leaf x =>
        cases x with
        | file g => exact .inr ⟨g, hn⟩
        | link absolute target => exact absurd ⟨absolute, target, hn⟩ hl
  rw [World.canonical_self hsolid] at hc
  cases hc
  exact ⟨rfl, hg⟩

theorem mem_accepted_of_file {p rest : Path} {f : File} (hr : rest ≠ []) (he : p = base ++ rest)
    (hg : w.tree.get? p = some (.leaf (.file f))) :
    p ∈ accepted w base ∧ w.regular p = some (p, f) := by
  have hreg : w.regular p = some (p, f) :=
    World.regular_eq_some.mpr ⟨World.canonical_self (.inr ⟨f, hg⟩), hg⟩
  exact ⟨mem_accepted.mpr ⟨mem_entries.mpr ⟨rest, hr, he, by simp [hg]⟩, p, f, hreg⟩, hreg⟩

/-- Where no accepted entry is a link, each has the names below the base as its path. -/
theorem scannedPath_of_not_link {p : Path} (hp : p ∈ accepted w base) (hl : ¬IsLink w p) :
    ∃ rest, rest ≠ [] ∧ p = base ++ rest ∧ (∀ n ∈ rest, LexPath.IsName n) ∧
      scannedPath w base p = joinWith LexPath.slash rest := by
  obtain ⟨hentry, q, f, hreg⟩ := mem_accepted.mp hp
  obtain ⟨rest, hr, he, hsome⟩ := mem_entries.mp hentry
  obtain ⟨hq, hg⟩ := regular_of_not_link hreg hsome hl
  subst hq
  refine ⟨rest, hr, he, fun n hn => w.names _ hsome n (by simp [he, hn]), ?_⟩
  rw [scannedPath_eq hreg, relativePath, he, LexPath.lexicallyRelative_below hr]

/-- A link leads to a path that another entry has, or to one that goes up. -/
theorem scannedPath_of_link (hb : w.tree.get? base = some .dir) {p : Path}
    (hp : p ∈ accepted w base) (hl : IsLink w p) :
    (∃ q ∈ accepted w base, q ≠ p ∧ scannedPath w base q = scannedPath w base p) ∨
      ¬FileUtils.SafePath (scannedPath w base p) := by
  obtain ⟨hentry, q, f, hreg⟩ := mem_accepted.mp hp
  obtain ⟨hc, hg⟩ := World.regular_eq_some.mp hreg
  rcases relativePath_cases hb hg with ⟨rest, hr, he, _, _⟩ | ⟨_, ups, hup⟩
  · obtain ⟨hq, hself⟩ := mem_accepted_of_file hr he hg
    refine .inl ⟨q, hq, ?_, ?_⟩
    · intro heq
      obtain ⟨absolute, target, hlink⟩ := hl
      rw [heq, hlink] at hg
      simp at hg
    · rw [scannedPath_eq hself, scannedPath_eq hreg]
  · refine .inr ?_
    rw [scannedPath_eq hreg, hup]
    exact not_safePath_up ups

/-- The paths are safe and different if and only if no link was accepted. -/
theorem scannedPaths_iff (hb : w.tree.get? base = some .dir) :
    ((∀ p ∈ accepted w base, FileUtils.SafePath (scannedPath w base p)) ∧
        ((accepted w base).map (scannedPath w base)).Nodup) ↔
      ∀ p ∈ accepted w base, ¬IsLink w p := by
  constructor
  · intro ⟨hsafe, hnodup⟩ p hp hl
    rcases scannedPath_of_link hb hp hl with ⟨q, hq, hne, he⟩ | hunsafe
    · exact hne (List.inj_on_of_nodup_map hnodup hq hp he)
    · exact hunsafe (hsafe p hp)
  · intro hl
    refine ⟨fun p hp => ?_, ?_⟩
    · obtain ⟨rest, hr, _, hn, hpath⟩ := scannedPath_of_not_link hp (hl p hp)
      rw [hpath]
      exact safePath_below hr hn
    · refine List.Nodup.map_on ?_ (List.Nodup.filter _ (nodup_entries w base))
      intro p hp q hq he
      obtain ⟨rest, hr, hpe, hn, hpath⟩ := scannedPath_of_not_link hp (hl p hp)
      obtain ⟨rest', hr', hqe, hn', hpath'⟩ := scannedPath_of_not_link hq (hl q hq)
      rw [hpath, hpath'] at he
      have hrest := LexPath.joinWith_slash_injective hr hr' (fun n h => (hn n h).noslash)
        (fun n h => (hn' n h).noslash) he
      rw [hpe, hqe, hrest]

end FileScanner

/-- The paths of a version that was made of a directory are those of the entries that the
scanner accepted. -/
theorem BackupEngine.Created.paths_perm {m : Manifest}
    (h : Created env now (.ofWorld w root) mode s t m) (hbase : w.canonical root = .ok base) :
    w.tree.get? base = some .dir ∧
      (m.files.map FileManifest.relativePath).Perm ((accepted w base).map (scannedPath w base)) := by
  obtain ⟨files, hscan, hentries⟩ := h.wellFormed_iff
  obtain ⟨base', found, hbase', hdir, hperm, hfound⟩ := scanRegularFiles_ok hscan
  rw [hbase] at hbase'
  cases hbase'
  refine ⟨hdir, ?_⟩
  have hpaths : m.files.map FileManifest.relativePath = files.map ScannedFile.relativePath := by
    rw [← List.forall₂_eq_eq_eq, List.forall₂_map_left_iff, List.forall₂_map_right_iff]
    exact (hentries.imp fun _ _ hh => hh.1).flip
  have hscanned : (accepted w base).map (scannedPath w base) = found.map ScannedFile.relativePath := by
    rw [← List.forall₂_eq_eq_eq, List.forall₂_map_left_iff, List.forall₂_map_right_iff]
    exact hfound.imp fun p file ⟨q, f, hfrom⟩ => by rw [scannedPath_eq hfrom.regular, hfrom.path]
  rw [hpaths, hscanned]
  exact hperm.map _

/-- A version is loaded if and only if the paths that the scanner gave are safe. -/
theorem BackupEngine.Created.loads_iff {m : Manifest}
    (h : Created env now (.ofWorld w root) mode s t m) (hbase : w.canonical root = .ok base) :
    (∃ m', (load m.version).exec t = (.ok m', t)) ↔
      ∀ p ∈ accepted w base, FileUtils.SafePath (scannedPath w base p) := by
  obtain ⟨_, hperm⟩ := h.paths_perm hbase
  obtain ⟨files, _, hentries⟩ := h.wellFormed_iff
  have hwf : (∀ file ∈ m.files, WellFormedFile file) ↔
      ∀ path ∈ m.files.map FileManifest.relativePath, FileUtils.SafePath path := by
    rw [List.forall_mem_map]
    refine forall₂_congr fun file hf => ?_
    obtain ⟨scanned, _, hpath, hiff⟩ := hentries.exists_left hf
    rw [hiff, hpath]
  have hmem : (∀ path ∈ m.files.map FileManifest.relativePath, FileUtils.SafePath path) ↔
      ∀ p ∈ accepted w base, FileUtils.SafePath (scannedPath w base p) := by
    rw [← List.forall_mem_map (f := scannedPath w base)]
    exact forall_congr' fun path => by rw [hperm.mem_iff]
  rw [← hmem, ← hwf]
  constructor
  · intro ⟨m', hl⟩
    exact (h.exec_load.mp hl).2
  · intro hall
    exact ⟨m, h.exec_load.mpr ⟨rfl, hall⟩⟩

/-- A version that `create` returned is loaded, with a path of its own for each entry that
the scanner accepted, exactly when none of these entries is a symbolic link. -/
theorem created_version_loads_iff (hbase : w.canonical root = .ok base)
    (h : (create env now fault (.ofWorld w root) mode).exec s = (.ok r, t)) :
    (∃ m, (load r.version).exec t = (.ok m, t) ∧
        (m.files.map FileManifest.relativePath).Nodup ∧
        m.files.length = (accepted w base).length) ↔
      ∀ p ∈ accepted w base, ¬IsLink w p := by
  obtain ⟨m, hv, hc⟩ := create_ok h
  obtain ⟨hdir, hperm⟩ := hc.paths_perm hbase
  rw [hv, ← scannedPaths_iff hdir, ← hc.loads_iff hbase, ← hperm.nodup_iff]
  constructor
  · intro ⟨m', hl, hnodup, _⟩
    obtain ⟨rfl, _⟩ := hc.exec_load.mp hl
    exact ⟨⟨m', hl⟩, hnodup⟩
  · intro ⟨⟨m', hl⟩, hnodup⟩
    obtain ⟨rfl, _⟩ := hc.exec_load.mp hl
    exact ⟨m', hl, hnodup, by simpa using hperm.length_eq⟩

/-- A directory with one file of one byte, and beside it what `extra` adds. -/
def letterNodes (extra : List (Sigma fun _ : Path => Node Entry)) :
    AList fun _ : Path => Node Entry :=
  (⟨[ascii "data"], .dir⟩ :: ⟨[ascii "data", ascii "a.txt"], .leaf (.file ⟨ascii "a", 0o644⟩)⟩ ::
    extra).toAList

def plainWorld : World :=
  .ofNodes (letterNodes []) (by decide +kernel) (by decide +kernel) (by decide +kernel)

/-- The directory holds a link to a file elsewhere. -/
def linkedWorld : World :=
  .ofNodes (letterNodes [⟨[ascii "etc"], .dir⟩,
      ⟨[ascii "etc", ascii "a.conf"], .leaf (.file ⟨ascii "a", 0o644⟩)⟩,
      ⟨[ascii "data", ascii "a.link"], .leaf (.link true [ascii "etc", ascii "a.conf"])⟩])
    (by decide +kernel) (by decide +kernel) (by decide +kernel)

theorem created_plain_loads :
    ∃ t, (create letterEnv 1700000000 .none (.ofWorld plainWorld [ascii "data"]) .fixed).exec
        emptyRepo = (.ok ⟨1, 1, 1, 10, 1, 1, 0⟩, t) ∧
      ∃ m, (load 1).exec t = (.ok m, t) ∧ (m.files.map FileManifest.relativePath).Nodup ∧
        m.files.length = 1 := by
  have hx : ((create letterEnv 1700000000 .none (.ofWorld plainWorld [ascii "data"]) .fixed).exec
      emptyRepo).1 = .ok ⟨1, 1, 1, 10, 1, 1, 0⟩ := by decide +kernel
  have hbase : plainWorld.canonical [ascii "data"] = .ok [ascii "data"] := by decide +kernel
  have haccepted : accepted plainWorld [ascii "data"] = [[ascii "data", ascii "a.txt"]] := by
    decide +kernel
  refine ⟨_, Prog.exec_of_fst hx, ?_⟩
  have hiff := created_version_loads_iff hbase (Prog.exec_of_fst hx)
  rw [haccepted] at hiff
  refine hiff.mpr fun p hp => ?_
  rw [List.mem_singleton] at hp
  rintro ⟨absolute, target, hl⟩
  have hfile : plainWorld.tree.get? [ascii "data", ascii "a.txt"] =
      some (.leaf (.file ⟨ascii "a", 0o644⟩)) := by decide +kernel
  rw [hp, hfile] at hl
  simp at hl

theorem created_linked_does_not_load :
    ∃ t, (create letterEnv 1700000000 .none (.ofWorld linkedWorld [ascii "data"]) .fixed).exec
        emptyRepo = (.ok ⟨1, 2, 2, 10, 2, 1, 1⟩, t) ∧
      ((load 1).exec t).1 =
        .error (dpcError "manifest relative_path must not contain parent directory traversal") := by
  have hx : ((create letterEnv 1700000000 .none (.ofWorld linkedWorld [ascii "data"]) .fixed).exec
      emptyRepo).1 = .ok ⟨1, 2, 2, 10, 2, 1, 1⟩ := by decide +kernel
  exact ⟨_, Prog.exec_of_fst hx, by decide +kernel⟩

end Dpc
