import Dpc.Common.SystemCalls
import Dpc.Core.Emitted
import Dpc.Guarantees.Verified
import Dpc.Guarantees.Visible
import Dpc.Lib.Carried

namespace Dpc
open Text FileTree Effects ManifestStore ObjectStore BackupEngine

/-- What is found under the paths of a repository. -/
abbrev Found := Path → Option Bytes

/-- The object of a reference is there, and unpacks to bytes with its hash and its size. -/
structure ObjectComplete (env : Env) (w : Found) (ref : ChunkRef) : Prop where
  path : ref.objectPath = textOf ref.sha256
  object : ∃ data raw, w (pathOf ref.sha256) = some data ∧ size data = ref.compressedSize ∧
    Compressor.decompress env data 0 = .ok raw ∧ Hash.sha256Hex env.evp raw = ref.sha256 ∧
    size raw = ref.rawSize

/-- The manifest is one that can be written, and all its objects are complete. -/
structure ManifestComplete (env : Env) (w : Found) (m : Manifest) : Prop where
  printable : Printable m
  objects : ∀ file ∈ m.files, ∀ ref ∈ file.chunks, ObjectComplete env w ref

/-- The manifest of a version is there with all its bytes, and so are its objects. -/
def VersionComplete (env : Env) (w : Found) (v : UInt64) : Prop :=
  ∃ m, m.version = v ∧ w (manifestPath v) = some (serialize m) ∧ ManifestComplete env w m

/-- Where a commit marker is, there is a complete version. -/
def CommitsComplete (env : Env) (w : Found) : Prop :=
  ∀ v, (w (commitPath v)).isSome → VersionComplete env w v

/-- What processes find in a tree. -/
def contents (s : Fs) : Found := fun q => (s.leaf? q).map File.data

/-- A repository on a disk on which everything is flushed, but for the directory of the
sessions, which nobody flushes. -/
structure Initialised (env : Env) (s : Fs) (d : Disk Bytes) : Prop where
  sane : d.Sane
  possible : d.Possible
  shows : Shows s d
  layout : ∀ name ∈ ["objects", "manifests", "metadata", "tmp"], s.get? [ascii name] = some .dir
  entries : ∀ q, q ≠ [ascii "metadata", ascii "sessions"] → d.Certain q
  bytes : ∀ n x, d.mayBytes n x → x = d.bytes n
  complete : CommitsComplete env (contents s)

/-- Backups one after another, each of which may have failed, or been stopped after any of its
effects or inside one of them. `C` is what is asked of each: the repository and the disk it starts
from, what it is to do and the effects that it came to. -/
inductive Creates (env : Env)
    (C : Fs → Disk Bytes → Source → ChunkingMode → List FsEffect → Prop) (s : Fs) (d : Disk Bytes) :
    Fs → Disk Bytes → Prop where
  | nil : Creates env C s d s d
  | snoc {t u : Fs} {dt du : Disk Bytes} {is : List FsEffect} (h : Creates env C s d t dt)
      (now : UInt64) (fault : FaultStage) (source : Source) (mode : ChunkingMode)
      (hc : Prog.Carried FsEffect.Done FsEffect.Stopped (create env now fault source mode) t dt is u du)
      (hC : C t dt source mode is) : Creates env C s d u du

/-- The directory for the object of a hash. -/
def shardDir (sha : Bytes) : Path := objectsDir ++ [sha.take 2]

/-- A backup comes to the marker of a version, or renames its manifest over the one of a version
whose marker may be found. -/
def ComesToCommit (d : Disk Bytes) (is : List FsEffect) : Prop :=
  ∃ v, (∃ data mode, .replace (commitPath v) data mode ∈ is) ∨
    .rename (tmpManifestPath v) (manifestPath v) ∈ is ∧ ¬d.FileFree (commitPath v)

/-- When a backup begins, the directory for each of its objects is there and flushed. So is the
object, or one of the same directory is not there, which the backup will put. -/
def Sheltered (env : Env) (s : Fs) (d : Disk Bytes) (mode : ChunkingMode)
    (files : List ScannedFile) : Prop :=
  ∀ raw, ChunkOf mode files raw → d.IsDir (shardDir (Hash.sha256Hex env.evp raw)) ∧
    (d.Certain (pathOf (Hash.sha256Hex env.evp raw)) ∨
      ∃ raw', ChunkOf mode files raw' ∧
        shardDir (Hash.sha256Hex env.evp raw') = shardDir (Hash.sha256Hex env.evp raw) ∧
        s.leaf? (pathOf (Hash.sha256Hex env.evp raw')) = none)

/-- A backup that comes to commit has its objects sheltered. -/
def CommitsSheltered (env : Env) (s : Fs) (d : Disk Bytes) (source : Source) (mode : ChunkingMode)
    (is : List FsEffect) : Prop :=
  ComesToCommit d is → ∀ files, source.scan = .ok files → Sheltered env s d mode files

variable {env : Env} {s t u : Fs} {d d' d₀ : Disk Bytes} {i : FsEffect}
  {cs : List (SysCall Bytes)} {m : Manifest} {v : UInt64} {q : Path} {w w' : Found} {sha : Bytes}

theorem contents_eq_some {x : Bytes} : contents s q = some x ↔ ∃ f, s.leaf? q = some f ∧ f.data = x := by
  simp [contents]

theorem ObjectComplete.mono {ref : ChunkRef} (h : ObjectComplete env w ref)
    (hw : ∀ x, w (pathOf ref.sha256) = some x → w' (pathOf ref.sha256) = some x) :
    ObjectComplete env w' ref := by
  obtain ⟨data, raw, hx, hrest⟩ := h.object
  exact ⟨h.path, data, raw, hw _ hx, hrest⟩

theorem ManifestComplete.mono (h : ManifestComplete env w m)
    (hw : ∀ file ∈ m.files, ∀ ref ∈ file.chunks, ∀ x, w (pathOf ref.sha256) = some x →
      w' (pathOf ref.sha256) = some x) : ManifestComplete env w' m :=
  ⟨h.printable, fun file hf ref hr => (h.objects file hf ref hr).mono (hw file hf ref hr)⟩

theorem Describes.complete {data : Bytes} {ref : ChunkRef} (hz : env.zstd.Lawful)
    (hlen : data.length < 2 ^ 63) (h : Describes env t data ref) :
    ObjectComplete env (contents t) ref := by
  refine ⟨h.path, ?_⟩
  obtain ⟨f, hf, hsize, hc | ⟨raw, ⟨f', hf', hdec, hsha⟩, hraw⟩⟩ := h.file
  · exact ⟨f.data, data, contents_eq_some.mpr ⟨f, hf, rfl⟩, hsize.symm,
      Compressor.decompress_compress hz hlen hc (.inl rfl), h.sha.symm, h.rawSize.symm⟩
  · rw [hf] at hf'
    cases hf'
    exact ⟨f.data, raw, contents_eq_some.mpr ⟨f, hf, rfl⟩, hsize.symm, hdec, hsha,
      hraw.trans h.rawSize.symm⟩

/-- When the manifest is built, all its objects are there. -/
theorem BackupEngine.Built.complete {now : UInt64} {source : Source} {mode : ChunkingMode}
    (hz : env.zstd.Lawful) (h : Built env now source mode s u m) :
    ManifestComplete env (contents u) m := by
  refine ⟨h.printable, fun file hf ref hr => ?_⟩
  obtain ⟨files, _, _, hfiles, _⟩ := h.files
  obtain ⟨scanned, _, data, hd⟩ := hfiles.exists_left hf
  obtain ⟨chunk, hchunk, _, hdesc⟩ := hd.chunks.exists_left hr
  have hlen := (Compressor.allocate_ok.mp hd.fits).1
  refine Describes.complete hz ?_ hdesc
  exact Nat.lt_of_le_of_lt (length_le_of_mem_chunkFile hlen (List.mem_map_of_mem hchunk)) hlen

/-- No marker of the version may be found, or the version will be found complete. -/
def VersionStands (env : Env) (d : Disk Bytes) (v : UInt64) : Prop :=
  d.FileFree (commitPath v) ∨ d.Firmly (manifestPath v) fun text =>
    ∃ m, m.version = v ∧ text = serialize m ∧ ManifestComplete env d.sure m

/-- The files that get their names when they are flushed, and are used again. -/
def Placed (q : Path) : Prop := (∃ sha, q = pathOf sha) ∨ ∃ v, q = tmpManifestPath v

/-- The disk of a repository at any instant. -/
structure Standing (env : Env) (d : Disk Bytes) : Prop where
  sane : d.Sane
  possible : d.Possible
  manifests : d.IsDir manifestsDir
  objects : d.IsDir objectsDir
  clean : ∀ q, Placed q → d.Clean q
  versions : ∀ v, VersionStands env d v

theorem undated_pathOf (sha : Bytes) : Undated (pathOf sha) := by
  refine ⟨sha ++ ascii ".zst", 116, rfl, ?_, by decide⟩
  rw [List.getLast?_append]
  rfl

theorem undated_version {dir : Path} {suffix : String} {b : UInt8}
    (hb : (ascii suffix).getLast? = some b) (hdigit : isDigit b = false) :
    Undated (dir ++ [versionFileName v suffix]) := by
  refine ⟨versionFileName v suffix, b, List.getLast?_concat, ?_, hdigit⟩
  rw [versionFileName, List.getLast?_append, hb]
  rfl

theorem undated_commit (v : UInt64) : Undated (commitPath v) :=
  undated_version (b := 116) rfl (by decide)

theorem undated_manifest (v : UInt64) : Undated (manifestPath v) :=
  undated_version (b := 116) rfl (by decide)

theorem undated_tmp (v : UInt64) : Undated (tmpManifestPath v) :=
  undated_version (b := 112) rfl (by decide)

theorem Placed.undated (h : Placed q) : Undated q := by
  rcases h with ⟨sha, rfl⟩ | ⟨v, rfl⟩
  · exact undated_pathOf sha
  · exact undated_tmp v

theorem isDir_above {n : Name} (h : d.IsDir manifestsDir) :
    ∀ r ∈ (manifestsDir ++ [n]).inits, r ≠ [] → r ≠ manifestsDir ++ [n] → d.IsDir r := by
  intro r hr hne hself
  rcases List.prefix_concat_iff.mp ((List.mem_inits r _).mp hr) with rfl | hpre
  · exact absurd rfl hself
  · have hlen := hpre.length_le
    have hr1 : 0 < r.length := List.length_pos_iff.mpr hne
    have hone : manifestsDir.length = 1 := rfl
    rwa [hpre.eq_of_length (by omega)]

theorem isDir_above_object (ho : d.IsDir objectsDir) (hs : d.IsDir (shardDir sha)) :
    ∀ r ∈ (pathOf sha).inits, r ≠ [] → r ≠ pathOf sha → d.IsDir r := by
  intro r hr hne hself
  simp only [pathOf, List.inits, List.map_cons, List.map_nil, List.mem_cons, List.not_mem_nil,
    or_false] at hr
  rcases hr with rfl | rfl | rfl | rfl
  · exact absurd rfl hne
  · exact ho
  · exact hs
  · exact absurd rfl hself

/-- Whatever survives of such a disk has complete versions only. -/
theorem Standing.survives (h : Standing env d) (hw : d.Survives w) : CommitsComplete env w := by
  intro v hv
  rcases h.versions v with hfree | hfirm
  · rw [hw.fileFree hfree] at hv
    contradiction
  · obtain ⟨text, htext, m, hmv, rfl, hm⟩ := hw.firmly (isDir_above h.manifests) hfirm
    exact ⟨m, hmv, htext, hm.mono fun _ _ _ _ x hx => hw.sure h.sane hx⟩

/-- A version stands as long as nothing is done to its marker, its manifest and its objects. -/
theorem VersionStands.runs (h : VersionStands env d v) (hposs : d.Possible)
    (hc : ∀ c ∈ cs, commitPath v ∉ c.concerns) (hm : ∀ c ∈ cs, manifestPath v ∉ c.concerns)
    (hsure : ∀ sha x, d.sure (pathOf sha) = some x → (d.runs cs).sure (pathOf sha) = some x) :
    VersionStands env (d.runs cs) v := by
  rcases h with hfree | hfirm
  · exact .inl (hfree.runs (FsEffect.not_places hc))
  · refine .inr ((hfirm.runs hposs (FsEffect.not_changes hm)).mono fun text h => ?_)
    obtain ⟨m, hmv, htext, hm⟩ := h
    exact ⟨m, hmv, htext, hm.mono fun _ _ _ _ x hx => hsure _ x hx⟩

/-- The step lemma: what an effect does not touch stands as it is. -/
theorem Standing.step (h : Standing env d) (hi : FsEffect.Making i s d cs)
    (hnew : ∀ sha, i.Reaches s (pathOf sha) → s.leaf? (pathOf sha) = none)
    (hclean : ∀ q, Placed q → i.Reaches s q → (d.runs cs).Clean q)
    (hversions : ∀ v, i.Reaches s (commitPath v) ∨ i.Reaches s (manifestPath v) →
      VersionStands env (d.runs cs) v) : Standing env (d.runs cs) := by
  refine ⟨h.sane.runs cs, h.possible.runs cs, hi.isDir h.manifests, hi.isDir h.objects, ?_, ?_⟩
  · intro q hq
    by_cases hr : i.Reaches s q
    · exact hclean q hq hr
    · exact (h.clean q hq).runs h.sane (hi.not_concerns (.inr hq.undated) hr)
  · intro v
    by_cases hr : i.Reaches s (commitPath v) ∨ i.Reaches s (manifestPath v)
    · exact hversions v hr
    · rw [not_or] at hr
      refine (h.versions v).runs h.possible (hi.not_concerns (.inr (undated_commit v)) hr.1)
        (hi.not_concerns (.inr (undated_manifest v)) hr.2) fun sha x hx => ?_
      refine hi.sure hx fun hreach => ?_
      obtain ⟨f, hf, _⟩ := hi.shows.leaf?_of_view (by simp [pathOf])
        (Disk.sure_eq_some.mp hx).1.synced.view
      rw [hnew sha hreach] at hf
      cases hf

/-- Effects that make directories, write the log, and replace files of one kind. -/
inductive Writes (P : Path → Prop) : FsEffect → Prop where
  | dir (p : Path) : Writes P (.ensureDirectory p)
  | wal (data : Bytes) (mode : UInt32) (e : Exn) : Writes P (.append WalLog.walPath data mode e)
  | replace {p : Path} (h : P p) (data : Bytes) (mode : UInt32) : Writes P (.replace p data mode)

theorem Writes.reaches {P : Path → Prop} (h : ∀ t, Effect.apply i s = .ok t → Writes P i)
    (hr : i.Reaches s q) (hq : q ≠ WalLog.walPath) : P q ∧ ∃ data mode, i = .replace q data mode := by
  obtain ⟨ht, t, ha⟩ := hr
  cases h t ha with
  | dir p => exact absurd ht List.not_mem_nil
  | wal data mode e => exact absurd (List.mem_singleton.mp ht) hq
  | replace hp data mode =>
    cases List.mem_singleton.mp ht
    exact ⟨hp, data, mode, rfl⟩

theorem pathOf_ne_wal (sha : Bytes) : pathOf sha ≠ WalLog.walPath :=
  ne_of_head (show some (ascii "objects") ≠ some (ascii "metadata") by decide)

theorem pathOf_ne_tmp (sha : Bytes) (v : UInt64) : pathOf sha ≠ tmpManifestPath v :=
  ne_of_head (show some (ascii "objects") ≠ some (ascii "tmp") by decide)

theorem Placed.ne_wal (h : Placed q) : q ≠ WalLog.walPath := by
  rcases h with ⟨sha, rfl⟩ | ⟨v, rfl⟩
  · exact pathOf_ne_wal sha
  · exact tmp_ne_wal v

/-- A complete manifest stays so while no object is touched. -/
theorem ManifestComplete.making (h : ManifestComplete env d.sure m) (hi : FsEffect.Making i s d cs)
    (hno : ∀ sha, ¬i.Reaches s (pathOf sha)) : ManifestComplete env (d.runs cs).sure m :=
  h.mono fun _ _ ref _ _ hx => hi.sure hx (hno ref.sha256)

theorem shows_done (h : Shows s d) (hs : d.Sane) (ha : Effect.apply i s = .ok t) (hd : i.Done d d') :
    Shows t d' := by
  obtain ⟨pid, now, hf, rfl⟩ := hd
  exact h.calls hs ha hf

/-- The objects that a backup puts were not there. -/
def NewObject (s : Fs) (q : Path) : Prop := (∃ sha, q = pathOf sha) ∧ s.leaf? q = none

theorem not_newObject {n : Name} (h : q.head? = some n) (hn : n ≠ ascii "objects") : ¬NewObject s q := by
  rintro ⟨⟨sha, rfl⟩, _⟩
  exact hn (Option.some.inj h).symm

/-- While the objects are put. -/
theorem Standing.build (h : Standing env d) (hi : FsEffect.Making i s d cs)
    (hw : ∀ t, Effect.apply i s = .ok t → Writes (NewObject s) i) : Standing env (d.runs cs) := by
  refine h.step hi ?_ ?_ ?_
  · exact fun sha hr => (Writes.reaches hw hr (pathOf_ne_wal sha)).1.2
  · intro q hq hr
    obtain ⟨_, data, mode, rfl⟩ := Writes.reaches hw hr hq.ne_wal
    exact hi.clean (h.clean q hq)
  · intro v hr
    rcases hr with hr | hr
    · exact absurd (Writes.reaches hw hr (commit_ne_wal v)).1 (not_newObject rfl (by decide))
    · exact absurd (Writes.reaches hw hr (manifest_ne_wal v)).1 (not_newObject rfl (by decide))

/-- What has come of the disk since the backup began: directories and objects are still flushed,
and where an object is new all of its directory are. -/
structure Since (s₀ : Fs) (d₀ : Disk Bytes) (s : Fs) (d : Disk Bytes) : Prop where
  dirs : ∀ q, d₀.IsDir q → d.IsDir q
  free : ∀ v, d₀.FileFree (commitPath v) → d.FileFree (commitPath v)
  kept : ∀ sha, (s₀.leaf? (pathOf sha)).isSome →
    (s.leaf? (pathOf sha)).isSome ∧ (d₀.Certain (pathOf sha) → d.Certain (pathOf sha))
  renewed : ∀ sha sha', s₀.leaf? (pathOf sha) = none → (s.leaf? (pathOf sha)).isSome →
    shardDir sha' = shardDir sha → (s.leaf? (pathOf sha')).isSome → d.Certain (pathOf sha')

theorem Since.refl (s : Fs) (d : Disk Bytes) : Since s d s d where
  dirs _ h := h
  free _ h := h
  kept _ h := ⟨h, fun h => h⟩
  renewed sha _ hn hs _ _ := by
    rw [hn] at hs
    cases hs

theorem Since.step {s₀ : Fs} (h : Since s₀ d₀ s d) (hsh : Shows s d) (hs : d.Sane)
    (hw : Writes (NewObject s) i) (ha : Effect.apply i s = .ok t) (hd : i.Done d d') :
    Since s₀ d₀ t d' := by
  have hdone := hd
  obtain ⟨cs, hi, rfl⟩ := FsEffect.Making.of_done hsh hs ha hd
  have hreach : ∀ {q}, i.Reaches s q → q ≠ WalLog.walPath → NewObject s q ∧ ∃ data mode, i = .replace q data mode :=
    fun hr hq => Writes.reaches (fun _ _ => hw) hr hq
  have hold : ∀ sha, (s.leaf? (pathOf sha)).isSome → (t.leaf? (pathOf sha)).isSome ∧
      (d.Certain (pathOf sha) → (d.runs cs).Certain (pathOf sha)) := by
    intro sha hleaf
    obtain ⟨f, hf⟩ := Option.isSome_iff_exists.mp hleaf
    have hno : ¬i.Reaches s (pathOf sha) := by
      intro hr
      rw [(hreach hr (pathOf_ne_wal sha)).1.2] at hleaf
      cases hleaf
    obtain ⟨n, hn, _⟩ := Disk.view_eq_leaf.mp (hsh.leaf hf)
    refine ⟨?_, fun hc => hc.runs (by rw [hn]; simp)
      (FsEffect.not_changes (hi.not_concerns (.inr (undated_pathOf sha)) hno))⟩
    rwa [FsEffect.apply_frame ha fun ht => hno ⟨ht, t, ha⟩]
  have hnew : ∀ sha sha', s.leaf? (pathOf sha) = none → (t.leaf? (pathOf sha)).isSome →
      shardDir sha' = shardDir sha → (d.runs cs).Certain (pathOf sha') := by
    intro sha sha' hn hleaf hdir
    by_cases ht : pathOf sha ∈ i.touches
    · obtain ⟨_, data, mode, rfl⟩ := hreach ⟨ht, t, ha⟩ (pathOf_ne_wal sha)
      exact FsEffect.Done.certain hdone (by simp [pathOf]) hdir
    · rw [FsEffect.apply_frame ha ht, hn] at hleaf
      cases hleaf
  refine ⟨fun q hq => hi.isDir (h.dirs q hq), fun v hv => ?_, fun sha hleaf => ?_, ?_⟩
  · have hno : ¬i.Reaches s (commitPath v) := fun hr =>
      not_newObject rfl (by decide) (hreach hr (commit_ne_wal v)).1
    exact (h.free v hv).runs (FsEffect.not_places (hi.not_concerns (.inr (undated_commit v)) hno))
  · obtain ⟨hmid, hcert⟩ := h.kept sha hleaf
    obtain ⟨hend, hcert'⟩ := hold sha hmid
    exact ⟨hend, fun hc => hcert' (hcert hc)⟩
  · intro sha sha' hn hleaf hdir hleaf'
    cases hmid : s.leaf? (pathOf sha) with
    | none => exact hnew sha sha' hmid hleaf hdir
    | some f =>
      cases hmid' : s.leaf? (pathOf sha') with
      | none => exact hnew sha' sha' hmid' hleaf' rfl
      | some f' =>
        refine (hold sha' ?_).2 (h.renewed sha sha' hn ?_ hdir ?_)
        · rw [hmid']
          rfl
        · rw [hmid]
          rfl
        · rw [hmid']
          rfl

/-- Where its objects are sheltered, they are sure when the backup has put them. -/
theorem Since.sure {s₀ : Fs} {mode : ChunkingMode} {files : List ScannedFile} {raw x : Bytes}
    (h : Since s₀ d₀ s d) (hst : Standing env d) (hsh : Shows s d) (hf : Sheltered env s₀ d₀ mode files)
    (hall : ∀ raw, ChunkOf mode files raw → (s.leaf? (pathOf (Hash.sha256Hex env.evp raw))).isSome)
    (hraw : ChunkOf mode files raw) (hx : contents s (pathOf (Hash.sha256Hex env.evp raw)) = some x) :
    d.sure (pathOf (Hash.sha256Hex env.evp raw)) = some x := by
  obtain ⟨hdir, hcase⟩ := hf raw hraw
  have hnew : ∀ raw', ChunkOf mode files raw' →
      shardDir (Hash.sha256Hex env.evp raw') = shardDir (Hash.sha256Hex env.evp raw) →
      s₀.leaf? (pathOf (Hash.sha256Hex env.evp raw')) = none →
      d.Certain (pathOf (Hash.sha256Hex env.evp raw)) :=
    fun raw' hraw' hshard hn => h.renewed _ _ hn (hall raw' hraw') hshard.symm (hall raw hraw)
  have hcertain : d.Certain (pathOf (Hash.sha256Hex env.evp raw)) := by
    rcases hcase with hc | ⟨raw', hraw', hshard, hn⟩
    · cases hs : s₀.leaf? (pathOf (Hash.sha256Hex env.evp raw)) with
      | none => exact hnew raw hraw rfl hs
      | some f => exact (h.kept _ (by rw [hs]; rfl)).2 hc
    · exact hnew raw' hraw' hshard hn
  obtain ⟨f, hleaf, rfl⟩ := contents_eq_some.mp hx
  exact Disk.sure_eq_some.mpr ⟨⟨hst.clean _ (.inl ⟨_, rfl⟩) _ (hsh.leaf hleaf), hcertain⟩,
    isDir_above_object hst.objects (h.dirs _ hdir)⟩

/-- When the manifest is built. -/
theorem BackupEngine.Built.sure {now : UInt64} {source : Source} {mode : ChunkingMode} {s₀ : Fs}
    (hb : Built env now source mode s₀ s m) (hz : env.zstd.Lawful) (h : Since s₀ d₀ s d)
    (hst : Standing env d) (hsh : Shows s d)
    (hf : ∀ files, source.scan = .ok files → Sheltered env s₀ d₀ mode files) :
    ManifestComplete env d.sure m := by
  obtain ⟨files, hscan, _, hfiles, _⟩ := hb.files
  have hall : ∀ raw, ChunkOf mode files raw →
      (s.leaf? (pathOf (Hash.sha256Hex env.evp raw))).isSome := by
    rintro raw ⟨scanned, hs, data, hread, hraw⟩
    obtain ⟨file, _, data', hd⟩ := hfiles.exists_right hs
    rw [hd.read_eq] at hread
    cases hread
    obtain ⟨chunk, hchunk, rfl⟩ := List.mem_map.mp hraw
    obtain ⟨ref, _, _, hdesc⟩ := hd.chunks.exists_right hchunk
    obtain ⟨f, hfile, _⟩ := hdesc.file
    rw [← hdesc.sha, hfile]
    rfl
  refine (hb.complete hz).mono fun file hfile ref href x hx => ?_
  obtain ⟨scanned, hs, data, hd⟩ := hfiles.exists_left hfile
  obtain ⟨chunk, hchunk, _, hdesc⟩ := hd.chunks.exists_left href
  have hraw : ChunkOf mode files chunk.data := ⟨scanned, hs, data, hd.read_eq, List.mem_map_of_mem hchunk⟩
  rw [hdesc.sha] at hx ⊢
  exact h.sure hst hsh (hf files hscan) hall hraw hx

/-- While a manifest is staged: if the backup comes to commit, all its objects are sure. -/
structure Staged (env : Env) (K : Prop) (d₀ : Disk Bytes) (m : Manifest) (s : Fs) (d : Disk Bytes) :
    Prop where
  shows : Shows s d
  standing : Standing env d
  free : ∀ v, d₀.FileFree (commitPath v) → d.FileFree (commitPath v)
  complete : K → ManifestComplete env d.sure m

theorem Staged.standing_runs {K : Prop} (h : Staged env K d₀ m s d) (hi : FsEffect.Making i s d cs)
    (hw : ∀ t, Effect.apply i s = .ok t → Writes (· = tmpManifestPath m.version) i) :
    Standing env (d.runs cs) := by
  refine h.standing.step hi ?_ ?_ ?_
  · intro sha hr
    exact absurd (Writes.reaches hw hr (pathOf_ne_wal sha)).1 (pathOf_ne_tmp sha _)
  · intro q hq hr
    obtain ⟨_, data, mode, rfl⟩ := Writes.reaches hw hr hq.ne_wal
    exact hi.clean (h.standing.clean q hq)
  · intro v hr
    rcases hr with hr | hr
    · exact absurd (Writes.reaches hw hr (commit_ne_wal v)).1.symm (tmp_ne_commit _ v)
    · exact absurd (Writes.reaches hw hr (manifest_ne_wal v)).1.symm (tmp_ne_manifest _ v)

theorem Staged.done {K : Prop} (h : Staged env K d₀ m s d)
    (hw : Writes (· = tmpManifestPath m.version) i) (ha : Effect.apply i s = .ok t)
    (hd : i.Done d d') : Staged env K d₀ m t d' := by
  have hshows := shows_done h.shows h.standing.sane ha hd
  obtain ⟨cs, hi, rfl⟩ := FsEffect.Making.of_done h.shows h.standing.sane ha hd
  have hreach : ∀ {q}, i.Reaches s q → q ≠ WalLog.walPath → q = tmpManifestPath m.version :=
    fun hr hq => (Writes.reaches (fun _ _ => hw) hr hq).1
  refine ⟨hshows, h.standing_runs hi fun _ _ => hw, fun v hv => ?_, fun hK => ?_⟩
  · have hno : ¬i.Reaches s (commitPath v) := fun hr =>
      tmp_ne_commit _ v (hreach hr (commit_ne_wal v)).symm
    exact (h.free v hv).runs (FsEffect.not_places (hi.not_concerns (.inr (undated_commit v)) hno))
  · exact (h.complete hK).making hi fun sha hr =>
      pathOf_ne_tmp sha _ (hreach hr (pathOf_ne_wal sha))

/-- The calls of a rename. -/
theorem FsEffect.Making.rename {src dst : Path} (h : Making (.rename src dst) s d cs) :
    cs = [.rename src dst] ∨ cs = [.rename src dst, .fsyncDir dst.dropLast] := by
  obtain ⟨pid, now, _, hpart⟩ := h.part
  cases hpart with
  | renamed ha => exact .inl rfl
  | whole ha => exact .inr rfl

/-- When a manifest gets its name, over another one or not. -/
theorem Standing.rename {f : File} (h : Standing env d)
    (hi : FsEffect.Making (.rename (tmpManifestPath m.version) (manifestPath m.version)) s d cs)
    (hfile : s.leaf? (tmpManifestPath m.version) = some f) (hdata : f.data = serialize m)
    (hm : ¬d.FileFree (commitPath m.version) → ManifestComplete env d.sure m) :
    Standing env (d.runs cs) := by
  have hne := tmp_ne_manifest m.version m.version
  have htouch : ∀ q, FsEffect.Reaches (.rename (tmpManifestPath m.version) (manifestPath m.version)) s q →
      q = tmpManifestPath m.version ∨ q = manifestPath m.version := by
    rintro q ⟨ht, _⟩
    simpa [FsEffect.touches] using ht
  have hobject : ∀ sha, ¬FsEffect.Reaches (.rename (tmpManifestPath m.version) (manifestPath m.version)) s
      (pathOf sha) := by
    intro sha hr
    rcases htouch _ hr with he | he
    · exact pathOf_ne_tmp sha _ he
    · exact not_inObjects_manifest _ (he ▸ inObjects_pathOf sha)
  have hcommit : ∀ v, ¬FsEffect.Reaches (.rename (tmpManifestPath m.version) (manifestPath m.version)) s
      (commitPath v) := by
    intro v hr
    rcases htouch _ hr with he | he
    · exact tmp_ne_commit _ v he.symm
    · exact manifestPath_ne_commitPath _ v he.symm
  have hsynced : d.Synced (tmpManifestPath m.version) (serialize m) := by
    rw [← hdata]
    exact h.clean _ (.inr ⟨_, rfl⟩) _ (hi.shows.leaf hfile)
  refine h.step hi (fun sha hr => absurd hr (hobject sha)) ?_ ?_
  · intro q hq hr
    rcases htouch q hr with rfl | rfl
    · have hgone : ∀ x, ¬(d.run (.rename (tmpManifestPath m.version) (manifestPath m.version))).view
          (tmpManifestPath m.version) = some (.leaf x) := by
        intro x
        rw [Disk.view_rename hne, if_pos rfl]
        simp
      rcases hi.rename with rfl | rfl
      · exact fun x hx => absurd hx (hgone x)
      · exact fun x hx => absurd hx (hgone x)
    · rcases hq with ⟨sha, he⟩ | ⟨v, he⟩
      · exact absurd (he ▸ hr) (hobject sha)
      · exact absurd he.symm (tmp_ne_manifest v _)
  · intro v hr
    rcases hr with hr | hr
    · exact absurd hr (hcommit v)
    · have hv : v = m.version := by
        rcases htouch _ hr with he | he
        · exact absurd he.symm (tmp_ne_manifest _ v)
        · exact manifestPath_injective he
      subst hv
      rcases h.versions m.version with hfree | hfirm
      · exact .inl (hfree.runs (FsEffect.not_places
          (hi.not_concerns (.inr (undated_commit _)) (hcommit m.version))))
      · by_cases hfree : d.FileFree (commitPath m.version)
        · exact .inl (hfree.runs (FsEffect.not_places
            (hi.not_concerns (.inr (undated_commit _)) (hcommit m.version))))
        -- A version that is named again: either manifest is complete.
        · have hnew : ∃ m', m'.version = m.version ∧ serialize m = serialize m' ∧
              ManifestComplete env (d.runs cs).sure m' :=
            ⟨m, rfl, rfl, (hm hfree).making hi hobject⟩
          have hold := hfirm.mono (Y := fun text => ∃ m', m'.version = m.version ∧
            text = serialize m' ∧ ManifestComplete env (d.runs cs).sure m') fun text h => by
              obtain ⟨m', hmv, htext, hm'⟩ := h
              exact ⟨m', hmv, htext, hm'.making hi hobject⟩
          have hren := hold.rename h.sane hsynced hnew hne
          rcases hi.rename with rfl | rfl
          · exact .inr hren
          · have hlast := hren.run (c := .fsyncDir (manifestPath m.version).dropLast)
              (h.possible.run _) List.not_mem_nil
            exact .inr hlast

/-- After the rename: the manifest has its name, for sure. -/
structure Named (env : Env) (K : Prop) (m : Manifest) (s : Fs) (d : Disk Bytes) : Prop where
  shows : Shows s d
  standing : Standing env d
  complete : K → ManifestComplete env d.sure m
  holds : d.Holds (manifestPath m.version) (serialize m)

theorem Staged.named {K : Prop} {f : File} (h : Staged env K d₀ m s d)
    (hfile : s.leaf? (tmpManifestPath m.version) = some f) (hdata : f.data = serialize m)
    (hK : ¬d₀.FileFree (commitPath m.version) → K)
    (ha : Effect.apply (FsEffect.rename (tmpManifestPath m.version) (manifestPath m.version)) s = .ok t)
    (hd : (FsEffect.rename (tmpManifestPath m.version) (manifestPath m.version)).Done d d') :
    Named env K m t d' := by
  have hshows := shows_done h.shows h.standing.sane ha hd
  have hne := tmp_ne_manifest m.version m.version
  have hsynced : d.Synced (tmpManifestPath m.version) (serialize m) := by
    rw [← hdata]
    exact h.standing.clean _ (.inr ⟨_, rfl⟩) _ (h.shows.leaf hfile)
  have hholds : d'.Holds (manifestPath m.version) (serialize m) := by
    obtain ⟨pid, now, _, rfl⟩ := hd
    have hput := (Disk.synced_rename hsynced hne).run (c := .fsyncDir (manifestPath m.version).dropLast)
      (h.standing.sane.run _) List.not_mem_nil
    exact ⟨hput, Disk.certain_fsyncDir (by simp [manifestPath])⟩
  obtain ⟨cs, hi, rfl⟩ := FsEffect.Making.of_done h.shows h.standing.sane ha hd
  refine ⟨hshows, ?_, fun hk => ?_, hholds⟩
  · exact h.standing.rename hi hfile hdata fun hfree => h.complete (hK fun hf => hfree (h.free _ hf))
  · refine (h.complete hk).making hi fun sha hr => ?_
    rcases List.mem_cons.mp hr.1 with he | he
    · exact pathOf_ne_tmp sha _ he
    · exact not_inObjects_manifest _ (List.mem_singleton.mp he ▸ inObjects_pathOf sha)

/-- What is written then. -/
def MarkerOrCheckpoint (v : UInt64) (q : Path) : Prop := q = commitPath v ∨ q = Checkpoint.path

theorem not_markerOrCheckpoint {n : Name} (h : q.head? = some n) (hm : n ≠ ascii "manifests")
    (hc : n ≠ ascii "metadata") : ¬MarkerOrCheckpoint v q := by
  rintro (rfl | rfl)
  · exact hm (Option.some.inj h).symm
  · exact hc (Option.some.inj h).symm

theorem Named.runs {K : Prop} (h : Named env K m s d) (hi : FsEffect.Making i s d cs)
    (hw : ∀ t, Effect.apply i s = .ok t → Writes (MarkerOrCheckpoint m.version) i)
    (hK : ∀ data mode, i = .replace (commitPath m.version) data mode → K) :
    Standing env (d.runs cs) ∧ (K → ManifestComplete env (d.runs cs).sure m) ∧
      (d.runs cs).Holds (manifestPath m.version) (serialize m) := by
  have hobject : ∀ sha, ¬i.Reaches s (pathOf sha) := fun sha hr =>
    not_markerOrCheckpoint rfl (by decide) (by decide) (Writes.reaches hw hr (pathOf_ne_wal sha)).1
  have hmanifest : ∀ v, ¬i.Reaches s (manifestPath v) := by
    intro v hr
    rcases (Writes.reaches hw hr (manifest_ne_wal v)).1 with he | he
    · exact manifestPath_ne_commitPath _ _ he
    · exact manifest_ne_checkpoint _ he
  have hcomplete : K → ManifestComplete env (d.runs cs).sure m :=
    fun hk => (h.complete hk).making hi hobject
  have hholds : (d.runs cs).Holds (manifestPath m.version) (serialize m) :=
    h.holds.runs h.standing.sane
      (FsEffect.not_changes (hi.not_concerns (.inr (undated_manifest _)) (hmanifest m.version)))
  refine ⟨h.standing.step hi (fun sha hr => absurd hr (hobject sha)) ?_ ?_, hcomplete, hholds⟩
  · rintro q (⟨sha, rfl⟩ | ⟨v, rfl⟩) hr
    · exact absurd hr (hobject sha)
    · exact absurd (Writes.reaches hw hr (tmp_ne_wal v)).1
        (not_markerOrCheckpoint rfl (by decide) (by decide))
  · intro v hr
    rcases hr with hr | hr
    · obtain ⟨hc, data, mode, rfl⟩ := Writes.reaches hw hr (commit_ne_wal v)
      have hv : v = m.version := by
        rcases hc with he | he
        · exact commitPath_injective he
        · exact absurd he (commit_ne_checkpoint v)
      subst hv
      exact .inr (hholds.firmly (h.standing.sane.runs cs) ⟨m, rfl, rfl, hcomplete (hK data mode rfl)⟩)
    · exact absurd hr (hmanifest v)

/-- What holds wherever a backup is stopped. -/
def Withstands (env : Env) (s : Fs) (d : Disk Bytes) : Prop := Shows s d ∧ Standing env d

theorem withstands_stopped (hs : d.Sane) (hsh : Shows s d) (hd : i.Stopped s d t d')
    (h : ∀ cs, FsEffect.Making i s d cs → Standing env (d.runs cs)) : Withstands env t d' := by
  obtain ⟨cs, hi, rfl⟩ := FsEffect.Making.of_stopped hsh hs hd
  obtain ⟨_, _, _, _, _, _, hshows, _⟩ := hd
  exact ⟨hshows, h cs hi⟩

variable {is : List FsEffect}

theorem carries_build {s₀ : Fs} : Prog.Carries FsEffect.Done FsEffect.Stopped
    (fun i a _ => Writes (NewObject a) i) is
    (fun s d => Withstands env s d ∧ Since s₀ d₀ s d) (Withstands env) where
  done _ _ _ _ _ _ hw ha hd h := by
    obtain ⟨⟨hsh, hst⟩, hsince⟩ := h
    refine ⟨⟨shows_done hsh hst.sane ha hd, ?_⟩, hsince.step hsh hst.sane hw ha hd⟩
    obtain ⟨cs, hi, rfl⟩ := FsEffect.Making.of_done hsh hst.sane ha hd
    exact hst.build hi fun _ _ => hw
  torn _ _ _ _ _ _ hw hd h :=
    withstands_stopped h.1.2.sane h.1.1 hd fun _ hi => h.1.2.build hi hw
  stop _ _ h := h.1

theorem carries_stage {K : Prop} : Prog.Carries FsEffect.Done FsEffect.Stopped
    (fun i _ _ => Writes (· = tmpManifestPath m.version) i) is (Staged env K d₀ m) (Withstands env) where
  done _ _ _ _ _ _ hw ha hd h := h.done hw ha hd
  torn _ _ _ _ _ _ hw hd h :=
    withstands_stopped h.standing.sane h.shows hd fun _ hi => h.standing_runs hi hw
  stop _ _ h := ⟨h.shows, h.standing⟩

theorem carries_conclude {K : Prop}
    (hK : ∀ data mode, .replace (commitPath m.version) data mode ∈ is → K) :
    Prog.Carries FsEffect.Done FsEffect.Stopped
      (fun i _ _ => Writes (MarkerOrCheckpoint m.version) i) is (Named env K m) (Withstands env) where
  done _ _ _ _ _ hmem hw ha hd h := by
    have hshows := shows_done h.shows h.standing.sane ha hd
    obtain ⟨cs, hi, rfl⟩ := FsEffect.Making.of_done h.shows h.standing.sane ha hd
    obtain ⟨hst, hm, hholds⟩ := h.runs hi (fun _ _ => hw) fun data mode he => hK data mode (he ▸ hmem)
    exact ⟨hshows, hst, hm, hholds⟩
  torn _ _ _ _ _ hmem hw hd h :=
    withstands_stopped h.standing.sane h.shows hd fun _ hi =>
      (h.runs hi hw fun data mode he => hK data mode (he ▸ hmem)).1
  stop _ _ h := ⟨h.shows, h.standing⟩

/-- Wherever the publishing of a manifest is stopped. -/
theorem Staged.publish {α : Type} {K : Prop} {fault : FaultStage} {k : Unit → α}
    (h : Staged env K d₀ m s d)
    (hc : Prog.Carried FsEffect.Done FsEffect.Stopped
      ((publish env fault m).bind fun u => .pure (k u)) s d is t d')
    (hrename : .rename (tmpManifestPath m.version) (manifestPath m.version) ∈ is →
      ¬d₀.FileFree (commitPath m.version) → K)
    (hmarker : ∀ data mode, .replace (commitPath m.version) data mode ∈ is → K) : Withstands env t d' := by
  rw [publish_eq, Prog.bind_assoc', Prog.bind_assoc'] at hc
  -- The draft.
  have hstage : Keeps (fun i _ _ => Writes (· = tmpManifestPath m.version) i) _ (stage env fault m) s :=
    stage_keeps (fun p _ _ => .dir p) (fun data mode e _ _ => .wal data mode e)
      fun mode _ _ => Writes.replace (P := (· = tmpManifestPath m.version)) rfl _ mode
  rcases hc.through hstage carries_stage h with hend | ⟨_, s1, d1, is1, ⟨_, f, hfile, hdata⟩, h1, hsub1, hc⟩
  · exact hend
  -- The rename.
  rcases hc.perform with ⟨rfl, rfl⟩ | ⟨hmem, hd⟩ | ⟨s2, d2, is2, hmem, ha, hd, hsub2, hc⟩
  · exact ⟨h1.shows, h1.standing⟩
  · refine withstands_stopped h1.standing.sane h1.shows hd fun cs hi => ?_
    exact h1.standing.rename hi hfile hdata fun hfree =>
      h1.complete (hrename (hsub1 hmem) fun hf => hfree (h1.free _ hf))
  have h2 := h1.named hfile hdata (hrename (hsub1 hmem)) ha hd
  -- The marker.
  have hconclude : Keeps (fun i _ _ => Writes (MarkerOrCheckpoint m.version) i) _
      (conclude env fault m) s2 :=
    conclude_keeps (fun p _ _ => .dir p) (fun data mode e _ _ => .wal data mode e)
      (fun data mode _ _ _ => .replace (.inl rfl) data mode)
      fun data mode _ _ => .replace (.inr rfl) data mode
  have hcarries : Prog.Carries FsEffect.Done FsEffect.Stopped
      (fun i _ _ => Writes (MarkerOrCheckpoint m.version) i) is2 (Named env K m) (Withstands env) :=
    carries_conclude fun data mode hm => hmarker data mode (hsub1 (hsub2 hm))
  rcases hc.through hconclude hcarries h2 with hend | ⟨_, s3, d3, _, _, h3, _, hc⟩
  · exact hend
  · cases hc
    exact ⟨h3.shows, h3.standing⟩

/-- Wherever one backup is stopped. -/
theorem Withstands.create {now : UInt64} {fault : FaultStage} {source : Source} {mode : ChunkingMode}
    (h : Withstands env s d) (hz : env.zstd.Lawful)
    (hc : Prog.Carried FsEffect.Done FsEffect.Stopped (create env now fault source mode) s d is t d')
    (hC : CommitsSheltered env s d source mode is) : Withstands env t d' := by
  have hG : BackupEffects env fun i a _ => Writes (NewObject a) i :=
    ⟨fun p _ _ => .dir p, fun data compressed mode a _ hn _ => .replace ⟨⟨_, rfl⟩, hn⟩ _ _,
      fun data mode e _ _ => .wal data mode e⟩
  simp only [BackupEngine.create, Prog.bind_eq] at hc
  rcases hc.through (buildManifest_keeps hG) carries_build ⟨h, .refl s d⟩ with
    hend | ⟨p, s1, d1, is1, ⟨hb, _⟩, ⟨⟨hsh, hst⟩, hsince⟩, hsub, hc⟩
  · exact hend
  have hstaged : Staged env (ComesToCommit d is) d p.manifest s1 d1 :=
    ⟨hsh, hst, hsince.free, fun hK => hb.sure hz hsince hst hsh (hC hK)⟩
  exact hstaged.publish hc (fun hmem hfree => ⟨_, .inr ⟨hsub hmem, hfree⟩⟩)
    fun data mode hmem => ⟨_, .inl ⟨data, mode, hsub hmem⟩⟩

theorem Creates.withstands (hz : env.zstd.Lawful) (h : Withstands env s d)
    (hc : Creates env (CommitsSheltered env) s d t d') : Withstands env t d' := by
  induction hc with
  | nil => exact h
  | snoc _ now fault source mode hc hC ih => exact ih.create hz hc hC

namespace Initialised

theorem isDir (h : Initialised env s d) (hq : q ≠ []) (hs : q ≠ [ascii "metadata", ascii "sessions"])
    (hd : s.get? q = some .dir) : d.IsDir q :=
  ⟨Disk.view_eq_dir.mp (h.shows.dir hq hd), h.entries q hs⟩

theorem clean (h : Initialised env s d) (q : Path) : d.Clean q := by
  intro x hx
  obtain ⟨n, hn, hbytes⟩ := Disk.view_eq_leaf.mp hx
  exact ⟨n, hn, hbytes, fun y hy => (h.bytes n y hy).trans hbytes⟩

theorem fileFree (h : Initialised env s d) (hv : s.leaf? (commitPath v) = none) :
    d.FileFree (commitPath v) := by
  have hnow : ∀ n, d.entry (commitPath v) ≠ some (.file n) := by
    intro n hn
    obtain ⟨f, hf, _⟩ := h.shows.leaf?_of_view (by simp [commitPath])
      (Disk.view_eq_leaf.mpr ⟨n, hn, rfl⟩)
    rw [hv] at hf
    cases hf
  refine ⟨hnow, fun n hn => hnow n (h.entries (commitPath v) ?_ _ hn).symm⟩
  exact ne_of_head (show some (ascii "manifests") ≠ some (ascii "metadata") by decide)

theorem sure (h : Initialised env s d) (ho : d.IsDir objectsDir) {x : Bytes}
    (hx : contents s (pathOf sha) = some x) : d.sure (pathOf sha) = some x := by
  obtain ⟨f, hf, rfl⟩ := contents_eq_some.mp hx
  have hcertain : d.Certain (pathOf sha) := h.entries _
    (ne_of_head (show some (ascii "objects") ≠ some (ascii "metadata") by decide))
  have hdir : s.get? (shardDir sha) = some .dir := by
    refine s.dir_of_prefix (List.cons_ne_nil (sha ++ ascii ".zst") []) ?_
    show s.get? (pathOf sha) ≠ none
    rw [Tree.leaf?_eq_some.mp hf]
    simp
  refine Disk.sure_eq_some.mpr ⟨⟨h.clean _ _ (h.shows.leaf hf), hcertain⟩,
    isDir_above_object ho (h.isDir (by simp [shardDir]) ?_ hdir)⟩
  exact ne_of_head (show some (ascii "objects") ≠ some (ascii "metadata") by decide)

theorem withstands (h : Initialised env s d) : Withstands env s d := by
  have hmanifests := h.isDir (q := manifestsDir) (by decide) (by decide) (h.layout "manifests" (by decide))
  have hobjects := h.isDir (q := objectsDir) (by decide) (by decide) (h.layout "objects" (by decide))
  refine ⟨h.shows, h.sane, h.possible, hmanifests, hobjects, fun q _ => h.clean q, fun v => ?_⟩
  cases hv : s.leaf? (commitPath v) with
  | none => exact .inl (h.fileFree hv)
  | some f =>
    obtain ⟨m, hmv, hman, hm⟩ := h.complete v (by rw [contents, hv]; rfl)
    obtain ⟨g, hg, hdata⟩ := contents_eq_some.mp hman
    have hcertain : d.Certain (manifestPath v) := h.entries _
      (ne_of_head (show some (ascii "manifests") ≠ some (ascii "metadata") by decide))
    have hholds : d.Holds (manifestPath v) g.data := ⟨h.clean _ _ (h.shows.leaf hg), hcertain⟩
    exact .inr (hholds.firmly h.sane
      ⟨m, hmv, hdata, hm.mono fun _ _ _ _ x hx => h.sure hobjects hx⟩)

end Initialised

/-- Where every backup that comes to commit finds its objects sheltered, the order of a commit
survives: whenever the power is lost, and whatever is left of what was not flushed, a version whose
marker is found has its manifest and all its objects. -/
theorem commits_survive_power_loss (hz : env.zstd.Lawful) (hi : Initialised env s d)
    (hc : Creates env (CommitsSheltered env) s d t d') (hw : d'.Survives w) : CommitsComplete env w :=
  (hc.withstands hz hi.withstands).2.survives hw

/-- A marker and a manifest, and an object that the manifest names is gone. -/
theorem not_commitsComplete {x text : Bytes} {file : FileManifest} {ref : ChunkRef}
    (hmark : w (commitPath v) = some x) (hman : w (manifestPath v) = some text)
    (hparse : parse text = .ok m) (hfile : file ∈ m.files) (href : ref ∈ file.chunks)
    (hgone : w (pathOf ref.sha256) = none) : ¬CommitsComplete env w := by
  intro hcomplete
  obtain ⟨m', _, htext, hm'⟩ := hcomplete v (by rw [hmark]; rfl)
  rw [hman, Option.some.injEq] at htext
  rw [htext] at hparse
  obtain ⟨rfl, _⟩ := (parse_serialize_iff hm'.printable).mp hparse
  obtain ⟨data, raw, hdata, _⟩ := (hm'.objects file hfile ref href).object
  rw [hgone] at hdata
  contradiction

theorem eq_ok_of_toOption {α ε : Type} {x : Except ε α} {y : α} (h : x.toOption = some y) : x = .ok y := by
  cases x with
  | error e => cases h
  | ok z =>
    cases h
    rfl

theorem initialised_quiet
    (hlayout : ∀ name ∈ ["objects", "manifests", "metadata", "tmp"], s.get? [ascii name] = some .dir)
    (hnone : ∀ q ∈ s.nodes.keys, s.leaf? q = none) : Initialised env s (quiet s) where
  sane := sane_quiet s
  possible := possible_quiet s
  shows := shows_quiet s
  layout := hlayout
  entries q _ := certain_quiet s q
  bytes _ _ hx := hx
  complete v hv := by
    obtain ⟨x, hx⟩ := Option.isSome_iff_exists.mp hv
    obtain ⟨f, hf, _⟩ := contents_eq_some.mp hx
    rw [hnone _ (mem_keys_of_leaf (Tree.leaf?_eq_some.mp hf))] at hf
    contradiction

/-- A repository with its layout and nothing else. -/
def laidOut : Fs := (ensureLayout.exec emptyRepo).2

/-- The same, with one directory for objects. -/
def sharded : Fs := ((FileUtils.ensureDirectory [ascii "objects", ascii "ca"]).exec laidOut).2

/-- The backup of one letter. -/
def quietBackup : Op BackupResult := create letterEnv 1700000000 .none (letterSource 1) .fixed

/-- The effect does not flush `objects`. -/
def SparesObjects (i : FsEffect) : Prop := ∀ pid now, SysCall.fsyncDir objectsDir ∉ i.calls pid now

theorem mayBackUp_sparing : MayBackUp letterEnv SparesObjects := by
  have hreplace : ∀ {p data mode}, p.dropLast ≠ objectsDir → SparesObjects (.replace p data mode) := by
    intro p data mode hp pid now hc
    rcases FsEffect.flushes_calls hc with ⟨_, _, _, he, hdir⟩ | ⟨_, _, he, _⟩
    · cases he
      exact hp hdir.symm
    · cases he
  refine ⟨fun p pid now hc => ?_, fun data mode e pid now hc => ?_, fun raw data mode _ => hreplace ?_,
    fun v data mode => hreplace ?_, fun v pid now hc => ?_, fun v data mode => hreplace ?_,
    fun data mode => hreplace (by decide)⟩
  · rcases FsEffect.flushes_calls hc with ⟨_, _, _, he, _⟩ | ⟨_, _, he, _⟩
    · cases he
    · cases he
  · rcases FsEffect.flushes_calls hc with ⟨_, _, _, he, _⟩ | ⟨_, _, he, _⟩
    · cases he
    · cases he
  · simp [pathOf, objectsDir]
  · rw [tmpManifestPath, List.dropLast_concat]
    decide
  · rcases FsEffect.flushes_calls hc with ⟨_, _, _, he, _⟩ | ⟨_, _, he, hdir⟩
    · cases he
    · cases he
      rw [manifestPath, List.dropLast_concat] at hdir
      exact absurd hdir (by decide)
  · rw [commitPath, List.dropLast_concat]
    decide

/-- The one object of the letter. -/
def letterObject : Path := pathOf (Hash.sha256Hex letterEnv.evp (ascii "a"))

theorem sheltered_letter {is : List FsEffect}
    (hdir : d.IsDir (shardDir (Hash.sha256Hex letterEnv.evp (ascii "a"))))
    (hn : s.leaf? letterObject = none) :
    CommitsSheltered letterEnv s d (letterSource 1) .fixed is := by
  intro _ files hscan raw hraw
  cases hscan
  have hletter : raw = ascii "a" := by
    obtain ⟨scanned, hs, data, hread, hmem⟩ := hraw
    rw [List.mem_singleton.mp hs] at hread
    cases hread
    have hchunks : (chunkFile .fixed (ascii "a")).map Chunk.data = [ascii "a"] := by decide +kernel
    rw [hchunks] at hmem
    exact List.mem_singleton.mp hmem
  subst hletter
  exact ⟨hdir, .inr ⟨ascii "a", hraw, rfl, hn⟩⟩

/-- The temporary file of the first object. -/
def letterTemp : Path := FileUtils.makeTempPath letterObject 1 1

/-- The backup when it is about to write the object. -/
def shardedStop : Option (FsEffect × Fs) := quietBackup.next 11 sharded

/-- It is stopped when two bytes are written. -/
def tornSharded : Option Fs :=
  shardedStop.bind fun stop => (stop.2.putLeaf letterTemp ⟨[0x28, 0xb5], 0o644⟩).toOption

theorem initialised_sharded : Initialised letterEnv sharded (quiet sharded) :=
  initialised_quiet (by decide +kernel) (by decide +kernel)

theorem creates_tornSharded (h : tornSharded = some t) :
    ∃ d, Creates letterEnv (CommitsSheltered letterEnv) sharded (quiet sharded) t d ∧
      d.IsDir (shardDir (Hash.sha256Hex letterEnv.evp (ascii "a"))) := by
  obtain ⟨stop, hstop, ht⟩ := Option.bind_eq_some_iff.mp h
  have hi : shardedStop.map (·.1) = some (.replace letterObject (rawFrame (ascii "a")) 0o644) := by
    decide +kernel
  have hnew : shardedStop.all (·.2.get? letterTemp = none) = true := by decide +kernel
  rw [hstop] at hi hnew
  simp only [Option.map_some, Option.some.injEq, Option.all_some, decide_eq_true_eq] at hi hnew
  have hnext : quietBackup.next 11 sharded = some (stop.1, stop.2) := hstop
  rw [hi] at hnext
  have hdir₀ : (quiet sharded).IsDir (shardDir (Hash.sha256Hex letterEnv.evp (ascii "a"))) :=
    initialised_sharded.isDir (by decide) (by decide) (by decide +kernel)
  have hrun : ∃ is dm, ((Shows stop.2 dm ∧ dm.Sane) ∧
      dm.IsDir (shardDir (Hash.sha256Hex letterEnv.evp (ascii "a")))) ∧
      ∀ t d, FsEffect.Stopped (.replace letterObject (rawFrame (ascii "a")) 0o644) stop.2 dm t d →
        Prog.Carried FsEffect.Done FsEffect.Stopped quietBackup sharded (quiet sharded) is t d := by
    refine Prog.Carried.of_next (I := fun s d => (Shows s d ∧ d.Sane) ∧ d.IsDir _)
      (BackupEngine.emits_create mayBackUp_sparing) ?_ hnext
      ⟨⟨shows_quiet _, sane_quiet _⟩, hdir₀⟩
    intro i s t d _ ha hI
    obtain ⟨d', hd, hafter⟩ := FsEffect.exists_done i s t d ha hI.1
    have hdone := hd
    obtain ⟨cs, hmaking, rfl⟩ := FsEffect.Making.of_done hI.1.1 hI.1.2 ha hd
    exact ⟨_, hdone, hafter, hmaking.isDir hI.2⟩
  obtain ⟨is, dm, ⟨⟨hsh, hs⟩, hdir⟩, hc⟩ := hrun
  have hview : dm.view letterTemp = none := (hsh.none_iff FileUtils.makeTempPath_ne_nil).mpr hnew
  have hput : Tree.Put stop.2 t letterTemp ⟨[0x28, 0xb5], 0o644⟩ := .of_place (eq_ok_of_toOption ht)
  have hfresh : (FsEffect.replace letterObject (rawFrame (ascii "a")) 0o644).Fresh 1 1 dm := by
    intro q hq
    rw [List.mem_singleton.mp hq]
    exact Disk.view_eq_none.mp hview
  have hw : ([0x28, 0xb5] : Bytes) <+: rawFrame (ascii "a") := by decide
  have hpart : FsEffect.Part 1 1 stop.2 (.replace letterObject (rawFrame (ascii "a")) 0o644) _ :=
    .temporary 2 hw fun h => absurd h (Nat.lt_irrefl 2)
  refine ⟨_, Creates.nil.snoc 1700000000 .none (letterSource 1) .fixed
    (hc t _ ⟨1, 1, _, hfresh, hpart, rfl, ?_, ?_⟩) (sheltered_letter hdir₀ (by decide +kernel)),
    FsEffect.Making.isDir ⟨hsh, hs, 1, 1, hfresh, hpart⟩ hdir⟩
  · exact hsh.of_put hput fun q _ => Shows.view_written hs hview
  · exact hput.nameMax

/-- A backup is stopped while it writes its object, and the next one completes. -/
theorem letter_survives_power_loss :
    ∃ t d w, Creates letterEnv (CommitsSheltered letterEnv) sharded (quiet sharded) t d ∧
      d.Survives w ∧ (w (commitPath 1)).isSome ∧ CommitsComplete letterEnv w := by
  obtain ⟨t, ht⟩ : ∃ t, tornSharded = some t := Option.isSome_iff_exists.mp (by decide +kernel)
  have hfacts : tornSharded.all (fun t => t.leaf? letterObject = none ∧
      ((quietBackup.exec t).2.leaf? (commitPath 1)).isSome) = true := by decide +kernel
  rw [ht, Option.all_some, decide_eq_true_eq] at hfacts
  obtain ⟨hnone, hmark⟩ := hfacts
  obtain ⟨d, hc, hdir⟩ := creates_tornSharded ht
  have hst := hc.withstands Zstd.raw_lawful initialised_sharded.withstands
  have hrun : ∃ is d', Prog.Carried FsEffect.Done FsEffect.Stopped quietBackup t d is
      (quietBackup.exec t).2 d' ∧ Shows (quietBackup.exec t).2 d' ∧ d'.Sane :=
    Prog.Carried.exec (I := fun s d => Shows s d ∧ d.Sane) (BackupEngine.emits_create mayBackUp_sparing)
      (fun i s t d _ ha hI => FsEffect.exists_done i s t d ha hI) ⟨hst.1, hst.2.sane⟩
  obtain ⟨is, d', hcarried, hsh, _⟩ := hrun
  have hc' := hc.snoc 1700000000 .none (letterSource 1) .fixed hcarried (sheltered_letter hdir hnone)
  have hw := (hc'.withstands Zstd.raw_lawful initialised_sharded.withstands).2.possible.survives
  obtain ⟨f, hf⟩ := Option.isSome_iff_exists.mp hmark
  refine ⟨_, d', _, hc', hw, ?_,
    commits_survive_power_loss Zstd.raw_lawful initialised_sharded hc' hw⟩
  rw [hsh.found hf]
  rfl

/-- The first backup makes a directory for its object and never flushes `objects`: the marker
and the manifest are found, and the object is gone with its directory. -/
theorem letter_is_lost_with_its_directory :
    ∃ t d w, Initialised letterEnv laidOut (quiet laidOut) ∧
      Creates letterEnv (fun _ _ _ _ _ => True) laidOut (quiet laidOut) t d ∧ d.Survives w ∧
      ¬CommitsComplete letterEnv w := by
  have hi : Initialised letterEnv laidOut (quiet laidOut) :=
    initialised_quiet (by decide +kernel) (by decide +kernel)
  have hrun : ∃ is d, Prog.Carried FsEffect.Done FsEffect.Stopped quietBackup laidOut (quiet laidOut)
      is (quietBackup.exec laidOut).2 d ∧ (Shows (quietBackup.exec laidOut).2 d ∧ d.Sane) ∧
      d.Possible ∧ d.mayEntry [ascii "objects", ascii "ca"] none := by
    refine Prog.Carried.exec (I := fun s d => (Shows s d ∧ d.Sane) ∧ d.Possible ∧ d.mayEntry _ none)
      (BackupEngine.emits_create mayBackUp_sparing) ?_
      ⟨⟨shows_quiet _, sane_quiet _⟩, possible_quiet _, ?_⟩
    · intro i s t d hspares ha hI
      obtain ⟨d', hd, hafter⟩ := FsEffect.exists_done i s t d ha hI.1
      have hdone := hd
      obtain ⟨pid, now, _, rfl⟩ := hd
      exact ⟨_, hdone, hafter, hI.2.1.runs _, Disk.mayEntry_none_runs hI.2.2 (hspares pid now)⟩
    · show none = _
      decide +kernel
  obtain ⟨is, d, hc, ⟨hsh, _⟩, hposs, hmay⟩ := hrun
  obtain ⟨w, hw, hfound⟩ := hposs.survives_without hmay (by decide)
  refine ⟨_, d, w, hi, Creates.nil.snoc 1700000000 .none (letterSource 1) .fixed hc trivial, hw, ?_⟩
  -- The marker and the manifest do not lie below the directory.
  have hkept : ∀ {n f}, (quietBackup.exec laidOut).2.leaf? (manifestsDir ++ [n]) = some f →
      w (manifestsDir ++ [n]) = some f.data := by
    intro n f hf
    have hpre : ¬[ascii "objects", ascii "ca"] <+: manifestsDir ++ [n] := by
      intro h
      exact absurd (List.cons_prefix_cons.mp h).1 (by decide)
    rw [hfound, if_neg hpre, hsh.found hf]
  have hmark : ((quietBackup.exec laidOut).2.leaf? (commitPath 1)).isSome := by decide +kernel
  obtain ⟨f, hf⟩ := Option.isSome_iff_exists.mp hmark
  have hrefs : (((quietBackup.exec laidOut).2.leaf? (manifestPath 1)).bind fun g =>
      (parse g.data).toOption.map fun m =>
        m.files.flatMap fun file => file.chunks.map ChunkRef.sha256) =
      some [Hash.bytesToHex letterA.2.val] := by decide +kernel
  obtain ⟨g, hg, hrefs⟩ := Option.bind_eq_some_iff.mp hrefs
  obtain ⟨m, hm, hrefs⟩ := Option.map_eq_some_iff.mp hrefs
  have hin : Hash.bytesToHex letterA.2.val ∈ m.files.flatMap fun file =>
      file.chunks.map ChunkRef.sha256 := by
    rw [hrefs]
    exact List.mem_singleton_self _
  obtain ⟨file, hfile, hin⟩ := List.mem_flatMap.mp hin
  obtain ⟨ref, href, hsha⟩ := List.mem_map.mp hin
  have hgone : w (pathOf ref.sha256) = none := by
    have hbelow : [ascii "objects", ascii "ca"] <+: pathOf ref.sha256 := by
      rw [hsha]
      decide +kernel
    rw [hfound, if_pos hbelow]
  exact not_commitsComplete (hkept hf) (hkept hg) (eq_ok_of_toOption hm) hfile href hgone

end Dpc
