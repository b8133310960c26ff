import Dpc.Core.ReadFacts
import Dpc.Core.StatsFacts
import Dpc.Guarantees.Freshness

namespace Dpc
open Text FileTree Effects ManifestStore ObjectStore BackupEngine

variable {env : Env} {s a t : Fs} {total : Progress} {n : Nat}

/-- The references of a manifest. -/
def Manifest.refs (m : Manifest) : List ChunkRef := m.files.flatMap FileManifest.chunks

/-- What has been counted from `s` to `t` is what has come to the store. -/
structure Accounted (s t : Fs) (total : Progress) (n : Nat) : Prop where
  objects : (tally t).objectCount = (tally s).objectCount + total.result.uniqueChunks
  bytes : (tally t).storedBytes = (tally s).storedBytes + total.manifest.totalStoredBytes
  chunks : total.result.totalChunks = total.result.uniqueChunks + total.result.duplicateChunks
  refs : total.result.totalChunks = UInt64.ofNat n

theorem Accounted.congr (h : Accounted s a total n) (ho : ∀ q, InObjects q → t.leaf? q = a.leaf? q) :
    Accounted s t total n := by
  have htally := tally_congr ho
  exact ⟨by rw [htally, h.objects], by rw [htally, h.bytes], h.chunks, h.refs⟩

/-- A put counts for one chunk, and for one object where it has written it. -/
theorem Accounted.put {sha compressed : Bytes} {rawSize : UInt64} {put : PutObjectResult}
    (h : Accounted s a total n) (hp : Put env sha compressed rawSize a t put) :
    Accounted s t (countPut put total) (n + 1) := by
  have hother : ∀ q, q ≠ pathOf sha → InObjects q → t.leaf? q = a.leaf? q := fun q hq _ => hp.frame q hq
  obtain ⟨f, hf, hsize, hcase⟩ := hp.file
  rcases hcase with ⟨hnew, hinserted, _⟩ | ⟨hold, hinserted, _⟩
  · have htally := tally_add (inObjects_pathOf sha) hnew hf hother
    rw [countPut, if_pos hinserted]
    constructor
    · rw [htally, h.objects, UInt64.add_assoc]
    · rw [htally, h.bytes, UInt64.add_assoc, hsize]
    · rw [h.chunks, UInt64.add_assoc, UInt64.add_comm total.result.duplicateChunks, ← UInt64.add_assoc]
    · rw [h.refs, UInt64.ofNat_add]
      rfl
  · have hsame : ∀ q, InObjects q → t.leaf? q = a.leaf? q := by
      intro q hq
      by_cases he : q = pathOf sha
      · rw [he, hf, hold]
      · exact hother q he hq
    have htally := tally_congr hsame
    rw [countPut, if_neg (by simp [hinserted])]
    constructor
    · rw [htally, h.objects]
    · rw [htally, h.bytes]
    · rw [h.chunks, UInt64.add_assoc]
    · rw [h.refs, UInt64.ofNat_add]
      rfl

theorem not_inObjects_of_frame (hf : Frame (· = WalLog.walPath) a t) :
    ∀ q, InObjects q → t.leaf? q = a.leaf? q := by
  intro q hq
  refine hf q ?_
  rintro rfl
  exact not_inObjects_walPath hq

/-- The step lemma of the loop over chunks. -/
theorem putChunk_accounted {fault : FaultStage} {st : FileProgress env} {chunk : Chunk}
    (h : Accounted s a st.total (n + st.file.chunks.length)) :
    Keeps (fun _ _ _ => True) (fun st' t => Accounted s t st'.total (n + st'.file.chunks.length) ∧
      st'.total.manifest.files = st.total.manifest.files) (putChunk env fault st chunk) a := by
  simp only [putChunk, Prog.bind_eq]
  have hput : Keeps (fun _ _ _ => True) _ (putRaw env chunk.data) a :=
    putRaw_keeps (fun _ _ _ => trivial) fun _ _ _ _ _ _ _ => trivial
  refine Keeps.bind hput fun put b hb => ?_
  obtain ⟨compressed, _, hp⟩ := hb
  refine Keeps.bind (WalLog.append_keeps (fun _ _ _ => trivial) fun _ _ _ _ _ _ => trivial) ?_
  intro _ c hc
  refine Keeps.bind (FaultInjector.trigger_keeps fault _) fun _ c' he => ?_
  subst he
  have hlen : ∀ ref : ChunkRef,
      n + (st.file.chunks ++ [ref]).length = n + st.file.chunks.length + 1 := by
    intro ref
    rw [List.length_append, List.length_singleton, Nat.add_assoc]
  refine Keeps.pure ⟨?_, ?_⟩
  · rw [hlen]
    exact (h.put hp).congr (not_inObjects_of_frame hc)
  · simp only [countPut]
    split
    · rfl
    · rfl

theorem putChunks_accounted {fault : FaultStage} {st : FileProgress env} {chunks : List Chunk}
    (h : Accounted s a st.total (n + st.file.chunks.length)) :
    Keeps (fun _ _ _ => True) (fun st' t => Accounted s t st'.total (n + st'.file.chunks.length) ∧
      st'.total.manifest.files = st.total.manifest.files) (putChunks env fault st chunks) a := by
  induction chunks generalizing st a with
  | nil => exact Keeps.pure ⟨h, rfl⟩
  | cons chunk chunks ih =>
    simp only [putChunks, Prog.bind_eq]
    refine Keeps.bind (putChunk_accounted h) fun st' b hb => ?_
    obtain ⟨hacc, hfiles⟩ := hb
    refine (ih hacc).post fun st'' t ht => ?_
    exact ⟨ht.1, ht.2.trans hfiles⟩

theorem backupFile_accounted {fault : FaultStage} {mode : ChunkingMode} {scanned : ScannedFile}
    (h : Accounted s a total total.manifest.refs.length) :
    Keeps (fun _ _ _ => True) (fun total' t => Accounted s t total' total'.manifest.refs.length)
      (backupFile env fault mode total scanned) a := by
  simp only [backupFile, Prog.bind_eq]
  refine Keeps.bind_ofExcept fun fileSize _ => ?_
  refine Keeps.bind_ofExcept fun fileMode _ => ?_
  refine Keeps.bind_ofExcept fun chunks _ => ?_
  refine Keeps.bind (putChunks_accounted (n := total.manifest.refs.length) h) fun st t ht => ?_
  obtain ⟨hacc, hfiles⟩ := ht
  have hlen : (st.total.manifest.files ++
      [{ st.file with fileSha256 := Hash.finalHex env.evp st.hash }]).flatMap FileManifest.chunks =
        total.manifest.refs ++ st.file.chunks := by
    rw [List.flatMap_append, List.flatMap_singleton, hfiles, Manifest.refs]
  refine Keeps.pure ?_
  dsimp only [Manifest.refs]
  rw [hlen, List.length_append]
  exact ⟨hacc.objects, hacc.bytes, hacc.chunks, hacc.refs⟩

theorem backupFiles_accounted {fault : FaultStage} {mode : ChunkingMode} {files : List ScannedFile}
    (h : Accounted s a total total.manifest.refs.length) :
    Keeps (fun _ _ _ => True) (fun total' t => Accounted s t total' total'.manifest.refs.length)
      (backupFiles env fault mode total files) a := by
  induction files generalizing total a with
  | nil => exact Keeps.pure h
  | cons scanned files ih =>
    simp only [backupFiles, Prog.bind_eq]
    exact Keeps.bind (backupFile_accounted h) fun total' b hb => ih hb

/-- A backup starts with nothing counted. -/
theorem accounted_started {version now : UInt64} {mode : ChunkingMode} {source : Source} :
    Accounted s s (started version now mode source) 0 :=
  ⟨(UInt64.add_zero _).symm, (UInt64.add_zero _).symm, rfl, rfl⟩

theorem buildManifest_accounted {now : UInt64} {fault : FaultStage} {source : Source}
    {mode : ChunkingMode} :
    Keeps (fun _ _ _ => True) (fun p t => Accounted s t p p.manifest.refs.length)
      (buildManifest env now fault source mode) s := by
  simp only [buildManifest, Prog.bind_eq]
  refine Keeps.bind (ensureLayout_keeps fun _ _ _ => trivial) fun _ b hb => ?_
  refine Keeps.bind nextVersion_keeps fun version b' hb' => ?_
  obtain ⟨he, _⟩ := hb'
  subst he
  refine Keeps.bind (WalLog.append_keeps (fun _ _ _ => trivial) fun _ _ _ _ _ _ => trivial) ?_
  intro _ c hc
  refine Keeps.bind (FaultInjector.trigger_keeps _ _) fun _ c' he => ?_
  subst he
  refine Keeps.bind_ofExcept fun files _ => ?_
  refine backupFiles_accounted (accounted_started.congr fun q hq => ?_)
  rw [not_inObjects_of_frame hc q hq, hb]

/-- A reference names an object that is there, and tells its size. -/
def Sized (t : Fs) (ref : ChunkRef) : Prop :=
  ∃ p f, absoluteObjectPath ref.objectPath = .ok p ∧ p = pathOf ref.sha256 ∧ t.leaf? p = some f ∧
    ref.compressedSize = size f.data

theorem Describes.sized {data : Bytes} {ref : ChunkRef} (h : Describes env t data ref) :
    Sized t ref := by
  obtain ⟨f, hf, hsize, _⟩ := h.file
  refine ⟨_, f, ?_, rfl, hf, hsize⟩
  rw [h.path]
  refine absoluteObjectPath_textOf ?_
  rw [h.sha]
  exact Hash.isSha256Hex_sha256Hex env.evp data

/-- What the statistics say of the store before and after, the result of the backup and the
manifest that it has written agree. -/
structure Balanced (s t : Fs) (r : BackupResult) (m : Manifest) : Prop where
  written : ∃ f, t.leaf? (manifestPath r.version) = some f ∧ f.data = serialize m
  chunks : r.totalChunks = r.uniqueChunks + r.duplicateChunks
  refs : r.totalChunks = UInt64.ofNat m.refs.length
  stats : ∃ before after, stats.exec s = (.ok before, s) ∧ stats.exec t = (.ok after, t) ∧
    after.objectCount = before.objectCount + r.uniqueChunks ∧
    after.storedBytes = before.storedBytes + r.totalStoredBytes
  version : m.version = r.version
  files : r.fileCount = UInt64.ofNat m.files.length
  inputBytes : m.totalInputBytes = r.totalInputBytes
  storedBytes : m.totalStoredBytes = r.totalStoredBytes
  sized : ∀ ref ∈ m.refs, Sized t ref

/-- The directory of the objects could be made before, and is there after. -/
theorem makeable_of_create {now : UInt64} {fault : FaultStage} {source : Source}
    {mode : ChunkingMode} {r : BackupResult}
    (h : (create env now fault source mode).exec s = (.ok r, t)) :
    s.Makeable objectsDir ∧ t.Makeable objectsDir := by
  have hdir : ∀ {α : Type} {p : Op α} {a b : Fs} {x : Except Exn α},
      a.get? objectsDir = some .dir → p.exec a = (x, b) → b.get? objectsDir = some .dir := by
    intro α p a b x ha hx
    have hb := exec_dir p ha
    rwa [hx] at hb
  simp only [create, buildManifest, ensureLayout, Prog.bind_eq, Prog.bind_assoc'] at h
  obtain ⟨_, a, ha, h⟩ := Prog.exec_bind_ok h
  have hmk := FileUtils.ensureDirectory_iff.mp ha
  have hlast := hdir (Tree.mkdirs_ok hmk).2 h
  exact ⟨Tree.mkdirs_iff.mp ⟨a, hmk⟩, Tree.mkdirs_iff.mp ⟨t, Tree.mkdirs_of_dir hlast⟩⟩

/-- The counters of a backup are those of the store and of the manifest. -/
theorem create_balances {now : UInt64} {fault : FaultStage} {source : Source}
    {mode : ChunkingMode} {r : BackupResult}
    (h : (create env now fault source mode).exec s = (.ok r, t)) : ∃ m, Balanced s t r m := by
  have hmake := makeable_of_create h
  have hbuild : Keeps (fun _ _ _ => True) _ (buildManifest env now fault source mode) s :=
    buildManifest_keeps ⟨fun _ _ _ => trivial, fun _ _ _ _ _ _ _ => trivial,
      fun _ _ _ _ _ => trivial⟩
  simp only [create, Prog.bind_eq] at h
  obtain ⟨p, u, hp, h⟩ := Prog.exec_bind_ok h
  obtain ⟨_, t', hpub, h⟩ := Prog.exec_bind_ok h
  cases h
  obtain ⟨hbuilt, hversion⟩ := Keeps.ok hbuild hp
  have hkeeps : Keeps (fun _ _ _ => True) _ (publish env fault p.manifest) u :=
    publish_keeps ⟨fun _ _ _ => trivial, fun _ _ _ _ _ => trivial, fun _ _ _ => trivial,
      fun _ _ _ _ _ _ => trivial, fun _ _ _ _ _ _ _ _ => trivial, fun _ _ _ _ => trivial⟩
  obtain ⟨hframe, hmanifest, _⟩ := Keeps.ok hkeeps hpub
  have hobjects : ∀ q, InObjects q → t.leaf? q = u.leaf? q := fun q hq =>
    hframe q (not_inObjects_publishPath hq)
  have hcounts : Keeps (fun _ _ _ => True) _ (buildManifest env now fault source mode) s :=
    buildManifest_accounted
  have hcounted := Keeps.ok hcounts hp
  have hacc := Accounted.congr hcounted hobjects
  refine ⟨p.manifest, ?_, hacc.chunks, hacc.refs, ?_, hversion.symm, rfl, rfl, rfl, ?_⟩
  · rw [hversion]
    exact hmanifest
  · exact ⟨_, _, exec_stats hmake.1, exec_stats hmake.2, hacc.objects, hacc.bytes⟩
  · intro ref href
    obtain ⟨file, hfile, href⟩ := List.mem_flatMap.mp href
    obtain ⟨files, _, _, hfiles, _⟩ := hbuilt.files
    obtain ⟨scanned, _, data, hdesc⟩ := hfiles.exists_left hfile
    obtain ⟨chunk, _, _, hd⟩ := hdesc.chunks.exists_left href
    have hkept : Kept u t := .of_frame hframe fun q hq => not_inObjects_publishPath hq
    exact Describes.sized (hd.kept hkept)

theorem letter_balances :
    ∃ t m, letterBackup.exec emptyRepo = (.ok ⟨1, 1, 1, 10, 1, 1, 0⟩, t) ∧
      Balanced emptyRepo t ⟨1, 1, 1, 10, 1, 1, 0⟩ m := by
  have hx : (letterBackup.exec emptyRepo).1 = .ok ⟨1, 1, 1, 10, 1, 1, 0⟩ := by decide +kernel
  have hrun := Prog.exec_of_fst hx
  obtain ⟨m, hm⟩ := create_balances hrun
  exact ⟨_, m, hrun, hm⟩

end Dpc
