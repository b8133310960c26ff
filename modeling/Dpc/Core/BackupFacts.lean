import Dpc.Core.BackupEngine
import Dpc.Core.ObjectFacts
import Dpc.Core.VersionFacts

namespace Dpc
open Text FileTree Effects

variable {G : FsEffect → Fs → Fs → Prop} {env : Env} {s t : Fs}

theorem WalLog.append_keeps {type : WalRecordType} {payload : Bytes}
    (hdir : ∀ p a b, G (.ensureDirectory p) a b)
    (hwal : ∀ data m e a b, (∀ q, a.leaf? q = s.leaf? q) → G (.append walPath data m e) a b) :
    Keeps G (fun _ t => Frame (· = walPath) s t) (append env type payload) s := by
  simp only [append, FileUtils.ensureDirectory, Prog.bind_eq]
  have hd : Keeps G (fun _ t => ∀ q, t.leaf? q = s.leaf? q)
      (Prog.perform (.ensureDirectory walPath.dropLast)) s :=
    Keeps.perform fun t ht => ⟨hdir _ s t, (FsEffect.ensureDirectory_ok ht).1.leaf?⟩
  refine Keeps.bind hd fun _ a ha => ?_
  refine Keeps.bind_ofExcept fun encoded _ => ?_
  refine Keeps.perform fun t ht => ⟨hwal _ _ _ a t ha, fun q hq => ?_⟩
  rw [(FsEffect.append_ok ht).leaf?, if_neg hq, ha]

theorem FaultInjector.trigger_keeps (stage now : FaultStage) :
    Keeps G (fun _ t => t = s) (trigger stage now) s := by
  unfold trigger
  split
  · exact Keeps.pure rfl
  · exact Keeps.throw

namespace BackupEngine
open ManifestStore ObjectStore

/-- A reference tells what it should of some bytes, and the object it names is there:
either it was made of these bytes, or it was read and found to have their hash and size. -/
structure Describes (env : Env) (t : Fs) (data : Bytes) (ref : ChunkRef) : Prop where
  sha : ref.sha256 = Hash.sha256Hex env.evp data
  path : ref.objectPath = textOf ref.sha256
  rawSize : ref.rawSize = size data
  file : ∃ f, t.leaf? (pathOf ref.sha256) = some f ∧ ref.compressedSize = size f.data ∧
    (Compressor.compress env data = .ok f.data ∨
      ∃ raw, Stored env t ref.sha256 raw ∧ size raw = size data)

theorem Describes.kept {data : Bytes} {ref : ChunkRef} (h : Describes env s data ref)
    (hk : Kept s t) : Describes env t data ref := by
  obtain ⟨f, hf, hs, hc⟩ := h.file
  refine ⟨h.sha, h.path, h.rawSize, f, hk _ f (inObjects_pathOf _) hf, hs, ?_⟩
  rcases hc with hc | ⟨raw, hst, hr⟩
  · exact .inl hc
  · exact .inr ⟨raw, hst.kept hk, hr⟩

/-- From `s` to `t` objects stay, and a new one was made of bytes of the kind `D`. -/
structure Added (env : Env) (D : Bytes → Prop) (s t : Fs) : Prop where
  kept : Kept s t
  new : ∀ sha f, t.leaf? (pathOf sha) = some f → s.leaf? (pathOf sha) = some f ∨
    ∃ raw, D raw ∧ sha = Hash.sha256Hex env.evp raw ∧ Compressor.compress env raw = .ok f.data

theorem Added.refl {D : Bytes → Prop} (s : Fs) : Added env D s s :=
  ⟨.refl s, fun _ _ h => .inl h⟩

theorem Added.trans {D : Bytes → Prop} {u : Fs} (h : Added env D s t) (h' : Added env D t u) :
    Added env D s u := by
  refine ⟨h.kept.trans h'.kept, fun sha f hf => ?_⟩
  rcases h'.new sha f hf with hf | hn
  · exact h.new sha f hf
  · exact .inr hn

theorem Added.mono {D D' : Bytes → Prop} (h : Added env D s t) (hd : ∀ raw, D raw → D' raw) :
    Added env D' s t := by
  refine ⟨h.kept, fun sha f hf => ?_⟩
  rcases h.new sha f hf with hf | ⟨raw, hr, hn⟩
  · exact .inl hf
  · exact .inr ⟨raw, hd raw hr, hn⟩

theorem Added.of_frame {D : Bytes → Prop} {P : Path → Prop} (h : Frame P s t)
    (hp : ∀ q, InObjects q → ¬P q) : Added env D s t :=
  ⟨.of_frame h hp, fun sha f hf => .inl (by rwa [h _ (hp _ (inObjects_pathOf sha))] at hf)⟩

theorem Added.of_put {D : Bytes → Prop} {raw compressed : Bytes} {n : UInt64} {r : PutObjectResult}
    (h : Put env (Hash.sha256Hex env.evp raw) compressed n s t r) (hd : D raw)
    (hc : Compressor.compress env raw = .ok compressed) : Added env D s t := by
  refine ⟨h.kept, fun sha f hf => ?_⟩
  by_cases he : sha = Hash.sha256Hex env.evp raw
  · subst he
    obtain ⟨f', hf', _, ⟨_, _, hf''⟩ | ⟨hs, _⟩⟩ := h.file
    · rw [hf'] at hf
      cases hf
      exact .inr ⟨raw, hd, rfl, by rw [hc, hf'']⟩
    · rw [hf'] at hf
      cases hf
      exact .inl hs
  · have hne : pathOf sha ≠ pathOf (Hash.sha256Hex env.evp raw) := fun h => he (pathOf_injective h)
    exact .inl (by rwa [h.frame _ hne] at hf)

/-- What the loops over chunks and files write to. -/
def BackupPath (q : Path) : Prop := InObjects q ∨ q = WalLog.walPath

theorem not_inObjects_walPath : ¬InObjects WalLog.walPath := by decide

/-- The effects of a backup before its manifest is complete: directories, the log, and
objects that were not there. -/
structure BackupEffects (env : Env) (G : FsEffect → Fs → Fs → Prop) : Prop where
  dir : ∀ p a b, G (.ensureDirectory p) a b
  object : ∀ data compressed m a b, a.leaf? (pathOf (Hash.sha256Hex env.evp data)) = none →
    Compressor.compress env data = .ok compressed →
    G (.replace (pathOf (Hash.sha256Hex env.evp data)) compressed m) a b
  wal : ∀ data m e a b, G (.append WalLog.walPath data m e) a b

theorem putRaw_keeps {data : Bytes} (hdir : ∀ p a b, G (.ensureDirectory p) a b)
    (hput : ∀ compressed m a b, (∀ q, a.leaf? q = s.leaf? q) →
      s.leaf? (pathOf (Hash.sha256Hex env.evp data)) = none →
      Compressor.compress env data = .ok compressed →
      G (.replace (pathOf (Hash.sha256Hex env.evp data)) compressed m) a b) :
    Keeps G (fun r t => ∃ compressed, Compressor.compress env data = .ok compressed ∧
      Put env (Hash.sha256Hex env.evp data) compressed (size data) s t r)
      (putRaw env data) s := by
  simp only [putRaw, Prog.bind_eq]
  refine Keeps.bind_ofExcept fun compressed hc => ?_
  refine (putCompressed_keeps hdir fun m a b _ ha hn => hput compressed m a b ha hn hc).post ?_
  intro r t ⟨_, hp⟩
  exact ⟨compressed, hc, hp⟩

theorem describes_of_put {data compressed : Bytes} {r : PutObjectResult} {i : UInt64}
    (hc : Compressor.compress env data = .ok compressed)
    (h : Put env (Hash.sha256Hex env.evp data) compressed (size data) s t r) :
    Describes env t data ⟨i, r.rawSize, r.compressedSize, r.sha256, r.objectPath⟩ := by
  obtain ⟨f, hf, hs, hcase⟩ := h.file
  refine ⟨h.sha_eq, by rw [h.path_eq, h.sha_eq], h.rawSize_eq, f, by rw [h.sha_eq]; exact hf, hs, ?_⟩
  rcases hcase with ⟨_, _, hd⟩ | ⟨_, _, raw, hst, hr⟩
  · exact .inl (by rw [hc, hd])
  · exact .inr ⟨raw, by rw [h.sha_eq]; exact hst.kept h.kept, hr⟩

/-- The step lemma of the loop over chunks. -/
theorem putChunk_keeps {fault : FaultStage} {st : FileProgress env} {chunk : Chunk}
    {D : Bytes → Prop} (hD : D chunk.data) (hindex : chunk.index = st.chunkIndex)
    (hG : BackupEffects env G) :
    Keeps G (fun st' t => Frame BackupPath s t ∧ Added env D s t ∧
      ∃ ref, ref.chunkIndex = chunk.index ∧ Describes env t chunk.data ref ∧
        st'.file = { st.file with chunks := st.file.chunks ++ [ref] } ∧
        st'.hash = Hash.update env.evp st.hash chunk.data ∧
        st'.chunkIndex = st.chunkIndex + 1 ∧
        st'.total.result.version = st.total.result.version ∧
        ∃ n, st'.total.manifest = { st.total.manifest with totalStoredBytes := n })
      (putChunk env fault st chunk) s := by
  simp only [putChunk, Prog.bind_eq]
  have h1 : Keeps G _ (putRaw env chunk.data) s :=
    putRaw_keeps hG.dir fun compressed m a b ha hn hc => hG.object _ _ m a b (by rw [ha, hn]) hc
  refine Keeps.bind h1 fun put a ⟨compressed, hc, hp⟩ => ?_
  refine Keeps.bind (WalLog.append_keeps hG.dir fun data m e b c _ => hG.wal data m e b c) ?_
  intro _ b hw
  refine Keeps.bind (FaultInjector.trigger_keeps fault _) fun _ b' he => ?_
  subst he
  have hkept : Kept a b' := .of_frame hw fun q hq he => not_inObjects_walPath (he ▸ hq)
  have hframe : Frame BackupPath s b' :=
    (hp.frame.mono fun q he => .inl (he ▸ inObjects_pathOf _)).trans (hw.mono fun q he => .inr he)
  have hadded : Added env D s b' :=
    (Added.of_put hp hD hc).trans (.of_frame hw fun q hq he => not_inObjects_walPath (he ▸ hq))
  refine Keeps.pure ⟨hframe, hadded, _, hindex.symm, (describes_of_put hc hp).kept hkept, rfl, rfl,
    rfl, ?_, ?_⟩
  · unfold countPut
    split
    · rfl
    · rfl
  · unfold countPut
    split
    · exact ⟨_, rfl⟩
    · exact ⟨_, rfl⟩

/-- The run lemma of the loop over chunks. -/
theorem putChunks_keeps {fault : FaultStage} {st : FileProgress env} {chunks : List Chunk}
    {D : Bytes → Prop} (hD : ∀ chunk ∈ chunks, D chunk.data) (hindex : Indexed st.chunkIndex chunks)
    (hG : BackupEffects env G) :
    Keeps G (fun st' t => Frame BackupPath s t ∧ Added env D s t ∧
      ∃ refs, List.Forall₂ (fun chunk ref => ref.chunkIndex = chunk.index ∧
          Describes env t chunk.data ref) chunks refs ∧
        st'.file = { st.file with chunks := st.file.chunks ++ refs } ∧
        st'.hash = (chunks.map Chunk.data).foldl (Hash.update env.evp) st.hash ∧
        st'.total.result.version = st.total.result.version ∧
        ∃ n, st'.total.manifest = { st.total.manifest with totalStoredBytes := n })
      (putChunks env fault st chunks) s := by
  induction chunks generalizing st s with
  | nil =>
    exact Keeps.pure ⟨.refl _ s, .refl s, [], .nil, by simp, rfl, rfl, _, rfl⟩
  | cons chunk chunks ih =>
    simp only [putChunks, Prog.bind_eq]
    obtain ⟨hi, hrest⟩ := hindex
    refine Keeps.bind (putChunk_keeps (hD chunk (by simp)) hi hG) ?_
    intro st1 a ⟨hf, ha, ref, hr, hdesc, hfile, hhash, hidx, hver, n, hman⟩
    refine (ih (fun c hc => hD c (by simp [hc])) (hidx ▸ hrest)).post ?_
    intro st2 b ⟨hf', ha', refs, hrefs, hfile', hhash', hver', n', hman'⟩
    refine ⟨hf.trans hf', ha.trans ha', ref :: refs, .cons ⟨hr, hdesc.kept ha'.kept⟩ hrefs, ?_, ?_,
      hver'.trans hver, n', ?_⟩
    · rw [hfile', hfile]
      simp
    · rw [hhash', hhash]
      rfl
    · rw [hman', hman]

/-- The manifest's entry for a file tells what it should of the answers that the
source gave. -/
structure FileDescribes (env : Env) (t : Fs) (mode : ChunkingMode) (data : Bytes)
    (scanned : ScannedFile) (file : FileManifest) : Prop where
  read_eq : scanned.readFile = .ok data
  fits : Compressor.allocate env data.length = .ok ()
  path_eq : file.relativePath = scanned.relativePath
  size_eq : scanned.fileSize = .ok file.fileSize
  mode_eq : scanned.fileMode = .ok file.fileMode
  sha_eq : file.fileSha256 = Hash.finalHex env.evp
    (((chunkFile mode data).map Chunk.data).foldl (Hash.update env.evp) env.evp.init)
  chunks : List.Forall₂ (fun chunk ref => ref.chunkIndex = chunk.index ∧
    Describes env t chunk.data ref) (chunkFile mode data) file.chunks

theorem FileDescribes.kept {mode : ChunkingMode} {data : Bytes} {scanned : ScannedFile}
    {file : FileManifest} (h : FileDescribes env s mode data scanned file) (hk : Kept s t) :
    FileDescribes env t mode data scanned file :=
  ⟨h.read_eq, h.fits, h.path_eq, h.size_eq, h.mode_eq, h.sha_eq, h.chunks.imp fun _ _ h => ⟨h.1, h.2.kept hk⟩⟩

/-- The bytes of a chunk of one of the files. -/
def ChunkOf (mode : ChunkingMode) (files : List ScannedFile) (raw : Bytes) : Prop :=
  ∃ scanned ∈ files, ∃ data, scanned.readFile = .ok data ∧ raw ∈ (chunkFile mode data).map Chunk.data

theorem backupFile_keeps {fault : FaultStage} {mode : ChunkingMode} {total : Progress}
    {scanned : ScannedFile} {D : Bytes → Prop}
    (hD : ∀ raw, ChunkOf mode [scanned] raw → D raw)
    (hG : BackupEffects env G) :
    Keeps G (fun total' t => Frame BackupPath s t ∧ Added env D s t ∧
      ∃ file data n, FileDescribes env t mode data scanned file ∧
        total'.result.version = total.result.version ∧
        total'.manifest = { total.manifest with
          totalInputBytes := total.manifest.totalInputBytes + file.fileSize
          totalStoredBytes := n
          files := total.manifest.files ++ [file] })
      (backupFile env fault mode total scanned) s := by
  simp only [backupFile, Prog.bind_eq]
  refine Keeps.bind_ofExcept fun fileSize hsize => ?_
  refine Keeps.bind_ofExcept fun fileMode hmode => ?_
  refine Keeps.bind_ofExcept fun chunks hchunks => ?_
  simp only [readChunks, bind, Except.bind, pure, Except.pure] at hchunks
  split at hchunks
  · contradiction
  rename_i data hread
  split at hchunks
  · contradiction
  rename_i _ hfits
  cases hchunks
  have hlen := (Compressor.allocate_ok.mp hfits).1
  obtain ⟨_, hindexed⟩ := chunkFile_spec mode hlen
  have hloop : Keeps G _ (putChunks env fault
      ⟨⟨scanned.relativePath, fileSize, fileMode, [], []⟩, env.evp.init, 0, total⟩
      (chunkFile mode data)) s :=
    putChunks_keeps (fun chunk hc => hD _ ⟨scanned, by simp, data, hread,
      List.mem_map_of_mem hc⟩) hindexed hG
  refine Keeps.bind hloop fun st t ⟨hf, ha, refs, hrefs, hfile, hhash, hver, n, hman⟩ => ?_
  refine Keeps.pure ⟨hf, ha, { st.file with fileSha256 := Hash.finalHex env.evp st.hash }, data, n,
    ⟨hread, hfits, by rw [hfile], by rw [hfile, hsize], by rw [hfile, hmode], by rw [hhash],
      by rw [hfile]; exact hrefs⟩, hver, ?_⟩
  rw [hman]

/-- The sizes that the files of a manifest have together. -/
def inputBytes (n : UInt64) (files : List FileManifest) : UInt64 :=
  files.foldl (fun n file => n + file.fileSize) n

theorem backupFiles_keeps {fault : FaultStage} {mode : ChunkingMode} {total : Progress}
    {files : List ScannedFile} {D : Bytes → Prop} (hD : ∀ raw, ChunkOf mode files raw → D raw)
    (hG : BackupEffects env G) :
    Keeps G (fun total' t => Frame BackupPath s t ∧ Added env D s t ∧
      ∃ entries n, List.Forall₂ (fun scanned file =>
          ∃ data, FileDescribes env t mode data scanned file) files entries ∧
        total'.result.version = total.result.version ∧
        total'.manifest = { total.manifest with
          totalInputBytes := inputBytes total.manifest.totalInputBytes entries
          totalStoredBytes := n
          files := total.manifest.files ++ entries })
      (backupFiles env fault mode total files) s := by
  induction files generalizing total s with
  | nil =>
    exact Keeps.pure ⟨.refl _ s, .refl s, [], _, .nil, rfl, by simp [inputBytes]; rfl⟩
  | cons scanned files ih =>
    simp only [backupFiles, Prog.bind_eq]
    have hfirst : ∀ raw, ChunkOf mode [scanned] raw → D raw := by
      intro raw ⟨x, hx, hr⟩
      rw [List.mem_singleton] at hx
      subst hx
      exact hD raw ⟨x, by simp, hr⟩
    refine Keeps.bind (backupFile_keeps hfirst hG) ?_
    intro total1 a ⟨hf, ha, file, data, n, hdesc, hver, hman⟩
    refine (ih fun raw ⟨x, hx, hr⟩ => hD raw ⟨x, by simp [hx], hr⟩).post ?_
    intro total2 b ⟨hf', ha', entries, n', hentries, hver', hman'⟩
    refine ⟨hf.trans hf', ha.trans ha', file :: entries, n',
      .cons ⟨data, hdesc.kept ha'.kept⟩ hentries, hver'.trans hver, ?_⟩
    rw [hman', hman]
    simp [inputBytes]

end BackupEngine

end Dpc
