import Dpc.Core.ManifestRoundTrip
import Dpc.Core.PublishFacts
import Dpc.Core.Readers
import Dpc.Lib.Lists

namespace Dpc
open Text FileTree Effects ObjectStore

/-- No two different byte strings of a kind have the same hash. -/
def Evp.NoCollision (evp : Evp) (P : Bytes → Prop) : Prop :=
  ∀ a b, P a → P b → Hash.sha256Hex evp a = Hash.sha256Hex evp b → a = b

/-- A reference names an object that holds exactly some bytes. -/
structure Held (env : Env) (t : Fs) (data : Bytes) (ref : ChunkRef) : Prop where
  sha : ref.sha256 = Hash.sha256Hex env.evp data
  path : ref.objectPath = textOf ref.sha256
  rawSize : ref.rawSize = size data
  stored : Stored env t ref.sha256 data

variable {env : Env} {s t : Fs}

theorem Held.isSha {data : Bytes} {ref : ChunkRef} (h : Held env t data ref) :
    Hash.isSha256Hex ref.sha256 = true := by
  rw [h.sha]
  exact Hash.isSha256Hex_sha256Hex env.evp data

theorem Held.exec_readRaw {data : Bytes} {ref : ChunkRef} (h : Held env t data ref) :
    (readRaw env ref.sha256 ref.objectPath).exec t = (.ok data, t) := by
  rw [h.path]
  exact ObjectStore.exec_readRaw h.isSha h.stored

/-- Bytes that were read for a reference, and have its size. -/
theorem held_of_readRaw {ref : ChunkRef} {raw : Bytes}
    (h : (readRaw env ref.sha256 ref.objectPath).exec s = (.ok raw, t)) :
    t = s ∧ (ref.rawSize = size raw → Held env s raw ref) := by
  obtain ⟨ht, _, hpath, hstored⟩ := readRaw_ok h
  have hsha : Hash.sha256Hex env.evp raw = ref.sha256 := by
    obtain ⟨_, _, _, hsha⟩ := hstored
    exact hsha
  exact ⟨ht, fun hsize => ⟨hsha.symm, hpath, hsize, hstored⟩⟩

theorem size_append (a b : Bytes) : size (a ++ b) = size a + size b := by
  simp [size, UInt64.ofNat_add]

/-- The files of the repository that unpack to something. -/
def Unpacked (env : Env) (s : Fs) (raw : Bytes) : Prop :=
  ∃ q f, s.leaf? q = some f ∧ Compressor.decompress env f.data 0 = .ok raw

namespace BackupEngine

/-- The byte strings whose hashes a backup relies on: the chunks of the source, and what
the repository held before. -/
def Involved (env : Env) (s : Fs) (mode : ChunkingMode) (source : Source) (raw : Bytes) : Prop :=
  (∃ files, source.scan = .ok files ∧ ChunkOf mode files raw) ∨ Unpacked env s raw

theorem length_le_of_mem_chunkFile {mode : ChunkingMode} {data raw : Bytes}
    (hlen : data.length < 2 ^ 63) (h : raw ∈ (chunkFile mode data).map Chunk.data) :
    raw.length ≤ data.length := by
  obtain ⟨hflat, _⟩ := chunkFile_spec mode hlen
  have hsub : raw.Sublist ((chunkFile mode data).map Chunk.data).flatten :=
    List.sublist_flatten_of_mem h
  rw [hflat] at hsub
  exact hsub.length_le

/-- Without collisions, what a reference describes is what its object holds. -/
theorem Describes.held {D : Bytes → Prop} {data : Bytes} {ref : ChunkRef} (hz : env.zstd.Lawful)
    (hcol : env.evp.NoCollision fun raw => D raw ∨ Unpacked env s raw)
    (hD : ∀ raw, D raw → raw.length < 2 ^ 63) (hadd : Added env D s t) (hdata : D data)
    (h : Describes env t data ref) : Held env t data ref := by
  refine ⟨h.sha, h.path, h.rawSize, ?_⟩
  obtain ⟨f, hf, _, hc | ⟨raw, hst, _⟩⟩ := h.file
  · exact ⟨f, hf, Compressor.decompress_compress hz (hD data hdata) hc (.inl rfl), h.sha.symm⟩
  · obtain ⟨f', hf', hdec, hsha⟩ := hst
    have hraw : D raw ∨ Unpacked env s raw := by
      rcases hadd.new _ f' hf' with hold | ⟨raw', hr', _, hc⟩
      · exact .inr ⟨_, f', hold, hdec⟩
      · rw [Compressor.decompress_compress hz (hD raw' hr') hc (.inl rfl)] at hdec
        exact .inl (Except.ok.inj hdec ▸ hr')
    have : raw = data := hcol raw data hraw (.inl hdata) (by rw [hsha, h.sha])
    subst this
    exact ⟨f', hf', hdec, hsha⟩

end BackupEngine

/-- A file's entry whose chunks hold some bytes, and whose hash is theirs. -/
structure HoldsFile (env : Env) (t : Fs) (datas : List Bytes) (file : FileManifest) : Prop where
  sha : file.fileSha256 = Hash.finalHex env.evp (datas.foldl (Hash.update env.evp) env.evp.init)
  chunks : List.Forall₂ (Held env t) datas file.chunks

theorem HoldsFile.unique {datas datas' : List Bytes} {file : FileManifest}
    (h : HoldsFile env t datas file) (h' : HoldsFile env t datas' file) : datas = datas' := by
  have hleft : Relator.LeftUnique (Held env t) := fun _ _ _ h h' => h.stored.unique h'.stored
  exact List.left_unique_forall₂' hleft h.chunks h'.chunks

/-- A file's entry is right in every way, its size too. -/
def Whole (env : Env) (t : Fs) (file : FileManifest) : Prop :=
  ∃ datas, HoldsFile env t datas file ∧ size datas.flatten = file.fileSize

theorem HoldsFile.whole_iff {datas : List Bytes} {file : FileManifest}
    (h : HoldsFile env t datas file) : Whole env t file ↔ size datas.flatten = file.fileSize := by
  constructor
  · intro ⟨datas', h', hs⟩
    rw [h.unique h']
    exact hs
  · intro hs
    exact ⟨datas, h, hs⟩

namespace VerifyEngine

theorem exec_verifyChunks {path : Bytes} {datas : List Bytes} {refs : List ChunkRef}
    (h : List.Forall₂ (Held env t) datas refs) (hash : env.evp.Ctx) (n : UInt64) :
    (verifyChunks env path hash n refs).exec t =
      (.ok (datas.foldl (Hash.update env.evp) hash, n + size datas.flatten), t) := by
  induction h generalizing hash n with
  | nil => simp [verifyChunks, size]
  | cons hd _ ih =>
    simp only [verifyChunks, Prog.bind_eq]
    rw [Prog.exec_bind_of_ok hd.exec_readRaw]
    simp only [hd.rawSize, hd.sha, ne_eq, not_true_eq_false, if_false, ih, List.foldl_cons,
      List.flatten_cons, size_append, UInt64.add_assoc]

theorem verifyChunks_ok {path : Bytes} {refs : List ChunkRef} {hash : env.evp.Ctx} {n : UInt64}
    {r : env.evp.Ctx × UInt64} (h : (verifyChunks env path hash n refs).exec s = (.ok r, t)) :
    t = s ∧ ∃ datas, List.Forall₂ (Held env s) datas refs ∧
      r = (datas.foldl (Hash.update env.evp) hash, n + size datas.flatten) := by
  induction refs generalizing hash n with
  | nil =>
    cases h
    exact ⟨rfl, [], .nil, by simp [size]⟩
  | cons ref refs ih =>
    simp only [verifyChunks, Prog.bind_eq] at h
    obtain ⟨raw, u, hraw, hrest⟩ := Prog.exec_bind_ok h
    obtain ⟨rfl, hheld⟩ := held_of_readRaw hraw
    split at hrest
    · simp at hrest
    rename_i hsize
    split at hrest
    · simp at hrest
    obtain ⟨rfl, datas, hdatas, rfl⟩ := ih hrest
    refine ⟨rfl, raw :: datas, .cons (hheld (not_not.mp hsize).symm) hdatas, ?_⟩
    simp only [List.foldl_cons, List.flatten_cons, size_append, UInt64.add_assoc]

/-- A file verifies if and only if its entry is right in every way. -/
theorem verifyFile_iff {file : FileManifest} :
    (verifyFile env file).exec t = (.ok (), t) ↔ Whole env t file := by
  simp only [verifyFile, Prog.bind_eq]
  constructor
  · intro h
    obtain ⟨⟨hash, n⟩, u, hchunks, hrest⟩ := Prog.exec_bind_ok h
    obtain ⟨rfl, datas, hdatas, hr⟩ := verifyChunks_ok hchunks
    rw [UInt64.zero_add] at hr
    cases hr
    split at hrest
    · simp at hrest
    rename_i hsize
    split at hrest
    · simp at hrest
    rename_i hsha
    exact ⟨datas, ⟨(not_not.mp hsha).symm, hdatas⟩, not_not.mp hsize⟩
  · intro ⟨datas, h, hsize⟩
    rw [Prog.exec_bind_of_ok (exec_verifyChunks h.chunks _ _)]
    simp [h.sha, hsize]

theorem verifyFile_state {file : FileManifest} {u : Unit}
    (h : (verifyFile env file).exec s = (.ok u, t)) : t = s := by
  simp only [verifyFile, Prog.bind_eq] at h
  obtain ⟨⟨hash, n⟩, m, hchunks, hrest⟩ := Prog.exec_bind_ok h
  obtain ⟨rfl, _⟩ := verifyChunks_ok hchunks
  split at hrest
  · simp at hrest
  split at hrest
  · simp at hrest
  · cases hrest
    rfl

theorem verifyFiles_state {files : List FileManifest} {u : Unit}
    (h : (verifyFiles env files).exec s = (.ok u, t)) : t = s := by
  induction files generalizing s with
  | nil =>
    cases h
    rfl
  | cons file files ih =>
    simp only [verifyFiles, Prog.bind_eq] at h
    obtain ⟨_, m, hfile, hrest⟩ := Prog.exec_bind_ok h
    rw [ih hrest, verifyFile_state hfile]

theorem verifyFiles_iff {files : List FileManifest} :
    (verifyFiles env files).exec t = (.ok (), t) ↔ ∀ file ∈ files, Whole env t file := by
  induction files with
  | nil => simp [verifyFiles]
  | cons file files ih =>
    rw [List.forall_mem_cons, ← ih, ← verifyFile_iff]
    simp only [verifyFiles, Prog.bind_eq]
    constructor
    · intro h
      obtain ⟨_, u, hfile, hrest⟩ := Prog.exec_bind_ok h
      obtain rfl := verifyFile_state hfile
      exact ⟨hfile, hrest⟩
    · intro ⟨hfile, hrest⟩
      rw [Prog.exec_bind_of_ok hfile, hrest]

end VerifyEngine

namespace RestoreEngine

theorem exec_assemble {path : Bytes} {datas : List Bytes} {refs : List ChunkRef}
    (h : List.Forall₂ (Held env t) datas refs) (acc : Bytes) :
    (assemble env path acc refs).exec t = (.ok (acc ++ datas.flatten), t) := by
  induction h generalizing acc with
  | nil => simp [assemble]
  | cons hd _ ih =>
    simp only [assemble, Prog.bind_eq]
    rw [Prog.exec_bind_of_ok hd.exec_readRaw]
    simp [hd.rawSize, ih]

theorem assemble_ok {path acc bytes : Bytes} {refs : List ChunkRef}
    (h : (assemble env path acc refs).exec s = (.ok bytes, t)) :
    t = s ∧ ∃ datas, List.Forall₂ (Held env s) datas refs ∧ bytes = acc ++ datas.flatten := by
  induction refs generalizing acc with
  | nil =>
    cases h
    exact ⟨rfl, [], .nil, by simp⟩
  | cons ref refs ih =>
    simp only [assemble, Prog.bind_eq] at h
    obtain ⟨raw, u, hraw, hrest⟩ := Prog.exec_bind_ok h
    obtain ⟨rfl, hheld⟩ := held_of_readRaw hraw
    split at hrest
    · simp at hrest
    rename_i hsize
    obtain ⟨rfl, datas, hdatas, rfl⟩ := ih hrest
    exact ⟨rfl, raw :: datas, .cons (hheld (not_not.mp hsize).symm) hdatas, by simp⟩

/-- The bytes of a file are read if and only if its entry is right in every way, and they
can all be kept in memory. -/
theorem readFile_iff {file : FileManifest} {data : Bytes} (hevp : env.evp.Incremental) :
    ((readFile env file).exec t).1 = .ok data ↔
      Compressor.allocate env file.fileSize.toNat = .ok () ∧
        ∃ datas, HoldsFile env t datas file ∧ size datas.flatten = file.fileSize ∧
          data = datas.flatten := by
  have hincr : ∀ datas : List Bytes, Hash.sha256Hex env.evp datas.flatten =
      Hash.finalHex env.evp (datas.foldl (Hash.update env.evp) env.evp.init) :=
    fun datas => (hevp datas).symm
  simp only [readFile, Prog.bind_eq]
  constructor
  · intro h
    obtain ⟨_, u, halloc, hafter⟩ := Prog.exec_bind_ok (Prog.exec_of_fst h)
    simp only [Prog.exec_ofExcept, Prod.mk.injEq] at halloc
    obtain ⟨halloc, rfl⟩ := halloc
    obtain ⟨assembled, u, hass, hrest⟩ := Prog.exec_bind_ok hafter
    obtain ⟨rfl, datas, hdatas, rfl⟩ := assemble_ok hass
    rw [List.nil_append] at hrest
    split at hrest
    · simp at hrest
    rename_i hsize
    split at hrest
    · simp at hrest
    rename_i hsha
    obtain rfl := Except.ok.inj (congrArg Prod.fst hrest)
    refine ⟨halloc, datas, ⟨?_, hdatas⟩, not_not.mp hsize, rfl⟩
    rw [← hincr]
    exact (not_not.mp hsha).symm
  · rintro ⟨halloc, datas, h, hsize, rfl⟩
    have hsha : Hash.sha256Hex env.evp datas.flatten = file.fileSha256 := by
      rw [h.sha, hincr]
    rw [halloc, Prog.exec_bind_of_ok (Prog.exec_ofExcept _ _),
      Prog.exec_bind_of_ok (exec_assemble h.chunks [])]
    simp [hsize, hsha]

end RestoreEngine

namespace BackupEngine
open ManifestStore

/-- What a backup that succeeded has left: its manifest and its marker, over the state in
which the manifest was complete. -/
structure Created (env : Env) (now : UInt64) (source : Source) (mode : ChunkingMode) (s t : Fs)
    (m : Manifest) : Prop where
  built : ∃ u, Built env now source mode s u m ∧ Frame (PublishPath m.version) u t
  manifest : ∃ f, t.leaf? (manifestPath m.version) = some f ∧ f.data = serialize m
  marker : (t.leaf? (commitPath m.version)).isSome

theorem not_inObjects_publishPath {v : UInt64} {q : Path} (h : InObjects q) :
    ¬PublishPath v q := by
  rintro (rfl | rfl | rfl | rfl | rfl)
  · exact not_inObjects_tmp v h
  · exact not_inObjects_manifest v h
  · exact not_inObjects_commit v h
  · exact not_inObjects_walPath h
  · exact not_inObjects_checkpoint h

theorem create_ok {now : UInt64} {fault : FaultStage} {source : Source} {mode : ChunkingMode}
    {r : BackupResult} (h : (create env now fault source mode).exec s = (.ok r, t)) :
    ∃ m, r.version = m.version ∧ Created env now source mode s t m := by
  have hbuild : Keeps (fun _ _ _ => True) _ (buildManifest env now fault source mode) s :=
    buildManifest_keeps ⟨fun _ _ _ => trivial, fun _ _ _ _ _ _ _ => trivial,
      fun _ _ _ _ _ => trivial⟩
  have hk : Keeps (fun _ _ _ => True)
      (fun r t => ∃ m, r.version = m.version ∧ Created env now source mode s t m)
      (create env now fault source mode) s := by
    simp only [create, Prog.bind_eq]
    refine Keeps.bind hbuild fun p u ⟨hb, hv⟩ => ?_
    have hpub : Keeps (fun _ _ _ => True) _ (publish env fault p.manifest) u :=
      publish_keeps ⟨fun _ _ _ => trivial, fun _ _ _ _ _ => trivial, fun _ _ _ => trivial,
        fun _ _ _ _ _ _ => trivial, fun _ _ _ _ _ _ _ _ => trivial, fun _ _ _ _ => trivial⟩
    refine Keeps.bind hpub fun _ t ⟨hf, hm, hc⟩ => ?_
    exact Keeps.pure ⟨p.manifest, hv, ⟨u, hb, hf⟩, hm, hc⟩
  have hq := Keeps.ok hk h
  exact hq

/-- The pieces of a file's bytes. -/
def pieces (mode : ChunkingMode) (data : Bytes) : List Bytes :=
  (chunkFile mode data).map Chunk.data

/-- Each file of the scan has its entry, and the entry holds the bytes that were read. -/
structure BackedUp (env : Env) (t : Fs) (mode : ChunkingMode) (data : Bytes)
    (scanned : ScannedFile) (file : FileManifest) : Prop where
  described : FileDescribes env t mode data scanned file
  flat : (pieces mode data).flatten = data
  holds : HoldsFile env t (pieces mode data) file

/-- Entries that were made of the files of a scan, over objects that were added for them or for
others. -/
structure Described (env : Env) (mode : ChunkingMode) (D : Bytes → Prop) (s t : Fs)
    (files : List ScannedFile) (entries : List FileManifest) : Prop where
  within : ∀ raw, ChunkOf mode files raw → D raw
  added : Added env D s t
  files : List.Forall₂ (fun scanned file => ∃ data, FileDescribes env t mode data scanned file)
    files entries

/-- Each piece of each file is held by the object that its reference names. -/
theorem Described.backedUp {mode : ChunkingMode} {D : Bytes → Prop} {files : List ScannedFile}
    {entries : List FileManifest} (hz : env.zstd.Lawful)
    (hcol : env.evp.NoCollision fun raw => D raw ∨ Unpacked env s raw)
    (hD : ∀ raw, D raw → raw.length < 2 ^ 63) (h : Described env mode D s t files entries) :
    List.Forall₂ (fun scanned file => ∃ data, BackedUp env t mode data scanned file)
      files entries := by
  refine h.files.imp_mem fun scanned hs file _ ⟨data, hd⟩ => ⟨data, ?_⟩
  have hlen := (Compressor.allocate_ok.mp hd.fits).1
  refine ⟨hd, (chunkFile_spec mode hlen).1, hd.sha_eq, ?_⟩
  have hheld : List.Forall₂ (fun (chunk : Chunk) ref => Held env t chunk.data ref)
      (chunkFile mode data) file.chunks := by
    refine hd.chunks.imp_mem fun chunk hc ref _ ⟨_, hdesc⟩ => ?_
    have hraw : ChunkOf mode files chunk.data :=
      ⟨scanned, hs, data, hd.read_eq, List.mem_map_of_mem hc⟩
    exact hdesc.held hz hcol hD h.added (h.within _ hraw)
  exact List.forall₂_map_left_iff.mpr hheld

/-- The pieces of files that were read are not too long. -/
theorem length_lt_of_chunkOf {mode : ChunkingMode} {files : List ScannedFile}
    {entries : List FileManifest} {raw : Bytes}
    (h : List.Forall₂ (fun scanned file => ∃ data, FileDescribes env t mode data scanned file)
      files entries) (hraw : ChunkOf mode files raw) : raw.length < 2 ^ 63 := by
  obtain ⟨scanned, hs, data, hread, hraw⟩ := hraw
  obtain ⟨file, _, data', hd⟩ := h.exists_right hs
  cases hread.symm.trans hd.read_eq
  have hlen := (Compressor.allocate_ok.mp hd.fits).1
  exact Nat.lt_of_le_of_lt (length_le_of_mem_chunkFile hlen hraw) hlen

theorem Created.described {now : UInt64} {source : Source} {mode : ChunkingMode} {m : Manifest}
    (h : Created env now source mode s t m) :
    ∃ files, source.scan = .ok files ∧ Described env mode (ChunkOf mode files) s t files m.files := by
  obtain ⟨u, hb, hframe⟩ := h.built
  obtain ⟨files, hscan, hadd, hfiles, _⟩ := hb.files
  have hlast : Added env (ChunkOf mode files) u t :=
    .of_frame hframe fun q hq => not_inObjects_publishPath hq
  exact ⟨files, hscan, fun _ => id, hadd.trans hlast,
    hfiles.imp fun _ _ ⟨data, hd⟩ => ⟨data, hd.kept hlast.kept⟩⟩

theorem Involved.of_chunkOf {mode : ChunkingMode} {source : Source} {files : List ScannedFile}
    (hscan : source.scan = .ok files) {raw : Bytes}
    (h : ChunkOf mode files raw ∨ Unpacked env s raw) : Involved env s mode source raw :=
  h.imp_left fun hr => ⟨files, hscan, hr⟩

theorem Created.backedUp {now : UInt64} {source : Source} {mode : ChunkingMode} {m : Manifest}
    (hz : env.zstd.Lawful) (hcol : env.evp.NoCollision (Involved env s mode source))
    (h : Created env now source mode s t m) :
    ∃ files, source.scan = .ok files ∧
      List.Forall₂ (fun scanned file => ∃ data, BackedUp env t mode data scanned file)
        files m.files := by
  obtain ⟨files, hscan, hd⟩ := h.described
  have hcol' : env.evp.NoCollision fun raw => ChunkOf mode files raw ∨ Unpacked env s raw :=
    fun a b ha hb => hcol a b (.of_chunkOf hscan ha) (.of_chunkOf hscan hb)
  exact ⟨files, hscan, hd.backedUp hz hcol' fun _ => length_lt_of_chunkOf hd.files⟩

theorem isSha256Hex_finalHex (evp : Evp) (ctx : evp.Ctx) :
    Hash.isSha256Hex (Hash.finalHex evp ctx) = true := by
  simp only [Hash.isSha256Hex, Hash.finalHex, Hash.bytesToHex, Bool.and_eq_true, beq_iff_eq,
    List.all_eq_true]
  exact ⟨by simp [(evp.final ctx).property], fun b hb => isXdigit_of_mem_hexEncode hb⟩

theorem Describes.wellFormed {data : Bytes} {ref : ChunkRef} (h : Describes env t data ref) :
    PrintableChunk ref ∧ WellFormedChunk ref := by
  have hsha : Hash.isSha256Hex ref.sha256 = true := by
    rw [h.sha]
    exact Hash.isSha256Hex_sha256Hex env.evp data
  refine ⟨⟨Hash.isWord_of_isSha256Hex hsha, ?_⟩, hsha, ?_⟩
  · rw [h.path]
    exact textOf_ne_nil hsha
  · rw [h.path]
    exact ⟨_, safeRelativePath_textOf hsha ""⟩

theorem FileDescribes.printable {mode : ChunkingMode} {data : Bytes} {scanned : ScannedFile}
    {file : FileManifest} (h : FileDescribes env t mode data scanned file) :
    PrintableFile file ∧
      (WellFormedFile file ↔ FileUtils.SafePath scanned.relativePath) := by
  have hlen := (Compressor.allocate_ok.mp h.fits).1
  have hsha : Hash.isSha256Hex file.fileSha256 = true := by
    rw [h.sha_eq]
    exact isSha256Hex_finalHex _ _
  have hchunk : ∀ ref ∈ file.chunks, PrintableChunk ref ∧ WellFormedChunk ref := by
    intro ref hr
    obtain ⟨chunk, _, _, hd⟩ := h.chunks.exists_left hr
    exact hd.wellFormed
  refine ⟨⟨?_, Hash.isWord_of_isSha256Hex hsha, fun c hc => (hchunk c hc).1, ?_⟩, ?_⟩
  · rw [h.path_eq]
    exact scanned.path_ne
  · rw [← h.chunks.length_eq]
    have := length_chunkFile mode hlen
    omega
  · rw [← h.path_eq]
    constructor
    · intro hw
      exact hw.path
    · intro hp
      exact ⟨hp, hsha, fun c hc => (hchunk c hc).2⟩

theorem Built.printable {now : UInt64} {source : Source} {mode : ChunkingMode} {m : Manifest}
    (h : Built env now source mode s t m) : Printable m := by
  obtain ⟨files, hscan, _, hfiles, hm⟩ := h.files
  refine ⟨?_, fun file hf => ?_, ?_⟩
  · rw [hm]
    exact source.root_ne
  · obtain ⟨scanned, _, data, hd⟩ := hfiles.exists_left hf
    exact hd.printable.1
  · rw [← hfiles.length_eq]
    exact source.count files hscan

theorem Created.printable {now : UInt64} {source : Source} {mode : ChunkingMode} {m : Manifest}
    (h : Created env now source mode s t m) : Printable m := by
  obtain ⟨u, hb, _⟩ := h.built
  exact hb.printable

/-- A version that a backup has made is loaded as it was written, if and only if every
path in it is one that the reader takes. -/
theorem Created.exec_load {now : UInt64} {source : Source} {mode : ChunkingMode} {m m' : Manifest}
    (h : Created env now source mode s t m) :
    (load m.version).exec t = (.ok m', t) ↔
      m' = m ∧ ∀ file ∈ m.files, WellFormedFile file := by
  obtain ⟨f, hf, hd⟩ := h.manifest
  obtain ⟨marker, hc⟩ := Option.isSome_iff_exists.mp h.marker
  rw [← parse_serialize_iff h.printable, ← hd]
  constructor
  · intro hl
    obtain ⟨_, _, f', hf', hp⟩ := load_ok hl
    rw [hf] at hf'
    cases hf'
    exact hp
  · intro hp
    exact load_of hc hf hp

/-- The scan of a backup, with the manifest's entries beside it. -/
theorem Created.wellFormed_iff {now : UInt64} {source : Source} {mode : ChunkingMode}
    {m : Manifest} (h : Created env now source mode s t m) :
    ∃ files, source.scan = .ok files ∧
      List.Forall₂ (fun scanned file => file.relativePath = scanned.relativePath ∧
        (WellFormedFile file ↔ FileUtils.SafePath scanned.relativePath)) files m.files := by
  obtain ⟨u, hb, _⟩ := h.built
  obtain ⟨files, hscan, _, hfiles, _⟩ := hb.files
  exact ⟨files, hscan, hfiles.imp fun _ _ ⟨_, hd⟩ => ⟨hd.path_eq, hd.printable.2⟩⟩

end BackupEngine

end Dpc
