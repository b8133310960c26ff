import Dpc.Guarantees.Uploaded

/-! An upload that was interrupted and run again, beside a backup of the same source. -/

namespace Dpc
open Text FileTree Effects ManifestStore BackupServer BackupClient TransferSession
open BackupEngine FileScanner

variable {env : Env} {s t u v : Fs} {sessionId text : Bytes} {now now' exitAfter : UInt64}
  {w : World} {root base : Path} {source : Source} {chunks : List PreparedChunk}
  {rs : List ReceivedChunkRecord} {attempts : List (List PreparedChunk)} {files : List ScannedFile}
  {entered entered' : List FileManifest} {mode : ChunkingMode} {D : Bytes → Prop}

theorem FileScanner.byPath_trans : IsTrans ScannedFile byPath :=
  ⟨fun _ _ _ h h' => Std.TransCmp.isLE_trans h h'⟩

theorem FileScanner.byPath_total : Std.Total byPath :=
  ⟨fun a b => by
    rcases hc : compare a.relativePath b.relativePath with _ | _ | _
    · exact .inl (by simp [byPath, hc])
    · exact .inl (by simp [byPath, hc])
    · exact .inr (by simp [byPath, Std.OrientedCmp.lt_of_gt hc])⟩

/-- A scan is in the order of the paths. -/
theorem FileScanner.scan_sorted (hscan : scanRegularFiles w root = .ok files) :
    files.Pairwise byPath := by
  obtain ⟨base, _, hbase, hdir, _, _⟩ := scanRegularFiles_ok hscan
  unfold scanRegularFiles at hscan
  rw [hbase] at hscan
  simp only [hdir, if_true, bind, Except.bind, pure, Except.pure] at hscan
  split at hscan
  · contradiction
  · cases hscan
    have := byPath_trans
    have := byPath_total
    exact List.pairwise_insertionSort _ _

/-- Where no link was accepted, the scan is in the order of the paths, without repetition. -/
theorem FileScanner.scan_increasing (hscan : scanRegularFiles w root = .ok files)
    (hbase : w.canonical root = .ok base) (hlinks : ∀ p ∈ accepted w base, ¬IsLink w p) :
    files.Pairwise fun a b => compare a.relativePath b.relativePath = .lt := by
  obtain ⟨base', found, hbase', hdir, hperm, hfound⟩ := scanRegularFiles_ok hscan
  rw [hbase] at hbase'
  cases hbase'
  have hscanned : (accepted w base).map (scannedPath w base) = found.map ScannedFile.relativePath := by
    rw [← List.forall₂_eq_eq_eq, List.forall₂_map_left_iff, List.forall₂_map_right_iff]
    exact hfound.imp fun p file ⟨q, f, hfrom⟩ => by rw [scannedPath_eq hfrom.regular, hfrom.path]
  have hnodup : (files.map ScannedFile.relativePath).Nodup := by
    rw [(hperm.map _).nodup_iff, ← hscanned]
    exact ((scannedPaths_iff hdir).mpr hlinks).2
  refine (List.pairwise_and_iff.mpr ⟨scan_sorted hscan, List.pairwise_map.mp hnodup⟩).imp fun {a b} h => ?_
  obtain ⟨hle, hne⟩ := h
  rcases hc : compare a.relativePath b.relativePath with _ | _ | _
  · rfl
  · exact absurd (Std.LawfulEqCmp.eq_of_compare hc) hne
  · rw [byPath, hc] at hle
    contradiction

theorem chunkFile_ne_nil {data : Bytes} (hlen : data.length < 2 ^ 63) : chunkFile mode data ≠ [] := by
  intro hnil
  obtain ⟨hflat, _⟩ := chunkFile_spec mode hlen
  rw [hnil] at hflat
  have hdata : data = [] := hflat.symm
  rw [hdata, chunkFile_nil] at hnil
  contradiction

theorem toNat_add_one {i : UInt64} (h : i.toNat + 1 < 2 ^ 64) : (i + 1).toNat = i.toNat + 1 := by
  rw [UInt64.toNat_add, UInt64.toNat_one]
  exact Nat.mod_eq_of_lt h

theorem Indexed.le {i : UInt64} {cs : List Chunk} (h : Indexed i cs)
    (hlen : i.toNat + cs.length ≤ 2 ^ 64) : ∀ c ∈ cs, i ≤ c.index := by
  induction cs generalizing i with
  | nil => simp
  | cons c cs ih =>
    rw [List.length_cons] at hlen
    intro d hd
    rcases List.mem_cons.mp hd with rfl | hd
    · exact UInt64.le_of_eq h.1.symm
    · have hpos := List.length_pos_of_mem hd
      have hnext := toNat_add_one (i := i) (by omega)
      have hle := ih h.2 (by omega) d hd
      rw [UInt64.le_iff_toNat_le, hnext] at hle
      exact UInt64.le_iff_toNat_le.mpr (by omega)

/-- The numbers of pieces that are numbered one after another grow. -/
theorem Indexed.increasing {i : UInt64} {cs : List Chunk} (h : Indexed i cs)
    (hlen : i.toNat + cs.length ≤ 2 ^ 64) : cs.Pairwise fun a b => a.index < b.index := by
  induction cs generalizing i with
  | nil => exact .nil
  | cons c cs ih =>
    rw [List.length_cons] at hlen
    by_cases hcs : cs = []
    · subst hcs
      exact List.pairwise_singleton _ _
    have hpos := List.length_pos_iff.mpr hcs
    have hnext := toNat_add_one (i := i) (by omega)
    refine .cons (fun d hd => ?_) (ih h.2 (by omega))
    have hle := UInt64.le_iff_toNat_le.mp (h.2.le (by omega) d hd)
    rw [h.1, UInt64.lt_iff_toNat_lt]
    omega

/-- The records of a file: one for each of its pieces. -/
structure FileRecorded (env : Env) (t : Fs) (file : ScannedFile) (rs : List ReceivedChunkRecord)
    (data : Bytes) : Prop where
  read : file.readFile = .ok data
  fits : Compressor.allocate env data.length = .ok ()
  records : List.Forall₂ (fun chunk r => ∃ sent, SentFor env file data chunk sent ∧ Tells env t sent r)
    (chunkFile .fixed data) rs

namespace FileRecorded

variable {file : ScannedFile} {data : Bytes}

theorem ne (h : FileRecorded env t file rs data) : rs ≠ [] := by
  intro hnil
  have hlen := h.records.length_eq
  rw [hnil, List.length_nil] at hlen
  exact chunkFile_ne_nil (Compressor.allocate_ok.mp h.fits).1 (List.eq_nil_of_length_eq_zero hlen)

/-- What each record says of the file. -/
theorem tells {r : ReceivedChunkRecord} (h : FileRecorded env t file rs data) (hr : r ∈ rs) :
    r.relativePath = file.relativePath ∧ file.fileSize = .ok r.fileSize ∧
      file.fileMode = .ok r.fileMode ∧ r.fileSha256 = Hash.sha256File env.evp data := by
  obtain ⟨chunk, _, sent, hsent, ⟨_, rfl⟩, _⟩ := h.records.exists_left hr
  exact ⟨hsent.path, hsent.size, hsent.mode, hsent.fileSha⟩

theorem sorted (h : FileRecorded env t file rs data) :
    rs.Pairwise fun a b => a.chunkIndex < b.chunkIndex := by
  have hlen := (Compressor.allocate_ok.mp h.fits).1
  have hcount := length_chunkFile .fixed hlen
  have hindexed := (chunkFile_spec .fixed hlen).2.increasing (by simp; omega)
  refine h.records.pairwise hindexed fun {a a' b b'} hr hr' hlt => ?_
  obtain ⟨sent, hsent, ⟨_, rfl⟩, _⟩ := hr
  obtain ⟨sent', hsent', ⟨_, rfl⟩, _⟩ := hr'
  exact (hsent.index.trans_lt hlt).trans_eq hsent'.index.symm

/-- The entry that the records make tells what it should of the file. -/
theorem describes (hevp : env.evp.Incremental) (h : FileRecorded env t file rs data) :
    FileDescribes env t .fixed data file (SessionIndex.fileOf rs) := by
  obtain ⟨r, tail, hrs⟩ := List.exists_cons_of_ne_nil h.ne
  obtain ⟨hpath, hsize, hmode, hsha⟩ := h.tells (r := r) (by simp [hrs])
  have hlen := (Compressor.allocate_ok.mp h.fits).1
  have hfile : SessionIndex.fileOf rs = SessionIndex.entryOf r rs := by rw [hrs]; rfl
  rw [hfile]
  refine ⟨h.read, h.fits, hpath, hsize, hmode, ?_, ?_⟩
  · rw [hevp, (chunkFile_spec .fixed hlen).1, ← Hash.sha256File_eq hevp]
    exact hsha
  · refine List.forall₂_map_right_iff.mpr (h.records.imp fun chunk r hr => ?_)
    obtain ⟨sent, hsent, hstored, hdescribes⟩ := hr
    rw [← hsent.raw]
    refine ⟨?_, hdescribes⟩
    obtain ⟨_, rfl⟩ := hstored
    exact hsent.index

end FileRecorded

/-- The records of what was prepared come file by file. -/
theorem filed_of_prepared (hprepared : prepareChunks env source = .ok chunks)
    (hscan : source.scan = .ok files)
    (hpaths : files.Pairwise fun a b => compare a.relativePath b.relativePath = .lt)
    (htells : List.Forall₂ (Tells env t) chunks rs)
    (hindices : rs.Pairwise (·.globalIndex < ·.globalIndex)) :
    ∃ groups, rs = groups.flatten ∧ SessionIndex.Filed groups ∧
      List.Forall₂ (fun file group => ∃ data, FileRecorded env t file group data) files groups := by
  obtain ⟨files', sents, hscan', _, rfl, hsent⟩ := prepareChunks_ok hprepared
  cases hscan.symm.trans hscan'
  obtain ⟨groups, rfl, hgroups⟩ := htells.of_flatten
  have hfiles : List.Forall₂ (fun file group => ∃ data, FileRecorded env t file group data)
      files groups := by
    refine (hsent.comp hgroups).imp fun file group hboth => ?_
    obtain ⟨sent, ⟨data, hsent⟩, htold⟩ := hboth
    exact ⟨data, hsent.read, hsent.fits, hsent.chunks.comp htold⟩
  have hpath : ∀ g ∈ groups, ∃ file : ScannedFile, ∀ r ∈ g, r.relativePath = file.relativePath := by
    intro g hg
    obtain ⟨file, _, data, hrec⟩ := hfiles.exists_left hg
    exact ⟨file, fun r hr => (hrec.tells hr).1⟩
  refine ⟨groups, rfl, ⟨fun g hg => ?_, hindices, fun r hr => ?_, fun g hg a ha b hb => ?_,
    fun g hg => ?_, ?_⟩, hfiles⟩
  · obtain ⟨file, _, data, hrec⟩ := hfiles.exists_left hg
    exact hrec.ne
  · obtain ⟨g, hg, hr⟩ := List.mem_flatten.mp hr
    obtain ⟨file, hfile⟩ := hpath g hg
    rw [hfile r hr]
    exact file.path_ne
  · obtain ⟨file, hfile⟩ := hpath g hg
    rw [hfile a ha, hfile b hb]
  · obtain ⟨file, _, data, hrec⟩ := hfiles.exists_left hg
    exact hrec.sorted
  · refine hfiles.pairwise hpaths fun {file file' g g'} hg hg' hlt a ha b hb => ?_
    obtain ⟨data, hrec⟩ := hg
    obtain ⟨data', hrec'⟩ := hg'
    rw [(hrec.tells ha).1, (hrec'.tells hb).1]
    exact hlt

/-- What was prepared is pieces of the files. -/
theorem chunkOf_of_prepared (hprepared : prepareChunks env source = .ok chunks)
    (hscan : source.scan = .ok files) : ∀ c ∈ chunks, ChunkOf .fixed files c.raw := by
  obtain ⟨files', sents, hscan', _, rfl, hsent⟩ := prepareChunks_ok hprepared
  cases hscan.symm.trans hscan'
  intro c hc
  obtain ⟨sent, hs, hc⟩ := List.mem_flatten.mp hc
  obtain ⟨file, hfile, data, hfor⟩ := hsent.exists_left hs
  obtain ⟨chunk, hchunk, hsentfor⟩ := hfor.chunks.exists_left hc
  exact ⟨file, hfile, data, hfor.read, hsentfor.raw ▸ List.mem_map_of_mem hchunk⟩

/-- A version of the records of what was prepared describes the files that were scanned. -/
theorem Versioned.described {m : Manifest} (hevp : env.evp.Incremental)
    (hprepared : prepareChunks env source = .ok chunks) (hscan : source.scan = .ok files)
    (hpaths : files.Pairwise fun a b => compare a.relativePath b.relativePath = .lt)
    (hadded : Added env D s u) (hwithin : ∀ raw, ChunkOf .fixed files raw → D raw)
    (h : Versioned env sessionId now chunks rs u m) :
    Described env .fixed D s u files m.files ∧ m.totalInputBytes = inputBytes 0 m.files := by
  obtain ⟨groups, rfl, hfiled, hfiles⟩ := filed_of_prepared hprepared hscan hpaths h.tells h.increasing
  have hentries : m.files = groups.map SessionIndex.fileOf := by
    rw [h.made]
    exact hfiled.files
  rw [hentries]
  refine ⟨⟨hwithin, hadded, List.forall₂_map_right_iff.mpr (hfiles.imp fun file group hrec => ?_)⟩, ?_⟩
  · obtain ⟨data, hrec⟩ := hrec
    exact ⟨data, hrec.describes hevp⟩
  · rw [h.made]
    exact hfiled.totalInputBytes

/-- Two states to which the same was added hold the same objects where both have one. -/
theorem BackupEngine.Added.same {sha : Bytes} {f f' : File}
    (hcol : env.evp.NoCollision D) (h : Added env D s t) (h' : Added env D s u)
    (hf : t.leaf? (ObjectStore.pathOf sha) = some f)
    (hf' : u.leaf? (ObjectStore.pathOf sha) = some f') : f.data = f'.data := by
  have hin := ObjectStore.inObjects_pathOf sha
  rcases h.new sha f hf with hold | ⟨raw, hr, hsha, hc⟩
  · rw [h'.kept _ f hin hold, Option.some.injEq] at hf'
    rw [hf']
  rcases h'.new sha f' hf' with hold | ⟨raw', hr', hsha', hc'⟩
  · rw [h.kept _ f' hin hold, Option.some.injEq] at hf
    rw [hf]
  · cases hcol raw raw' hr hr' (hsha.symm.trans hsha')
    rw [hc] at hc'
    exact Except.ok.inj hc'

theorem BackupEngine.Describes.unique {data : Bytes} {ref ref' : ChunkRef}
    (hcol : env.evp.NoCollision D) (ha : Added env D s t) (ha' : Added env D s u)
    (hindex : ref.chunkIndex = ref'.chunkIndex) (h : Describes env t data ref)
    (h' : Describes env u data ref') : ref = ref' := by
  have hsha := h.sha.trans h'.sha.symm
  obtain ⟨f, hf, hsize, _⟩ := h.file
  obtain ⟨f', hf', hsize', _⟩ := h'.file
  rw [← hsha] at hf'
  have hsame := ha.same hcol ha' hf hf'
  have hraw := h.rawSize.trans h'.rawSize.symm
  have hpath : ref.objectPath = ref'.objectPath := by rw [h.path, h'.path, hsha]
  have hstored : ref.compressedSize = ref'.compressedSize := by rw [hsize, hsize', hsame]
  cases ref
  cases ref'
  cases hindex
  cases hsha
  cases hraw
  cases hpath
  cases hstored
  rfl

/-- The files of a scan determine their entries, whatever added the objects. -/
theorem BackupEngine.Described.unique (hcol : env.evp.NoCollision D)
    (h : Described env mode D s t files entered) (h' : Described env mode D s u files entered') :
    entered = entered' := by
  refine h.files.unique h'.files fun scanned file file' _ hd hd' => ?_
  obtain ⟨data, hd⟩ := hd
  obtain ⟨data', hd'⟩ := hd'
  cases hd.read_eq.symm.trans hd'.read_eq
  have hpath := hd.path_eq.trans hd'.path_eq.symm
  have hsize := Except.ok.inj (hd.size_eq.symm.trans hd'.size_eq)
  have hmode := Except.ok.inj (hd.mode_eq.symm.trans hd'.mode_eq)
  have hsha := hd.sha_eq.trans hd'.sha_eq.symm
  have hchunks : file.chunks = file'.chunks :=
    hd.chunks.unique hd'.chunks fun chunk ref ref' _ hr hr' =>
      hr.2.unique hcol h.added h'.added (hr.1.trans hr'.1.symm) hr'.2
  cases file
  cases file'
  cases hpath
  cases hsize
  cases hmode
  cases hsha
  cases hchunks
  rfl

/-- Where all uploads prepared the same, the session has a part of it. -/
theorem Left.first_part {cs : List PreparedChunk} (h : Left env sessionId D s attempts t cs rs)
    (hsame : ∀ cs ∈ attempts, cs = chunks) : cs <+: chunks := by
  refine List.prefix_iff_getElem?.mpr fun k hk => ?_
  have hget := List.getElem?_eq_getElem hk
  obtain ⟨chunks', hin, hc⟩ := h.places k _ hget
  rw [hsame chunks' hin] at hc
  exact hc

/-- What an acknowledged upload of a scan has made, after any uploads of the same. -/
theorem versioned_of_attempts (hsession : sessionId ≠ [])
    (hfresh : SessionIndex.textOf s sessionId = []) (h : Attempts env sessionId D s attempts t)
    (hsame : ∀ cs ∈ attempts, cs = chunks) (hprepared : prepareChunks env source = .ok chunks)
    (hcount : chunks.length < 2 ^ 64) (hscan : source.scan = .ok files)
    (hx : (upload env now source sessionId exitAfter).exec t = (.ok (some text), u)) :
    ∃ rs m, text = commitText m.version ∧ Versioned env sessionId now chunks rs u m ∧
      Added env (fun raw => D raw ∨ ChunkOf .fixed files raw) s u := by
  obtain ⟨cs, rs, hleft⟩ := h.left hsession hfresh
  obtain ⟨_, rs', m, htext, hversioned, hadded⟩ := hleft.acked hsession hprepared hcount hx
  obtain ⟨rest, rfl⟩ := hleft.first_part hsame
  rw [List.drop_left] at hversioned
  refine ⟨rs', m, htext, hversioned, hadded.mono fun raw hraw => hraw.imp_right fun hraw => ?_⟩
  have hchunks := chunkOf_of_prepared hprepared hscan
  obtain ⟨cs', hin, c, hc, rfl⟩ := hraw
  rcases List.mem_append.mp hin with hin | hin
  · exact hchunks c (hsame cs' hin ▸ hc)
  · exact hchunks c (List.mem_singleton.mp hin ▸ hc)

/-- A version of a session is loaded where its files are those of a directory. -/
theorem Versioned.exec_load {m : Manifest} {cs : List PreparedChunk}
    (hcount : m.files.length < 2 ^ 64) (hd : Described env .fixed D s u files m.files)
    (h : Versioned env sessionId now cs rs u m) (he : BackedFiles env u w base m.files) :
    (load m.version).exec u = (.ok m, u) := by
  obtain ⟨f, hf, hdata⟩ := h.manifest
  obtain ⟨marker, hmarker⟩ := Option.isSome_iff_exists.mp h.marker
  have hprint : Printable m := by
    refine ⟨?_, fun file hf => ?_, hcount⟩
    · have hne : ascii "network-session:" ≠ [] := by decide
      rw [h.made]
      exact List.append_ne_nil_of_left_ne_nil hne sessionId
    · obtain ⟨scanned, _, data, hdesc⟩ := hd.files.exists_left hf
      exact hdesc.printable.1
  have hwell : ∀ file ∈ m.files, WellFormedFile file := by
    intro file hf
    obtain ⟨scanned, _, data, hdesc⟩ := hd.files.exists_left hf
    rw [hdesc.printable.2, ← hdesc.path_eq]
    exact he.safePath hf
  refine load_of hmarker hf ?_
  rw [hdata]
  exact (parse_serialize_iff hprint).mpr ⟨rfl, hwell⟩

theorem plain_noCollision_beside : letterEnv.evp.NoCollision fun raw => False ∨
    Involved letterEnv emptyRepo .fixed (.ofWorld plainWorld [ascii "data"]) raw :=
  fun a b ha hb => plain_noCollision a b (ha.resolve_left id) (hb.resolve_left id)

/-- The version that an acknowledged upload has made, after any uploads of the same directory and
whatever others have added, has the files that a backup of the directory makes from the state where
the first of them began. -/
theorem interrupted_upload_is_backup {fault : FaultStage} {r : BackupResult}
    (hevp : env.evp.Incremental)
    (hcol : env.evp.NoCollision fun raw => D raw ∨ Involved env s .fixed (.ofWorld w root) raw)
    (hbase : w.canonical root = .ok base) (hlinks : ∀ p ∈ accepted w base, ¬IsLink w p)
    (hsession : sessionId ≠ []) (hfresh : SessionIndex.textOf s sessionId = [])
    (h : Attempts env sessionId D s attempts t) (hsame : ∀ cs ∈ attempts, cs = chunks)
    (hprepared : prepareChunks env (.ofWorld w root) = .ok chunks) (hcount : chunks.length < 2 ^ 64)
    (hx : (upload env now (.ofWorld w root) sessionId exitAfter).exec t = (.ok (some text), u))
    (hc : (create env now' fault (.ofWorld w root) .fixed).exec s = (.ok r, v)) :
    ∃ m m' f f', text = commitText m.version ∧ u.leaf? (manifestPath m.version) = some f ∧
      f.data = serialize m ∧ r.version = m'.version ∧
      v.leaf? (manifestPath m'.version) = some f' ∧ f'.data = serialize m' ∧
      m.files = m'.files ∧ m.totalInputBytes = m'.totalInputBytes := by
  obtain ⟨m', hr, hcreated⟩ := create_ok hc
  obtain ⟨files, hscan, hmade⟩ := hcreated.described
  obtain ⟨rs, m, htext, hversioned, hadded⟩ :=
    versioned_of_attempts hsession hfresh h hsame hprepared hcount hscan hx
  obtain ⟨hd, htotal⟩ := hversioned.described hevp hprepared hscan
    (scan_increasing hscan hbase hlinks) hadded fun _ => .inr
  have hd' : Described env .fixed (fun raw => D raw ∨ ChunkOf .fixed files raw) s v files m'.files :=
    ⟨fun _ => .inr, hmade.added.mono fun _ => .inr, hmade.files⟩
  have hinvolved : ∀ raw, D raw ∨ ChunkOf .fixed files raw →
      D raw ∨ Involved env s .fixed (.ofWorld w root) raw := fun raw hr =>
    hr.imp_right fun hc => .of_chunkOf hscan (.inl hc)
  have hentries := hd.unique (fun a b ha hb => hcol a b (hinvolved a ha) (hinvolved b hb)) hd'
  obtain ⟨f, hf, hdata⟩ := hversioned.manifest
  obtain ⟨f', hf', hdata'⟩ := hcreated.manifest
  obtain ⟨b, hbuilt, _⟩ := hcreated.built
  obtain ⟨_, _, _, _, hm'⟩ := hbuilt.files
  have htotal' : m'.totalInputBytes = inputBytes 0 m'.files := congrArg Manifest.totalInputBytes hm'
  exact ⟨m, m', f, f', htext, hf, hdata, hr, hf', hdata', hentries, by rw [htotal, htotal', hentries]⟩

theorem interrupted_plain_is_backup : ∃ m m' u v f f',
    (upload letterEnv 1700000001 plainSource (ascii "s") 0).exec firstTry =
      (.ok (some (commitText m.version)), u) ∧
    (create letterEnv 1700000000 .none plainSource .fixed).exec emptyRepo =
      (.ok ⟨1, 1, 1, 10, 1, 1, 0⟩, v) ∧
    u.leaf? (manifestPath m.version) = some f ∧ f.data = serialize m ∧
    v.leaf? (manifestPath m'.version) = some f' ∧ f'.data = serialize m' ∧
    m.files = m'.files ∧ m.totalInputBytes = m'.totalInputBytes := by
  have hcreate : ((create letterEnv 1700000000 .none plainSource .fixed).exec emptyRepo).1 =
      .ok ⟨1, 1, 1, 10, 1, 1, 0⟩ := by decide +kernel
  obtain ⟨m, m', f, f', htext, hf, hdata, _, hf', hdata', hfiles, htotal⟩ :=
    interrupted_upload_is_backup Evp.ofTable_incremental plain_noCollision_beside base_plain
      links_plain (by decide) (by decide) attempts_plain same_plain prepared_plain count_plain
      (Prog.exec_of_fst second_try) (Prog.exec_of_fst hcreate)
  exact ⟨m, m', _, _, f, f', htext ▸ Prog.exec_of_fst second_try, Prog.exec_of_fst hcreate, hf, hdata,
    hf', hdata', hfiles, htotal⟩

end Dpc
