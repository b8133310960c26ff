import Dpc.Core.FailureFacts
import Dpc.Core.RawFrames
import Dpc.Core.Readers
import Dpc.Guarantees.Snapshots
import Dpc.Lib.Footprint

namespace Dpc
open Text FileTree Effects ManifestStore ObjectStore

variable {env : Env} {s t m a : Fs} {q : Path} {v : UInt64} {vs : List UInt64}

/-- Only directories of the layout are new. -/
def OnlyLayout (s m : Fs) : Prop :=
  ∀ q, m.get? q = s.get? q ∨ s.get? q = none ∧ m.get? q = some .dir ∧ ∃ d ∈ layoutDirs, q <+: d

/-- What a recovery that succeeds leaves. -/
structure Recovers (env : Env) (s t : Fs) (vs : List UInt64) : Prop where
  nameMax : t.nameMax = s.nameMax
  fits : ∀ d ∈ layoutDirs, ∀ n ∈ d, badName s.nameMax n = false
  dirs : ∀ d ∈ layoutDirs, t.get? d = some .dir
  readable : ∃ records, (WalLog.readAll.exec t).1 = .ok records
  kept : ∀ q, q.dropLast ≠ tmpDir → q ≠ Checkpoint.path → t.get? q = s.get? q ∨
    s.get? q = none ∧ t.get? q = some .dir ∧ ∃ d ∈ layoutDirs, q <+: d
  tmp : ∀ n, t.leaf? (tmpDir ++ [n]) = none
  lists : listCommittedVersions.exec t = (.ok vs, t)
  checkpoint : t.leaf? Checkpoint.path =
    some ⟨Checkpoint.text (Checkpoint.ofVersions vs), 0o644 &&& 0o7777 &&& ~~~env.umask⟩
  room : crowded t.nameMax (ascii "checkpoint.dat") = false

theorem layout_only (h : ensureLayout.exec s = (.ok (), m)) :
    OnlyLayout s m ∧ m.nameMax = s.nameMax ∧ (∀ d ∈ layoutDirs, m.get? d = some .dir) ∧
      ∀ d ∈ layoutDirs, ∀ n ∈ d, badName s.nameMax n = false := by
  obtain ⟨hlaid, hgrown, _, hother⟩ := ensureLayout_ok h
  refine ⟨fun q => ?_, hgrown.nameMax, ?_, fun d hd => (hlaid d hd).2⟩
  · by_cases hq : ∃ d ∈ layoutDirs, q <+: d
    · rcases hgrown.get? q with hsame | ⟨hnone, hdir⟩
      · exact .inl hsame
      · exact .inr ⟨hnone, hdir, hq⟩
    · refine .inl (hother q fun d hd hp => hq ⟨d, hd, hp⟩)
  · simp only [ensureLayout, Prog.bind_eq] at h
    obtain ⟨_, a, ha, h⟩ := Prog.exec_bind_ok h
    obtain ⟨_, b, hb, h⟩ := Prog.exec_bind_ok h
    obtain ⟨_, c, hc, h⟩ := Prog.exec_bind_ok h
    rw [FileUtils.ensureDirectory_iff] at ha hb hc h
    have h1 := (Tree.mkdirs_ok ha).2
    have h2 := (Tree.mkdirs_ok hb).2
    have h3 := (Tree.mkdirs_ok hc).2
    have gb := (Tree.mkdirs_ok hb).1
    have gc := (Tree.mkdirs_ok hc).1
    have gm := (Tree.mkdirs_ok h).1
    simp only [layoutDirs, List.forall_mem_cons, List.not_mem_nil, false_imp_iff, implies_true,
      and_true]
    exact ⟨gm.dir (gc.dir (gb.dir h1)), gm.dir (gc.dir h2), gm.dir h3, (Tree.mkdirs_ok h).2⟩

/-- The loop over the temporary files. -/
theorem removeFiles_ok {dir : Path} {names : List Name} {u : Unit}
    (h : (RecoveryManager.removeFiles dir names).exec s = (.ok u, t)) :
    t.nameMax = s.nameMax ∧
      ∀ q, t.get? q = if ∃ n ∈ names, q = dir ++ [n] then none else s.get? q := by
  induction names generalizing s with
  | nil =>
    cases h
    exact ⟨rfl, fun q => by simp⟩
  | cons name names ih =>
    simp only [RecoveryManager.removeFiles, Prog.bind_eq] at h
    obtain ⟨_, a, ha, h⟩ := Prog.exec_bind_ok h
    obtain ⟨hmax, _, hget⟩ := FsEffect.remove_ok (Prog.exec_perform_ok ha)
    obtain ⟨hmax', hget'⟩ := ih h
    refine ⟨hmax'.trans hmax, fun q => ?_⟩
    rw [hget', hget]
    by_cases hq : q = dir ++ [name]
    · simp [hq]
    · simp [hq]

/-- The temporary files are gone, and nothing else. -/
theorem removeTmpFiles_ok {n : UInt64} (hd : s.get? tmpDir = some .dir)
    (h : RecoveryManager.removeTmpFiles.exec s = (.ok n, t)) :
    t.nameMax = s.nameMax ∧ (∀ n, t.leaf? (tmpDir ++ [n]) = none) ∧
      (∀ q, q.dropLast ≠ tmpDir → t.get? q = s.get? q) ∧
      ∀ q, s.get? q = some .dir → t.get? q = some .dir := by
  have hdir : ∀ q, s.get? q = some .dir → t.get? q = some .dir := by
    intro q hq
    have := exec_dir RecoveryManager.removeTmpFiles hq
    rwa [h] at this
  have hnames : (FileUtils.regularFiles tmpDir).exec s = (.ok (s.leafNames tmpDir), s) := by
    rw [FileUtils.regularFiles, Prog.exec_query, hd]
  simp only [RecoveryManager.removeTmpFiles, Prog.bind_eq] at h
  rw [Prog.exec_bind_of_ok (FileUtils.exec_pathExists_dir hd), if_pos rfl,
    Prog.exec_bind_of_ok hnames] at h
  obtain ⟨_, m, hm, h⟩ := Prog.exec_bind_ok h
  cases h
  obtain ⟨hmax, hget⟩ := removeFiles_ok hm
  refine ⟨hmax, fun n => ?_, fun q hq => ?_, hdir⟩
  · by_cases hn : n ∈ s.leafNames tmpDir
    · exact Tree.leaf?_eq_none_of_none (by rw [hget, if_pos ⟨n, hn, rfl⟩])
    · have hsame : t.get? (tmpDir ++ [n]) = s.get? (tmpDir ++ [n]) := by
        rw [hget, if_neg]
        intro hc
        obtain ⟨x, hx, he⟩ := hc
        simp only [List.append_cancel_left_eq, List.cons.injEq, and_true] at he
        exact hn (he ▸ hx)
      rw [FsEffect.leaf?_of_get? hsame, ← Option.not_isSome_iff_eq_none, Option.isSome_iff_exists]
      exact fun hx => hn (Tree.mem_leafNames.mpr hx)
  · rw [hget, if_neg]
    intro hc
    obtain ⟨x, _, he⟩ := hc
    refine hq ?_
    rw [he, List.dropLast_concat]

/-- A checkpoint puts one file. -/
theorem writeCheckpoint_ok (hd : s.get? [ascii "metadata"] = some .dir)
    (h : (writeCheckpoint env).exec s = (.ok vs, t)) :
    listCommittedVersions.exec s = (.ok vs, s) ∧ Tree.Put s t Checkpoint.path
      ⟨Checkpoint.text (Checkpoint.ofVersions vs), 0o644 &&& 0o7777 &&& ~~~env.umask⟩ ∧
      crowded s.nameMax (ascii "checkpoint.dat") = false := by
  simp only [writeCheckpoint, Checkpoint.write, FileUtils.writeTextAtomic, FileUtils.writeFileAtomic,
    Prog.bind_eq] at h
  obtain ⟨ws, a, hlist, h'⟩ := Prog.exec_bind_ok h
  have ha := (listCommittedVersions_ok hlist).1
  rw [ha] at hlist h'
  have hmk : (FileUtils.ensureDirectory Checkpoint.path.dropLast).exec s = (.ok (), s) :=
    FileUtils.ensureDirectory_iff.mpr (Tree.mkdirs_of_dir hd)
  rw [Prog.bind_assoc', Prog.exec_bind_of_ok hmk] at h'
  obtain ⟨_, b, hput, hlast⟩ := Prog.exec_bind_ok h'
  cases hlast
  have ha := Prog.exec_perform_ok hput
  exact ⟨hlist, FsEffect.replace_ok ha, FsEffect.replace_room ha⟩

theorem metadata_dir (h : ∀ d ∈ layoutDirs, s.get? d = some .dir) :
    s.get? [ascii "metadata"] = some .dir := by
  have hd := h [ascii "metadata", ascii "sessions"] (by simp [layoutDirs])
  exact s.dir_of_prefix (List.cons_ne_nil (ascii "sessions") []) (by rw [List.singleton_append, hd]; simp)

theorem pathExists_alike {p : Path} (h : t.status p = s.status p) :
    Prog.Alike s t (FileUtils.pathExists p) := by
  refine Prog.Alike.query ?_
  rw [h]

theorem readFile_alike {p : Path} (h : t.get? p = s.get? p) :
    Prog.Alike s t (FileUtils.readFile p) := by
  refine Prog.Alike.query ?_
  rw [h]

theorem readAll_alike (hs : t.status WalLog.walPath = s.status WalLog.walPath)
    (hg : t.get? WalLog.walPath = s.get? WalLog.walPath) : Prog.Alike s t WalLog.readAll := by
  simp only [WalLog.readAll, Prog.bind_eq]
  refine (pathExists_alike hs).bind fun there _ => ?_
  split
  · exact (readFile_alike hg).bind fun data _ => .ofExcept _
  · exact .ofExcept (.ok [])

theorem readAll_snd (s : Fs) : (WalLog.readAll.exec s).2 = s :=
  (readAll_alike (s := s) rfl rfl).left

/-- Two trees in which the committed data are the same. -/
structure Same (s t : Fs) : Prop where
  nameMax : t.nameMax = s.nameMax
  names : ∀ n : Name, n ≠ [] → n.length ≤ 255 → badName s.nameMax n = false
  get? : ∀ q, 2 ≤ q.length →
    (q.head? = some (ascii "manifests") ∨ q.head? = some (ascii "objects")) → t.get? q = s.get? q

theorem Same.status (h : Same s t) {p : Path} (hp : ∀ n ∈ p, n ≠ [] ∧ n.length ≤ 255)
    (hg : t.get? p = s.get? p) : t.status p = s.status p := by
  rw [FileUtils.status_of_fits fun n hn => h.names n (hp n hn).1 (hp n hn).2,
    FileUtils.status_of_fits fun n hn => by rw [h.nameMax]; exact h.names n (hp n hn).1 (hp n hn).2, hg]

theorem length_versionFileName (v : UInt64) :
    versionFileName v ".commit" ≠ [] ∧ (versionFileName v ".commit").length ≤ 255 := by
  have h8 : (ascii "version-").length = 8 := by decide
  have h7 : (ascii ".commit").length = 7 := by decide
  have hnumber : (number v).length ≤ 20 :=
    (length_decimal_le (by decide)).mpr (Nat.lt_trans v.toNat_lt (by decide))
  constructor
  · intro h
    have := congrArg List.length h
    simp [versionFileName, h8] at this
  · simp only [versionFileName, zeroPadVersion, List.leftpad, List.length_append,
      List.length_replicate, h8, h7]
    omega

theorem isCommitted_alike (h : Same s t) : Prog.Alike s t (isCommitted v) := by
  refine pathExists_alike (h.status ?_ (h.get? (commitPath v) (Nat.le_refl 2) (.inl rfl)))
  intro n hn
  simp only [commitPath, manifestsDir, List.singleton_append, List.mem_cons, List.not_mem_nil,
    or_false] at hn
  rcases hn with rfl | rfl
  · exact ⟨by decide, by decide⟩
  · exact length_versionFileName v

theorem load_alike (h : Same s t) : Prog.Alike s t (ManifestStore.load v) := by
  simp only [ManifestStore.load, FileUtils.readTextFile, Prog.bind_eq]
  refine (isCommitted_alike h).bind fun there _ => ?_
  split
  · exact (readFile_alike (h.get? (manifestPath v) (Nat.le_refl 2) (.inl rfl))).bind fun text _ => .ofExcept _
  · exact .ofExcept (.error _)

theorem readRaw_alike (h : Same s t) (sha objectPath : Bytes) :
    Prog.Alike s t (readRaw env sha objectPath) := by
  simp only [readRaw, Prog.bind_eq]
  refine Prog.Alike.bind_ofExcept fun expected hexpected => ?_
  obtain ⟨hsha, rfl⟩ := objectPathForHash_ok hexpected
  split
  · exact .ofExcept (.error _)
  rename_i hpath
  rw [not_not.mp hpath, absoluteObjectPath_textOf hsha]
  refine Prog.Alike.bind_ofExcept fun p hp => ?_
  cases hp
  have hget : t.get? (pathOf sha) = s.get? (pathOf sha) := h.get? _ (by decide : 2 ≤ 3) (.inr rfl)
  have hlen : sha.length = 64 := by
    rw [Hash.isSha256Hex, Bool.and_eq_true, beq_iff_eq] at hsha
    exact hsha.1
  have hnames : ∀ n ∈ pathOf sha, n ≠ [] ∧ n.length ≤ 255 := by
    intro n hn
    simp only [pathOf, List.mem_cons, List.not_mem_nil, or_false] at hn
    have h4 : (ascii ".zst").length = 4 := by decide
    rcases hn with rfl | rfl | rfl
    · exact ⟨by decide, by decide⟩
    · refine ⟨fun he => ?_, by rw [List.length_take]; omega⟩
      have := congrArg List.length he
      rw [List.length_take, hlen] at this
      contradiction
    · refine ⟨fun he => ?_, by rw [List.length_append, h4]; omega⟩
      have := congrArg List.length he
      rw [List.length_append, hlen, h4] at this
      contradiction
  refine (pathExists_alike (h.status hnames hget)).bind fun there _ => ?_
  split
  · refine (readFile_alike hget).bind fun compressed _ => ?_
    refine Prog.Alike.bind_ofExcept fun raw _ => ?_
    split
    · exact .ofExcept (.error _)
    · exact .ofExcept (.ok _)
  · exact .ofExcept (.error _)

theorem verifyChunks_alike (h : Same s t) {path : Bytes} {hash : env.evp.Ctx} {n : UInt64}
    {refs : List ChunkRef} : Prog.Alike s t (VerifyEngine.verifyChunks env path hash n refs) := by
  induction refs generalizing hash n with
  | nil => exact .ofExcept (.ok _)
  | cons ref refs ih =>
    simp only [VerifyEngine.verifyChunks, Prog.bind_eq]
    refine (readRaw_alike h _ _).bind fun raw _ => ?_
    split
    · exact .ofExcept (.error _)
    · split
      · exact .ofExcept (.error _)
      · exact ih

theorem verifyFiles_alike (h : Same s t) {files : List FileManifest} :
    Prog.Alike s t (VerifyEngine.verifyFiles env files) := by
  induction files with
  | nil => exact .ofExcept (.ok ())
  | cons file files ih =>
    simp only [VerifyEngine.verifyFiles, VerifyEngine.verifyFile, Prog.bind_eq]
    refine Prog.Alike.bind ((verifyChunks_alike h).bind fun chunks _ => ?_) fun _ _ => ih
    split
    · exact .ofExcept (.error _)
    · split
      · exact .ofExcept (.error _)
      · exact .ofExcept (.ok ())

theorem verify_alike (h : Same s t) : Prog.Alike s t (VerifyEngine.verify env v) := by
  simp only [VerifyEngine.verify, Prog.bind_eq]
  exact (load_alike h).bind fun m _ => verifyFiles_alike h

theorem assemble_alike (h : Same s t) {path acc : Bytes} {refs : List ChunkRef} :
    Prog.Alike s t (RestoreEngine.assemble env path acc refs) := by
  induction refs generalizing acc with
  | nil => exact .ofExcept (.ok _)
  | cons ref refs ih =>
    simp only [RestoreEngine.assemble, Prog.bind_eq]
    refine (readRaw_alike h _ _).bind fun raw _ => ?_
    split
    · exact .ofExcept (.error _)
    · exact ih

theorem readFile_file_alike (h : Same s t) {file : FileManifest} :
    Prog.Alike s t (RestoreEngine.readFile env file) := by
  simp only [RestoreEngine.readFile, Prog.bind_eq]
  refine Prog.Alike.bind_ofExcept fun _ _ => (assemble_alike h).bind fun bytes _ => ?_
  split
  · exact .ofExcept (.error _)
  · split
    · exact .ofExcept (.error _)
    · exact .ofExcept (.ok _)

/-- A restore from either tree does the same to whatever target. -/
theorem restore_eq (h : Same s t) : RestoreEngine.restore env t v = RestoreEngine.restore env s v := by
  have hfiles : ∀ files, RestoreEngine.restoreFiles env t files =
      RestoreEngine.restoreFiles env s files := by
    intro files
    induction files with
    | nil => rfl
    | cons file files ih =>
      simp only [RestoreEngine.restoreFiles, RestoreEngine.restoreFile, RestoreEngine.fromRepo]
      rw [(readFile_file_alike h).same, ih]
  simp only [RestoreEngine.restore, RestoreEngine.fromRepo]
  rw [(load_alike h).same]
  simp only [hfiles]

theorem names_of_layout (h : ∀ d ∈ layoutDirs, ∀ n ∈ d, badName s.nameMax n = false) {p : Path}
    (hp : ∀ n ∈ p, n ≠ [] ∧ n.length ≤ 9) : ∀ n ∈ p, badName s.nameMax n = false := by
  have hlong : badName s.nameMax (ascii "manifests") = false :=
    h [ascii "manifests"] (by simp [layoutDirs]) _ (List.mem_singleton_self _)
  have h9 : (ascii "manifests").length = 9 := by decide
  intro n hn
  exact badName_of_shorter hlong (hp n hn).1 (by rw [h9]; exact (hp n hn).2)

/-- Where the directory of the manifests is there or is not, the versions are listed. -/
theorem lists_of_layout (hname : badName s.nameMax (ascii "manifests") = false)
    (hd : s.get? manifestsDir = none ∨ s.get? manifestsDir = some .dir) (hp : Parses s) :
    ∃ vs, listCommittedVersions.exec s = (.ok vs, s) := by
  rcases hd with hd | hd
  · have hstatus : s.status manifestsDir = .ok none := by
      rw [FileUtils.status_of_fits, hd]
      intro n hn
      rw [List.mem_singleton.mp hn]
      exact hname
    have hexists : (FileUtils.pathExists manifestsDir).exec s = (.ok false, s) := by
      rw [FileUtils.pathExists, Prog.exec_query, hstatus]
      rfl
    refine ⟨[], ?_⟩
    simp only [listCommittedVersions, Prog.bind_eq]
    rw [Prog.exec_bind_of_ok hexists]
    rfl
  · exact listCommittedVersions_succeeds hd hp

theorem parses_congr (h : ∀ name, t.leaf? (manifestsDir ++ [name]) = s.leaf? (manifestsDir ++ [name]))
    (hp : Parses s) : Parses t := by
  intro name hname
  rw [h] at hname
  exact hp name hname

theorem recover_ok {r : RecoveryReport} (h : (RecoveryManager.recover env).exec s = (.ok r, t)) :
    ∃ vs, Recovers env s t vs := by
  simp only [RecoveryManager.recover, Prog.bind_eq] at h
  obtain ⟨_, m, hm, hrest⟩ := Prog.exec_bind_ok h
  obtain ⟨records, m', hread, hrest⟩ := Prog.exec_bind_ok hrest
  have hsame : m' = m := by rw [← readAll_snd m, hread]
  rw [hsame] at hread hrest
  obtain ⟨n, b, hb, hrest⟩ := Prog.exec_bind_ok hrest
  obtain ⟨vs, t', ht, hlast⟩ := Prog.exec_bind_ok hrest
  cases hlast
  obtain ⟨honly, hmax, hdirs, hfits⟩ := layout_only hm
  obtain ⟨hmax', htmp, hother, hkeep⟩ := removeTmpFiles_ok (hdirs tmpDir (by simp [layoutDirs, tmpDir])) hb
  have hdirs' : ∀ d ∈ layoutDirs, b.get? d = some .dir := fun d hd => hkeep d (hdirs d hd)
  obtain ⟨hlist, hput, hroom⟩ := writeCheckpoint_ok (metadata_dir hdirs') ht
  obtain ⟨hmem, hle, hn, hparses⟩ := (listCommittedVersions_ok hlist).2
  have hleaf : ∀ q, q ≠ Checkpoint.path → t.leaf? q = b.leaf? q := fun q hq => by
    rw [hput.leaf?, if_neg hq]
  have hlisted : ∀ v, Listed t v ↔ Listed b v := fun v =>
    listed_congr (hleaf _ (commit_ne_checkpoint v))
  have hparses' : Parses t := parses_congr (fun name => hleaf _ (ne_of_head
    (show some (ascii "manifests") ≠ some (ascii "metadata") by decide))) hparses
  refine ⟨vs, ⟨hput.nameMax.trans (hmax'.trans hmax), hfits, fun d hd => hput.dir (hdirs' d hd), ?_, ?_,
    ?_, ?_, ?_, ?_⟩⟩
  · have hwal : t.get? WalLog.walPath = m.get? WalLog.walPath := by
      rw [hput.get?, if_neg (by decide), hother _ (by decide)]
    have hstatus : t.status WalLog.walPath = m.status WalLog.walPath := by
      have hm : ∀ n ∈ WalLog.walPath, badName m.nameMax n = false :=
        names_of_layout (hmax ▸ hfits) (by decide)
      rw [FileUtils.status_of_fits hm, FileUtils.status_of_fits, hwal]
      rwa [hput.nameMax, hmax']
    refine ⟨records, ?_⟩
    rw [(readAll_alike hstatus hwal).same, hread]
  · intro q hq hc
    rw [hput.get?, if_neg hc, hother q hq]
    exact honly q
  · intro n
    rw [hleaf (tmpDir ++ [n]) (ne_of_head
      (show some (ascii "tmp") ≠ some (ascii "metadata") by decide)), htmp]
  · obtain ⟨ws, hws⟩ := listCommittedVersions_succeeds (hput.dir (hdirs' manifestsDir
      (by simp [layoutDirs, manifestsDir]))) hparses'
    have heq := (listedAs_of_exec hws).unique ((listedAs_of_exec hlist).congr hlisted)
    rwa [heq] at hws
  · rw [hput.leaf?, if_pos rfl]
  · rwa [hput.nameMax]

/-- What is committed is read as before. -/
theorem Recovers.same (h : Recovers env s t vs) (hname : ∀ k ∈ s.nameMax.limit, 255 ≤ k) : Same s t where
  nameMax := h.nameMax
  names n hn hlen := by
    simp only [badName, Bool.or_eq_false_iff, List.isEmpty_eq_false_iff, Option.any_eq_false]
    refine ⟨hn, fun k hk => ?_⟩
    have := hname k hk
    simp
    omega
  get? q hlen hq := by
    obtain ⟨a, q, rfl⟩ := List.exists_cons_of_length_pos (Nat.zero_lt_of_lt hlen)
    obtain ⟨b, rest, rfl⟩ := List.exists_cons_of_length_pos (Nat.lt_of_succ_lt_succ hlen)
    rw [List.head?_cons, Option.some.injEq, Option.some.injEq] at hq
    have htmp : (a :: b :: rest).dropLast ≠ tmpDir := by
      intro he
      have hhead : a = ascii "tmp" := (List.cons.inj (List.dropLast_cons_cons ▸ he)).1
      rcases hq with hq | hq
      · exact absurd (hq.symm.trans hhead) (by decide)
      · exact absurd (hq.symm.trans hhead) (by decide)
    have hmeta : a ≠ ascii "metadata" := by
      rcases hq with rfl | rfl
      · decide
      · decide
    rcases h.kept _ htmp fun he => hmeta (List.cons.inj he).1 with hsame | ⟨_, _, d, hd, hp⟩
    · exact hsame
    · simp only [layoutDirs, objectsDir, List.mem_cons, List.not_mem_nil, or_false] at hd
      rcases hd with rfl | rfl | rfl | rfl
      · exact absurd hp.length_le (by simp)
      · exact absurd hp.length_le (by simp)
      · exact absurd (List.cons_prefix_cons.mp hp).1 hmeta
      · exact absurd hp.length_le (by simp)

/-- What is committed has the same outcome whoever reads it. -/
structure Undisturbed (env : Env) (s t : Fs) : Prop where
  lists : (listCommittedVersions.exec t).1 = (listCommittedVersions.exec s).1
  load : ∀ v, ((ManifestStore.load v).exec t).1 = ((ManifestStore.load v).exec s).1
  verify : ∀ v, ((VerifyEngine.verify env v).exec t).1 = ((VerifyEngine.verify env v).exec s).1
  restore : ∀ v, RestoreEngine.restore env t v = RestoreEngine.restore env s v

theorem Recovers.undisturbed (h : Recovers env s t vs) (hname : ∀ k ∈ s.nameMax.limit, 255 ≤ k) :
    Undisturbed env s t := by
  have hsame := h.same hname
  refine ⟨?_, fun v => (load_alike hsame).same, fun v => (verify_alike hsame).same,
    fun v => restore_eq hsame⟩
  have hleaf : ∀ name, s.leaf? (manifestsDir ++ [name]) = t.leaf? (manifestsDir ++ [name]) := fun name =>
    FsEffect.leaf?_of_get? (hsame.get? (manifestsDir ++ [name]) (Nat.le_refl 2) (.inl rfl)).symm
  have hmanifests : manifestsDir ∈ layoutDirs := by simp [layoutDirs, manifestsDir]
  have hdir : s.get? manifestsDir = none ∨ s.get? manifestsDir = some .dir := by
    rcases h.kept manifestsDir (by decide) (by decide) with hd | hd
    · exact .inr (hd.symm.trans (h.dirs _ hmanifests))
    · exact .inl hd.1
  have hparses := (listCommittedVersions_ok h.lists).2.2.2.2
  obtain ⟨ws, hws⟩ := lists_of_layout (h.fits _ hmanifests _ (List.mem_singleton_self _)) hdir
    (parses_congr hleaf hparses)
  have heq := (listedAs_of_exec hws).unique
    ((listedAs_of_exec h.lists).congr fun v => listed_congr (hleaf _))
  rw [h.lists, hws, heq]

/-- What recovery leaves stays as it is. -/
structure Tidied (env : Env) (t : Fs) : Prop where
  checkpoint : ∃ vs, listCommittedVersions.exec t = (.ok vs, t) ∧
    Checkpoint.load.exec t = (.ok (Checkpoint.ofVersions vs), t)
  tmp : ∀ n, t.leaf? (tmpDir ++ [n]) = none
  again : ∃ r u, (RecoveryManager.recover env).exec t = (.ok r, u) ∧ ∀ q, u.get? q = t.get? q

theorem Recovers.tidied (h : Recovers env s t vs) : Tidied env t := by
  refine ⟨⟨vs, h.lists, Checkpoint.exec_load h.checkpoint rfl⟩, h.tmp, ?_⟩
  have hmake : ∀ d ∈ layoutDirs, (FileUtils.ensureDirectory d).exec t = (.ok (), t) := fun d hd =>
    FileUtils.ensureDirectory_iff.mpr (Tree.mkdirs_of_dir (h.dirs d hd))
  have hlayout : ensureLayout.exec t = (.ok (), t) := by
    simp only [layoutDirs, List.forall_mem_cons] at hmake
    simp only [ensureLayout, Prog.bind_eq]
    rw [Prog.exec_bind_of_ok hmake.1, Prog.exec_bind_of_ok hmake.2.1, Prog.exec_bind_of_ok hmake.2.2.1,
      hmake.2.2.2.1]
  obtain ⟨records, hrecords⟩ := h.readable
  have hread : WalLog.readAll.exec t = (.ok records, t) := Prod.ext hrecords (readAll_snd t)
  have hdir : t.get? tmpDir = some .dir := h.dirs tmpDir (by simp [layoutDirs, tmpDir])
  have hnames : t.leafNames tmpDir = [] := by
    refine List.eq_nil_iff_forall_not_mem.mpr fun n hn => ?_
    obtain ⟨x, hx⟩ := Tree.mem_leafNames.mp hn
    rw [h.tmp] at hx
    contradiction
  have hfiles : (FileUtils.regularFiles tmpDir).exec t = (.ok [], t) := by
    rw [FileUtils.regularFiles, Prog.exec_query, hdir, ← hnames]
  have hremove : RecoveryManager.removeTmpFiles.exec t = (.ok 0, t) := by
    simp only [RecoveryManager.removeTmpFiles, Prog.bind_eq]
    rw [Prog.exec_bind_of_ok (FileUtils.exec_pathExists_dir hdir), if_pos rfl,
      Prog.exec_bind_of_ok hfiles]
    rfl
  have hmeta := metadata_dir h.dirs
  have hcheckpoint := Tree.leaf?_eq_some.mp h.checkpoint
  have hfits : badName t.nameMax (ascii "checkpoint.dat") = false :=
    t.name_fits (p := [ascii "metadata"]) (by
      rw [List.singleton_append, ← Checkpoint.path, hcheckpoint]
      simp)
  obtain ⟨u, hu⟩ := Tree.place_succeeds
    (Node.leaf ⟨Checkpoint.text (Checkpoint.ofVersions vs), 0o644 &&& 0o7777 &&& ~~~env.umask⟩)
    hmeta hfits (by
      rw [List.singleton_append, ← Checkpoint.path, hcheckpoint]
      simp)
  have hput : Effect.apply (FsEffect.replace Checkpoint.path (Checkpoint.text (Checkpoint.ofVersions vs))
      (0o644 &&& 0o7777 &&& ~~~env.umask)) t = .ok u := by
    rw [List.singleton_append, ← Checkpoint.path] at hu
    simp only [Effect.apply, FsEffect.apply, Tree.replaceLeaf_iff.mpr ⟨h.room, hu⟩, orThrow]
  have hmk : (FileUtils.ensureDirectory Checkpoint.path.dropLast).exec t = (.ok (), t) :=
    FileUtils.ensureDirectory_iff.mpr (Tree.mkdirs_of_dir hmeta)
  have hwrite : (writeCheckpoint env).exec t = (.ok vs, u) := by
    simp only [writeCheckpoint, Checkpoint.write, FileUtils.writeTextAtomic, FileUtils.writeFileAtomic,
      Prog.bind_eq]
    rw [Prog.exec_bind_of_ok h.lists, Prog.bind_assoc', Prog.exec_bind_of_ok hmk]
    rw [Prog.exec_bind_of_ok (m := u) (a := ()) (by rw [Prog.exec_perform, hput])]
    rfl
  refine ⟨⟨UInt64.ofNat vs.length, 0⟩, u, ?_, fun q => ?_⟩
  · simp only [RecoveryManager.recover, Prog.bind_eq]
    rw [Prog.exec_bind_of_ok hlayout, Prog.exec_bind_of_ok hread, Prog.exec_bind_of_ok hremove,
      Prog.exec_bind_of_ok hwrite]
    rfl
  · rw [(FsEffect.replace_ok hput).get?]
    by_cases hq : q = Checkpoint.path
    · rw [if_pos hq, hq, hcheckpoint]
    · rw [if_neg hq]

/-- A recovery that succeeds changes nothing for those who read what is committed; and one that
finds the log damaged has made directories at most. Names of 255 bytes are what every file system
allows that the repository is kept on. -/
theorem recovery_disturbs_nothing (hname : ∀ k ∈ s.nameMax.limit, 255 ≤ k) :
    (∀ r t, (RecoveryManager.recover env).exec s = (.ok r, t) →
      Undisturbed env s t ∧ Tidied env t) ∧
    ∀ m e, ensureLayout.exec s = (.ok (), m) → (WalLog.readAll.exec m).1 = .error e →
      (RecoveryManager.recover env).exec s = (.error e, m) ∧ OnlyLayout s m := by
  constructor
  · intro r t h
    obtain ⟨vs, hr⟩ := recover_ok h
    exact ⟨hr.undisturbed hname, hr.tidied⟩
  · intro m e hm hread
    have hfails : WalLog.readAll.exec m = (.error e, m) := Prod.ext hread (readAll_snd m)
    refine ⟨?_, (layout_only hm).1⟩
    simp only [RecoveryManager.recover, Prog.bind_eq]
    rw [Prog.exec_bind_of_ok hm, Prog.exec_bind_of_error hfails]

theorem letter_recovery :
    ∃ s t, (letterCreate.prog letterEnv).exec emptyRepo = (.ok (), s) ∧
      (RecoveryManager.recover letterEnv).exec s = (.ok ⟨1, 0⟩, t) ∧
      Undisturbed letterEnv s t ∧ Tidied letterEnv t := by
  have hx : ((letterCreate.prog letterEnv).exec emptyRepo).1 = .ok () := by decide +kernel
  have hmax := exec_nameMax (letterCreate.prog letterEnv) emptyRepo
  have hr : ((RecoveryManager.recover letterEnv).exec
      ((letterCreate.prog letterEnv).exec emptyRepo).2).1 = .ok ⟨1, 0⟩ := by decide +kernel
  have hname : ∀ k ∈ ((letterCreate.prog letterEnv).exec emptyRepo).2.nameMax.limit, 255 ≤ k := by
    rw [hmax]
    intro k hk
    exact (Option.some.inj hk).le
  have hruns := (recovery_disturbs_nothing hname).1 _ _ (Prog.exec_of_fst hr)
  exact ⟨_, _, Prog.exec_of_fst hx, Prog.exec_of_fst hr, hruns⟩

end Dpc
