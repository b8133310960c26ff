import Dpc.Core.RawFrames

namespace Dpc
open Text FileTree Effects ManifestStore BackupEngine

variable {env : Env} {s t : Fs} {now : UInt64} {fault : FaultStage} {source : Source}
  {mode : ChunkingMode} {r : BackupResult}

/-- The answers that a source gave for one file describe one byte string, under a path
that the reader takes. -/
def Consistent (scanned : ScannedFile) : Prop :=
  FileUtils.SafePath scanned.relativePath ∧
    ∃ data, scanned.readFile = .ok data ∧ scanned.fileSize = .ok (size data)

theorem BackupEngine.BackedUp.whole_iff {data : Bytes} {scanned : ScannedFile}
    {file : FileManifest} (h : BackedUp env t mode data scanned file) :
    Whole env t file ↔ scanned.fileSize = .ok (size data) := by
  rw [h.holds.whole_iff, h.flat, h.described.size_eq, Except.ok.injEq, eq_comm]

/-- Verifying a created version succeeds exactly when each of its files is sound. -/
theorem BackupEngine.Created.exec_verify {m : Manifest} (hz : env.zstd.Lawful)
    (hcol : env.evp.NoCollision (Involved env s mode source))
    (h : Created env now source mode s t m) :
    (VerifyEngine.verify env m.version).exec t = (.ok (), t) ↔
      ∃ files, source.scan = .ok files ∧ ∀ scanned ∈ files, Consistent scanned := by
  obtain ⟨files, hscan, hfiles⟩ := h.backedUp hz hcol
  obtain ⟨files', hscan', hpaths⟩ := h.wellFormed_iff
  rw [hscan] at hscan'
  cases hscan'
  have hverify : (VerifyEngine.verifyFiles env m.files).exec t = (.ok (), t) ↔
      ∀ file ∈ m.files, Whole env t file := VerifyEngine.verifyFiles_iff
  simp only [VerifyEngine.verify, Prog.bind_eq]
  constructor
  · intro hv
    obtain ⟨m', u, hl, hrest⟩ := Prog.exec_bind_ok hv
    obtain ⟨hu, _⟩ := load_ok hl
    subst hu
    obtain ⟨rfl, hwf⟩ := h.exec_load.mp hl
    have hwhole := hverify.mp hrest
    refine ⟨files, hscan, fun scanned hs => ?_⟩
    obtain ⟨file, hf, data, hb⟩ := hfiles.exists_right hs
    obtain ⟨file', hf', _, hsafe⟩ := hpaths.exists_right hs
    exact ⟨hsafe.mp (hwf file' hf'), data, hb.described.read_eq, hb.whole_iff.mp (hwhole file hf)⟩
  · intro ⟨files', hscan', hcons⟩
    rw [hscan] at hscan'
    cases hscan'
    have hwf : ∀ file ∈ m.files, WellFormedFile file := by
      intro file hf
      obtain ⟨scanned, hs, _, hsafe⟩ := hpaths.exists_left hf
      exact hsafe.mpr (hcons scanned hs).1
    rw [Prog.exec_bind_of_ok (h.exec_load.mpr ⟨rfl, hwf⟩)]
    refine hverify.mpr fun file hf => ?_
    obtain ⟨scanned, hs, data, hb⟩ := hfiles.exists_left hf
    obtain ⟨_, data', hread, hsize⟩ := hcons scanned hs
    rw [hb.described.read_eq] at hread
    cases hread
    exact hb.whole_iff.mpr hsize

/-- A version that `create` returned verifies exactly when the source was consistent: for
every file the size that was asked for is that of the bytes that were read. -/
theorem created_version_verifies_iff (hz : env.zstd.Lawful)
    (hcol : env.evp.NoCollision (Involved env s mode source))
    (h : (create env now fault source mode).exec s = (.ok r, t)) :
    (VerifyEngine.verify env r.version).exec t = (.ok (), t) ↔
      ∃ files, source.scan = .ok files ∧ ∀ scanned ∈ files, Consistent scanned := by
  obtain ⟨m, hv, hc⟩ := create_ok h
  rw [hv]
  exact hc.exec_verify hz hcol

/-- A source of one file with one byte to read, of which the system says some size. -/
def letterSource (fileSize : UInt64) : Source where
  root := ascii "/data"
  root_ne := by decide
  scan := .ok [⟨ascii "a.txt", by decide, .ok fileSize, .ok 0o644, .ok (ascii "a")⟩]
  count := by
    intro files h
    cases h
    exact show 1 < 2 ^ 64 by decide

theorem created_letter_verifies :
    ∃ t, (create letterEnv 1700000000 .none (letterSource 1) .fixed).exec emptyRepo =
        (.ok ⟨1, 1, 1, 10, 1, 1, 0⟩, t) ∧
      (VerifyEngine.verify letterEnv 1).exec t = (.ok (), t) := by
  have hcol : letterEnv.evp.NoCollision (Involved letterEnv emptyRepo .fixed (letterSource 1)) := by
    refine @Evp.noCollision_of_eq _ _ (ascii "a") fun raw hr => ?_
    rcases hr with ⟨files, hscan, scanned, hs, data, hread, hraw⟩ | hold
    · cases hscan
      rw [List.mem_singleton] at hs
      subst hs
      cases hread
      have hpieces : (chunkFile .fixed (ascii "a")).map Chunk.data = [ascii "a"] := by
        decide +kernel
      simpa [hpieces] using hraw
    · exact absurd hold not_unpacked_emptyRepo
  have hx : ((create letterEnv 1700000000 .none (letterSource 1) .fixed).exec emptyRepo).1 =
      .ok ⟨1, 1, 1, 10, 1, 1, 0⟩ := by decide +kernel
  refine ⟨_, Prog.exec_of_fst hx, ?_⟩
  refine (created_version_verifies_iff Zstd.raw_lawful hcol (Prog.exec_of_fst hx)).mpr ?_
  refine ⟨_, rfl, fun scanned hs => ?_⟩
  rw [List.mem_singleton] at hs
  subst hs
  exact ⟨⟨[ascii "a.txt"], by decide⟩, ascii "a", rfl, by decide⟩

/-- The file had two bytes when it was measured and one when it was read. -/
theorem created_letter_does_not_verify :
    ∃ t, (create letterEnv 1700000000 .none (letterSource 2) .fixed).exec emptyRepo =
        (.ok ⟨1, 1, 2, 10, 1, 1, 0⟩, t) ∧
      ((VerifyEngine.verify letterEnv 1).exec t).1 =
        .error (dpcErrorWith "file size mismatch: " (ascii "a.txt")) := by
  have hx : ((create letterEnv 1700000000 .none (letterSource 2) .fixed).exec emptyRepo).1 =
      .ok ⟨1, 1, 2, 10, 1, 1, 0⟩ := by decide +kernel
  exact ⟨_, Prog.exec_of_fst hx, by decide +kernel⟩

end Dpc
