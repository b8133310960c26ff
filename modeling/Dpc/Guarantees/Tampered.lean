import Dpc.Guarantees.Agreement
import Dpc.Lib.Cuts

/-! A version whose objects were tampered with, against the version as it verified. -/

namespace Dpc
open Text FileTree Effects ManifestStore RestoreEngine

variable {env : Env} {s t : Fs} {version : UInt64} {m : Manifest} {file : FileManifest}
  {files : List FileManifest}

/-- The bytes of one file of a version, as a restore reads them. -/
def Content (env : Env) (repo : Fs) (version : UInt64) (raw : Bytes) : Prop :=
  ∃ m, (load version).exec repo = (.ok m, repo) ∧ ∃ file ∈ m.files,
    ((readFile env file).exec repo).1 = .ok raw

/-- The bytes that are read of an entry have its hash. -/
theorem RestoreEngine.sha_of_readFile {data : Bytes} (hevp : env.evp.Incremental)
    (h : ((readFile env file).exec s).1 = .ok data) :
    Hash.sha256Hex env.evp data = file.fileSha256 := by
  obtain ⟨_, datas, hholds, _, rfl⟩ := (readFile_iff hevp).mp h
  rw [hholds.sha]
  exact (hevp datas).symm

theorem RestoreEngine.readFile_of_allocate {e : Exn}
    (h : Compressor.allocate env file.fileSize.toNat = .error e) :
    ((readFile env file).exec s).1 = .error e := by
  simp only [readFile, Prog.bind_eq]
  rw [Prog.exec_bind_of_error (m := s) (e := e) (by rw [Prog.exec_ofExcept, h])]

/-- An entry that is right in both states is read as the same bytes, or does not fit in memory in
either. -/
theorem RestoreEngine.readFile_same (hevp : env.evp.Incremental)
    (hcol : env.evp.NoCollision fun raw => ((readFile env file).exec s).1 = .ok raw ∨
      ((readFile env file).exec t).1 = .ok raw)
    (hs : Whole env s file) (ht : Whole env t file) :
    ((readFile env file).exec t).1 = ((readFile env file).exec s).1 := by
  cases halloc : Compressor.allocate env file.fileSize.toNat with
  | error e => rw [readFile_of_allocate halloc, readFile_of_allocate halloc]
  | ok =>
    obtain ⟨datas, hholds, hsize⟩ := hs
    obtain ⟨datas', hholds', hsize'⟩ := ht
    have hread := (readFile_iff hevp).mpr ⟨halloc, datas, hholds, hsize, rfl⟩
    have hread' := (readFile_iff hevp).mpr ⟨halloc, datas', hholds', hsize', rfl⟩
    have hsha := (sha_of_readFile hevp hread').trans (sha_of_readFile hevp hread).symm
    rw [hread, hread', hcol _ _ (.inr hread') (.inl hread) hsha]

/-- Where each file that is read is read as in the other state, the restore is the other one, until
it fails. -/
theorem RestoreEngine.restoreFiles_stopped (h : ∀ file ∈ files, ∀ data,
      ((readFile env file).exec t).1 = .ok data → ((readFile env file).exec s).1 = .ok data) :
    ∃ e, Prog.Stopped e (restoreFiles env t files) (restoreFiles env s files) := by
  induction files with
  | nil => exact ⟨.badAlloc, .refl _⟩
  | cons file files ih =>
    obtain ⟨e, hrest⟩ := ih fun f hf => h f (List.mem_cons_of_mem _ hf)
    cases hread : ((readFile env file).exec t).1 with
    | error e =>
      have hfails : restoreFiles env t (file :: files) = .throw e := by
        simp only [restoreFiles, restoreFile, fromRepo, hread]
        rfl
      exact ⟨e, hfails ▸ .stop⟩
    | ok data =>
      have hsame : restoreFile env t file = restoreFile env s file := by
        simp only [restoreFile, fromRepo, hread, h file List.mem_cons_self data hread]
      refine ⟨e, Prog.Stopped.bind ?_ fun _ => hrest⟩
      rw [hsame]
      exact .refl _

theorem RestoreEngine.restoreFiles_congr (h : ∀ file ∈ files,
      ((readFile env file).exec t).1 = ((readFile env file).exec s).1) :
    restoreFiles env t files = restoreFiles env s files := by
  induction files with
  | nil => rfl
  | cons file files ih =>
    simp only [restoreFiles, restoreFile, fromRepo, h file List.mem_cons_self,
      ih fun f hf => h f (List.mem_cons_of_mem _ hf)]

/-- A manifest file that is the same is loaded the same, if it is loaded. -/
theorem load_same (hsame : t.leaf? (manifestPath version) = s.leaf? (manifestPath version))
    (hload : (load version).exec s = (.ok m, s)) {m' : Manifest}
    (hload' : (load version).exec t = (.ok m', t)) : m' = m := by
  obtain ⟨_, _, f, hf, hp⟩ := load_ok hload
  obtain ⟨_, _, f', hf', hp'⟩ := load_ok hload'
  rw [hsame, hf, Option.some.injEq] at hf'
  rw [← hf', hp] at hp'
  exact (Except.ok.inj hp').symm

/-- A version that verified is restored to the same files from then on, whatever happens to the
rest of the repository: as long as its manifest is the same file, a restore does what it would have
done then, until it fails. If the version verifies again it is the same program. -/
theorem tampered_restore_agrees (hevp : env.evp.Incremental)
    (hcol : env.evp.NoCollision fun raw => Content env s version raw ∨ Content env t version raw)
    (hverify : ((VerifyEngine.verify env version).exec s).1 = .ok ())
    (hsame : t.leaf? (manifestPath version) = s.leaf? (manifestPath version)) :
    (∀ target x u, (restore env t version).exec target = (x, u) →
      (restore env s version).exec target = (x, u) ∨
        (∃ e, x = .error e) ∧ ∃ is, Prog.Cut (restore env s version) target is u) ∧
    (((VerifyEngine.verify env version).exec t).1 = .ok () →
      restore env t version = restore env s version) := by
  obtain ⟨m, hload, hwhole⟩ := VerifyEngine.verify_iff.mp hverify
  have hread : ∀ m', (load version).exec t = (.ok m', t) → ∀ file ∈ m'.files, Whole env t file →
      ((readFile env file).exec t).1 = ((readFile env file).exec s).1 := by
    intro m' hload' file hf ht
    cases load_same hsame hload hload'
    refine readFile_same hevp (fun a b ha hb => hcol a b ?_ ?_) (hwhole file hf) ht
    · exact ha.imp (fun h => ⟨m, hload, file, hf, h⟩) fun h => ⟨m, hload', file, hf, h⟩
    · exact hb.imp (fun h => ⟨m, hload, file, hf, h⟩) fun h => ⟨m, hload', file, hf, h⟩
  constructor
  · have hstopped : ∃ e, Prog.Stopped e (restore env t version) (restore env s version) := by
      cases hl : ((load version).exec t).1 with
      | error e =>
        have hfails : restore env t version = .throw e := by
          simp only [restore, fromRepo, hl]
          rfl
        exact ⟨e, hfails ▸ .stop⟩
      | ok m' =>
        have hload' := loaded_of_fst hl
        cases load_same hsame hload hload'
        rw [restore_eq hload', restore_eq hload]
        refine restoreFiles_stopped fun file hf data hdata => ?_
        obtain ⟨_, datas, hholds, hsize, _⟩ := (readFile_iff hevp).mp hdata
        rw [← hread m hload' file hf ⟨datas, hholds, hsize⟩, hdata]
    obtain ⟨e, hstopped⟩ := hstopped
    intro target x u hx
    rcases hstopped.exec target with he | he
    · have hcut := hstopped.cut target
      rw [hx] at he hcut
      exact .inr ⟨⟨e, he⟩, hcut⟩
    · exact .inl (he ▸ hx)
  · intro hverify'
    obtain ⟨m', hload', hwhole'⟩ := VerifyEngine.verify_iff.mp hverify'
    have hm := load_same hsame hload hload'
    rw [restore_eq hload', restore_eq hload, hm]
    exact restoreFiles_congr fun file hf =>
      hread m' hload' file (hm ▸ hf) (hwhole' file (hm ▸ hf))

/-- The object of the letters is gone. -/
def spoiltLetters : Fs :=
  ((Prog.perform (.remove (ObjectStore.pathOf shaA)) : Op Unit).exec lettersRepo).2

theorem content_letters {raw : Bytes} (h : Content (lettersEnv (2 ^ 32)) lettersRepo 1 raw ∨
    Content (lettersEnv (2 ^ 32)) spoiltLetters 1 raw) : raw = ascii "aa" := by
  have hread : ∀ file ∈ lettersManifest.files,
      ((readFile (lettersEnv (2 ^ 32)) file).exec lettersRepo).1 = .ok (ascii "aa") := by
    decide +kernel
  have hfails : ∀ file ∈ lettersManifest.files,
      ((readFile (lettersEnv (2 ^ 32)) file).exec spoiltLetters).1.toBool = false := by
    decide +kernel
  rcases h with ⟨m, hload, file, hf, hr⟩ | ⟨m, hload, file, hf, hr⟩
  · cases load_lettersRepo.symm.trans hload
    rw [hread file hf] at hr
    exact (Except.ok.inj hr).symm
  · have hl : ((load 1).exec spoiltLetters).1 = .ok lettersManifest := by decide +kernel
    rw [hload] at hl
    cases hl
    have hno := hfails file hf
    rw [hr] at hno
    simp only [Except.toBool, reduceCtorEq] at hno

/-- The restore that would have gone on fails where the object is gone. -/
theorem spoilt_letters_fail : ∃ e u,
    (restore (lettersEnv (2 ^ 32)) spoiltLetters 1).exec emptyRepo = (.error e, u) ∧
      ∃ is, Prog.Cut (restore (lettersEnv (2 ^ 32)) lettersRepo 1) emptyRepo is u := by
  have hverify : ((VerifyEngine.verify (lettersEnv (2 ^ 32)) 1).exec lettersRepo).1 = .ok () :=
    verify_letters (by decide +kernel)
  have hcol : (lettersEnv (2 ^ 32)).evp.NoCollision fun raw =>
      Content (lettersEnv (2 ^ 32)) lettersRepo 1 raw ∨
        Content (lettersEnv (2 ^ 32)) spoiltLetters 1 raw :=
    Evp.noCollision_of_eq fun raw => content_letters
  have hsame : spoiltLetters.leaf? (manifestPath 1) = lettersRepo.leaf? (manifestPath 1) := by
    decide +kernel
  have hfails : ((restore (lettersEnv (2 ^ 32)) spoiltLetters 1).exec emptyRepo).1 =
      .error (dpcErrorWith "object missing: " (ObjectStore.textOf shaA)) := by decide +kernel
  have hagrees := (tampered_restore_agrees Evp.ofTable_incremental hcol hverify hsame).1 emptyRepo _ _
    (Prog.exec_of_fst hfails)
  rcases hagrees with h | ⟨_, hcut⟩
  · have hgood : ((restore (lettersEnv (2 ^ 32)) lettersRepo 1).exec emptyRepo).1 = .ok () := by
      rw [restore_eq load_lettersRepo]
      decide +kernel
    rw [h] at hgood
    simp only [reduceCtorEq] at hgood
  · exact ⟨_, _, Prog.exec_of_fst hfails, hcut⟩

end Dpc
