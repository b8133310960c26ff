import Dpc.Guarantees.Freshness
import Dpc.Guarantees.History
import Dpc.Guarantees.Interrupted
import Dpc.Metadata.FaultInjector
import Dpc.Metadata.UpkeepEmitted

/-! A crash that is injected, against the backup that runs to its end. -/

namespace Dpc
open Text FileTree Effects ManifestStore ObjectStore BackupEngine FaultInjector

variable {env : Env} {s t u a b : Fs} {now version : UInt64} {fault stage : FaultStage}
  {source : Source} {mode : ChunkingMode} {is : List FsEffect}

theorem stopped_trigger :
    Prog.Stopped (injectedCrash fault) (trigger fault stage) (trigger .none stage) := by
  by_cases h : fault = stage
  · subst h
    by_cases hn : fault = .none
    · rw [hn]
      exact .refl _
    · rw [trigger_self hn]
      exact .stop
  · rw [trigger_other h]
    exact .refl _

theorem stopped_putChunks {st : FileProgress env} {chunks : List Chunk} :
    Prog.Stopped (injectedCrash fault) (putChunks env fault st chunks)
      (putChunks env .none st chunks) := by
  induction chunks generalizing st with
  | nil => exact .refl _
  | cons chunk chunks ih =>
    refine Prog.Stopped.bind ?_ fun _ => ih
    exact (Prog.Stopped.refl _).bind fun _ => (Prog.Stopped.refl _).bind fun _ =>
      stopped_trigger.bind fun _ => .refl _

theorem stopped_backupFiles {total : Progress} {files : List ScannedFile} :
    Prog.Stopped (injectedCrash fault) (backupFiles env fault mode total files)
      (backupFiles env .none mode total files) := by
  induction files generalizing total with
  | nil => exact .refl _
  | cons scanned files ih =>
    refine Prog.Stopped.bind ?_ fun _ => ih
    exact (Prog.Stopped.refl _).bind fun _ => (Prog.Stopped.refl _).bind fun _ =>
      (Prog.Stopped.refl _).bind fun _ => stopped_putChunks.bind fun _ => .refl _

theorem stopped_buildManifest :
    Prog.Stopped (injectedCrash fault) (BackupEngine.buildManifest env now fault source mode)
      (BackupEngine.buildManifest env now .none source mode) :=
  (Prog.Stopped.refl _).bind fun _ => (Prog.Stopped.refl _).bind fun _ =>
    (Prog.Stopped.refl _).bind fun _ => stopped_trigger.bind fun _ =>
      (Prog.Stopped.refl _).bind fun _ => stopped_backupFiles

theorem stopped_publish {m : Manifest} :
    Prog.Stopped (injectedCrash fault) (publish env fault m) (publish env .none m) :=
  (Prog.Stopped.refl _).bind fun _ => (Prog.Stopped.refl _).bind fun _ =>
    stopped_trigger.bind fun _ => (Prog.Stopped.refl _).bind fun _ =>
      (Prog.Stopped.refl _).bind fun _ => stopped_trigger.bind fun _ =>
        (Prog.Stopped.refl _).bind fun _ => stopped_trigger.bind fun _ => .refl _

theorem stopped_create :
    Prog.Stopped (injectedCrash fault) (create env now fault source mode)
      (create env now .none source mode) :=
  stopped_buildManifest.bind fun _ => stopped_publish.bind fun _ => .refl _

/-- The chunks of a file that is read are there. -/
theorem readChunks_ne_nil {scanned : ScannedFile} {chunks : List Chunk}
    (h : readChunks env mode scanned = .ok chunks) : chunks ≠ [] := by
  simp only [readChunks] at h
  obtain ⟨data, _, h⟩ := bind_eq_ok.mp h
  obtain ⟨_, hfits, h⟩ := bind_eq_ok.mp h
  cases h
  exact chunkFile_ne_nil (Compressor.allocate_ok.mp hfits).1

/-- A backup that is to crash after a first object does not get beyond the first file. -/
theorem backupFiles_crashes {total p : Progress} {scanned : ScannedFile} {files : List ScannedFile} :
    (backupFiles env .afterObjectWrite mode total (scanned :: files)).exec s ≠ (.ok p, t) := by
  intro h
  simp only [backupFiles, backupFile, Prog.bind_eq] at h
  obtain ⟨_, a, h, _⟩ := Prog.exec_bind_ok h
  obtain ⟨_, b, _, h⟩ := Prog.exec_bind_ok h
  obtain ⟨_, c, _, h⟩ := Prog.exec_bind_ok h
  obtain ⟨chunks, d, hchunks, h⟩ := Prog.exec_bind_ok h
  rw [Prog.exec_ofExcept, Prod.mk.injEq] at hchunks
  obtain ⟨_, _, h, _⟩ := Prog.exec_bind_ok h
  cases chunks with
  | nil => exact readChunks_ne_nil hchunks.1 rfl
  | cons chunk chunks =>
    simp only [putChunks, putChunk, Prog.bind_eq] at h
    obtain ⟨_, _, h, _⟩ := Prog.exec_bind_ok h
    obtain ⟨_, _, _, h⟩ := Prog.exec_bind_ok h
    obtain ⟨_, _, _, h⟩ := Prog.exec_bind_ok h
    rw [trigger_self (by decide)] at h
    cases h

/-- A backup that is to crash before it has a manifest has none, unless there is nothing to back up. -/
theorem buildManifest_crashes {p : Progress} {files : List ScannedFile}
    (hfault : fault = .afterBegin ∨ fault = .afterObjectWrite ∧ files ≠ [])
    (hscan : source.scan = .ok files) :
    (BackupEngine.buildManifest env now fault source mode).exec s ≠ (.ok p, t) := by
  intro h
  simp only [BackupEngine.buildManifest, Prog.bind_eq] at h
  obtain ⟨_, a, _, h⟩ := Prog.exec_bind_ok h
  obtain ⟨_, b, _, h⟩ := Prog.exec_bind_ok h
  obtain ⟨_, c, _, h⟩ := Prog.exec_bind_ok h
  rcases hfault with rfl | ⟨rfl, hne⟩
  · rw [trigger_self (by decide)] at h
    cases h
  · obtain ⟨_, d, _, h⟩ := Prog.exec_bind_ok h
    obtain ⟨files', _, hfiles, h⟩ := Prog.exec_bind_ok h
    rw [Prog.exec_ofExcept, hscan, Prod.mk.injEq, Except.ok.injEq] at hfiles
    rw [← hfiles.1] at h
    cases files with
    | nil => exact hne rfl
    | cons scanned files => exact backupFiles_crashes h

/-- Publishing up to the stage at which it is to crash. -/
def publishUntil (env : Env) (m : Manifest) : FaultStage → Op Unit
  | .afterManifestWrite => do
    writeTmp env m.version m
    WalLog.append env .writeManifest (versionPayload m.version)
  | .afterManifestRename => do
    writeTmp env m.version m
    WalLog.append env .writeManifest (versionPayload m.version)
    renameTmpToManifest m.version
    WalLog.append env .renameManifest (versionPayload m.version)
  | .afterCommitMarker => do
    writeTmp env m.version m
    WalLog.append env .writeManifest (versionPayload m.version)
    renameTmpToManifest m.version
    WalLog.append env .renameManifest (versionPayload m.version)
    CommitMarker.create env m.version
  | _ => return ()

/-- What is left of publishing after the stage. -/
def publishAfter (env : Env) (m : Manifest) : FaultStage → Op Unit
  | .afterManifestWrite => do
    renameTmpToManifest m.version
    WalLog.append env .renameManifest (versionPayload m.version)
    CommitMarker.create env m.version
    WalLog.append env .commitBackup (versionPayload m.version)
    let _ ← writeCheckpoint env
  | .afterManifestRename => do
    CommitMarker.create env m.version
    WalLog.append env .commitBackup (versionPayload m.version)
    let _ ← writeCheckpoint env
  | .afterCommitMarker => do
    WalLog.append env .commitBackup (versionPayload m.version)
    let _ ← writeCheckpoint env
  | _ => publish env .none m

def IsPublishing (fault : FaultStage) : Prop :=
  fault = .afterManifestWrite ∨ fault = .afterManifestRename ∨ fault = .afterCommitMarker

theorem publish_crashes {m : Manifest} (hfault : IsPublishing fault) :
    publish env fault m =
      (publishUntil env m fault).bind fun _ => .throw (injectedCrash fault) := by
  rcases hfault with rfl | rfl | rfl
  all_goals
    simp only [publish, publishUntil, Prog.bind_eq, Prog.bind_assoc']
    rfl

theorem publish_goes_on {m : Manifest} (hfault : IsPublishing fault) :
    publish env .none m = (publishUntil env m fault).bind fun _ => publishAfter env m fault := by
  rcases hfault with rfl | rfl | rfl
  all_goals
    simp only [publish, publishUntil, publishAfter, Prog.bind_eq, Prog.bind_assoc']
    rfl

theorem putChunks_plain (h : fault ≠ .afterObjectWrite) {st : FileProgress env}
    {chunks : List Chunk} : putChunks env fault st chunks = putChunks env .none st chunks := by
  induction chunks generalizing st with
  | nil => rfl
  | cons chunk chunks ih =>
    have hnone : FaultStage.none ≠ .afterObjectWrite := by decide
    simp only [putChunks, putChunk, trigger_other h, trigger_other hnone, ih]

theorem backupFiles_plain (h : fault ≠ .afterObjectWrite) {total : Progress}
    {files : List ScannedFile} :
    backupFiles env fault mode total files = backupFiles env .none mode total files := by
  induction files generalizing total with
  | nil => rfl
  | cons scanned files ih => simp only [backupFiles, backupFile, putChunks_plain h, ih]

/-- Before the manifest there are two stages; of these the second needs a file. -/
theorem buildManifest_plain (hbegin : fault ≠ .afterBegin)
    (hobject : fault = .afterObjectWrite → source.scan = .ok []) :
    BackupEngine.buildManifest env now fault source mode =
      BackupEngine.buildManifest env now .none source mode := by
  have hnone : FaultStage.none ≠ .afterBegin := by decide
  simp only [BackupEngine.buildManifest, trigger_other hbegin, trigger_other hnone]
  by_cases h : fault = .afterObjectWrite
  · rw [hobject h]
    rfl
  · simp only [backupFiles_plain h]

theorem publish_plain {m : Manifest} (h : ¬IsPublishing fault) :
    publish env fault m = publish env .none m := by
  simp only [IsPublishing, not_or] at h
  obtain ⟨hwrite, hrename, hmarker⟩ := h
  have hnone : ∀ stage, stage ≠ .none → trigger .none stage = .pure () := fun _ h =>
    trigger_other (Ne.symm h)
  simp only [publish, trigger_other hwrite, trigger_other hrename, trigger_other hmarker,
    hnone .afterManifestWrite (by decide), hnone .afterManifestRename (by decide),
    hnone .afterCommitMarker (by decide)]

theorem Frame.of_cut {α : Type} {P : Path → Prop} {p : Op α}
    (h : p.Emits fun i => ∀ q ∈ i.touches, P q) (hc : Prog.Cut p s is t) : Frame P s t :=
  h.cut (Frame.refl P) Frame.trans (fun _ _ _ hi ha => Frame.of_apply ha hi) hc

theorem Frame.of_emits {α : Type} {P : Path → Prop} {p : Op α} {x : Except Exn α}
    (h : p.Emits fun i => ∀ q ∈ i.touches, P q) (hx : p.exec s = (x, t)) : Frame P s t := by
  obtain ⟨is, hc⟩ := (Prog.Stopped.refl (e := injectedCrash .none) p).cut s
  rw [hx] at hc
  exact .of_cut h hc

/-- Where a program may touch no more than some paths it may make directories. -/
theorem touches_dir {P : Path → Prop} (p : Path) : ∀ q ∈ (FsEffect.ensureDirectory p).touches, P q :=
  fun _ hq => absurd hq List.not_mem_nil

theorem touches_one {P : Path → Prop} {p : Path} (hp : P p) : ∀ q ∈ [p], P q :=
  fun _ hq => List.mem_singleton.mp hq ▸ hp

/-- Up to the rename there is no marker. -/
theorem publishUntil_frame {m : Manifest} {x : Except Exn Unit}
    (hfault : fault = .afterManifestWrite ∨ fault = .afterManifestRename)
    (hx : (publishUntil env m fault).exec s = (x, t)) : Frame (NamedPath m.version) s t := by
  refine .of_emits ?_ hx
  have hwrite : (writeTmp env m.version m).Emits fun i => ∀ q ∈ i.touches, NamedPath m.version q :=
    emits_writeFileAtomic touches_dir fun _ => touches_one (.inl (.inl rfl))
  have hrename : (renameTmpToManifest m.version).Emits fun i =>
      ∀ q ∈ i.touches, NamedPath m.version q := by
    refine (emits_ensureDirectory (touches_dir _)).bind fun _ => Prog.emits_perform ?_
    intro q hq
    rcases List.mem_cons.mp hq with rfl | hq
    · exact .inl (.inl rfl)
    · exact .inr (List.mem_singleton.mp hq)
  have hlog : ∀ type payload, (WalLog.append env type payload).Emits fun i =>
      ∀ q ∈ i.touches, NamedPath m.version q := fun _ _ =>
    emits_append touches_dir fun _ _ _ => touches_one (.inl (.inr rfl))
  rcases hfault with rfl | rfl
  · exact hwrite.bind fun _ => hlog _ _
  · exact hwrite.bind fun _ => (hlog _ _).bind fun _ => hrename.bind fun _ => hlog _ _

/-- After the marker there are the log and the checkpoint to write. -/
theorem publishAfter_frame {m : Manifest} {x : Except Exn Unit}
    (hx : (publishAfter env m .afterCommitMarker).exec s = (x, t)) : Frame Scratch s t := by
  refine .of_emits ?_ hx
  refine (emits_append touches_dir fun _ _ _ => touches_one (.inr (.inl rfl))).bind fun _ => ?_
  exact (emits_writeCheckpoint touches_dir fun _ _ => touches_one (.inr (.inr rfl))).bind fun _ =>
    trivial

/-- Recoveries, checkpoints and compactions, each stopped after any of its effects. -/
inductive Upkeep (env : Env) (s : Fs) : Fs → Prop where
  | nil : Upkeep env s s
  | recover {t u : Fs} {is : List FsEffect} (h : Upkeep env s t)
      (hc : Prog.Cut (RecoveryManager.recover env) t is u) : Upkeep env s u
  | checkpoint {t u : Fs} {is : List FsEffect} (h : Upkeep env s t)
      (hc : Prog.Cut (writeCheckpoint env) t is u) : Upkeep env s u
  | compact {t u : Fs} {is : List FsEffect} (h : Upkeep env s t)
      (hc : Prog.Cut (MetadataCompactor.compact env) t is u) : Upkeep env s u

theorem Upkeep.frame (h : Upkeep env s t) : Frame Scratch s t := by
  have hcheckpoint : ∀ data mode, ∀ q ∈ (FsEffect.replace Checkpoint.path data mode).touches,
      Scratch q := fun _ _ => touches_one (.inr (.inr rfl))
  induction h with
  | nil => exact .refl _ _
  | recover _ hc ih =>
    refine ih.trans (.of_cut (RecoveryManager.emits_recover touches_dir (fun name => ?_) hcheckpoint) hc)
    exact touches_one (.inl rfl)
  | checkpoint _ hc ih => exact ih.trans (.of_cut (emits_writeCheckpoint touches_dir hcheckpoint) hc)
  | compact _ hc ih =>
    exact ih.trans (.of_cut (MetadataCompactor.emits_compact touches_dir hcheckpoint fun _ _ =>
      touches_one (.inr (.inl rfl))) hc)

/-- What an injected crash leaves of a backup that would have made a version: none, or all of it. -/
structure LeftBy (env : Env) (fault : FaultStage) (s t u : Fs) (version : UInt64) : Prop where
  listed : ∀ v, Listed t v ↔
    Listed s v ∨ fault = .afterCommitMarker ∧ v = version ∧ version.toNat < 10 ^ 6
  complete : fault = .afterCommitMarker → Frame Scratch u t
  next : ∀ v w, Publishes env t v w → v.toNat =
    version.toNat + if fault = .afterCommitMarker ∧ version.toNat < 10 ^ 6 then 1 else 0

theorem ManifestStore.NextOf.latest {v : UInt64} (h : NextOf s v) :
    ∃ n, v.toNat = n + 1 ∧ Latest s n := by
  rcases h.next with ⟨rfl, hno⟩ | ⟨w, hw, hn⟩
  · exact ⟨0, rfl, fun w hw => absurd hw (hno w), .inl rfl⟩
  · refine ⟨w.toNat, hn, fun x hx => ?_, .inr ⟨w, hw, rfl⟩⟩
    have := UInt64.lt_iff_toNat_lt.mp (h.above x hx)
    omega

theorem Latest.congr {n : Nat} (hl : ∀ v, Listed t v ↔ Listed s v) (h : Latest s n) : Latest t n := by
  refine ⟨fun w hw => h.above w ((hl w).mp hw), h.attained.imp_right fun hw => ?_⟩
  obtain ⟨w, hw, hn⟩ := hw
  exact ⟨w, (hl w).mpr hw, hn⟩

theorem not_namedPath_commit (v w : UInt64) : ¬NamedPath v (commitPath w) := by
  intro h
  rcases h with (h | h) | h
  · exact tmp_ne_commit v w h.symm
  · exact commit_ne_wal w h
  · exact manifestPath_ne_commitPath v w h.symm

theorem not_scratch_commit (v : UInt64) : ¬Scratch (commitPath v) :=
  Allowed.not_scratch_manifests rfl

/-- A crash before the marker leaves the list of versions. -/
theorem LeftBy.before (hfault : fault ≠ .afterCommitMarker) (hnext : NextOf s version)
    (hl : ∀ v, Listed t v ↔ Listed s v) : LeftBy env fault s t u version where
  listed v := by simp [hl, hfault]
  complete h := absurd h hfault
  next v w hp := by
    obtain ⟨n, hn, hlatest⟩ := hnext.latest
    rw [if_neg fun h => hfault h.1, (hlatest.congr hl).next hp.published.next, hn]

/-- A crash after the marker leaves the version. -/
theorem LeftBy.after (hpub : Published s version u) (hframe : Frame Scratch u t) :
    LeftBy env .afterCommitMarker s t u version where
  listed v := by
    rw [listed_of_frame hframe not_scratch_commit, hpub.listed_iff]
    simp
  complete _ := hframe
  next v w hp := by
    obtain ⟨n, hn, hlatest⟩ := hpub.next.latest
    have hl : ∀ v, Listed t v ↔ Listed u v := listed_of_frame hframe not_scratch_commit
    by_cases hsix : version.toNat < 10 ^ 6
    · rw [if_pos ⟨rfl, hsix⟩, ((hlatest.step hpub (hn ▸ hsix)).1.congr hl).next hp.published.next, hn]
    · have hl' : ∀ v, Listed t v ↔ Listed s v := fun v => by
        rw [hl, hpub.listed_iff, or_iff_left fun h => hsix h.2]
      rw [if_neg fun h => hsix h.2, (hlatest.congr hl').next hp.published.next, hn]

/-- A crash before there is a manifest. -/
theorem create_crashes_early {p : Progress} {files : List ScannedFile} {x : Except Exn BackupResult}
    (hfault : fault = .afterBegin ∨ fault = .afterObjectWrite ∧ files ≠ [])
    (hscan : source.scan = .ok files)
    (hplain : (BackupEngine.buildManifest env now .none source mode).exec s = (.ok p, b))
    (hx : (create env now fault source mode).exec s = (x, t)) :
    x = .error (injectedCrash fault) ∧ Frame BackupPath s t := by
  have hframe : Frame BackupPath s ((BackupEngine.buildManifest env now fault source mode).exec s).2 :=
    .of_keeps (BackupEngine.buildManifest_keeps ⟨fun p _ _ => touches_dir p, fun _ _ _ _ _ _ _ =>
      touches_one (.inl (inObjects_pathOf _)), fun _ _ _ _ _ => touches_one (.inr rfl)⟩)
  rcases hbuild : (BackupEngine.buildManifest env now fault source mode).exec s with ⟨y, c⟩
  rw [hbuild] at hframe
  have hy : y = .error (injectedCrash fault) := by
    rcases stopped_buildManifest.exec s with h | h
    · rwa [hbuild] at h
    · rw [hbuild, hplain] at h
      cases h
      exact absurd hbuild (buildManifest_crashes hfault hscan)
  subst hy
  rw [create, Prog.bind_eq, Prog.exec_bind_of_error hbuild] at hx
  cases hx
  exact ⟨rfl, hframe⟩

/-- A crash in publishing, beside the backup that publishes. -/
theorem create_crashes_late {p : Progress} {x : Except Exn BackupResult}
    (hfault : IsPublishing fault)
    (hplain : (BackupEngine.buildManifest env now .none source mode).exec s = (.ok p, b))
    (hpublish : (publish env .none p.manifest).exec b = (.ok (), u))
    (hx : (create env now fault source mode).exec s = (x, t)) :
    x = .error (injectedCrash fault) ∧
      (publishUntil env p.manifest fault).exec b = (.ok (), t) ∧
      (publishAfter env p.manifest fault).exec t = (.ok (), u) := by
  have hsame : BackupEngine.buildManifest env now fault source mode =
      BackupEngine.buildManifest env now .none source mode := by
    refine buildManifest_plain ?_ fun h => ?_
    · rcases hfault with rfl | rfl | rfl
      all_goals decide
    · subst h
      exact absurd hfault (by simp [IsPublishing])
  rw [publish_goes_on hfault] at hpublish
  obtain ⟨_, c, huntil, hafter⟩ := Prog.exec_bind_ok hpublish
  have hthrow : (publish env fault p.manifest).exec b = (.error (injectedCrash fault), c) := by
    rw [publish_crashes hfault, Prog.exec_bind_of_ok huntil]
    rfl
  rw [create, hsame, Prog.bind_eq, Prog.exec_bind_of_ok hplain, Prog.bind_eq,
    Prog.exec_bind_of_error hthrow] at hx
  cases hx
  exact ⟨rfl, huntil, hafter⟩

/-- Where a backup crashes, it has put the marker and what stands before it, or has not. -/
theorem create_crashes {p : Progress} {x : Except Exn BackupResult} (hfault : fault ≠ .none)
    (hfiles : ¬(fault = .afterObjectWrite ∧ source.scan = .ok []))
    (hplain : (BackupEngine.buildManifest env now .none source mode).exec s = (.ok p, b))
    (hpublish : (publish env .none p.manifest).exec b = (.ok (), u))
    (hx : (create env now fault source mode).exec s = (x, t)) :
    x = .error (injectedCrash fault) ∧
      (fault ≠ .afterCommitMarker ∧ (∀ v, Listed t v ↔ Listed s v) ∨
        fault = .afterCommitMarker ∧ Frame Scratch u t) := by
  have hbuilt : Frame BackupPath s b ∧ ∃ files, source.scan = .ok files := by
    have hkeeps : Keeps (fun _ _ _ => True) _
        (BackupEngine.buildManifest env now .none source mode) s :=
      BackupEngine.buildManifest_keeps ⟨fun _ _ _ => trivial, fun _ _ _ _ _ _ _ => trivial,
        fun _ _ _ _ _ => trivial⟩
    obtain ⟨hbuilt, _⟩ := Keeps.ok hkeeps hplain
    obtain ⟨files, hscan, _⟩ := hbuilt.files
    exact ⟨hbuilt.frame, files, hscan⟩
  obtain ⟨hframe, files, hscan⟩ := hbuilt
  by_cases hpub : IsPublishing fault
  · obtain ⟨hcrash, huntil, hafter⟩ := create_crashes_late hpub hplain hpublish hx
    refine ⟨hcrash, ?_⟩
    by_cases hmarker : fault = .afterCommitMarker
    · subst hmarker
      exact .inr ⟨rfl, fun q hq => (publishAfter_frame hafter q hq).symm⟩
    · refine .inl ⟨hmarker, fun v => ?_⟩
      have hnamed := publishUntil_frame (or_assoc.mpr hpub |>.resolve_right hmarker) huntil
      rw [listed_of_frame hnamed (not_namedPath_commit _), listed_of_frame hframe not_backupPath_commit]
  · have hearly : fault = .afterBegin ∨ fault = .afterObjectWrite ∧ files ≠ [] := by
      simp only [IsPublishing, not_or] at hpub
      cases fault with
      | none => contradiction
      | afterBegin => exact .inl rfl
      | afterObjectWrite => exact .inr ⟨rfl, fun h => hfiles ⟨rfl, h ▸ hscan⟩⟩
      | afterManifestWrite => exact absurd rfl hpub.1
      | afterManifestRename => exact absurd rfl hpub.2.1
      | afterCommitMarker => exact absurd rfl hpub.2.2
    obtain ⟨hcrash, hquiet⟩ := create_crashes_early hearly hscan hplain hx
    refine ⟨hcrash, .inl ⟨?_, listed_of_frame hquiet not_backupPath_commit⟩⟩
    rintro rfl
    exact hpub (.inr (.inr rfl))

/-- A backup that is made to crash at a stage crashes, unless it has no file to write an object
for. It may have been stopped there, and what it leaves stays so whatever upkeep follows: no
version before the marker, and after it the version that would have been made, complete. -/
theorem injected_crash_leaves {r : BackupResult} {x : Except Exn BackupResult}
    (hfault : fault ≠ .none) (hplain : (create env now .none source mode).exec s = (.ok r, u))
    (hx : (create env now fault source mode).exec s = (x, t)) :
    fault = .afterObjectWrite ∧ source.scan = .ok [] ∧ x = .ok r ∧ t = u ∨
      x = .error (injectedCrash fault) ∧
        (∃ is, Prog.Cut (create env now .none source mode) s is t) ∧
        ∀ a, Upkeep env t a → LeftBy env fault s a u r.version := by
  have hpub := (Publishes.create hplain).published
  have hstopped : Prog.Stopped (injectedCrash fault) (create env now fault source mode)
      (create env now .none source mode) := stopped_create
  have hcut := hstopped.cut s
  rw [hx] at hcut
  have hruns := hplain
  simp only [create, Prog.bind_eq] at hruns
  obtain ⟨p, b, hbuild, hruns⟩ := Prog.exec_bind_ok hruns
  obtain ⟨_, c, hpublish, hruns⟩ := Prog.exec_bind_ok hruns
  cases hruns
  by_cases hempty : fault = .afterObjectWrite ∧ source.scan = .ok []
  · left
    have hbuild' : BackupEngine.buildManifest env now fault source mode =
        BackupEngine.buildManifest env now .none source mode :=
      buildManifest_plain (by rw [hempty.1]; decide) fun _ => hempty.2
    have hpublish' : publish env fault p.manifest = publish env .none p.manifest :=
      publish_plain (by simp [IsPublishing, hempty.1])
    rw [create, hbuild', Prog.bind_eq, Prog.exec_bind_of_ok hbuild, Prog.bind_eq, hpublish',
      Prog.exec_bind_of_ok hpublish] at hx
    cases hx
    exact ⟨hempty.1, hempty.2, rfl, rfl⟩
  · right
    obtain ⟨hcrash, hleft⟩ := create_crashes hfault hempty hbuild hpublish hx
    refine ⟨hcrash, hcut, fun a ha => ?_⟩
    rcases hleft with ⟨hmarker, hlisted⟩ | ⟨rfl, hframe⟩
    · refine .before hmarker hpub.next fun v => ?_
      rw [listed_of_frame ha.frame not_scratch_commit, hlisted]
    · exact .after hpub (hframe.trans ha.frame)

/-- The marker is there before the crash, and the version is kept by the recovery that follows. -/
theorem letter_crashes_after_marker :
    ∃ t a, (create letterEnv 1700000000 .afterCommitMarker (.ofWorld plainWorld [ascii "data"])
        .fixed).exec emptyRepo = (.error (injectedCrash .afterCommitMarker), t) ∧
      (RecoveryManager.recover letterEnv).exec t = (.ok ⟨1, 0⟩, a) ∧ Listed a 1 ∧
      ∀ v w, Publishes letterEnv a v w → v.toNat = 2 := by
  have hplain : (letterBackup.exec emptyRepo).1 = .ok ⟨1, 1, 1, 10, 1, 1, 0⟩ := by decide +kernel
  have hcrash : ((create letterEnv 1700000000 .afterCommitMarker
      (.ofWorld plainWorld [ascii "data"]) .fixed).exec emptyRepo).1 =
      .error (injectedCrash .afterCommitMarker) := by decide +kernel
  have hrecover : ((RecoveryManager.recover letterEnv).exec ((create letterEnv 1700000000
      .afterCommitMarker (.ofWorld plainWorld [ascii "data"]) .fixed).exec emptyRepo).2).1 =
      .ok ⟨1, 0⟩ := by decide +kernel
  have hruns := Prog.exec_of_fst hcrash
  obtain ⟨is, hc⟩ := (Prog.Stopped.refl (e := injectedCrash .none)
    (RecoveryManager.recover letterEnv)).cut _
  rcases injected_crash_leaves (by decide) (Prog.exec_of_fst hplain) hruns with h | ⟨_, _, hleft⟩
  · exact absurd h.1 (by decide)
  · have hleft := hleft _ (.recover .nil hc)
    refine ⟨_, _, hruns, Prog.exec_of_fst hrecover, (hleft.listed 1).mpr (.inr (by decide)), ?_⟩
    intro v w hp
    rw [hleft.next v w hp, if_pos (by decide)]
    rfl

end Dpc
