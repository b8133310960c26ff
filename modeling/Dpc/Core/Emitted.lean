import Dpc.Core.BackupFacts
import Dpc.Lib.Pool

/-! What the programs may try, whatever they read. -/

namespace Dpc
open Text FileTree Effects ManifestStore ObjectStore

variable {env : Env} {P : FsEffect → Prop}

theorem emits_ensureDirectory {p : Path} (h : P (.ensureDirectory p)) :
    (FileUtils.ensureDirectory p).Emits P :=
  Prog.emits_perform h

theorem emits_ensureLayout (hdir : ∀ p, P (.ensureDirectory p)) : ensureLayout.Emits P :=
  (emits_ensureDirectory (hdir _)).bind fun _ => (emits_ensureDirectory (hdir _)).bind fun _ =>
    (emits_ensureDirectory (hdir _)).bind fun _ => emits_ensureDirectory (hdir _)

theorem emits_writeFileAtomic {umask mode : UInt32} {p : Path} {data : Bytes}
    (hdir : ∀ p, P (.ensureDirectory p)) (hput : ∀ mode, P (.replace p data mode)) :
    (FileUtils.writeFileAtomic umask p data mode).Emits P :=
  (emits_ensureDirectory (hdir _)).bind fun _ => Prog.emits_perform (hput _)

theorem emits_readRaw {sha objectPath : Bytes} : (readRaw env sha objectPath).Emits P := by
  simp only [readRaw, Prog.bind_eq]
  refine Prog.Emits.bind_ofExcept fun expected _ => ?_
  split
  · trivial
  · refine Prog.Emits.bind_ofExcept fun abs _ => ?_
    refine Prog.emits_query.bind fun b => ?_
    split
    · refine Prog.emits_query.bind fun compressed => ?_
      refine Prog.Emits.bind_ofExcept fun raw _ => ?_
      split
      · trivial
      · trivial
    · trivial

theorem emits_putCompressed {sha compressed : Bytes} {rawSize : UInt64}
    (hdir : ∀ p, P (.ensureDirectory p)) (hput : ∀ mode, P (.replace (pathOf sha) compressed mode)) :
    (putCompressed env sha compressed rawSize).Emits P := by
  simp only [putCompressed, Prog.bind_eq]
  refine (emits_ensureLayout hdir).bind fun _ => ?_
  refine Prog.Emits.bind_ofExcept fun _ hs => ?_
  have hsha := Hash.requireSha256Hex_ok hs
  rw [objectPathForHash_of hsha]
  refine Prog.Emits.bind_ofExcept fun rel hrel => ?_
  cases hrel
  rw [absoluteObjectPath_textOf hsha]
  refine Prog.Emits.bind_ofExcept fun abs habs => ?_
  cases habs
  refine Prog.emits_query.bind fun b => ?_
  split
  · refine emits_readRaw.bind fun raw => ?_
    split
    · trivial
    · exact Prog.emits_query.bind fun n => trivial
  · exact (emits_writeFileAtomic hdir hput).bind fun _ => trivial

/-- One object at most, and it is the frame of the bytes that it is named by. -/
theorem emits_putRaw {raw : Bytes} (hdir : ∀ p, P (.ensureDirectory p))
    (hput : ∀ compressed mode, Compressor.compress env raw = .ok compressed →
      P (.replace (pathOf (Hash.sha256Hex env.evp raw)) compressed mode)) :
    (putRaw env raw).Emits P := by
  simp only [putRaw, Prog.bind_eq]
  exact Prog.Emits.bind_ofExcept fun compressed hc =>
    emits_putCompressed hdir fun mode => hput compressed mode hc

theorem emits_listCommittedVersions : listCommittedVersions.Emits P := by
  simp only [listCommittedVersions, Prog.bind_eq]
  refine Prog.emits_query.bind fun there => ?_
  split
  · exact Prog.emits_query.bind fun _ => Prog.Emits.bind_ofExcept fun _ _ => trivial
  · trivial

theorem emits_nextVersion : nextVersion.Emits P := by
  simp only [nextVersion, Prog.bind_eq]
  refine emits_listCommittedVersions.bind fun versions => ?_
  split
  · trivial
  · trivial

theorem emits_writeCheckpoint (hdir : ∀ p, P (.ensureDirectory p))
    (hput : ∀ data mode, P (.replace Checkpoint.path data mode)) : (writeCheckpoint env).Emits P :=
  emits_listCommittedVersions.bind fun _ =>
    (emits_writeFileAtomic hdir (hput _)).bind fun _ => trivial

theorem emits_append {type : WalRecordType} {payload : Bytes} (hdir : ∀ p, P (.ensureDirectory p))
    (hwal : ∀ data mode e, P (.append WalLog.walPath data mode e)) :
    (WalLog.append env type payload).Emits P :=
  (emits_ensureDirectory (hdir _)).bind fun _ => Prog.Emits.bind_ofExcept fun _ _ =>
    Prog.emits_perform (hwal _ _ _)

theorem emits_trigger {stage fault : FaultStage} : (FaultInjector.trigger fault stage).Emits P := by
  unfold FaultInjector.trigger
  split
  · trivial
  · trivial

namespace BackupEngine

/-- What a backup has to be allowed to do. -/
structure MayBackUp (env : Env) (P : FsEffect → Prop) : Prop where
  dir : ∀ p, P (.ensureDirectory p)
  wal : ∀ data mode e, P (.append WalLog.walPath data mode e)
  object : ∀ raw compressed mode, Compressor.compress env raw = .ok compressed →
    P (.replace (pathOf (Hash.sha256Hex env.evp raw)) compressed mode)
  staged : ∀ version data mode, P (.replace (tmpManifestPath version) data mode)
  renamed : ∀ version, P (.rename (tmpManifestPath version) (manifestPath version))
  marker : ∀ version data mode, P (.replace (commitPath version) data mode)
  checkpoint : ∀ data mode, P (.replace Checkpoint.path data mode)

variable {fault : FaultStage} {mode : ChunkingMode}

theorem emits_putChunks {st : FileProgress env} {chunks : List Chunk} (hP : MayBackUp env P) :
    (putChunks env fault st chunks).Emits P := by
  induction chunks generalizing st with
  | nil => trivial
  | cons chunk chunks ih =>
    simp only [putChunks, putChunk, Prog.bind_eq]
    refine Prog.Emits.bind ?_ fun _ => ih
    exact (emits_putRaw hP.dir (hP.object _)).bind fun _ => (emits_append hP.dir hP.wal).bind fun _ =>
      emits_trigger.bind fun _ => trivial

theorem emits_backupFiles {total : Progress} {files : List ScannedFile} (hP : MayBackUp env P) :
    (backupFiles env fault mode total files).Emits P := by
  induction files generalizing total with
  | nil => trivial
  | cons scanned files ih =>
    simp only [backupFiles, backupFile, Prog.bind_eq]
    refine Prog.Emits.bind ?_ fun _ => ih
    refine Prog.Emits.bind_ofExcept fun _ _ => Prog.Emits.bind_ofExcept fun _ _ => ?_
    exact Prog.Emits.bind_ofExcept fun _ _ => (emits_putChunks hP).bind fun _ => trivial

/-- What publishing one version has to be allowed to do. -/
structure MayPublish (version : UInt64) (P : FsEffect → Prop) : Prop where
  dir : ∀ p, P (.ensureDirectory p)
  wal : ∀ data mode e, P (.append WalLog.walPath data mode e)
  staged : ∀ data mode, P (.replace (tmpManifestPath version) data mode)
  renamed : P (.rename (tmpManifestPath version) (manifestPath version))
  marker : ∀ data mode, P (.replace (commitPath version) data mode)
  checkpoint : ∀ data mode, P (.replace Checkpoint.path data mode)

theorem MayBackUp.publish {version : UInt64} (h : MayBackUp env P) : MayPublish version P :=
  ⟨h.dir, h.wal, h.staged version, h.renamed version, h.marker version, h.checkpoint⟩

theorem emits_renameTmpToManifest {version : UInt64} (hP : MayPublish version P) :
    (renameTmpToManifest version).Emits P :=
  (emits_ensureDirectory (hP.dir _)).bind fun _ => Prog.emits_perform hP.renamed

theorem emits_publish {m : Manifest} (hP : MayPublish m.version P) :
    (publish env fault m).Emits P := by
  have happend : ∀ type payload, (WalLog.append env type payload).Emits P :=
    fun _ _ => emits_append hP.dir hP.wal
  simp only [publish, Prog.bind_eq]
  refine (emits_writeFileAtomic hP.dir (hP.staged _)).bind fun _ => (happend _ _).bind fun _ => ?_
  refine emits_trigger.bind fun _ => (emits_renameTmpToManifest hP).bind fun _ => ?_
  refine (happend _ _).bind fun _ => emits_trigger.bind fun _ => ?_
  refine (emits_writeFileAtomic hP.dir (hP.marker _)).bind fun _ => emits_trigger.bind fun _ => ?_
  exact (happend _ _).bind fun _ => (emits_writeCheckpoint hP.dir hP.checkpoint).bind fun _ => trivial

theorem emits_create {now : UInt64} {source : Source} (hP : MayBackUp env P) :
    (create env now fault source mode).Emits P := by
  have hbuild : (buildManifest env now fault source mode).Emits P :=
    (emits_ensureLayout hP.dir).bind fun _ => emits_nextVersion.bind fun _ =>
      (emits_append hP.dir hP.wal).bind fun _ => emits_trigger.bind fun _ =>
        Prog.Emits.bind_ofExcept fun _ _ => emits_backupFiles hP
  exact hbuild.bind fun _ => (emits_publish hP.publish).bind fun _ => trivial

end BackupEngine

end Dpc
