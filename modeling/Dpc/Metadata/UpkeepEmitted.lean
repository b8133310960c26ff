import Dpc.Core.Emitted
import Dpc.Metadata.Maintenance

/-! What recovery and compaction may try, whatever they read. -/

namespace Dpc
open Text FileTree Effects ManifestStore

variable {env : Env} {P : FsEffect → Prop}

theorem WalLog.emits_readAll : WalLog.readAll.Emits P := by
  simp only [WalLog.readAll, Prog.bind_eq]
  refine Prog.emits_query.bind fun there => ?_
  split
  · exact Prog.emits_query.bind fun _ => Prog.emits_ofExcept
  · trivial

theorem RecoveryManager.emits_removeFiles (hP : ∀ name, P (.remove (tmpDir ++ [name])))
    {names : List Name} : (RecoveryManager.removeFiles tmpDir names).Emits P := by
  induction names with
  | nil => trivial
  | cons name names ih => exact (Prog.emits_perform (hP name)).bind fun _ => ih

theorem RecoveryManager.emits_removeTmpFiles (hP : ∀ name, P (.remove (tmpDir ++ [name]))) :
    RecoveryManager.removeTmpFiles.Emits P := by
  simp only [RecoveryManager.removeTmpFiles, Prog.bind_eq]
  refine Prog.emits_query.bind fun there => ?_
  split
  · exact Prog.emits_query.bind fun _ => (emits_removeFiles hP).bind fun _ => trivial
  · trivial

theorem RecoveryManager.emits_recover (hdir : ∀ p, P (.ensureDirectory p))
    (hP : ∀ name, P (.remove (tmpDir ++ [name])))
    (hput : ∀ data mode, P (.replace Checkpoint.path data mode)) :
    (RecoveryManager.recover env).Emits P := by
  simp only [RecoveryManager.recover, Prog.bind_eq]
  refine (emits_ensureLayout hdir).bind fun _ => WalLog.emits_readAll.bind fun _ => ?_
  exact (emits_removeTmpFiles hP).bind fun _ => (emits_writeCheckpoint hdir hput).bind fun _ => trivial

theorem MetadataCompactor.emits_compact (hdir : ∀ p, P (.ensureDirectory p))
    (hput : ∀ data mode, P (.replace Checkpoint.path data mode))
    (hwal : ∀ data mode, P (.replace WalLog.walPath data mode)) :
    (MetadataCompactor.compact env).Emits P :=
  (emits_writeCheckpoint hdir hput).bind fun _ => Prog.Emits.bind_ofExcept fun _ _ =>
    emits_writeFileAtomic hdir (hwal _)

end Dpc
