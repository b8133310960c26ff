import Dpc.Core.ObjectStore
import Dpc.Metadata.Checkpoint
import Dpc.Metadata.WalLog

namespace Dpc
open Text FileTree Effects

structure RecoveryReport where
  committedVersions : UInt64
  removedTmpFiles : UInt64
  deriving DecidableEq, Repr

/-- The checkpoint that every writer of one makes: of the versions listed now. -/
def writeCheckpoint (env : Env) : Op (List UInt64) := do
  let versions ← ManifestStore.listCommittedVersions
  Checkpoint.write env (Checkpoint.ofVersions versions)
  return versions

namespace RecoveryManager

def removeFiles (dir : Path) : List Name → Op Unit
  | [] => return ()
  | name :: names => do
    .perform (.remove (dir ++ [name]))
    removeFiles dir names

def removeTmpFiles : Op UInt64 := do
  if ← FileUtils.pathExists ManifestStore.tmpDir then
    let names ← FileUtils.regularFiles ManifestStore.tmpDir
    removeFiles ManifestStore.tmpDir names
    return UInt64.ofNat names.length
  else return 0

def recover (env : Env) : Op RecoveryReport := do
  ObjectStore.ensureLayout
  let _ ← WalLog.readAll
  let removed ← removeTmpFiles
  let versions ← writeCheckpoint env
  return ⟨UInt64.ofNat versions.length, removed⟩

end RecoveryManager

namespace MetadataCompactor
open ManifestStore

def payload (versions : List UInt64) : Bytes :=
  ascii "latest=" ++ number (versions.getLast?.getD 0) ++ [newline] ++ ascii "versions" ++
    versions.flatMap (fun version => space :: number version) ++ [newline]

def compact (env : Env) : Op Unit := do
  let versions ← writeCheckpoint env
  WalLog.replaceWith env
    [⟨.checkpoint, payload versions⟩, ⟨.compact, ascii "compact"⟩]

end MetadataCompactor

end Dpc
