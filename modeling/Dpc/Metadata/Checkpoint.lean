import Dpc.Core.ManifestStore
import Dpc.Lib.Extract

namespace Dpc
open Text FileTree Effects

structure CheckpointData where
  latestCommittedVersion : UInt64
  committedVersions : List UInt64
  deriving DecidableEq, Repr

namespace Checkpoint
open ManifestStore

def path : Path := [ascii "metadata", ascii "checkpoint.dat"]

def text (data : CheckpointData) : Bytes :=
  ascii "DPC_CHECKPOINT_V1" ++ [newline] ++
    ascii "latest_committed_version " ++ number data.latestCommittedVersion ++ [newline] ++
    ascii "committed_versions" ++
    data.committedVersions.flatMap (fun version => space :: number version) ++ [newline]

def write (env : Env) (data : CheckpointData) : Op Unit :=
  FileUtils.writeTextAtomic env.umask path (text data) 0o644

/-- The numbers up to the first word that is none. Each takes a byte at least, so the number of
bytes is fuel enough. -/
def parseVersions : Nat → Bytes → List UInt64
  | 0, _ => []
  | fuel + 1, text =>
    match getNumber (2 ^ 64) text with
    | none => []
    | some version => UInt64.ofNat version.1 :: parseVersions fuel version.2

/-- A stream that has failed leaves the key as it was, so that the next comparison fails too. -/
def parse (text : Bytes) : Except Exn CheckpointData := do
  let header := (getWord text).getD ([], [])
  if header.1 ≠ ascii "DPC_CHECKPOINT_V1" then throw (dpcError "invalid checkpoint header")
  let key := (getWord header.2).getD ([], [])
  if key.1 ≠ ascii "latest_committed_version" then
    throw (dpcError "invalid checkpoint latest key")
  match getNumber (2 ^ 64) key.2 with
  | none => throw (dpcError "invalid checkpoint versions key")
  | some latest =>
    let key := (getWord latest.2).getD ([], [])
    if key.1 ≠ ascii "committed_versions" then throw (dpcError "invalid checkpoint versions key")
    return ⟨UInt64.ofNat latest.1, parseVersions key.2.length key.2⟩

def load : Op CheckpointData := do
  if ← FileUtils.pathExists path then
    let text ← FileUtils.readTextFile path
    .ofExcept (parse text)
  else return ⟨0, []⟩

/-- The checkpoint of a list of versions: none of them, the latest is zero. -/
def ofVersions (versions : List UInt64) : CheckpointData := ⟨versions.getLast?.getD 0, versions⟩

end Checkpoint

namespace CommitMarker

def create (env : Env) (version : UInt64) : Op Unit :=
  FileUtils.writeTextAtomic env.umask (ManifestStore.commitPath version)
    (ascii "committed" ++ [newline]) 0o644

end CommitMarker

end Dpc
