import Dpc.Core.ManifestStore
import Dpc.Core.ObjectStore

namespace Dpc.BackupCtl
open Text FileTree Effects ManifestStore

/-- What is printed of one version. -/
structure VersionLine where
  version : UInt64
  files : UInt64
  inputBytes : UInt64
  storedBytes : UInt64
  chunking : ChunkingMode
  deriving DecidableEq, Repr

def lineOf (version : UInt64) (manifest : Manifest) : VersionLine :=
  ⟨version, UInt64.ofNat manifest.files.length, manifest.totalInputBytes, manifest.totalStoredBytes,
    manifest.chunkingMode⟩

def listLines : List UInt64 → Op (List VersionLine)
  | [] => return []
  | version :: versions => do
    let manifest ← load version
    let lines ← listLines versions
    return lineOf version manifest :: lines

def list : Op (List VersionLine) := do
  let versions ← listCommittedVersions
  listLines versions

/-- The running totals of `printStats`; the set of hashes is a list without repetition. -/
structure Totals where
  totalChunks : UInt64
  totalInput : UInt64
  uniqueHashes : List Bytes
  deriving DecidableEq, Repr

def addChunk (totals : Totals) (chunk : ChunkRef) : Totals :=
  { totals with
    totalChunks := totals.totalChunks + 1
    uniqueHashes := totals.uniqueHashes.insert chunk.sha256 }

def addFile (totals : Totals) (file : FileManifest) : Totals := file.chunks.foldl addChunk totals

def addManifest (totals : Totals) (manifest : Manifest) : Totals :=
  manifest.files.foldl addFile
    { totals with totalInput := totals.totalInput + manifest.totalInputBytes }

def addVersions : Totals → List UInt64 → Op Totals
  | totals, [] => return totals
  | totals, version :: versions => do
    let manifest ← load version
    addVersions (addManifest totals manifest) versions

/-- What is printed, but for the two ratios. -/
structure Stats where
  versions : UInt64
  objects : UInt64
  objectBytes : UInt64
  totalInputBytes : UInt64
  totalChunks : UInt64
  uniqueChunks : UInt64
  duplicateChunks : UInt64
  deriving DecidableEq, Repr

def printStats : Op Stats := do
  let versions ← listCommittedVersions
  let objectStats ← ObjectStore.stats
  let totals ← addVersions ⟨0, 0, []⟩ versions
  let uniqueChunks := UInt64.ofNat totals.uniqueHashes.length
  let duplicateChunks :=
    if totals.totalChunks > uniqueChunks then totals.totalChunks - uniqueChunks else 0
  return ⟨UInt64.ofNat versions.length, objectStats.objectCount, objectStats.storedBytes,
    totals.totalInput, totals.totalChunks, uniqueChunks, duplicateChunks⟩

end Dpc.BackupCtl
