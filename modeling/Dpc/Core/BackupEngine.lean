import Dpc.Core.Chunkers
import Dpc.Core.ObjectStore
import Dpc.Metadata.Maintenance

namespace Dpc
open Text FileTree Effects

inductive FaultStage where
  | none
  | afterBegin
  | afterObjectWrite
  | afterManifestWrite
  | afterManifestRename
  | afterCommitMarker
  deriving DecidableEq, Repr

namespace FaultInjector

def toString : FaultStage → Bytes
  | .none => ascii "none"
  | .afterBegin => ascii "after-begin"
  | .afterObjectWrite => ascii "after-object-write"
  | .afterManifestWrite => ascii "after-manifest-write"
  | .afterManifestRename => ascii "after-manifest-rename"
  | .afterCommitMarker => ascii "after-commit-marker"

/-- `FaultInjectedCrash` is a `DpcError`. -/
def trigger (stage now : FaultStage) : Op Unit :=
  if stage = .none ∨ stage ≠ now then return ()
  else .throw (dpcErrorWith "injected crash at " (toString now))

end FaultInjector

/-- One file that the scanner found, with the answers that the source gives to the
calls made for it, each at its own time. -/
structure ScannedFile where
  relativePath : Bytes
  path_ne : relativePath ≠ []
  fileSize : Except Exn UInt64
  fileMode : Except Exn UInt32
  readFile : Except Exn Bytes

/-- What a backup sees of its source: the absolute path as text, and the scan, a vector. -/
structure Source where
  root : Bytes
  root_ne : root ≠ []
  scan : Except Exn (List ScannedFile)
  count : ∀ files, scan = .ok files → files.length < 2 ^ 64

namespace BackupEngine
open ManifestStore

structure Progress where
  manifest : Manifest
  result : BackupResult
  deriving DecidableEq, Repr

structure FileProgress (env : Env) where
  file : FileManifest
  hash : env.evp.Ctx
  chunkIndex : UInt64
  total : Progress

def countPut (put : PutObjectResult) (total : Progress) : Progress :=
  if put.inserted then
    { manifest := { total.manifest with
        totalStoredBytes := total.manifest.totalStoredBytes + put.compressedSize }
      result := { total.result with
        totalChunks := total.result.totalChunks + 1
        uniqueChunks := total.result.uniqueChunks + 1 } }
  else
    { total with
      result := { total.result with
        totalChunks := total.result.totalChunks + 1
        duplicateChunks := total.result.duplicateChunks + 1 } }

def putChunk (env : Env) (fault : FaultStage) (st : FileProgress env) (chunk : Chunk) :
    Op (FileProgress env) := do
  let put ← ObjectStore.putRaw env chunk.data
  WalLog.append env .putObject (put.sha256 ++ [space] ++ put.objectPath ++ [newline])
  FaultInjector.trigger fault .afterObjectWrite
  let ref : ChunkRef :=
    ⟨st.chunkIndex, put.rawSize, put.compressedSize, put.sha256, put.objectPath⟩
  return {
    file := { st.file with chunks := st.file.chunks ++ [ref] }
    hash := Hash.update env.evp st.hash chunk.data
    chunkIndex := st.chunkIndex + 1
    total := countPut put st.total }

def putChunks (env : Env) (fault : FaultStage) : FileProgress env → List Chunk →
    Op (FileProgress env)
  | st, [] => return st
  | st, chunk :: chunks => do
    let st ← putChunk env fault st chunk
    putChunks env fault st chunks

/-- The bytes that are read have to fit in memory. -/
def readChunks (env : Env) (mode : ChunkingMode) (scanned : ScannedFile) :
    Except Exn (List Chunk) := do
  let data ← scanned.readFile
  Compressor.allocate env data.length
  return chunkFile mode data

def backupFile (env : Env) (fault : FaultStage) (mode : ChunkingMode) (total : Progress)
    (scanned : ScannedFile) : Op Progress := do
  let fileSize ← .ofExcept scanned.fileSize
  let fileMode ← .ofExcept scanned.fileMode
  let chunks ← .ofExcept (readChunks env mode scanned)
  let st ← putChunks env fault
    ⟨⟨scanned.relativePath, fileSize, fileMode, [], []⟩, env.evp.init, 0, total⟩ chunks
  let file := { st.file with fileSha256 := Hash.finalHex env.evp st.hash }
  return { st.total with
    manifest := { st.total.manifest with
      totalInputBytes := st.total.manifest.totalInputBytes + file.fileSize
      files := st.total.manifest.files ++ [file] } }

def backupFiles (env : Env) (fault : FaultStage) (mode : ChunkingMode) :
    Progress → List ScannedFile → Op Progress
  | total, [] => return total
  | total, scanned :: files => do
    let total ← backupFile env fault mode total scanned
    backupFiles env fault mode total files

def versionPayload (version : UInt64) : Bytes := ascii "version=" ++ number version ++ [newline]

def started (version now : UInt64) (mode : ChunkingMode) (source : Source) : Progress where
  manifest := ⟨version, now, mode, source.root, 0, 0, []⟩
  result := ⟨version, 0, 0, 0, 0, 0, 0⟩

/-- `create` up to the complete manifest. -/
def buildManifest (env : Env) (now : UInt64) (fault : FaultStage) (source : Source)
    (mode : ChunkingMode) : Op Progress := do
  ObjectStore.ensureLayout
  let version ← nextVersion
  WalLog.append env .beginBackup (versionPayload version)
  FaultInjector.trigger fault .afterBegin
  let files ← .ofExcept source.scan
  backupFiles env fault mode (started version now mode source) files

/-- What `create` and the server do with a complete manifest. -/
def publish (env : Env) (fault : FaultStage) (manifest : Manifest) : Op Unit := do
  writeTmp env manifest.version manifest
  WalLog.append env .writeManifest (versionPayload manifest.version)
  FaultInjector.trigger fault .afterManifestWrite
  renameTmpToManifest manifest.version
  WalLog.append env .renameManifest (versionPayload manifest.version)
  FaultInjector.trigger fault .afterManifestRename
  CommitMarker.create env manifest.version
  FaultInjector.trigger fault .afterCommitMarker
  WalLog.append env .commitBackup (versionPayload manifest.version)
  let _ ← writeCheckpoint env

def create (env : Env) (now : UInt64) (fault : FaultStage) (source : Source)
    (mode : ChunkingMode) : Op BackupResult := do
  let built ← buildManifest env now fault source mode
  publish env fault built.manifest
  return { built.result with
    fileCount := UInt64.ofNat built.manifest.files.length
    totalInputBytes := built.manifest.totalInputBytes
    totalStoredBytes := built.manifest.totalStoredBytes }

end BackupEngine

end Dpc
