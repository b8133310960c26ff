import Dpc.Core.ManifestStore
import Dpc.Lib.Extract
import Std.Data.TreeMap.Lemmas

namespace Dpc
open Text FileTree Effects

structure ReceivedChunkRecord where
  globalIndex : UInt64
  sha256 : Bytes
  relativePath : Bytes
  fileSize : UInt64
  fileMode : UInt32
  fileSha256 : Bytes
  chunkIndex : UInt64
  rawSize : UInt64
  compressedSize : UInt64
  objectPath : Bytes
  deriving DecidableEq, Repr

namespace SessionIndex
open ManifestStore

def sessionsDir : Path := [ascii "metadata", ascii "sessions"]

def path (sessionId : Bytes) : Path :=
  sessionsDir ++ [hexEncodeString sessionId ++ ascii ".session"]

def getU64 (bs : Bytes) : Option (UInt64 × Bytes) :=
  (getNumber (2 ^ 64) bs).map fun (n, rest) => (UInt64.ofNat n, rest)

def getU32 (bs : Bytes) : Option (UInt32 × Bytes) :=
  (getNumber (2 ^ 32) bs).map fun (n, rest) => (UInt32.ofNat n, rest)

/-- A `CHUNK` record after its tag; the two paths are still in hex. -/
def getRecord (bs : Bytes) : Option (ReceivedChunkRecord × Bytes) := do
  let (globalIndex, bs) ← getU64 bs
  let (sha256, bs) ← getWord bs
  let (relHex, bs) ← getWord bs
  let (fileSize, bs) ← getU64 bs
  let (fileMode, bs) ← getU32 bs
  let (fileSha256, bs) ← getWord bs
  let (chunkIndex, bs) ← getU64 bs
  let (rawSize, bs) ← getU64 bs
  let (compressedSize, bs) ← getU64 bs
  let (objHex, bs) ← getWord bs
  return (⟨globalIndex, sha256, relHex, fileSize, fileMode, fileSha256, chunkIndex, rawSize,
    compressedSize, objHex⟩, bs)

/-- The loop over the tags. Each turn takes a tag off, so the number of bytes is fuel
enough. -/
def parseRecords : Nat → Bytes → Except Exn (List ReceivedChunkRecord)
  | 0, _ => .ok []
  | fuel + 1, bs =>
    match getWord bs with
    | none => .ok []
    | some (tag, bs) =>
      if tag = ascii "CHUNK" then
        match getRecord bs with
        | none => .error (dpcError "invalid session CHUNK record")
        | some (r, bs) => do
          let relativePath ← hexDecodeString r.relativePath
          let objectPath ← hexDecodeString r.objectPath
          let records ← parseRecords fuel bs
          return { r with relativePath := relativePath, objectPath := objectPath } :: records
      else if tag = ascii "COMMITTED" then parseRecords fuel (skipLine bs)
      else .error (dpcErrorWith "invalid session index tag: " tag)

def records (sessionId : Bytes) (memory : Option Nat := none) : Op (List ReceivedChunkRecord) := do
  if ← FileUtils.pathExists (path sessionId) then
    let text ← FileUtils.readTextFile (path sessionId) memory
    .ofExcept (parseRecords text.length text)
  else return []

/-- Records by global index; a later one takes the place of an earlier. -/
def byGlobal (records : List ReceivedChunkRecord) : Std.TreeMap UInt64 ReceivedChunkRecord :=
  records.foldl (fun map r => map.insert r.globalIndex r) ∅

def received (sessionId : Bytes) (memory : Option Nat := none) : Op (List (UInt64 × Bytes)) := do
  let records ← records sessionId memory
  return (byGlobal records).toList.map fun (i, r) => (i, r.sha256)

def recordWords (r : ReceivedChunkRecord) : List Bytes :=
  [ascii "CHUNK", number r.globalIndex, r.sha256, hexEncodeString r.relativePath,
    number r.fileSize, number32 r.fileMode, r.fileSha256, number r.chunkIndex, number r.rawSize,
    number r.compressedSize, hexEncodeString r.objectPath]

def recordLine (r : ReceivedChunkRecord) : Bytes := joinWith space (recordWords r) ++ [newline]

def committedLine (version : UInt64) : Bytes :=
  joinWith space [ascii "COMMITTED", number version] ++ [newline]

/-- Output to the session file, opened for appending. -/
def appendLine (env : Env) (sessionId line : Bytes) : Op Unit := do
  FileUtils.ensureDirectory sessionsDir
  .perform (.append (path sessionId) line (0o666 &&& ~~~env.umask)
    (dpcError "open session index failed: "))

def appendChunk (env : Env) (sessionId : Bytes) (record : ReceivedChunkRecord)
    (memory : Option Nat := none) : Op Unit := do
  let existing ← received sessionId memory
  match existing.find? (·.1 == record.globalIndex) with
  | some found =>
    if found.2 ≠ record.sha256 then
      .throw (dpcError "session index checksum mismatch for duplicate chunk index")
    else return ()
  | none => appendLine env sessionId (recordLine record)

/-- The first of `n` indices from `i` on that is not present. -/
def firstMissing (present : UInt64 → Bool) : Nat → UInt64 → Option UInt64
  | 0, _ => none
  | n + 1, i => if present i then firstMissing present n (i + 1) else some i

structure Grouped where
  files : Std.TreeMap Bytes FileManifest
  uniqueHashes : List Bytes
  totalInputBytes : UInt64
  totalStoredBytes : UInt64

def emptyFile : FileManifest := ⟨[], 0, 0o644, [], []⟩

def refOf (r : ReceivedChunkRecord) : ChunkRef :=
  ⟨r.chunkIndex, r.rawSize, r.compressedSize, r.sha256, r.objectPath⟩

/-- Put one record with its file; the first record of a file tells about the file. -/
def group (g : Grouped) (r : ReceivedChunkRecord) : Grouped :=
  let file := g.files.getD r.relativePath emptyFile
  let isNew := file.relativePath = []
  let file :=
    if isNew then
      { file with
        relativePath := r.relativePath, fileSize := r.fileSize, fileMode := r.fileMode
        fileSha256 := r.fileSha256 }
    else file
  { files := g.files.insert r.relativePath { file with chunks := file.chunks ++ [refOf r] }
    uniqueHashes := if r.sha256 ∈ g.uniqueHashes then g.uniqueHashes else r.sha256 :: g.uniqueHashes
    totalInputBytes := if isNew then g.totalInputBytes + r.fileSize else g.totalInputBytes
    totalStoredBytes :=
      if r.sha256 ∈ g.uniqueHashes then g.totalStoredBytes
      else g.totalStoredBytes + r.compressedSize }

def sortChunks (env : Env) (file : FileManifest) : FileManifest :=
  { file with chunks := env.chunkOrder.sort file.chunks }

def sourceRoot (sessionId : Bytes) : Bytes := ascii "network-session:" ++ sessionId

/-- The manifest of the records of a session. -/
def manifestOf (env : Env) (sessionId : Bytes) (version now : UInt64)
    (records : List ReceivedChunkRecord) : Manifest :=
  let g := ((byGlobal records).toList.map (·.2)).foldl group ⟨∅, [], 0, 0⟩
  ⟨version, now, .fixed, sourceRoot sessionId, g.totalInputBytes, g.totalStoredBytes,
    g.files.toList.map fun (_, file) => sortChunks env file⟩

def buildManifest (env : Env) (sessionId : Bytes) (version totalChunks now : UInt64)
    (memory : Option Nat := none) : Op Manifest := do
  let records ← records sessionId memory
  match firstMissing (byGlobal records).contains totalChunks.toNat 0 with
  | some i => .throw (dpcErrorWith "session is missing chunk index " (number i))
  | none => return manifestOf env sessionId version now records

def markCommitted (env : Env) (sessionId : Bytes) (version : UInt64) : Op Unit :=
  appendLine env sessionId (committedLine version)

end SessionIndex

end Dpc
