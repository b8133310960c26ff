import Dpc.Network.BackupServer

namespace Dpc
open Text FileTree Effects

structure PreparedChunk where
  globalIndex : UInt64
  relativePath : Bytes
  fileSize : UInt64
  fileMode : UInt32
  fileSha256 : Bytes
  chunkIndex : UInt64
  chunkSha256 : Bytes
  raw : Bytes
  compressed : Bytes
  deriving DecidableEq, Repr

namespace TransferSession

def prepareFileChunks (env : Env) (path : Bytes) (fileSize : UInt64) (fileMode : UInt32)
    (fileSha256 : Bytes) : UInt64 → List Chunk → Except Exn (List PreparedChunk)
  | _, [] => .ok []
  | index, chunk :: chunks => do
    let compressed ← Compressor.compress env chunk.data
    let rest ← prepareFileChunks env path fileSize fileMode fileSha256 (index + 1) chunks
    return ⟨index, path, fileSize, fileMode, fileSha256, chunk.index,
      Hash.sha256Hex env.evp chunk.data, chunk.data, compressed⟩ :: rest

/-- One file; its two reads give the same bytes. -/
def prepareFile (env : Env) (index : UInt64) (file : ScannedFile) :
    Except Exn (List PreparedChunk) := do
  let data ← file.readFile
  let fileSha256 := Hash.sha256File env.evp data
  let fileSize ← file.fileSize
  let fileMode ← file.fileMode
  let chunks ← BackupEngine.readChunks env .fixed file
  prepareFileChunks env file.relativePath fileSize fileMode fileSha256 index chunks

def prepareFiles (env : Env) : UInt64 → List ScannedFile → Except Exn (List PreparedChunk)
  | _, [] => .ok []
  | index, file :: files => do
    let chunks ← prepareFile env index file
    let rest ← prepareFiles env (index + UInt64.ofNat chunks.length) files
    return chunks ++ rest

def prepareChunks (env : Env) (source : Source) : Except Exn (List PreparedChunk) := do
  let files ← source.scan
  prepareFiles env 0 files

end TransferSession

namespace BackupClient
open ManifestStore

def requireNotError (packet : Packet) : Except Exn Unit :=
  if packet.type = .error then .error (dpcErrorWith "server error: " packet.payload)
  else .ok ()

/-- The loop over the pairs of a status, as far as they can be read. -/
def statusPairs : Nat → Bytes → List (UInt64 × Bytes)
  | 0, _ => []
  | fuel + 1, bs =>
    match SessionIndex.getU64 bs with
    | none => []
    | some (index, bs) =>
      match getWord bs with
      | none => []
      | some (sha, bs) => (index, sha) :: statusPairs fuel bs

def parseStatus (packet : Packet) : Except Exn (List (UInt64 × Bytes)) := do
  requireNotError packet
  if packet.type ≠ .sessionStatus then throw (dpcError "expected SESSION_STATUS packet")
  match getWord packet.payload with
  | some (header, bs) =>
    if header ≠ ascii "DPC_SESSION_STATUS_V1" then
      throw (dpcError "invalid session status payload")
    return statusPairs bs.length bs
  | none => throw (dpcError "invalid session status payload")

/-- Of two entries with one index the later one counts. -/
def lookup (received : List (UInt64 × Bytes)) (index : UInt64) : Option Bytes :=
  (received.reverse.find? (·.1 == index)).map (·.2)

def putHeader (sessionId : Bytes) (chunk : PreparedChunk) : List (Bytes × Bytes) :=
  [(ascii "session_hex", hexEncodeString sessionId),
    (ascii "relative_path_hex", hexEncodeString chunk.relativePath),
    (ascii "file_size", number chunk.fileSize),
    (ascii "file_mode", number32 chunk.fileMode),
    (ascii "file_sha256", chunk.fileSha256),
    (ascii "chunk_index", number chunk.chunkIndex),
    (ascii "raw_size", number (size chunk.raw)),
    (ascii "compressed_size", number (size chunk.compressed))]

/-- A header line and one line for each field. -/
def textFields (header : String) (fields : List (Bytes × Bytes)) : Bytes :=
  ascii header ++ [newline] ++
    fields.flatMap fun (key, value) => key ++ [space] ++ value ++ [newline]

def makePutPayload (sessionId : Bytes) (chunk : PreparedChunk) : Bytes :=
  textFields "DPC_PUT_V1" (putHeader sessionId chunk) ++ [newline] ++ chunk.compressed

def commitPayload (sessionId : Bytes) (totalChunks : UInt64) : Bytes :=
  textFields "DPC_COMMIT_V1"
    [(ascii "session_hex", hexEncodeString sessionId), (ascii "total_chunks", number totalChunks)]

/-- Send a packet and wait for the answer. -/
def exchange (env : Env) (now : UInt64) (packet : Packet) : Op Packet := do
  let frame ← .ofExcept (PacketCodec.encode packet)
  let reply ← BackupServer.handleConnection env now frame
  .ofExcept (PacketCodec.decode reply)

def sendChunk (env : Env) (now : UInt64) (sessionId : Bytes) (chunk : PreparedChunk) :
    Op Unit := do
  let sha ← .ofExcept (PacketCodec.shaArrayFromHex chunk.chunkSha256)
  let ack ← exchange env now ⟨.putChunk, PacketCodec.sessionHash sessionId, chunk.globalIndex, sha,
    makePutPayload sessionId chunk⟩
  .ofExcept (requireNotError ack)
  if ack.type ≠ .putChunkAck then .throw (dpcError "expected PUT_CHUNK_ACK packet")
  else return ()

/-- The loop over the chunks; `false` when it ends after the number of chunks that was
asked for. -/
def sendChunks (env : Env) (now : UInt64) (sessionId : Bytes) (exitAfterChunks : UInt64)
    (received : List (UInt64 × Bytes)) : UInt64 → List PreparedChunk → Op Bool
  | _, [] => return true
  | sent, chunk :: chunks => do
    if lookup received chunk.globalIndex = some chunk.chunkSha256 then
      sendChunks env now sessionId exitAfterChunks received sent chunks
    else
      sendChunk env now sessionId chunk
      if 0 < exitAfterChunks ∧ exitAfterChunks ≤ sent + 1 then return false
      else sendChunks env now sessionId exitAfterChunks received (sent + 1) chunks

def commit (env : Env) (now : UInt64) (sessionId : Bytes) (totalChunks : UInt64) : Op Bytes := do
  let ack ← exchange env now ⟨.commitSession, PacketCodec.sessionHash sessionId, 0, zeroDigest,
    commitPayload sessionId totalChunks⟩
  .ofExcept (requireNotError ack)
  if ack.type ≠ .commitAck then .throw (dpcError "expected COMMIT_ACK packet")
  else return ack.payload

/-- What an upload prints: the answer to its commit; nothing when it ends before. -/
def upload (env : Env) (now : UInt64) (source : Source) (sessionId : Bytes)
    (exitAfterChunks : UInt64) : Op (Option Bytes) := do
  let chunks ← .ofExcept (TransferSession.prepareChunks env source)
  let sessionHash := PacketCodec.sessionHash sessionId
  let hello ← exchange env now
    ⟨.hello, sessionHash, 0, zeroDigest, ascii "DPC_CLIENT_V1" ++ [newline]⟩
  .ofExcept (requireNotError hello)
  let status ← exchange env now ⟨.querySession, sessionHash, 0, zeroDigest,
    textFields "DPC_QUERY_SESSION_V1" [(ascii "session_hex", hexEncodeString sessionId)]⟩
  let received ← .ofExcept (parseStatus status)
  if ← sendChunks env now sessionId exitAfterChunks received 0 chunks then
    let ack ← commit env now sessionId (UInt64.ofNat chunks.length)
    return some ack
  else return none

end BackupClient

end Dpc
