import Dpc.Core.BackupEngine
import Dpc.Network.PacketCodec
import Dpc.Network.SessionIndex

namespace Dpc
open Text FileTree Effects

structure PutPayload where
  sessionId : Bytes
  relativePath : Bytes
  fileSize : UInt64
  fileMode : UInt32
  fileSha256 : Bytes
  chunkIndex : UInt64
  rawSize : UInt64
  compressedSize : UInt64
  compressed : Bytes
  deriving DecidableEq, Repr

namespace BackupServer
open ManifestStore

abbrev Fields := List (Bytes × Bytes)

/-- Key and value by turns; a key without a value is dropped. -/
def pairUp : List Bytes → Fields
  | key :: value :: rest => (key, value) :: pairUp rest
  | _ => []

def parseTextFields (text : Bytes) (expectedHeader : String) : Except Exn Fields :=
  let header := (words text).head?.getD []
  if header ≠ ascii expectedHeader then .error (dpcErrorWith "invalid payload header: " header)
  else .ok (pairUp (words text).tail)

/-- Of two fields with one key the later one counts. -/
def field (fields : Fields) (key : String) : Except Exn Bytes :=
  match fields.reverse.find? (·.1 == ascii key) with
  | some found => .ok found.2
  | none => .error (dpcError ("missing payload field: " ++ key))

/-- `std::stoull`: what follows the digits is ignored. -/
def stoull (text : Bytes) : Except Exn UInt64 :=
  let (negative, digits, _) := scanNumber text
  if digits = [] then .error .invalidArgument
  else if 2 ^ 64 ≤ digitsValue digits then .error .outOfRange
  else .ok (UInt64.ofNat (signed (2 ^ 64) negative (digitsValue digits)))

def parseU64 (fields : Fields) (key : String) : Except Exn UInt64 := do
  let text ← field fields key
  stoull text

/-- What stands before and after the first blank line. -/
def splitBlankLine : Bytes → Option (Bytes × Bytes)
  | [] => none
  | [_] => none
  | a :: b :: rest =>
    if a = newline ∧ b = newline then some ([], rest)
    else (splitBlankLine (b :: rest)).map fun (header, body) => (a :: header, body)

def parsePutPayload (payload : Bytes) : Except Exn PutPayload :=
  match splitBlankLine payload with
  | none => .error (dpcError "PUT_CHUNK payload missing metadata separator")
  | some (header, body) => do
    let fields ← parseTextFields header "DPC_PUT_V1"
    let sessionHex ← field fields "session_hex"
    let sessionId ← hexDecodeString sessionHex
    let relativeHex ← field fields "relative_path_hex"
    let relativePath ← hexDecodeString relativeHex
    let fileSize ← parseU64 fields "file_size"
    let fileMode ← parseU64 fields "file_mode"
    let fileSha256 ← field fields "file_sha256"
    let chunkIndex ← parseU64 fields "chunk_index"
    let rawSize ← parseU64 fields "raw_size"
    let compressedSize ← parseU64 fields "compressed_size"
    if size body ≠ compressedSize then throw (dpcError "PUT_CHUNK compressed size mismatch")
    return ⟨sessionId, relativePath, fileSize, fileMode.toUInt32, fileSha256, chunkIndex, rawSize,
      compressedSize, body⟩

/-- `sendText`: the frame that goes to the client. -/
def sendText (type : PacketType) (sessionHash : UInt64) (text : Bytes) : Except Exn Bytes :=
  PacketCodec.encode ⟨type, sessionHash, 0, zeroDigest, text⟩

def statusText (received : List (UInt64 × Bytes)) : Bytes :=
  ascii "DPC_SESSION_STATUS_V1" ++ [newline] ++
    received.flatMap fun (i, sha) => number i ++ [space] ++ sha ++ [newline]

def querySession (packet : Packet) (memory : Option Nat := none) : Op Bytes := do
  let fields ← .ofExcept (parseTextFields packet.payload "DPC_QUERY_SESSION_V1")
  let sessionHex ← .ofExcept (field fields "session_hex")
  let sessionId ← .ofExcept (hexDecodeString sessionHex)
  let received ← SessionIndex.received sessionId memory
  .ofExcept (sendText .sessionStatus packet.sessionIdHash (statusText received))

def recordOf (packet : Packet) (put : PutPayload) (stored : PutObjectResult) :
    ReceivedChunkRecord :=
  ⟨packet.chunkIndex, stored.sha256, put.relativePath, put.fileSize, put.fileMode, put.fileSha256,
    put.chunkIndex, put.rawSize, stored.compressedSize, stored.objectPath⟩

/-- The chunk of a packet, unpacked: its description and its hash. -/
def openPut (env : Env) (packet : Packet) : Except Exn (PutPayload × Bytes) := do
  let put ← parsePutPayload packet.payload
  let raw ← Compressor.decompress env put.compressed put.rawSize
  let sha := Hash.sha256Hex env.evp raw
  if sha ≠ PacketCodec.shaHexFromArray packet.chunkSha256 then
    throw (dpcError "PUT_CHUNK checksum mismatch")
  return (put, sha)

def putChunk (env : Env) (packet : Packet) (memory : Option Nat := none) : Op Bytes := do
  let (put, sha) ← .ofExcept (openPut env packet)
  let stored ← ObjectStore.putCompressed env sha put.compressed put.rawSize memory
  SessionIndex.appendChunk env put.sessionId (recordOf packet put stored) memory
  .ofExcept (sendText .putChunkAck packet.sessionIdHash (ascii "ok" ++ [newline]))

/-- The session and the number of chunks that a commit names. -/
def openCommit (packet : Packet) : Except Exn (Bytes × UInt64) := do
  let fields ← parseTextFields packet.payload "DPC_COMMIT_V1"
  let sessionHex ← field fields "session_hex"
  let sessionId ← hexDecodeString sessionHex
  let totalChunks ← parseU64 fields "total_chunks"
  return (sessionId, totalChunks)

/-- A commit up to the complete manifest. -/
def buildManifest (env : Env) (now : UInt64) (packet : Packet) (memory : Option Nat := none) :
    Op (Bytes × Manifest) := do
  let (sessionId, totalChunks) ← .ofExcept (openCommit packet)
  let version ← nextVersion
  WalLog.append env .beginBackup (ascii "network-version=" ++ number version ++ [newline])
  let manifest ← SessionIndex.buildManifest env sessionId version totalChunks now memory
  return (sessionId, manifest)

def commitText (version : UInt64) : Bytes :=
  ascii "committed_version " ++ number version ++ [newline]

def commitSession (env : Env) (now : UInt64) (packet : Packet) (memory : Option Nat := none) :
    Op Bytes := do
  let (sessionId, manifest) ← buildManifest env now packet memory
  BackupEngine.publish env .none manifest
  SessionIndex.markCommitted env sessionId manifest.version
  .ofExcept (sendText .commitAck packet.sessionIdHash (commitText manifest.version))

/-- `memory` is the most that a session file or an object can take when it is read; without it
there is room for every one. -/
def handlePacket (env : Env) (now : UInt64) (packet : Packet) (memory : Option Nat := none) :
    Op Bytes :=
  match packet.type with
  | .hello =>
    .ofExcept (sendText .hello packet.sessionIdHash (ascii "DPC_SERVER_V1" ++ [newline]))
  | .querySession => querySession packet memory
  | .putChunk => putChunk env packet memory
  | .commitSession => commitSession env now packet memory
  | _ => .throw (dpcError "unsupported packet type")

/-- One turn of `handleConnection`: the frame that goes back. A `DpcError` is answered
by an error packet; an answer too large to send is not sent, and the client sees the
connection closed. Another exception ends the process. -/
def handleConnection (env : Env) (now : UInt64) (frame : Bytes) : Op Bytes := do
  let reply ← Prog.attempt do
    let packet ← .ofExcept (PacketCodec.decode frame)
    handlePacket env now packet
  match reply with
  | .ok reply => return reply
  | .error (.dpc message) =>
    match sendText .error 0 (message ++ [newline]) with
    | .ok reply => return reply
    | .error _ => .throw (dpcError "socket closed")
  | .error e => .throw e

end BackupServer

end Dpc
