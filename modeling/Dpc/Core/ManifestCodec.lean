import Dpc.Common.FileUtils
import Dpc.Common.Hash

namespace Dpc.ManifestStore
open Text

/-- A number as `<<` prints it. -/
def number (n : UInt64) : Bytes := decimal n.toNat

def number32 (n : UInt32) : Bytes := decimal n.toNat

def hexEncodeString (value : Bytes) : Bytes := hexEncode value

def hexDecodeString (value : Bytes) : Except Exn Bytes :=
  if value.length % 2 ≠ 0 then .error (dpcError "invalid hex string length in manifest")
  else match hexDecode value with
    | some bytes => .ok bytes
    | none => .error (dpcError "invalid hex string in manifest")

def chunkWords (chunk : ChunkRef) : List Bytes :=
  [ascii "CHUNK", number chunk.chunkIndex, number chunk.rawSize, number chunk.compressedSize,
    chunk.sha256, hexEncodeString chunk.objectPath]

def fileWords (file : FileManifest) : List Bytes :=
  [ascii "FILE", hexEncodeString file.relativePath, number file.fileSize, number32 file.fileMode,
    file.fileSha256, number (UInt64.ofNat file.chunks.length)]

def fileLines (file : FileManifest) : List Bytes :=
  joinWith space (fileWords file) ::
    (file.chunks.map fun chunk => joinWith space (chunkWords chunk)) ++ [ascii "END_FILE"]

def headerLines (manifest : Manifest) : List Bytes :=
  [ascii "DPC_MANIFEST_V1",
    joinWith space [ascii "version", number manifest.version],
    joinWith space [ascii "created_at", number manifest.createdAt],
    joinWith space [ascii "chunking_mode", manifest.chunkingMode.toString],
    joinWith space [ascii "source_root_hex", hexEncodeString manifest.sourceRoot],
    joinWith space [ascii "file_count", number (UInt64.ofNat manifest.files.length)],
    joinWith space [ascii "total_input_bytes", number manifest.totalInputBytes],
    joinWith space [ascii "total_stored_bytes", number manifest.totalStoredBytes]]

def manifestLines (manifest : Manifest) : List Bytes :=
  headerLines manifest ++ manifest.files.flatMap fileLines ++ [ascii "END"]

def serialize (manifest : Manifest) : Bytes :=
  (manifestLines manifest).flatMap (· ++ [newline])

def stripCr (line : Bytes) : Bytes := if line.getLast? = some 13 then line.dropLast else line

def splitLines (text : Bytes) : List Bytes := (getlines text).map stripCr

/-- `parseNumber<T>`, for a type whose numbers lie below `bound`, at most 2^64. -/
def parseNumber (bound : Nat) (value : Bytes) (field : String) : Except Exn Nat :=
  if value = [] ∨ ¬value.all isDigit then
    .error (dpcErrorWith ("invalid manifest number for " ++ field ++ ": ") value)
  else if bound ≤ digitsValue value then
    .error (dpcErrorWith ("manifest number out of range for " ++ field ++ ": ") value)
  else .ok (digitsValue value)

def parseU64 (value : Bytes) (field : String) : Except Exn UInt64 :=
  (parseNumber (2 ^ 64) value field).map UInt64.ofNat

def parseU32 (value : Bytes) (field : String) : Except Exn UInt32 :=
  (parseNumber (2 ^ 32) value field).map UInt32.ofNat

def rejectExtraTokens (rest : List Bytes) (context : String) : Except Exn Unit :=
  match rest with
  | [] => .ok ()
  | extra :: _ => .error (dpcErrorWith ("unexpected token in " ++ context ++ ": ") extra)

/-- The value of a `key value` line, and the lines after it. -/
def consume (key : String) : List Bytes → Except Exn (Bytes × List Bytes)
  | [] => .error (dpcError ("manifest missing key: " ++ key))
  | line :: lines =>
    match words line with
    | actual :: value :: rest =>
      if actual ≠ ascii key then .error (dpcError ("manifest expected key: " ++ key))
      else do
        rejectExtraTokens rest ("manifest key " ++ key)
        return (value, lines)
    | _ => .error (dpcError ("manifest expected key: " ++ key))

def parseChunk (line : Bytes) : Except Exn ChunkRef :=
  match words line with
  | tag :: index :: raw :: compressed :: sha :: objectHex :: rest =>
    if tag ≠ ascii "CHUNK" then .error (dpcError "invalid CHUNK line in manifest")
    else do
      let chunkIndex ← parseU64 index "chunk_index"
      let rawSize ← parseU64 raw "raw_size"
      let compressedSize ← parseU64 compressed "compressed_size"
      let objectPath ← hexDecodeString objectHex
      Hash.requireSha256Hex sha "manifest chunk sha256"
      let _ ← FileUtils.safeRelativePath objectPath "manifest object_path"
      rejectExtraTokens rest "CHUNK line"
      return ⟨chunkIndex, rawSize, compressedSize, sha, objectPath⟩
  | _ => .error (dpcError "invalid CHUNK line in manifest")

def parseChunks : Nat → List Bytes → Except Exn (List ChunkRef × List Bytes)
  | 0, lines => .ok ([], lines)
  | _ + 1, [] => .error (dpcError "manifest ended inside chunks")
  | n + 1, line :: lines => do
    let chunk ← parseChunk line
    let (chunks, rest) ← parseChunks n lines
    return (chunk :: chunks, rest)

/-- A `FILE` line: the file without its chunks, and how many there are. -/
def parseFileLine (line : Bytes) : Except Exn (FileManifest × UInt64) :=
  match words line with
  | tag :: relHex :: fileSize :: fileMode :: sha :: chunkCount :: rest =>
    if tag ≠ ascii "FILE" then .error (dpcError "invalid FILE line in manifest")
    else do
      let fileSize ← parseU64 fileSize "file_size"
      let fileMode ← parseU32 fileMode "file_mode"
      let count ← parseU64 chunkCount "chunk_count"
      let relativePath ← hexDecodeString relHex
      let _ ← FileUtils.safeRelativePath relativePath "manifest relative_path"
      Hash.requireSha256Hex sha "manifest file_sha256"
      rejectExtraTokens rest "FILE line"
      return (⟨relativePath, fileSize, fileMode, sha, []⟩, count)
  | _ => .error (dpcError "invalid FILE line in manifest")

/-- The loop over the files. Each turn uses a line, so the number of lines is fuel
enough; it stops in front of `END` or where the lines end. -/
def parseFiles : Nat → List Bytes → Except Exn (List FileManifest × List Bytes)
  | 0, lines => .ok ([], lines)
  | _ + 1, [] => .ok ([], [])
  | n + 1, line :: lines =>
    if line = ascii "END" then .ok ([], line :: lines)
    else do
      let (file, count) ← parseFileLine line
      let (chunks, rest) ← parseChunks count.toNat lines
      match rest with
      | tag :: rest =>
        if tag ≠ ascii "END_FILE" then throw (dpcError "manifest missing END_FILE")
        else
          let (files, rest) ← parseFiles n rest
          return ({ file with chunks := chunks } :: files, rest)
      | [] => throw (dpcError "manifest missing END_FILE")

def parseMode (value : Bytes) : Except Exn ChunkingMode :=
  if value ≠ ascii "fixed" ∧ value ≠ ascii "cdc" then
    .error (dpcErrorWith "invalid manifest chunking_mode: " value)
  else .ok (chunkingModeFromString value)

/-- The lines before the files: a manifest without files, and how many there are. -/
def parseHeader (lines : List Bytes) : Except Exn (Manifest × UInt64 × List Bytes) := do
  let (version, lines) ← consume "version" lines
  let version ← parseU64 version "version"
  let (createdAt, lines) ← consume "created_at" lines
  let createdAt ← parseU64 createdAt "created_at"
  let (mode, lines) ← consume "chunking_mode" lines
  let chunkingMode ← parseMode mode
  let (root, lines) ← consume "source_root_hex" lines
  let sourceRoot ← hexDecodeString root
  let (count, lines) ← consume "file_count" lines
  let expectedFiles ← parseU64 count "file_count"
  let (input, lines) ← consume "total_input_bytes" lines
  let totalInputBytes ← parseU64 input "total_input_bytes"
  let (stored, lines) ← consume "total_stored_bytes" lines
  let totalStoredBytes ← parseU64 stored "total_stored_bytes"
  return (⟨version, createdAt, chunkingMode, sourceRoot, totalInputBytes, totalStoredBytes, []⟩,
    expectedFiles, lines)

def parse (text : Bytes) : Except Exn Manifest :=
  match splitLines text with
  | [] => .error (dpcError "invalid manifest header")
  | first :: lines =>
    if first ≠ ascii "DPC_MANIFEST_V1" then .error (dpcError "invalid manifest header")
    else do
      let (manifest, expectedFiles, lines) ← parseHeader lines
      let (files, rest) ← parseFiles lines.length lines
      match rest with
      | [] => throw (dpcError "manifest missing END")
      | tag :: rest =>
        if tag ≠ ascii "END" then throw (dpcError "manifest missing END")
        else if files.length ≠ expectedFiles.toNat then
          throw (dpcError "manifest file_count mismatch")
        else if rest ≠ [] then throw (dpcError "unexpected data after manifest END")
        else return { manifest with files := files }

end Dpc.ManifestStore
