import Dpc.Common.FileUtils
import Dpc.Core.Compressor
import Dpc.Lib.Endian

namespace Dpc
open Text FileTree Effects Endian

inductive WalRecordType where
  | beginBackup
  | putObject
  | writeManifest
  | renameManifest
  | commitBackup
  | checkpoint
  | compact
  deriving DecidableEq, Repr

def WalRecordType.code : WalRecordType → Nat
  | .beginBackup => 1
  | .putObject => 2
  | .writeManifest => 3
  | .renameManifest => 4
  | .commitBackup => 5
  | .checkpoint => 6
  | .compact => 7

def WalRecordType.ofCode : Nat → Option WalRecordType
  | 1 => some .beginBackup
  | 2 => some .putObject
  | 3 => some .writeManifest
  | 4 => some .renameManifest
  | 5 => some .commitBackup
  | 6 => some .checkpoint
  | 7 => some .compact
  | _ => none

structure WalRecord where
  type : WalRecordType
  payload : Bytes
  deriving DecidableEq, Repr

namespace WalLog

def kWalMagic : Nat := 0x44505741
def kWalVersion : Nat := 1
def kHeaderSize : Nat := 16
def kMaxPayloadSize : Nat := 8 * 1024 * 1024

def walPath : Path := [ascii "metadata", ascii "wal.log"]

def crcBit (crc : UInt32) : UInt32 := (crc >>> 1) ^^^ (0xedb88320 &&& (0 - (crc &&& 1)))

def crcByte (crc : UInt32) (b : UInt8) : UInt32 :=
  (List.range 8).foldl (fun c _ => crcBit c) (crc ^^^ b.toUInt32)

def crc32 (data : Bytes) : UInt32 := ~~~(data.foldl crcByte 0xffffffff)

def get16 (data : Bytes) (off : Nat) : Nat := leValue ((data.drop off).take 2)
def get32 (data : Bytes) (off : Nat) : Nat := leValue ((data.drop off).take 4)

def encodeRecord (type : WalRecordType) (payload : Bytes) : Except Exn Bytes :=
  if kMaxPayloadSize < payload.length then .error (dpcError "wal payload too large")
  else .ok (leBytes 4 kWalMagic ++ leBytes 2 kWalVersion ++ leBytes 2 type.code ++
    leBytes 4 payload.length ++ leBytes 4 (crc32 payload).toNat ++ payload)

def decodeRecord (encoded : Bytes) : Except Exn WalRecord :=
  if encoded.length < kHeaderSize then .error (dpcError "wal record too small")
  else if get32 encoded 0 ≠ kWalMagic then .error (dpcError "wal magic mismatch")
  else if get16 encoded 4 ≠ kWalVersion then .error (dpcError "wal version mismatch")
  else match WalRecordType.ofCode (get16 encoded 6) with
    | none => .error (dpcError "wal record type mismatch")
    | some type =>
      if kMaxPayloadSize < get32 encoded 8 then .error (dpcError "wal payload too large")
      else if encoded.length ≠ kHeaderSize + get32 encoded 8 then
        .error (dpcError "wal record size mismatch")
      else
        let payload := encoded.drop kHeaderSize
        if (crc32 payload).toNat ≠ get32 encoded 12 then .error (dpcError "wal crc mismatch")
        else .ok ⟨type, payload⟩

def append (env : Env) (type : WalRecordType) (payload : Bytes) : Op Unit := do
  FileUtils.ensureDirectory walPath.dropLast
  let encoded ← .ofExcept (encodeRecord type payload)
  .perform (.append walPath encoded (0o644 &&& ~~~env.umask) (dpcError "open wal failed"))

/-- The loop over the records. Each turn uses a header at least, so the number of bytes
is fuel enough. -/
def readRecords : Nat → Bytes → Except Exn (List WalRecord)
  | 0, _ => .ok []
  | fuel + 1, data =>
    if data = [] then .ok []
    else if data.length < kHeaderSize then .error (dpcError "wal truncated in record header")
    else
      let payloadSize := get32 data 8
      if kMaxPayloadSize < payloadSize then .error (dpcError "wal payload too large")
      else
        let recordSize := kHeaderSize + payloadSize
        if data.length < recordSize then .error (dpcError "wal truncated in record payload")
        else do
          let record ← decodeRecord (data.take recordSize)
          let records ← readRecords fuel (data.drop recordSize)
          return record :: records

def readAll : Op (List WalRecord) := do
  if ← FileUtils.pathExists walPath then
    let data ← FileUtils.readFile walPath
    .ofExcept (readRecords data.length data)
  else return []

def encodeRecords : List WalRecord → Except Exn Bytes
  | [] => .ok []
  | record :: records => do
    let encoded ← encodeRecord record.type record.payload
    let data ← encodeRecords records
    return encoded ++ data

def replaceWith (env : Env) (records : List WalRecord) : Op Unit := do
  let data ← .ofExcept (encodeRecords records)
  FileUtils.writeFileAtomic env.umask walPath data 0o644

end WalLog

end Dpc
