import Dpc.Common.Hash
import Dpc.Metadata.WalLog

namespace Dpc
open Text Endian

inductive PacketType where
  | hello
  | querySession
  | sessionStatus
  | putChunk
  | putChunkAck
  | commitSession
  | commitAck
  | error
  deriving DecidableEq, Repr

def PacketType.code : PacketType → Nat
  | .hello => 1
  | .querySession => 2
  | .sessionStatus => 3
  | .putChunk => 4
  | .putChunkAck => 5
  | .commitSession => 6
  | .commitAck => 7
  | .error => 8

def PacketType.ofCode : Nat → Option PacketType
  | 1 => some .hello
  | 2 => some .querySession
  | 3 => some .sessionStatus
  | 4 => some .putChunk
  | 5 => some .putChunkAck
  | 6 => some .commitSession
  | 7 => some .commitAck
  | 8 => some .error
  | _ => none

theorem PacketType.ofCode_code (type : PacketType) : ofCode type.code = some type := by
  cases type <;> rfl

theorem PacketType.code_lt (type : PacketType) : type.code < 256 ^ 2 := by
  cases type <;> decide

def zeroDigest : Digest := ⟨List.replicate 32 0, by simp⟩

structure Packet where
  type : PacketType
  sessionIdHash : UInt64
  chunkIndex : UInt64
  chunkSha256 : Digest
  payload : Bytes
  deriving DecidableEq

namespace PacketCodec

def kMagic : Nat := 0x44504350
def kVersion : Nat := 1
def kHeaderSize : Nat := 64
def kMaxPayloadSize : Nat := 8 * 1024 * 1024

/-- The header up to its checksum. -/
def headerStart (packet : Packet) : Bytes :=
  beBytes 4 kMagic ++ beBytes 2 kVersion ++ beBytes 2 packet.type.code ++
    beBytes 8 packet.sessionIdHash.toNat ++ beBytes 8 packet.chunkIndex.toNat ++
    beBytes 4 packet.payload.length

def encode (packet : Packet) : Except Exn Bytes :=
  if kMaxPayloadSize < packet.payload.length then .error (dpcError "packet payload too large")
  else
    let crc := WalLog.crc32 (headerStart packet ++ beBytes 4 0 ++ packet.chunkSha256.val)
    .ok (headerStart packet ++ beBytes 4 crc.toNat ++ packet.chunkSha256.val ++ packet.payload)

def get (n : Nat) (data : Bytes) (off : Nat) : Nat := beValue ((data.drop off).take n)

def zeroHeaderCrc (header : Bytes) : Bytes := header.take 28 ++ beBytes 4 0 ++ header.drop 32

def decode (frame : Bytes) : Except Exn Packet :=
  if hsize : frame.length < kHeaderSize then .error (dpcError "packet frame too small")
  else
    let header := frame.take kHeaderSize
    if get 4 header 0 ≠ kMagic then .error (dpcError "packet magic mismatch")
    else if get 2 header 4 ≠ kVersion then .error (dpcError "packet version mismatch")
    else match PacketType.ofCode (get 2 header 6) with
      | none => .error (dpcError "packet type mismatch")
      | some type =>
        let payloadSize := get 4 header 24
        if kMaxPayloadSize < payloadSize then .error (dpcError "packet payload too large")
        else if frame.length ≠ kHeaderSize + payloadSize then
          .error (dpcError "packet frame size mismatch")
        else if (WalLog.crc32 (zeroHeaderCrc header)).toNat ≠ get 4 header 28 then
          .error (dpcError "packet header crc mismatch")
        else .ok {
          type := type
          sessionIdHash := UInt64.ofNat (get 8 header 8)
          chunkIndex := UInt64.ofNat (get 8 header 16)
          chunkSha256 := ⟨(frame.drop 32).take 32, by
            simp only [List.length_take, List.length_drop]
            simp only [kHeaderSize] at hsize
            omega⟩
          payload := frame.drop kHeaderSize }

def sessionHash (sessionId : Bytes) : UInt64 :=
  sessionId.foldl (fun hash c => (hash ^^^ c.toUInt64) * 1099511628211) 1469598103934665603

def shaArrayFromHex (hex : Bytes) : Except Exn Digest := do
  let bytes ← Hash.hexToBytes hex
  if h : bytes.length = 32 then return ⟨bytes, h⟩
  else throw (dpcError "sha hex must be 32 bytes")

def shaHexFromArray (bytes : Digest) : Bytes := Hash.bytesToHex bytes.val

theorem length_headerStart (packet : Packet) : (headerStart packet).length = 28 := by
  simp [headerStart]

/-- A field in front of the offset is skipped. -/
theorem get_skip {n m v off : Nat} {rest : Bytes} (h : m ≤ off) :
    get n (beBytes m v ++ rest) off = get n rest (off - m) := by
  have hd : (beBytes m v).drop off = [] := List.drop_eq_nil_of_le (by simpa using h)
  simp [get, List.drop_append, hd]

theorem get_here {n v : Nat} {rest : Bytes} (h : v < 256 ^ n) :
    get n (beBytes n v ++ rest) 0 = v := by
  rw [get, List.drop_zero, List.take_left' (length_beBytes n v), beValue_beBytes h]

theorem zeroHeaderCrc_header (packet : Packet) (crc : Nat) :
    zeroHeaderCrc (headerStart packet ++ beBytes 4 crc ++ packet.chunkSha256.val) =
      headerStart packet ++ beBytes 4 0 ++ packet.chunkSha256.val := by
  have hstart := length_headerStart packet
  have htake : (headerStart packet ++ beBytes 4 crc ++ packet.chunkSha256.val).take 28 =
      headerStart packet := by
    rw [List.append_assoc, List.take_left' hstart]
  have hdrop : ((headerStart packet ++ beBytes 4 crc) ++ packet.chunkSha256.val).drop 32 =
      packet.chunkSha256.val := List.drop_left' (by simp [hstart])
  rw [zeroHeaderCrc, hdrop, htake]

theorem toNat_ofNat_toNat (n : UInt64) : UInt64.ofNat n.toNat = n := by simp

/-- A packet that was framed is the packet that is read. -/
theorem decode_encode {packet : Packet} {frame : Bytes} (h : encode packet = .ok frame) :
    decode frame = .ok packet := by
  unfold encode at h
  split at h
  · contradiction
  rename_i hpay
  simp only [Except.ok.injEq] at h
  generalize hcrc : WalLog.crc32 (headerStart packet ++ beBytes 4 0 ++ packet.chunkSha256.val) =
    crc at h
  have hsha := packet.chunkSha256.property
  have hstart := length_headerStart packet
  have hhead : frame.take kHeaderSize =
      headerStart packet ++ beBytes 4 crc.toNat ++ packet.chunkSha256.val := by
    rw [← h]
    refine List.take_left' ?_
    simp [hstart, hsha, kHeaderSize]
  have hpayload : frame.drop kHeaderSize = packet.payload := by
    rw [← h]
    refine List.drop_left' ?_
    simp [hstart, hsha, kHeaderSize]
  have hlen : frame.length = kHeaderSize + packet.payload.length := by
    rw [← h]
    simp [hstart, hsha, kHeaderSize]
    omega
  have hdigest : (frame.drop 32).take 32 = packet.chunkSha256.val := by
    rw [← h, List.append_assoc, List.drop_left' (by simp [hstart]), List.take_left' hsha]
  have hmax : packet.payload.length < 256 ^ 4 := by
    simp only [kMaxPayloadSize] at hpay
    omega
  have hmagic : kMagic < 256 ^ 4 := by decide
  have hversion : kVersion < 256 ^ 2 := by decide
  have htype := packet.type.code_lt
  have hsession : packet.sessionIdHash.toNat < 256 ^ 8 := packet.sessionIdHash.toNat_lt
  have hindex : packet.chunkIndex.toNat < 256 ^ 8 := packet.chunkIndex.toNat_lt
  have hcrc' : crc.toNat < 256 ^ 4 := crc.toNat_lt
  have hfields : get 4 (frame.take kHeaderSize) 0 = kMagic ∧
      get 2 (frame.take kHeaderSize) 4 = kVersion ∧
      get 2 (frame.take kHeaderSize) 6 = packet.type.code ∧
      get 8 (frame.take kHeaderSize) 8 = packet.sessionIdHash.toNat ∧
      get 8 (frame.take kHeaderSize) 16 = packet.chunkIndex.toNat ∧
      get 4 (frame.take kHeaderSize) 24 = packet.payload.length ∧
      get 4 (frame.take kHeaderSize) 28 = crc.toNat := by
    rw [hhead]
    simp only [headerStart, List.append_assoc]
    refine ⟨?_, ?_, ?_, ?_, ?_, ?_, ?_⟩
    · exact get_here hmagic
    · iterate 1 rw [get_skip (by omega)]
      exact get_here hversion
    · iterate 2 rw [get_skip (by omega)]
      exact get_here htype
    · iterate 3 rw [get_skip (by omega)]
      exact get_here hsession
    · iterate 4 rw [get_skip (by omega)]
      exact get_here hindex
    · iterate 5 rw [get_skip (by omega)]
      exact get_here hmax
    · iterate 6 rw [get_skip (by omega)]
      exact get_here hcrc'
  obtain ⟨h1, h2, h3, h4, h5, h6, h7⟩ := hfields
  have hsize : ¬frame.length < kHeaderSize := by omega
  have hz : (WalLog.crc32 (zeroHeaderCrc (frame.take kHeaderSize))).toNat = crc.toNat := by
    rw [hhead, zeroHeaderCrc_header, hcrc]
  rw [decode, dif_neg hsize]
  simp only [h1, h2, h3, h4, h5, h6, h7, hz, PacketType.ofCode_code, hpay, hlen, hpayload,
    hdigest, ne_eq, not_true_eq_false, if_false, toNat_ofNat_toNat]

end PacketCodec

end Dpc
