import Dpc.Lib.Dialog
import Dpc.Lib.Mirrors
import Dpc.Network.BackupClient
import Dpc.Network.PacketStream

/-! An upload over a socket: both sides write frames and read them in pieces. -/

namespace Dpc
open Text FileTree Effects Dialog

namespace PacketCodec

/-- How many bytes `readPacket` asks for, when it has these: of the header, then of the payload. -/
def need (got : Bytes) : Nat :=
  if got.length < kHeaderSize then kHeaderSize - got.length
  else if kMaxPayloadSize < get 4 got 24 then 0
  else kHeaderSize + get 4 got 24 - got.length

/-- What `readPacket` makes of the bytes when it has read them. -/
def opened (got : Bytes) : Except Exn Packet :=
  if kMaxPayloadSize < get 4 got 24 then .error (dpcError "packet payload too large")
  else decode got

end PacketCodec

namespace BackupServer

/-- One turn of the loop in `handleConnection`: what it writes, and whether it goes on. After an error
it does not; an exception that is no `DpcError` ends the process. -/
def turn (env : Env) (now : UInt64) (frame : Bytes) : Op (Bytes × Bool) := do
  let reply ← Prog.attempt do
    let packet ← .ofExcept (PacketCodec.opened frame)
    handlePacket env now packet
  match reply with
  | .ok reply => return (reply, true)
  | .error (.dpc message) =>
    match sendText .error 0 (message ++ [newline]) with
    | .ok reply => return (reply, false)
    | .error _ => .throw (dpcError "socket closed")
  | .error e => .throw e

end BackupServer

namespace BackupClient
open ManifestStore

/-- A client of the server over its socket. -/
abbrev Caller := Client UInt8 Exn (Option Bytes)

/-- What the client computes by itself; it gives up when that fails. -/
def check {α : Type} : Except Exn α → (α → Caller) → Caller
  | .ok a, k => k a
  | .error e, _ => .done (.error e)

/-- `writePacket`, and `readPacket` for the answer. -/
def ask (packet : Packet) (k : Packet → Caller) : Caller :=
  check (PacketCodec.encode packet) fun frame =>
    .ask frame (fun reply => check (PacketCodec.opened reply) k) (.error (dpcError "socket closed"))

def chunkPacket (sessionId : Bytes) (chunk : PreparedChunk) : Except Exn Packet := do
  let sha ← PacketCodec.shaArrayFromHex chunk.chunkSha256
  return ⟨.putChunk, PacketCodec.sessionHash sessionId, chunk.globalIndex, sha,
    makePutPayload sessionId chunk⟩

/-- The loop over the chunks, and what comes after it. -/
def callChunks (sessionId : Bytes) (exitAfterChunks : UInt64) (received : List (UInt64 × Bytes))
    (k : Bool → Caller) : UInt64 → List PreparedChunk → Caller
  | _, [] => k true
  | sent, chunk :: chunks =>
    if lookup received chunk.globalIndex = some chunk.chunkSha256 then
      callChunks sessionId exitAfterChunks received k sent chunks
    else
      check (chunkPacket sessionId chunk) fun put =>
        ask put fun ack =>
          check (requireNotError ack) fun _ =>
            if ack.type ≠ .putChunkAck then .done (.error (dpcError "expected PUT_CHUNK_ACK packet"))
            else if 0 < exitAfterChunks ∧ exitAfterChunks ≤ sent + 1 then k false
            else callChunks sessionId exitAfterChunks received k (sent + 1) chunks

def callCommit (sessionId : Bytes) (totalChunks : UInt64) : Caller :=
  ask ⟨.commitSession, PacketCodec.sessionHash sessionId, 0, zeroDigest,
      commitPayload sessionId totalChunks⟩ fun ack =>
    check (requireNotError ack) fun _ =>
      if ack.type ≠ .commitAck then .done (.error (dpcError "expected COMMIT_ACK packet"))
      else .done (.ok (some ack.payload))

/-- `upload` from where it is connected. -/
def callUpload (sessionId : Bytes) (exitAfterChunks : UInt64) (chunks : List PreparedChunk) :
    Caller :=
  let sessionHash := PacketCodec.sessionHash sessionId
  ask ⟨.hello, sessionHash, 0, zeroDigest, ascii "DPC_CLIENT_V1" ++ [newline]⟩ fun hello =>
    check (requireNotError hello) fun _ =>
      ask ⟨.querySession, sessionHash, 0, zeroDigest,
          textFields "DPC_QUERY_SESSION_V1" [(ascii "session_hex", hexEncodeString sessionId)]⟩
        fun status => check (parseStatus status) fun received =>
          callChunks sessionId exitAfterChunks received
            (fun all =>
              if all then callCommit sessionId (UInt64.ofNat chunks.length) else .done (.ok none))
            0 chunks

end BackupClient

namespace PacketCodec
open Endian

variable {packet : Packet} {frame : Bytes}

theorem get_append {n off : Nat} {a b : Bytes} (h : off + n ≤ a.length) :
    get n (a ++ b) off = get n a off := by
  rw [get, get, List.drop_append_of_le_length (by omega),
    List.take_append_of_le_length (by rw [List.length_drop]; omega)]

/-- The length of the payload is in the header, and not too large. -/
theorem payload_encode (h : encode packet = .ok frame) :
    frame.length = kHeaderSize + get 4 frame 24 ∧ get 4 frame 24 ≤ kMaxPayloadSize := by
  obtain ⟨hsize, hlen⟩ := length_of_encode h
  have hget : get 4 frame 24 = get 4 (frame.take kHeaderSize) 24 := by
    have hhead : 24 + 4 ≤ (frame.take kHeaderSize).length := by
      rw [List.length_take, Nat.min_eq_left hsize]
      decide
    rw [← get_append hhead, List.take_append_drop]
  obtain ⟨hmax, hframe⟩ := encode_iff.mp h
  have hpayload : frame.length = kHeaderSize + packet.payload.length := by
    have hstart := length_headerStart packet
    have hsha := packet.chunkSha256.property
    rw [hframe]
    simp [hstart, hsha, kHeaderSize]
    omega
  rw [hget, hlen]
  exact ⟨rfl, by omega⟩

/-- A frame is read in any pieces. -/
theorem framed_encode (h : encode packet = .ok frame) : Framed need frame := by
  obtain ⟨hlen, hmax⟩ := payload_encode h
  refine ⟨?_, fun got rest hsplit hrest => ?_⟩
  · rw [need, if_neg (by omega), if_neg (Nat.not_lt.mpr hmax), hlen, Nat.sub_self]
  · have hpos := List.length_pos_iff.mpr hrest
    have htotal : got.length + rest.length = kHeaderSize + get 4 frame 24 := by
      rw [← hlen, hsplit, List.length_append]
    rw [need]
    split
    · rename_i hshort
      omega
    · rename_i hshort
      have hget : get 4 got 24 = get 4 frame 24 := by
        have hhead : 24 + 4 ≤ got.length := Nat.le_trans (by decide) (Nat.not_lt.mp hshort)
        rw [hsplit, get_append hhead]
      rw [hget, if_neg (Nat.not_lt.mpr hmax)]
      omega

theorem opened_encode (h : encode packet = .ok frame) : opened frame = .ok packet := by
  rw [opened, if_neg (Nat.not_lt.mpr (payload_encode h).2), decode_encode h]

theorem need_nil : 0 < need [] := by decide

end PacketCodec

end Dpc
