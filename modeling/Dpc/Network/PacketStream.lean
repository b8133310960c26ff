import Dpc.Lib.Framing
import Dpc.Network.PacketCodec

namespace Dpc.PacketCodec
open Text Effects Endian Framing

/-- What one `read` of a socket returns, when it is asked for enough. -/
inductive ReadResult where
  | interrupted
  | failed
  | data (bytes : Bytes) (ne : bytes ≠ [])
  deriving DecidableEq

/-- What the reads of a socket will return; at the end the socket is closed. -/
abbrev Socket := List ReadResult

/-- The loop of `readExact`: a read returns at most the bytes that are asked for, and
leaves the others. -/
def readExact : Nat → Socket → Except Exn (Bytes × Socket)
  | 0, socket => .ok ([], socket)
  | _ + 1, [] => .error (dpcError "socket closed")
  | n + 1, .interrupted :: socket => readExact (n + 1) socket
  | _ + 1, .failed :: _ => .error (dpcError "socket read failed")
  | n + 1, .data bytes ne :: socket =>
    if h : n + 1 < bytes.length then
      .ok (bytes.take (n + 1), .data (bytes.drop (n + 1)) (by simpa using h) :: socket)
    else do
      let (rest, socket) ← readExact (n + 1 - bytes.length) socket
      return (bytes ++ rest, socket)

def readPacket (socket : Socket) : Except Exn (Packet × Socket) := do
  let (header, socket) ← readExact kHeaderSize socket
  let payloadSize := get 4 header 24
  if kMaxPayloadSize < payloadSize then throw (dpcError "packet payload too large")
  let (payload, socket) ← readExact payloadSize socket
  let packet ← decode (header ++ payload)
  return (packet, socket)

/-- Packets that are read one after another, until the reader throws. -/
inductive Receives : Socket → List Packet → Exn → Prop where
  | stop {socket : Socket} {e : Exn} (h : readPacket socket = .error e) : Receives socket [] e
  | more {socket rest : Socket} {packet : Packet} {packets : List Packet} {e : Exn}
      (h : readPacket socket = .ok (packet, rest)) (hrest : Receives rest packets e) :
      Receives socket (packet :: packets) e

/-- The bytes that come out of a socket. -/
def stream : Socket → Bytes
  | [] => []
  | .data bytes _ :: socket => bytes ++ stream socket
  | .interrupted :: socket => stream socket
  | .failed :: socket => stream socket

/-- No read fails, but for interruptions. -/
def Reliable (socket : Socket) : Prop := ReadResult.failed ∉ socket

theorem readExact_ok {n : Nat} {socket rest : Socket} {bytes : Bytes}
    (h : readExact n socket = .ok (bytes, rest)) :
    bytes.length = n ∧ stream socket = bytes ++ stream rest ∧
      (Reliable socket → Reliable rest) := by
  induction n, socket using readExact.induct generalizing bytes rest with
  | case1 socket =>
    rw [readExact] at h
    cases h
    exact ⟨rfl, rfl, id⟩
  | case2 n => contradiction
  | case3 n socket ih =>
    obtain ⟨hlen, hstream, hrel⟩ := ih h
    exact ⟨hlen, hstream, fun hr => hrel fun hm => hr (List.mem_cons_of_mem _ hm)⟩
  | case4 n socket => contradiction
  | case5 n bs ne socket hlt =>
    rw [readExact, dif_pos hlt] at h
    cases h
    refine ⟨?_, ?_, fun hr hm => ?_⟩
    · rw [List.length_take]
      omega
    · simp only [stream]
      rw [← List.append_assoc, List.take_append_drop]
    · rcases List.mem_cons.mp hm with he | hm
      · contradiction
      · exact hr (List.mem_cons_of_mem _ hm)
  | case6 n bs ne socket hge ih =>
    rw [readExact, dif_neg hge, bind_eq_ok] at h
    obtain ⟨⟨more, rest'⟩, hmore, h⟩ := h
    cases h
    obtain ⟨hlen, hstream, hrel⟩ := ih hmore
    refine ⟨?_, ?_, fun hr => hrel fun hm => hr (List.mem_cons_of_mem _ hm)⟩
    · rw [List.length_append, hlen]
      omega
    · simp only [stream, hstream, List.append_assoc]

/-- However the bytes arrive, as many as are asked for are read, or the socket is closed. -/
theorem readExact_reliable {n : Nat} {socket : Socket} (hr : Reliable socket) :
    if n ≤ (stream socket).length then
      ∃ rest, readExact n socket = .ok ((stream socket).take n, rest)
    else readExact n socket = .error (dpcError "socket closed") := by
  induction n, socket using readExact.induct with
  | case1 socket => simp [readExact]
  | case2 n => simp [stream, readExact]
  | case3 n socket ih => exact ih fun hm => hr (List.mem_cons_of_mem _ hm)
  | case4 n socket => exact absurd List.mem_cons_self hr
  | case5 n bs ne socket hlt =>
    simp only [stream, readExact, hlt, dif_pos]
    rw [if_pos (by rw [List.length_append]; omega), List.take_append_of_le_length (by omega)]
    exact ⟨_, rfl⟩
  | case6 n bs ne socket hge ih =>
    have ih := ih fun hm => hr (List.mem_cons_of_mem _ hm)
    simp only [stream, readExact, hge, dif_neg, not_false_eq_true]
    by_cases hle : n + 1 - bs.length ≤ (stream socket).length
    · rw [if_pos hle] at ih
      obtain ⟨rest, hrest⟩ := ih
      rw [if_pos (by rw [List.length_append]; omega), hrest]
      refine ⟨rest, ?_⟩
      have hall : bs.take (n + 1) = bs := List.take_of_length_le (by omega)
      rw [List.take_append, hall]
      rfl
    · rw [if_neg hle] at ih
      rw [if_neg (by rw [List.length_append]; omega), ih]
      rfl

theorem code_ofCode {n : Nat} {type : PacketType} (h : PacketType.ofCode n = some type) :
    type.code = n := by
  unfold PacketType.ofCode at h
  split at h
  all_goals cases h
  all_goals rfl

/-- A field of the header, and what follows it in the header. -/
theorem get_field {n v off : Nat} {bs : Bytes} (hlen : off + n ≤ bs.length)
    (hv : get n bs off = v) : bs.drop off = beBytes n v ++ bs.drop (off + n) :=
  drop_field_be hlen hv

theorem get_lt {n off : Nat} {bs : Bytes} (hlen : off + n ≤ bs.length) : get n bs off < 256 ^ n := by
  have h := beValue_lt ((bs.drop off).take n)
  rwa [List.length_take, List.length_drop, Nat.min_eq_left (by omega)] at h

theorem encode_iff {packet : Packet} {frame : Bytes} :
    encode packet = .ok frame ↔ packet.payload.length ≤ kMaxPayloadSize ∧
      frame = headerStart packet ++
        beBytes 4 (WalLog.crc32 (headerStart packet ++ beBytes 4 0 ++ packet.chunkSha256.val)).toNat ++
        packet.chunkSha256.val ++ packet.payload := by
  unfold encode
  split
  · rename_i h
    simp only [reduceCtorEq, false_iff, not_and]
    exact fun hle => absurd h (Nat.not_lt.mpr hle)
  · rename_i h
    simp only [Except.ok.injEq]
    constructor
    · exact fun he => ⟨Nat.not_lt.mp h, he.symm⟩
    · exact fun he => he.2.symm

/-- A frame that is read is the frame of the packet. -/
theorem encode_decode {packet : Packet} {frame : Bytes} (h : decode frame = .ok packet) :
    encode packet = .ok frame := by
  unfold decode at h
  split at h
  · contradiction
  rename_i hsize
  rw [kHeaderSize] at hsize
  dsimp only at h
  generalize hheader : frame.take kHeaderSize = header at h
  have hlen : header.length = 64 := by
    rw [← hheader, List.length_take, kHeaderSize]
    omega
  split at h
  · contradiction
  rename_i hmagic
  split at h
  · contradiction
  rename_i hversion
  split at h
  · contradiction
  rename_i type htype
  split at h
  · contradiction
  rename_i hmax
  split at h
  · contradiction
  rename_i hframe
  split at h
  · contradiction
  rename_i hcrc
  cases h
  rw [not_not] at hmagic hversion hframe hcrc
  have hsha : (frame.drop 32).take 32 = header.drop 32 := by
    rw [← hheader, kHeaderSize, List.drop_take]
  have hpayload : (frame.drop kHeaderSize).length = get 4 header 24 := by
    rw [List.length_drop, hframe]
    omega
  have hword : ∀ off, off + 8 ≤ 64 → (UInt64.ofNat (get 8 header off)).toNat = get 8 header off := by
    intro off hoff
    have hlt : get 8 header off < 256 ^ 8 := get_lt (by omega)
    rw [UInt64.toNat_ofNat', Nat.mod_eq_of_lt (by omega)]
  have h0 : header = beBytes 4 kMagic ++ header.drop 4 := @get_field 4 kMagic 0 header (by omega) hmagic
  have h4 : header.drop 4 = beBytes 2 kVersion ++ header.drop 6 := get_field (by omega) hversion
  have h6 : header.drop 6 = beBytes 2 type.code ++ header.drop 8 :=
    get_field (by omega) (code_ofCode htype).symm
  have h8 : header.drop 8 = beBytes 8 (get 8 header 8) ++ header.drop 16 := get_field (by omega) rfl
  have h16 : header.drop 16 = beBytes 8 (get 8 header 16) ++ header.drop 24 :=
    get_field (by omega) rfl
  have h24 : header.drop 24 = beBytes 4 (frame.drop kHeaderSize).length ++ header.drop 28 :=
    get_field (by omega) hpayload.symm
  have h28 : header.drop 28 = beBytes 4 (get 4 header 28) ++ header.drop 32 :=
    get_field (by omega) rfl
  refine encode_iff.mpr ⟨by dsimp only; omega, ?_⟩
  generalize hpacket : (⟨type, UInt64.ofNat (get 8 header 8), UInt64.ofNat (get 8 header 16),
    ⟨(frame.drop 32).take 32, _⟩, frame.drop kHeaderSize⟩ : Packet) = packet
  have hstart : header = headerStart packet ++ header.drop 28 := by
    rw [← hpacket, headerStart]
    dsimp only
    rw [hword 8 (by decide), hword 16 (by decide)]
    simp only [List.append_assoc]
    rw [← h24, ← h16, ← h8, ← h6, ← h4, ← h0]
  have htake : header.take 28 = headerStart packet := by
    have hlen28 := length_headerStart packet
    rw [hstart, List.take_left' hlen28]
  have hdigest : packet.chunkSha256.val = header.drop 32 := by rw [← hpacket, ← hsha]
  have hcrc' : (WalLog.crc32 (headerStart packet ++ beBytes 4 0 ++ packet.chunkSha256.val)).toNat =
      get 4 header 28 := by
    rw [← hcrc, zeroHeaderCrc, htake, hdigest]
  have hall : headerStart packet ++ beBytes 4 (get 4 header 28) ++ header.drop 32 = header := by
    rw [List.append_assoc, ← h28, ← hstart]
  have hbody : packet.payload = frame.drop kHeaderSize := by rw [← hpacket]
  rw [hcrc', hdigest, hall, hbody, ← hheader, List.take_append_drop]

theorem decode_iff {packet : Packet} {frame : Bytes} :
    decode frame = .ok packet ↔ encode packet = .ok frame :=
  ⟨encode_decode, decode_encode⟩

/-- The header of a frame tells its size. -/
theorem length_of_encode {packet : Packet} {frame : Bytes} (h : encode packet = .ok frame) :
    kHeaderSize ≤ frame.length ∧
      kHeaderSize + get 4 (frame.take kHeaderSize) 24 = frame.length := by
  obtain ⟨hlen, hframe⟩ := encode_iff.mp h
  generalize (WalLog.crc32 (headerStart packet ++ beBytes 4 0 ++ packet.chunkSha256.val)).toNat =
    crc at hframe
  have hstart := length_headerStart packet
  have hsha := packet.chunkSha256.property
  have hhead : (headerStart packet ++ beBytes 4 crc ++ packet.chunkSha256.val).length =
      kHeaderSize := by
    simp [hstart, hsha, kHeaderSize]
  have hsize : packet.payload.length < 256 ^ 4 := by
    simp only [kMaxPayloadSize] at hlen
    omega
  have hget : get 4 (headerStart packet ++ beBytes 4 crc ++ packet.chunkSha256.val) 24 =
      packet.payload.length := by
    simp only [headerStart, List.append_assoc]
    iterate 5 rw [get_skip (by omega)]
    exact get_here hsize
  rw [hframe, List.take_left' hhead, hget, List.length_append, hhead]
  exact ⟨Nat.le_add_right _ _, rfl⟩

theorem kHeaderSize_pos : 0 < kHeaderSize := by decide

/-- The packets as a code of frames. -/
def code : Code Packet UInt8 Exn where
  headerSize := kHeaderSize
  frameSize header := kHeaderSize + get 4 header 24
  encode := encode
  decode := decode
  exact := decode_iff
  header_pos := kHeaderSize_pos
  sized := length_of_encode

/-- Packets of an allowed size can all be framed. -/
theorem written_fit {packets : List Packet}
    (h : ∀ packet ∈ packets, packet.payload.length ≤ kMaxPayloadSize) :
    ∃ bytes, Written code packets bytes := by
  induction packets with
  | nil => exact ⟨[], written_nil.mpr rfl⟩
  | cons packet packets ih =>
    obtain ⟨rest, hrest⟩ := ih fun p hp => h p (List.mem_cons_of_mem _ hp)
    have hframe := encode_iff.mpr ⟨h packet List.mem_cons_self, rfl⟩
    exact ⟨_, written_cons.mpr ⟨_, rest, hframe, hrest, rfl⟩⟩

/-- A packet that is read was framed in the bytes that were used. -/
theorem readPacket_ok {socket rest : Socket} {packet : Packet}
    (h : readPacket socket = .ok (packet, rest)) :
    ∃ frame, encode packet = .ok frame ∧ stream socket = frame ++ stream rest := by
  unfold readPacket at h
  obtain ⟨⟨header, mid⟩, hheader, h⟩ := bind_eq_ok.mp h
  dsimp only at h
  split at h
  · contradiction
  obtain ⟨⟨payload, rest'⟩, hpayload, h⟩ := bind_eq_ok.mp h
  obtain ⟨packet', hdecode, h⟩ := bind_eq_ok.mp h
  cases h
  refine ⟨header ++ payload, decode_iff.mp hdecode, ?_⟩
  rw [(readExact_ok hheader).2.1, (readExact_ok hpayload).2.1, List.append_assoc]

/-- However it arrives, a frame in front of a stream is read. -/
theorem readPacket_frame {socket : Socket} {packet : Packet} {frame more : Bytes}
    (hr : Reliable socket) (hframe : encode packet = .ok frame)
    (hs : stream socket = frame ++ more) :
    ∃ rest, readPacket socket = .ok (packet, rest) ∧ stream rest = more ∧ Reliable rest := by
  obtain ⟨hsize, hlen⟩ := code.sized hframe
  have hlen : kHeaderSize + get 4 (frame.take kHeaderSize) 24 = frame.length := hlen
  have hsize : kHeaderSize ≤ frame.length := hsize
  have hmax := (encode_iff.mp hframe).1
  have h1 := readExact_reliable (n := kHeaderSize) hr
  rw [if_pos (by rw [hs, List.length_append]; omega)] at h1
  obtain ⟨mid, hmid⟩ := h1
  have hhead : (stream socket).take kHeaderSize = frame.take kHeaderSize := by
    rw [hs, List.take_append_of_le_length hsize]
  rw [hhead] at hmid
  obtain ⟨_, hstream, hrel⟩ := readExact_ok hmid
  have hrest : stream mid = frame.drop kHeaderSize ++ more := by
    rw [hs, ← List.take_append_drop kHeaderSize frame, List.append_assoc] at hstream
    rw [List.take_append_drop] at hstream
    exact (List.append_cancel_left hstream).symm
  have h2 := readExact_reliable (n := get 4 (frame.take kHeaderSize) 24) (hrel hr)
  rw [if_pos (by rw [hrest, List.length_append, List.length_drop]; omega)] at h2
  obtain ⟨rest, hrd⟩ := h2
  have hbody : (stream mid).take (get 4 (frame.take kHeaderSize) 24) = frame.drop kHeaderSize := by
    rw [hrest, List.take_left' (by rw [List.length_drop]; omega)]
  rw [hbody] at hrd
  obtain ⟨_, hstream', hrel'⟩ := readExact_ok hrd
  refine ⟨rest, ?_, ?_, hrel' (hrel hr)⟩
  · have hpayload : frame.length = kHeaderSize + packet.payload.length := by
      have hstart := length_headerStart packet
      have hsha := packet.chunkSha256.property
      rw [(encode_iff.mp hframe).2]
      simp [hstart, hsha, kHeaderSize]
      omega
    unfold readPacket
    simp only [hmid, hrd, List.take_append_drop, decode_iff.mpr hframe, bind, Except.bind, pure,
      Except.pure]
    rw [if_neg (by omega)]
  · rw [hrest] at hstream'
    exact (List.append_cancel_left hstream').symm

/-- A stream is read in one way only. -/
theorem Receives.unique {socket : Socket} {packets packets' : List Packet} {e e' : Exn}
    (h : Receives socket packets e) (h' : Receives socket packets' e') :
    packets = packets' ∧ e = e' := by
  induction h generalizing packets' with
  | stop h =>
    cases h' with
    | stop h' => exact ⟨rfl, Except.error.inj (h.symm.trans h')⟩
    | more h' _ => rw [h] at h'; contradiction
  | more h _ ih =>
    cases h' with
    | stop h' => rw [h] at h'; contradiction
    | more h' hrest' =>
      cases h.symm.trans h'
      obtain ⟨hp, he⟩ := ih hrest'
      exact ⟨by rw [hp], he⟩

theorem readPacket_closed {socket : Socket} (hr : Reliable socket) (hs : stream socket = []) :
    readPacket socket = .error (dpcError "socket closed") := by
  have h := readExact_reliable (n := kHeaderSize) hr
  rw [if_neg (by rw [hs]; decide)] at h
  unfold readPacket
  rw [h]
  rfl

/-- Whatever pieces the frames of some packets arrive in, the packets are read one after
another, and then the socket is closed. -/
theorem receives_written {packets : List Packet} {socket : Socket} (hr : Reliable socket)
    (h : Written code packets (stream socket)) :
    Receives socket packets (dpcError "socket closed") := by
  induction packets generalizing socket with
  | nil => exact .stop (readPacket_closed hr (written_nil.mp h))
  | cons packet packets ih =>
    obtain ⟨frame, more, hframe, hmore, hs⟩ := written_cons.mp h
    obtain ⟨rest, hread, hrest, hrel⟩ := readPacket_frame hr hframe hs
    exact .more hread (ih hrel (hrest ▸ hmore))

end Dpc.PacketCodec
