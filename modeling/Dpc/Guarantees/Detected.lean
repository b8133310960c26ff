import Dpc.Guarantees.Framed
import Dpc.Lib.Crc
import Dpc.Metadata.WalFormat

namespace Dpc
open Text Endian Crc

theorem WalLog.crc32_eq (data : Bytes) :
    WalLog.crc32 data = ~~~register 0xedb88320 0xffffffff data := rfl

theorem WalLog.crc32_burst {first : Nat} {data data' : Bytes}
    (h : ChangedWithin first (first + 4) data data') : WalLog.crc32 data' ≠ WalLog.crc32 data := by
  intro hsame
  rw [WalLog.crc32_eq, WalLog.crc32_eq, UInt32.not_inj] at hsame
  exact register_burst (by decide) h hsame

/-- What cannot be read is refused. -/
theorem error_of_not_ok {α : Type} {r : Except Exn α} (h : ∀ a, r ≠ .ok a) : ∃ e, r = .error e := by
  cases r with
  | error e => exact ⟨e, rfl⟩
  | ok a => exact absurd rfl (h a)

/-- The header of a record fixes the checksum of what follows it. -/
theorem WalLog.crc32_of_header {type type' : WalRecordType} {payload payload' : Bytes}
    (hlen : payload.length ≤ kMaxPayloadSize) (hlen' : payload'.length ≤ kMaxPayloadSize)
    (h : header type payload = header type' payload') : crc32 payload' = crc32 payload := by
  have hget := (@get_header type payload [] hlen).2.2.2.2
  have hget' := (@get_header type' payload' [] hlen').2.2.2.2
  rw [h, hget'] at hget
  exact UInt32.toNat_inj.mp hget

theorem WalLog.decodeRecord_burst {type : WalRecordType} {payload payload' frame : Bytes}
    {first : Nat} (henc : encodeRecord type payload = .ok frame)
    (h : ChangedWithin first (first + 4) payload payload') :
    ∃ e, decodeRecord (frame.take kHeaderSize ++ payload') = .error e := by
  obtain ⟨hlen, rfl⟩ := encodeRecord_iff.mp henc
  rw [List.take_left' (length_header type payload)]
  apply error_of_not_ok
  intro record hread
  obtain ⟨hlen', hframe⟩ := encodeRecord_iff.mp (decodeRecord_iff.mp hread)
  have hsize : (header type payload).length = (header record.type record.payload).length := by
    rw [length_header, length_header]
  obtain ⟨hheader, hpayload⟩ := List.append_inj hframe hsize
  have hcrc := crc32_of_header hlen hlen' hheader
  rw [← hpayload] at hcrc
  exact crc32_burst h hcrc

namespace PacketCodec

variable {frame frame' header : Bytes} {packet : Packet} {k : Nat}

theorem zeroHeaderCrc_outside (hlen : header.length = 64) (hk : k < 28 ∨ 32 ≤ k) :
    (zeroHeaderCrc header)[k]? = header[k]? := by
  have hfront : (header.take 28).length = 28 := by
    rw [List.length_take]
    omega
  rw [zeroHeaderCrc, List.append_assoc]
  rcases hk with hk | hk
  · rw [List.getElem?_append_left (by omega), List.getElem?_take_of_lt hk]
  · rw [List.getElem?_append_right (by omega), hfront,
      List.getElem?_append_right (by rw [length_beBytes]; omega), length_beBytes,
      List.getElem?_drop]
    congr 1
    omega

theorem zeroHeaderCrc_inside (hlen : header.length = 64) (hk : 28 ≤ k) (hk' : k < 32) :
    (zeroHeaderCrc header)[k]? = (beBytes 4 0)[k - 28]? := by
  have hfront : (header.take 28).length = 28 := by
    rw [List.length_take]
    omega
  rw [zeroHeaderCrc, List.append_assoc, List.getElem?_append_right (by omega), hfront,
    List.getElem?_append_left (by rw [length_beBytes]; omega)]

theorem length_zeroHeaderCrc (hlen : header.length = 64) : (zeroHeaderCrc header).length = 64 := by
  simp only [zeroHeaderCrc, List.length_append, List.length_take, List.length_drop, length_beBytes,
    hlen]
  rfl

/-- The checksum that a frame carries. -/
theorem crc_of_encode (h : encode packet = .ok frame) :
    (frame.take 64).length = 64 ∧
      (frame.drop 28).take 4 = beBytes 4 (WalLog.crc32 (zeroHeaderCrc (frame.take 64))).toNat := by
  obtain ⟨_, hframe⟩ := encode_iff.mp h
  have hcrc := zeroHeaderCrc_header packet
    (WalLog.crc32 (headerStart packet ++ beBytes 4 0 ++ packet.chunkSha256.val)).toNat
  generalize hn : (WalLog.crc32 (headerStart packet ++ beBytes 4 0 ++
    packet.chunkSha256.val)).toNat = crc at hframe hcrc
  have hstart := length_headerStart packet
  have hsha := packet.chunkSha256.property
  have hhead : (headerStart packet ++ beBytes 4 crc ++ packet.chunkSha256.val).length = 64 := by
    simp only [List.length_append, length_beBytes, hstart, hsha]
  have htake : frame.take 64 = headerStart packet ++ beBytes 4 crc ++ packet.chunkSha256.val := by
    rw [hframe, List.take_left' hhead]
  refine ⟨htake ▸ hhead, ?_⟩
  rw [htake, hcrc, hn, hframe, List.append_assoc, List.append_assoc, List.drop_left' hstart,
    List.take_left' (length_beBytes 4 crc)]

/-- Where the checksums of two frames are alike, so are their fields. -/
theorem getElem_crc (hk : 28 ≤ k) (hk' : k < 32) :
    frame[k]? = ((frame.drop 28).take 4)[k - 28]? := by
  rw [List.getElem?_take_of_lt (by omega), List.getElem?_drop]
  congr 1
  omega

theorem getElem_header (hk : k < 64) : (frame.take 64)[k]? = frame[k]? :=
  List.getElem?_take_of_lt hk

/-- A burst of four bytes in the header, but not in its checksum. -/
theorem decode_burst {first : Nat} (henc : encode packet = .ok frame)
    (h : ChangedWithin first (first + 4) frame frame') (hfirst : first + 4 ≤ 64)
    (hcrc : ∀ k, 28 ≤ k → k < 32 → frame'[k]? = frame[k]?) : ∃ e, decode frame' = .error e := by
  apply error_of_not_ok
  intro packet' hread
  obtain ⟨hlen, hsum⟩ := crc_of_encode henc
  obtain ⟨hlen', hsum'⟩ := crc_of_encode (decode_iff.mp hread)
  have hfield : (frame'.drop 28).take 4 = (frame.drop 28).take 4 := by
    apply List.ext_getElem?
    intro k
    rw [List.getElem?_take, List.getElem?_take]
    split
    · rw [List.getElem?_drop, List.getElem?_drop]
      exact hcrc _ (Nat.le_add_right _ _) (by omega)
    · rfl
  have hzeroed : ChangedWithin first (first + 4) (zeroHeaderCrc (frame.take 64))
      (zeroHeaderCrc (frame'.take 64)) := by
    refine ⟨?_, ?_, ?_⟩
    · rw [length_zeroHeaderCrc hlen, length_zeroHeaderCrc hlen']
    · intro hsame
      apply h.ne
      apply List.ext_getElem?
      intro k
      by_cases hin : 28 ≤ k ∧ k < 32
      · exact hcrc k hin.1 hin.2
      by_cases hk : k < 64
      · have hout : k < 28 ∨ 32 ≤ k := by omega
        rw [← getElem_header hk, ← @getElem_header frame k hk,
          ← zeroHeaderCrc_outside hlen' hout, hsame, zeroHeaderCrc_outside hlen hout]
      · exact h.outside k (.inr (by omega))
    · intro k hk
      by_cases hin : 28 ≤ k ∧ k < 32
      · rw [zeroHeaderCrc_inside hlen hin.1 hin.2, zeroHeaderCrc_inside hlen' hin.1 hin.2]
      · have hout : k < 28 ∨ 32 ≤ k := by omega
        rw [zeroHeaderCrc_outside hlen hout, zeroHeaderCrc_outside hlen' hout, List.getElem?_take,
          List.getElem?_take, h.outside k hk]
  have hvalue := congrArg beValue (hsum'.symm.trans (hfield.trans hsum))
  rw [beValue_beBytes (UInt32.toNat_lt _), beValue_beBytes (UInt32.toNat_lt _)] at hvalue
  exact WalLog.crc32_burst hzeroed (UInt32.toNat_inj.mp hvalue)

/-- A change of the checksum in the header. -/
theorem decode_crc_changed (henc : encode packet = .ok frame)
    (h : ChangedWithin 28 32 frame frame') : ∃ e, decode frame' = .error e := by
  apply error_of_not_ok
  intro packet' hread
  obtain ⟨hlen, hsum⟩ := crc_of_encode henc
  obtain ⟨hlen', hsum'⟩ := crc_of_encode (decode_iff.mp hread)
  have hzeroed : zeroHeaderCrc (frame'.take 64) = zeroHeaderCrc (frame.take 64) := by
    apply List.ext_getElem?
    intro k
    by_cases hin : 28 ≤ k ∧ k < 32
    · rw [zeroHeaderCrc_inside hlen hin.1 hin.2, zeroHeaderCrc_inside hlen' hin.1 hin.2]
    · have hout : k < 28 ∨ 32 ≤ k := by omega
      rw [zeroHeaderCrc_outside hlen hout, zeroHeaderCrc_outside hlen' hout, List.getElem?_take,
        List.getElem?_take, h.outside k hout]
  apply h.ne
  apply List.ext_getElem?
  intro k
  by_cases hin : 28 ≤ k ∧ k < 32
  · rw [getElem_crc hin.1 hin.2, @getElem_crc frame k hin.1 hin.2, hsum, hsum', hzeroed]
  · exact h.outside k (by omega)

end PacketCodec

/-- No change of a payload in the log within four bytes is taken for a record; no change of
the header of a frame within four bytes beside its checksum is taken for a frame, and none of
the checksum. -/
theorem short_bursts_are_rejected :
    (∀ (type : WalRecordType) (payload payload' record : Bytes) (first : Nat),
        WalLog.encodeRecord type payload = .ok record →
          ChangedWithin first (first + 4) payload payload' →
            ∃ e, WalLog.decodeRecord (record.take WalLog.kHeaderSize ++ payload') = .error e) ∧
      (∀ (packet : Packet) (frame frame' : Bytes) (first : Nat),
        PacketCodec.encode packet = .ok frame → ChangedWithin first (first + 4) frame frame' →
          first + 4 ≤ PacketCodec.kHeaderSize →
            (∀ k, 28 ≤ k → k < 32 → frame'[k]? = frame[k]?) →
              ∃ e, PacketCodec.decode frame' = .error e) ∧
      ∀ (packet : Packet) (frame frame' : Bytes),
        PacketCodec.encode packet = .ok frame → ChangedWithin 28 32 frame frame' →
          ∃ e, PacketCodec.decode frame' = .error e :=
  ⟨fun _ _ _ _ _ henc h => WalLog.decodeRecord_burst henc h,
    fun _ _ _ _ henc h hfirst hcrc => PacketCodec.decode_burst henc h hfirst hcrc,
    fun _ _ _ henc h => PacketCodec.decode_crc_changed henc h⟩

/-- One byte of a payload, of the fields of a header, and of its checksum. -/
theorem one_byte_is_rejected :
    (∃ e, WalLog.decodeRecord (((WalLog.encodeRecord .beginBackup [1, 2, 3, 4, 5]).toOption.getD
        []).take WalLog.kHeaderSize ++ [1, 2, 3, 4, 5].set 3 9) = .error e) ∧
      (∃ e, PacketCodec.decode (helloFrame.set 10 1) = .error e) ∧
      ∃ e, PacketCodec.decode (helloFrame.set 30 1) = .error e := by
  have hrecord : WalLog.encodeRecord .beginBackup [1, 2, 3, 4, 5] =
      .ok ((WalLog.encodeRecord .beginBackup [1, 2, 3, 4, 5]).toOption.getD []) := by decide +kernel
  have hframe : PacketCodec.encode helloPacket = .ok helloFrame := by decide +kernel
  have hpayload : ChangedWithin 2 6 [1, 2, 3, 4, 5] ([1, 2, 3, 4, 5].set 3 9) :=
    .set (by decide) (by decide) (by decide)
  have hfields : ChangedWithin 8 12 helloFrame (helloFrame.set 10 1) :=
    .set (by decide) (by decide +kernel) (by decide +kernel)
  have hcrc : ChangedWithin 28 32 helloFrame (helloFrame.set 30 1) :=
    .set (by decide) (by decide +kernel) (by decide +kernel)
  refine ⟨short_bursts_are_rejected.1 _ _ _ _ 2 hrecord hpayload,
    short_bursts_are_rejected.2.1 _ _ _ 8 hframe hfields (by decide) ?_,
    short_bursts_are_rejected.2.2 _ _ _ hframe hcrc⟩
  intro k hk _
  exact List.getElem?_set_ne (by omega)

end Dpc
