import Dpc.Network.PacketStream

namespace Dpc
open Text PacketCodec Framing

/-- Packets of an allowed size are framed, and whatever pieces the frames arrive in, they
are read as they were sent before the socket is closed. What is read from any stream is a
packet whose frame stood there. -/
theorem packets_read_exactly :
    (∀ packets : List Packet,
      (∀ packet ∈ packets, packet.payload.length ≤ kMaxPayloadSize) →
      ∃ bytes, Written code packets bytes ∧
        ∀ socket, Reliable socket → stream socket = bytes →
          ∀ received e, Receives socket received e ↔
            received = packets ∧ e = dpcError "socket closed") ∧
    ∀ (socket rest : Socket) (packet : Packet), readPacket socket = .ok (packet, rest) →
      ∃ frame, encode packet = .ok frame ∧ stream socket = frame ++ stream rest := by
  refine ⟨fun packets hfit => ?_, fun socket rest packet h => readPacket_ok h⟩
  obtain ⟨bytes, hwritten⟩ := written_fit hfit
  refine ⟨bytes, hwritten, fun socket hr hs received e => ?_⟩
  subst hs
  have hreceives := receives_written hr hwritten
  constructor
  · exact fun h => h.unique hreceives
  · rintro ⟨rfl, rfl⟩
    exact hreceives

def helloPacket : Packet := ⟨.hello, 0, 0, zeroDigest, []⟩

def helloFrame : Bytes := (encode helloPacket).toOption.getD []

/-- The frame of a greeting in two pieces, with an interruption between them. -/
def helloSocket : Socket :=
  [.data (helloFrame.take 10) (by decide +kernel), .interrupted,
    .data (helloFrame.drop 10) (by decide +kernel)]

theorem packets_read_exactly_hello :
    Receives helloSocket [helloPacket] (dpcError "socket closed") ∧
      ∃ frame, encode helloPacket = .ok frame ∧ stream helloSocket = frame ++ stream [] := by
  have hframe : encode helloPacket = .ok helloFrame := by decide +kernel
  obtain ⟨bytes, hwritten, hreads⟩ := packets_read_exactly.1 [helloPacket] (by decide)
  have hbytes : bytes = helloFrame := by
    obtain ⟨frame, rest, hf, hrest, rfl⟩ := written_cons.mp hwritten
    cases hframe.symm.trans hf
    rw [written_nil.mp hrest, List.append_nil]
  have hstream : stream helloSocket = bytes := by
    rw [hbytes]
    decide +kernel
  have hreliable : Reliable helloSocket := by
    simp [Reliable, helloSocket]
  have hread : readPacket helloSocket = .ok (helloPacket, []) := by decide +kernel
  exact ⟨(hreads helloSocket hreliable hstream _ _).mpr ⟨rfl, rfl⟩,
    packets_read_exactly.2 helloSocket [] helloPacket hread⟩

end Dpc
