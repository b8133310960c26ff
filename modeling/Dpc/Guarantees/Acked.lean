import Dpc.Core.UnpackFacts
import Dpc.Guarantees.Readable

namespace Dpc
open Text FileTree Effects ObjectStore BackupServer

variable {env : Env} {content : Bytes → Option Bytes} {now : UInt64} {packet : Packet} {s t : Fs}
  {put : PutPayload} {record : ReceivedChunkRecord}

/-- A chunk was acknowledged, and a new record of the session was appended for it. -/
structure Acked (env : Env) (now : UInt64) (packet : Packet) (s t : Fs) (put : PutPayload)
    (record : ReceivedChunkRecord) : Prop where
  type : packet.type = .putChunk
  opened : parsePutPayload packet.payload = .ok put
  acked : ∃ reply, (handlePacket env now packet).exec s = (.ok reply, t)
  writable : SessionIndex.Writable record
  appended : SessionIndex.textOf t put.sessionId =
    SessionIndex.textOf s put.sessionId ++ SessionIndex.recordLine record

/-- What verify and restore require of the chunk of a record. -/
def ReadsAs (env : Env) (t : Fs) (record : ReceivedChunkRecord) : Prop :=
  ∃ raw, (readRaw env record.sha256 record.objectPath).exec t = (.ok raw, t) ∧
    raw.length = record.rawSize.toNat

/-- A record is told by its line. -/
theorem SessionIndex.recordLine_injective {r r' : ReceivedChunkRecord} (h : Writable r)
    (h' : Writable r') (he : recordLine r = recordLine r') : r = r' := by
  have hparse : ∀ q, Writable q →
      parseRecords (recordLine q).length (recordLine q) = .ok [q] := by
    intro q hq
    have hlines := @parseRecords_lines [.chunk q] (recordLine q).length
      (by simpa [Line.record?] using hq)
    simp only [List.flatMap_cons, List.flatMap_nil, List.append_nil, Line.text] at hlines
    refine hlines ?_
    simp [recordLine]
  have hr := hparse r h
  rw [he, hparse r' h'] at hr
  simpa using hr.symm

/-- The server takes the chunk, and the record is the one of the packet. -/
theorem Acked.taken (h : Acked env now packet s t put record) :
    ∃ stored u, Taken env packet put stored s u t ∧ record = recordOf packet put stored := by
  obtain ⟨reply, hx⟩ := h.acked
  obtain ⟨put', stored, u, htaken⟩ := putChunk_ok h.type hx
  cases (openPut_ok htaken.opened).1.symm.trans h.opened
  have hline : SessionIndex.recordLine record ≠ [] := by
    simp [SessionIndex.recordLine]
  obtain ⟨rs, _, hrecord⟩ := htaken.record
  rw [htaken.text_eq, h.appended] at hrecord
  refine ⟨stored, u, htaken, ?_⟩
  split at hrecord
  · exact absurd (List.append_right_eq_self.mp hrecord.2) hline
  · exact SessionIndex.recordLine_injective h.writable htaken.writable
      (List.append_cancel_left hrecord)

/-- An acknowledged chunk is read back with its size if and only if its object was there
before, or the size is that of its content and one of the buffers that are tried without a
size is large enough. -/
theorem acked_chunk_reads_as_iff (hz : env.zstd.Unpacks content)
    (h : Acked env now packet s t put record) :
    ReadsAs env t record ↔
      (s.leaf? (pathOf (PacketCodec.shaHexFromArray packet.chunkSha256))).isSome ∨
      ∃ raw, content put.compressed = some raw ∧ raw.length = put.rawSize.toNat ∧
        Compressor.Guessed env put.compressed raw.length := by
  obtain ⟨stored, u, htaken, rfl⟩ := h.taken
  obtain ⟨_, hsha, raw₀, hdec₀, hraw₀⟩ := openPut_ok htaken.opened
  rw [← hsha]
  have hne : pathOf stored.sha256 ≠ SessionIndex.path put.sessionId := fun he =>
    SessionIndex.not_inObjects_path put.sessionId (he ▸ inObjects_pathOf _)
  have hleaf : t.leaf? (pathOf stored.sha256) = u.leaf? (pathOf stored.sha256) :=
    htaken.frame _ hne
  have hread : ∀ raw, (readRaw env stored.sha256 stored.objectPath).exec t = (.ok raw, t) ↔
      Stored env t stored.sha256 raw := by
    intro raw
    rw [htaken.object.path_eq]
    exact ⟨fun hx => (readRaw_ok hx).2.2.2, fun hst => exec_readRaw htaken.sha hst⟩
  obtain ⟨f, hf, _, ⟨hnone, _, hdata⟩ | ⟨hsome, _, raw, hst, hsize⟩⟩ := htaken.object.file
  · have hnew : ∀ raw, Stored env t stored.sha256 raw ↔
        Compressor.decompress env put.compressed 0 = .ok raw ∧
          Hash.sha256Hex env.evp raw = stored.sha256 := by
      intro raw
      simp only [Stored, hleaf, hf, Option.some.injEq, exists_eq_left', hdata]
    simp only [ReadsAs, recordOf, hread, hnew, hnone, Option.isSome_none, Bool.false_eq_true,
      false_or, Compressor.decompress_zero_iff hz]
    constructor
    · intro h
      obtain ⟨raw, ⟨⟨hc, hguess⟩, _⟩, hlen⟩ := h
      exact ⟨raw, hc, hlen, hguess⟩
    · intro h
      obtain ⟨raw, hc, hlen, hguess⟩ := h
      cases (Compressor.content_of_decompress hz hdec₀).symm.trans hc
      exact ⟨raw₀, ⟨⟨hc, hguess⟩, hraw₀⟩, hlen⟩
  · have hstored : Stored env t stored.sha256 raw := by
      obtain ⟨f', hf', hd, hr⟩ := hst
      cases hsome.symm.trans hf'
      exact ⟨f, by rw [hleaf, hf], hd, hr⟩
    have hlen : raw.length = put.rawSize.toNat := by
      obtain ⟨f', hf', hd, _⟩ := hst
      have hguess := ((Compressor.decompress_zero_iff hz).mp hd).2
      rw [← hsize, toNat_size hguess.length_lt]
    simp only [hsome, Option.isSome_some, true_or, iff_true]
    exact ⟨raw, (hread raw).mpr hstored, hlen⟩

/-- What the frames of the examples hold. -/
def rawContent (frame : Bytes) : Option Bytes :=
  if frame = rawFrame (frame.drop 9) ∧ (frame.drop 9).length < 2 ^ 8 then some (frame.drop 9)
  else none

theorem Zstd.raw_unpacks : Zstd.raw.Unpacks rawContent := by
  intro input capacity output
  simp only [Zstd.raw, rawContent, Option.ite_none_right_eq_some, Option.some.injEq]
  constructor
  · rintro ⟨⟨h1, h2, h3⟩, rfl⟩
    exact ⟨⟨⟨h1, h2⟩, rfl⟩, h3⟩
  · rintro ⟨⟨⟨h1, h2⟩, rfl⟩, h3⟩
    exact ⟨⟨h1, h2, h3⟩, rfl⟩

/-- The frame of one byte, of which the client says that it holds so many as `claimed` has. -/
def claimedPut (claimed : Bytes) : Packet where
  type := .putChunk
  sessionIdHash := PacketCodec.sessionHash (ascii "s")
  chunkIndex := 0
  chunkSha256 := letterA.2
  payload := BackupClient.makePutPayload (ascii "s") ⟨0, ascii "a.txt", 1, 0o644,
    PacketCodec.shaHexFromArray letterA.2, 0, PacketCodec.shaHexFromArray letterA.2, claimed,
    rawFrame (ascii "a")⟩

def claimedFields (claimed : Bytes) : PutPayload :=
  ⟨ascii "s", ascii "a.txt", 1, 0o644, PacketCodec.shaHexFromArray letterA.2, 0, size claimed, 10,
    rawFrame (ascii "a")⟩

def claimedRecord (claimed : Bytes) : ReceivedChunkRecord :=
  { letterRecord with rawSize := size claimed }

def claimedSession (claimed : Bytes) : Fs :=
  ((handlePacket letterEnv 1700000000 (claimedPut claimed)).exec emptyRepo).2

theorem acked_claimed {claimed reply : Bytes}
    (hx : ((handlePacket letterEnv 1700000000 (claimedPut claimed)).exec emptyRepo).1 = .ok reply)
    (hopen : parsePutPayload (claimedPut claimed).payload = .ok (claimedFields claimed))
    (htext : SessionIndex.textOf (claimedSession claimed) (ascii "s") =
      SessionIndex.recordLine (claimedRecord claimed)) :
    Acked letterEnv 1700000000 (claimedPut claimed) emptyRepo (claimedSession claimed)
      (claimedFields claimed) (claimedRecord claimed) where
  type := rfl
  opened := hopen
  acked := ⟨reply, Prog.exec_of_fst hx⟩
  writable :=
    have hsha : Hash.isSha256Hex letterRecord.sha256 = true := by decide +kernel
    ⟨Hash.isWord_of_isSha256Hex hsha, Hash.isWord_of_isSha256Hex hsha,
      show letterRecord.relativePath ≠ [] by decide, textOf_ne_nil hsha⟩
  appended := by
    have hnone : SessionIndex.textOf emptyRepo (ascii "s") = [] := by simp [SessionIndex.textOf]
    rw [claimedFields, hnone, htext, List.nil_append]

def okReply : Bytes :=
  (sendText .putChunkAck (PacketCodec.sessionHash (ascii "s")) (ascii "ok" ++ [newline])).toOption.getD []

theorem letter_acked_reads : ReadsAs letterEnv (claimedSession (ascii "a")) (claimedRecord (ascii "a")) := by
  have hacked := @acked_claimed (ascii "a") okReply (by decide +kernel)
    (by decide +kernel) (by decide +kernel)
  refine (acked_chunk_reads_as_iff Zstd.raw_unpacks hacked).mpr (.inr ⟨ascii "a", ?_, ?_, ?_⟩)
  · decide +kernel
  · decide
  · refine ⟨1, by decide +kernel, 0, by decide, by decide, fun j hj => ?_⟩
    rw [Nat.le_zero.mp hj]
    exact ⟨by decide, by decide⟩

/-- A size of zero counts as no size: the chunk is acknowledged, and its record says that it
is empty. -/
theorem sizeless_acked_does_not_read :
    Acked letterEnv 1700000000 (claimedPut []) emptyRepo (claimedSession []) (claimedFields [])
      (claimedRecord []) ∧
    ¬ReadsAs letterEnv (claimedSession []) (claimedRecord []) := by
  refine ⟨@acked_claimed [] okReply (by decide +kernel) (by decide +kernel)
    (by decide +kernel), fun ⟨raw, hx, hlen⟩ => ?_⟩
  have hraw : ((readRaw letterEnv (claimedRecord []).sha256 (claimedRecord []).objectPath).exec
      (claimedSession [])).1 = .ok (ascii "a") := by decide +kernel
  have he : Except.ok raw = .ok (ascii "a") := (congrArg Prod.fst hx).symm.trans hraw
  rw [Except.ok.inj he] at hlen
  exact absurd hlen (by decide)

end Dpc
