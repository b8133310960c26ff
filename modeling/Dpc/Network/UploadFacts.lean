import Dpc.Core.Emitted
import Dpc.Guarantees.Payloads
import Dpc.Lib.Cuts
import Dpc.Network.GroupFacts
import Dpc.Network.PreparedFacts
import Dpc.Network.StatusFacts

/-! The packets of an upload: what each leaves at the server, done or stopped. -/

namespace Dpc
open Text FileTree Effects ManifestStore BackupServer

variable {env : Env} {s t : Fs} {sessionId : Bytes}

open TransferSession

theorem shaHexFromArray_of {data : Bytes} {digest : Digest}
    (h : PacketCodec.shaArrayFromHex (Hash.sha256Hex env.evp data) = .ok digest) :
    PacketCodec.shaHexFromArray digest = Hash.sha256Hex env.evp data := by
  have hlen : (Hash.sha256Hex env.evp data).length = 64 := by
    have hsha := Hash.isSha256Hex_sha256Hex env.evp data
    simp only [Hash.isSha256Hex, Bool.and_eq_true, beq_iff_eq] at hsha
    exact hsha.1
  have hbytes : Hash.hexToBytes (Hash.sha256Hex env.evp data) =
      .ok (env.evp.final (Hash.update env.evp env.evp.init data)).val := by
    rw [Hash.hexToBytes, hlen, if_neg (by decide)]
    simp only [Hash.sha256Hex, Hash.finalHex, Hash.bytesToHex, hexDecode_hexEncode]
  obtain ⟨bytes, hb, h⟩ := bind_ok h
  cases hbytes.symm.trans hb
  split at h
  · cases h
    rfl
  · contradiction

/-- The packet of a chunk. -/
def putPacket (sessionId : Bytes) (chunk : PreparedChunk) (sha : Digest) : Packet :=
  ⟨.putChunk, PacketCodec.sessionHash sessionId, chunk.globalIndex, sha,
    BackupClient.makePutPayload sessionId chunk⟩

/-- The record of a chunk whose object has so many bytes. -/
def recordFor (chunk : PreparedChunk) (stored : UInt64) : ReceivedChunkRecord :=
  ⟨chunk.globalIndex, chunk.chunkSha256, chunk.relativePath, chunk.fileSize, chunk.fileMode,
    chunk.fileSha256, chunk.chunkIndex, size chunk.raw, stored, ObjectStore.textOf chunk.chunkSha256⟩

theorem TransferSession.Sendable.writable {chunk : PreparedChunk} (h : Sendable env chunk)
    (stored : UInt64) : SessionIndex.Writable (recordFor chunk stored) := by
  have hsha : Hash.isSha256Hex chunk.chunkSha256 = true := by
    rw [h.sha]
    exact Hash.isSha256Hex_sha256Hex env.evp chunk.raw
  exact ⟨Hash.isWord_of_isSha256Hex hsha, Hash.isWord_of_isSha256Hex h.fileSha, h.path,
    ObjectStore.textOf_ne_nil hsha⟩

/-- What the server takes out of the packet of a chunk. -/
structure Opened (sessionId : Bytes) (chunk : PreparedChunk) (put : PutPayload) : Prop where
  session : put.sessionId = sessionId
  size : put.rawSize = size chunk.raw
  compressed : put.compressed = chunk.compressed
  record : ∀ sha stored, stored.sha256 = chunk.chunkSha256 →
    stored.objectPath = ObjectStore.textOf chunk.chunkSha256 →
    recordOf (putPacket sessionId chunk sha) put stored = recordFor chunk stored.compressedSize

/-- The text of a payload ends where the compressed bytes begin. -/
theorem splitBlankLine_makePutPayload {chunk : PreparedChunk}
    (hwords : ∀ f ∈ BackupClient.putHeader sessionId chunk, IsWord f.1 ∧ IsWord f.2) :
    splitBlankLine (BackupClient.makePutPayload sessionId chunk) =
      some (joinWith newline
        (ascii "DPC_PUT_V1" :: (BackupClient.putHeader sessionId chunk).map fieldLine),
        chunk.compressed) := by
  have hheader : IsWord (ascii "DPC_PUT_V1") := .of_test (by decide)
  rw [BackupClient.makePutPayload, textFields_lines, List.append_assoc, List.append_assoc]
  refine splitBlankLine_lines (by simp) fun l hl => ?_
  rcases List.mem_cons.mp hl with rfl | hl
  · exact ⟨hheader.ne_nil, by decide⟩
  · obtain ⟨f, hf, rfl⟩ := List.mem_map.mp hl
    exact ne_nil_and_newline_of_words (hwords f hf)

/-- What the server reads of a chunk is what the client wrote. -/
theorem TransferSession.Sendable.parsed {chunk : PreparedChunk} (hsession : sessionId ≠ [])
    (h : Sendable env chunk) :
    parsePutPayload (BackupClient.makePutPayload sessionId chunk) =
      .ok ⟨sessionId, chunk.relativePath, chunk.fileSize, chunk.fileMode, chunk.fileSha256,
        chunk.chunkIndex, size chunk.raw, size chunk.compressed, chunk.compressed⟩ := by
  have hwords := putHeader_words hsession h.path (Hash.isWord_of_isSha256Hex h.fileSha)
  obtain ⟨h1, h2, h3, h4, h5, h6, h7, h8⟩ := putHeader_fields sessionId chunk
  rw [parsePutPayload, splitBlankLine_makePutPayload hwords]
  dsimp only
  rw [parseTextFields_lines (.of_test (by decide)) hwords]
  simp only [bind, Except.bind, pure, Except.pure, h1, h2, h3, h4, h5, h6, h7, h8,
    hexDecodeString_hexEncodeString, number32_eq, ne_eq, not_true_eq_false, if_false]

theorem openPut_putPacket {chunk : PreparedChunk} {digest : Digest} {put : PutPayload} {sha : Bytes}
    (hsession : sessionId ≠ []) (hc : Sendable env chunk)
    (hd : PacketCodec.shaArrayFromHex chunk.chunkSha256 = .ok digest)
    (h : openPut env (putPacket sessionId chunk digest) = .ok (put, sha)) :
    Opened sessionId chunk put ∧ sha = chunk.chunkSha256 := by
  obtain ⟨hput, rfl, _⟩ := openPut_ok h
  cases (hc.parsed hsession).symm.trans hput
  constructor
  · refine ⟨rfl, rfl, rfl, fun sha stored hs hp => ?_⟩
    simp only [recordOf, recordFor, putPacket, hs, hp]
  · rw [hc.sha] at hd
    rw [putPacket, shaHexFromArray_of hd, hc.sha]

/-- A session's file has these records, and marks of commits between them. -/
def Carries (t : Fs) (sessionId : Bytes) (rs : List ReceivedChunkRecord) : Prop :=
  ∃ lines, SessionIndex.Lines t sessionId lines ∧ lines.filterMap SessionIndex.Line.record? = rs

variable {rs : List ReceivedChunkRecord}

theorem Carries.recorded (h : Carries t sessionId rs) : SessionIndex.Recorded t sessionId rs := by
  obtain ⟨lines, hl, rfl⟩ := h
  exact hl.recorded

theorem Carries.congr (h : Carries s sessionId rs)
    (he : SessionIndex.textOf t sessionId = SessionIndex.textOf s sessionId) :
    Carries t sessionId rs := by
  obtain ⟨lines, hl, hrs⟩ := h
  exact ⟨lines, ⟨he.trans hl.text, hl.writable⟩, hrs⟩

theorem Carries.chunk {r : ReceivedChunkRecord} (h : Carries s sessionId rs)
    (hw : SessionIndex.Writable r)
    (he : SessionIndex.textOf t sessionId =
      SessionIndex.textOf s sessionId ++ SessionIndex.recordLine r) :
    Carries t sessionId (rs ++ [r]) := by
  obtain ⟨lines, hl, rfl⟩ := h
  refine ⟨lines ++ [.chunk r], ⟨?_, fun q hq => ?_⟩, List.filterMap_append⟩
  · rw [he, hl.text, List.flatMap_append]
    simp [SessionIndex.Line.text]
  · rw [List.filterMap_append, List.mem_append] at hq
    rcases hq with hq | hq
    · exact hl.writable q hq
    · rw [List.mem_singleton.mp hq]
      exact hw

theorem Carries.committed {v : UInt64} (h : Carries s sessionId rs)
    (he : SessionIndex.textOf t sessionId =
      SessionIndex.textOf s sessionId ++ SessionIndex.committedLine v) :
    Carries t sessionId rs := by
  obtain ⟨lines, hl, rfl⟩ := h
  have hsame : (lines ++ [SessionIndex.Line.committed v]).filterMap SessionIndex.Line.record? =
      lines.filterMap SessionIndex.Line.record? := by
    simp [List.filterMap_append, SessionIndex.Line.record?]
  refine ⟨lines ++ [.committed v], ⟨?_, ?_⟩, hsame⟩
  · rw [he, hl.text, List.flatMap_append]
    simp [SessionIndex.Line.text]
  · rw [hsame]
    exact hl.writable

/-- A record tells about a chunk, and about the object as it is stored. -/
def Tells (env : Env) (t : Fs) (chunk : PreparedChunk) (r : ReceivedChunkRecord) : Prop :=
  (∃ stored, r = recordFor chunk stored) ∧
    BackupEngine.Describes env t chunk.raw (SessionIndex.refOf r)

theorem Tells.kept {chunk : PreparedChunk} {r : ReceivedChunkRecord} (h : Tells env s chunk r)
    (hk : ObjectStore.Kept s t) : Tells env t chunk r :=
  ⟨h.1, h.2.kept hk⟩

theorem Tells.index {chunk : PreparedChunk} {r : ReceivedChunkRecord} (h : Tells env t chunk r) :
    r.globalIndex = chunk.globalIndex ∧ r.sha256 = chunk.chunkSha256 := by
  obtain ⟨⟨_, rfl⟩, _⟩ := h
  exact ⟨rfl, rfl⟩

theorem Tells.of_put {chunk : PreparedChunk} {stored : PutObjectResult} (hc : Sendable env chunk)
    (h : ObjectStore.Put env (Hash.sha256Hex env.evp chunk.raw) chunk.compressed (size chunk.raw)
      s t stored) : Tells env t chunk (recordFor chunk stored.compressedSize) := by
  have hdescribes := BackupEngine.describes_of_put (i := chunk.chunkIndex) hc.compressed h
  rw [h.rawSize_eq, h.path_eq, h.sha_eq, ← hc.sha] at hdescribes
  exact ⟨⟨_, rfl⟩, hdescribes⟩

open ObjectStore (Kept)
open BackupEngine (Added)

variable {chunk : PreparedChunk} {digest : Digest} {now : UInt64} {is : List FsEffect}

/-- What a chunk of a session leaves: its object, and its record if it had none. -/
structure PutLeaves (env : Env) (chunk : PreparedChunk) (sessionId : Bytes)
    (rs : List ReceivedChunkRecord) (s t : Fs) : Prop where
  added : Added env (· = chunk.raw) s t
  known : ∀ r ∈ (SessionIndex.byGlobal rs)[chunk.globalIndex]?,
    r.sha256 = chunk.chunkSha256 ∧ Carries t sessionId rs
  new : (SessionIndex.byGlobal rs)[chunk.globalIndex]? = none →
    ∃ r, Tells env t chunk r ∧ Carries t sessionId (rs ++ [r])

theorem put_ok {reply : Bytes} (hsession : sessionId ≠ []) (hc : Sendable env chunk)
    (hd : PacketCodec.shaArrayFromHex chunk.chunkSha256 = .ok digest) (h : Carries s sessionId rs)
    (hx : (handlePacket env now (putPacket sessionId chunk digest)).exec s = (.ok reply, t)) :
    PutLeaves env chunk sessionId rs s t := by
  obtain ⟨put, stored, u, ht⟩ := putChunk_ok rfl hx
  obtain ⟨hopen, hsha⟩ := openPut_putPacket hsession hc hd ht.opened
  have hobject : ObjectStore.Put env (Hash.sha256Hex env.evp chunk.raw) chunk.compressed
      (size chunk.raw) s u stored := by
    rw [← hc.sha, ← hsha, ← hopen.compressed, ← hopen.size]
    exact ht.object
  have hadded : Added env (· = chunk.raw) s u := .of_put hobject rfl hc.compressed
  have hrest : Added env (· = chunk.raw) u t :=
    .of_frame ht.frame fun q hq he => SessionIndex.not_inObjects_path _ (he ▸ hq)
  have hpath : stored.objectPath = ObjectStore.textOf chunk.chunkSha256 := by
    rw [ht.object.path_eq, hsha]
  have hcarries : Carries u sessionId rs := h.congr (ht.text_eq sessionId)
  have hrecord := hopen.record digest stored hsha hpath
  obtain ⟨rs', hrs', hmatch⟩ := ht.record
  rw [hopen.session] at hrs' hmatch
  cases hrs'.unique hcarries.recorded
  refine ⟨hadded.trans hrest, fun r hr => ?_, fun hnone => ?_⟩
  · have hfound : (SessionIndex.byGlobal rs)[(putPacket sessionId chunk digest).chunkIndex]? = some r := hr
    rw [hfound] at hmatch
    exact ⟨hmatch.1.trans hsha, hcarries.congr hmatch.2⟩
  · have hfound : (SessionIndex.byGlobal rs)[(putPacket sessionId chunk digest).chunkIndex]? = none := hnone
    rw [hfound, hrecord] at hmatch
    exact ⟨_, (Tells.of_put hc hobject).kept hrest.kept, hcarries.chunk (hc.writable _) hmatch⟩

theorem emits_received {P : FsEffect → Prop} : (SessionIndex.received sessionId).Emits P := by
  simp only [SessionIndex.received, SessionIndex.records, Prog.bind_eq]
  refine Prog.Emits.bind (Prog.emits_query.bind fun there => ?_) fun rs => trivial
  split
  · exact Prog.emits_query.bind fun _ => Prog.emits_ofExcept
  · trivial

/-- A program without effects leaves the state, wherever it is stopped. -/
theorem cut_silent {α : Type} {p : Op α} (h : p.Emits fun _ => False) (hc : Prog.Cut p s is t) :
    t = s :=
  h.cut (R := fun a b => b = a) (fun _ => rfl) (fun h h' => h'.trans h) (fun _ _ _ hi => hi.elim) hc

theorem cut_ensureDirectory {p : Path} (hc : Prog.Cut (FileUtils.ensureDirectory p) s is t) :
    ∀ q, t.leaf? q = s.leaf? q := by
  have hemits : (FileUtils.ensureDirectory p).Emits (· = FsEffect.ensureDirectory p) :=
    emits_ensureDirectory rfl
  have hframe : Frame (fun _ => False) s t :=
    hemits.cut (.refl _) .trans (fun i a b hi ha => .of_apply ha (by simp [hi, FsEffect.touches])) hc
  exact fun q => hframe q id

/-- Until a record is appended the session is as it was. -/
theorem cut_appendLine {line : Bytes} (hc : Prog.Cut (SessionIndex.appendLine env sessionId line) s is t) :
    Frame (· = SessionIndex.path sessionId) s t ∧
      (SessionIndex.textOf t sessionId = SessionIndex.textOf s sessionId ∨
        SessionIndex.textOf t sessionId = SessionIndex.textOf s sessionId ++ line) := by
  simp only [SessionIndex.appendLine, Prog.bind_eq] at hc
  rcases hc.of_bind with hc | ⟨_, m, is₁, is₂, _, hdir, hc, _⟩
  · have hleaf := cut_ensureDirectory hc
    exact ⟨fun q _ => hleaf q, .inl (SessionIndex.textOf_congr (hleaf _))⟩
  · have hleaf := cut_ensureDirectory hdir
    have htext : SessionIndex.textOf m sessionId = SessionIndex.textOf s sessionId :=
      SessionIndex.textOf_congr (hleaf _)
    have hframe : Frame (· = SessionIndex.path sessionId) s m := fun q _ => hleaf q
    cases hc with
    | stop => exact ⟨hframe, .inl htext⟩
    | act ha hc =>
      cases Prog.cut_ofExcept hc
      refine ⟨hframe.trans (.of_apply ha fun q hq => List.mem_singleton.mp hq), .inr ?_⟩
      rw [SessionIndex.textOf_append ha, htext]
    | fail ha hc =>
      cases Prog.cut_ofExcept hc
      exact ⟨hframe, .inl htext⟩

theorem cut_appendChunk {r : ReceivedChunkRecord}
    (hc : Prog.Cut (SessionIndex.appendChunk env sessionId r) s is t) :
    Frame (· = SessionIndex.path sessionId) s t ∧
      (SessionIndex.textOf t sessionId = SessionIndex.textOf s sessionId ∨
        (∃ rs, SessionIndex.Recorded s sessionId rs ∧
          (SessionIndex.byGlobal rs)[r.globalIndex]? = none) ∧
        SessionIndex.textOf t sessionId =
          SessionIndex.textOf s sessionId ++ SessionIndex.recordLine r) := by
  simp only [SessionIndex.appendChunk, Prog.bind_eq] at hc
  rcases hc.of_bind with hc | ⟨existing, m, is₁, is₂, hx, _, hc, _⟩
  · cases cut_silent emits_received hc
    exact ⟨.refl _ _, .inl rfl⟩
  · have hk : Keeps (fun _ _ _ => True) _ (SessionIndex.received sessionId) s :=
      SessionIndex.received_keeps
    obtain ⟨rfl, rs, hrs, rfl⟩ := Keeps.ok hk hx
    rw [SessionIndex.find?_received] at hc
    cases hfound : (SessionIndex.byGlobal rs)[r.globalIndex]? with
    | none =>
      rw [hfound] at hc
      obtain ⟨hframe, htext⟩ := cut_appendLine hc
      exact ⟨hframe, htext.imp_right fun h => ⟨⟨rs, hrs, hfound⟩, h⟩⟩
    | some q =>
      rw [hfound] at hc
      simp only [Option.map_some] at hc
      split at hc
      · cases hc
        exact ⟨.refl _ _, .inl rfl⟩
      · cases hc
        exact ⟨.refl _ _, .inl rfl⟩

/-- Until the object of a chunk is there, no other file has changed. -/
theorem cut_putCompressed {raw compressed : Bytes} {n : UInt64}
    (hcompress : Compressor.compress env raw = .ok compressed)
    (hc : Prog.Cut (ObjectStore.putCompressed env (Hash.sha256Hex env.evp raw) compressed n) s is t) :
    Added env (· = raw) s t ∧
      ∀ sessionId, SessionIndex.textOf t sessionId = SessionIndex.textOf s sessionId := by
  have hk : Keeps (fun i a _ => (∃ p, i = FsEffect.ensureDirectory p) ∨
      ∃ mode, i = .replace (ObjectStore.pathOf (Hash.sha256Hex env.evp raw)) compressed mode ∧
        a.leaf? (ObjectStore.pathOf (Hash.sha256Hex env.evp raw)) = none) _
      (ObjectStore.putCompressed env (Hash.sha256Hex env.evp raw) compressed n) s :=
    ObjectStore.putCompressed_keeps (fun p _ _ => .inl ⟨p, rfl⟩)
      fun mode a _ _ ha hnone => .inr ⟨mode, rfl, (ha _).trans hnone⟩
  refine SafeAlone.cut (I := fun _ a b => Added env (· = raw) a b ∧
    ∀ sessionId, SessionIndex.textOf b sessionId = SessionIndex.textOf a sessionId) hk hc
    (fun a => ⟨.refl a, fun _ => rfl⟩) fun i is a m b ha hg h => ?_
  obtain ⟨hadded, htext⟩ := h
  rcases hg with ⟨p, rfl⟩ | ⟨mode, rfl, hnone⟩
  · have hleaf := (FsEffect.ensureDirectory_ok ha).1.leaf?
    have hframe : Frame (fun _ => False) a m := fun q _ => hleaf q
    exact ⟨(Added.of_frame hframe fun _ _ => id).trans hadded, fun sessionId =>
      (htext sessionId).trans (SessionIndex.textOf_congr (hleaf _))⟩
  · have hput := FsEffect.replace_ok ha
    have hone : Added env (· = raw) a m := by
      refine ⟨fun q f hq hf => ?_, fun sha f hf => ?_⟩
      · rw [hput.leaf?]
        split
        · rename_i he
          rw [he, hnone] at hf
          contradiction
        · exact hf
      · rw [hput.leaf?] at hf
        split at hf
        · rename_i he
          cases hf
          exact .inr ⟨raw, rfl, ObjectStore.pathOf_injective he, hcompress⟩
        · exact .inl hf
    refine ⟨hone.trans hadded, fun sessionId => (htext sessionId).trans (SessionIndex.textOf_congr ?_)⟩
    rw [hput.leaf?, if_neg fun he => ?_]
    exact SessionIndex.not_inObjects_path sessionId (he ▸ ObjectStore.inObjects_pathOf _)

/-- A chunk that is stopped has left the session as it was, or has done its part. -/
theorem put_cut (hsession : sessionId ≠ []) (hc : Sendable env chunk)
    (hd : PacketCodec.shaArrayFromHex chunk.chunkSha256 = .ok digest) (h : Carries s sessionId rs)
    (hcut : Prog.Cut (handlePacket env now (putPacket sessionId chunk digest)) s is t) :
    Added env (· = chunk.raw) s t ∧ (Carries t sessionId rs ∨
      (SessionIndex.byGlobal rs)[chunk.globalIndex]? = none ∧
        ∃ r, Tells env t chunk r ∧ Carries t sessionId (rs ++ [r])) := by
  change Prog.Cut (putChunk env (putPacket sessionId chunk digest)) s is t at hcut
  simp only [putChunk, Prog.bind_eq] at hcut
  rcases hcut.of_bind with hcut | ⟨opened, m, _, _, hx, _, hcut, _⟩
  · cases Prog.cut_ofExcept hcut
    exact ⟨.refl s, .inl h⟩
  rw [Prog.exec_ofExcept, Prod.mk.injEq] at hx
  obtain ⟨hx, rfl⟩ := hx
  obtain ⟨put, sha⟩ := opened
  obtain ⟨hopen, rfl⟩ := openPut_putPacket hsession hc hd hx
  have hfile := (parsePutPayload_ok (openPut_ok hx).1)
  simp only [hopen.compressed, hopen.size, hopen.session, hc.sha] at hcut
  rcases hcut.of_bind with hcut | ⟨stored, u, is₁, is₂, hx, hput, hcut, _⟩
  · obtain ⟨hadded, htext⟩ := cut_putCompressed hc.compressed hcut
    exact ⟨hadded, .inl (h.congr (htext sessionId))⟩
  obtain ⟨hadded, htext⟩ := cut_putCompressed hc.compressed hput
  have hcarries := h.congr (htext sessionId)
  have hk : Keeps (fun _ _ _ => True) _
      (ObjectStore.putCompressed env (Hash.sha256Hex env.evp chunk.raw) chunk.compressed
        (size chunk.raw)) s :=
    ObjectStore.putCompressed_keeps (fun _ _ _ => trivial) fun _ _ _ _ _ _ => trivial
  obtain ⟨hsha, hobject⟩ := Keeps.ok hk hx
  have hrecord := hopen.record digest stored (hobject.sha_eq.trans hc.sha.symm)
    (by rw [hobject.path_eq, hc.sha])
  rw [hrecord] at hcut
  have hrest : ∀ {is' : List FsEffect} {b : Fs}, Prog.Cut (SessionIndex.appendChunk env sessionId
      (recordFor chunk stored.compressedSize)) u is' b → Added env (· = chunk.raw) s b ∧
        (Carries b sessionId rs ∨ (SessionIndex.byGlobal rs)[chunk.globalIndex]? = none ∧
          ∃ r, Tells env b chunk r ∧ Carries b sessionId (rs ++ [r])) := by
    intro is' b hb
    obtain ⟨hframe, hcase⟩ := cut_appendChunk hb
    have hlast : Added env (· = chunk.raw) u b :=
      .of_frame hframe fun q hq he => SessionIndex.not_inObjects_path _ (he ▸ hq)
    refine ⟨hadded.trans hlast, hcase.imp hcarries.congr fun hnew => ?_⟩
    obtain ⟨⟨rs', hrs', hnone⟩, happended⟩ := hnew
    cases hrs'.unique hcarries.recorded
    exact ⟨hnone, _, (Tells.of_put hc hobject).kept hlast.kept,
      hcarries.chunk (hc.writable _) happended⟩
  rcases hcut.of_bind with hcut | ⟨_, b, _, _, _, happend, hcut, _⟩
  · exact hrest hcut
  · cases Prog.cut_ofExcept hcut
    exact hrest happend

open BackupClient

variable {packet ack : Packet}

theorem handleConnection_frame {frame : Bytes} (hf : PacketCodec.encode packet = .ok frame) :
    handleConnection env now frame = (handlePacket env now packet).attempt.bind fun reply =>
      match reply with
      | .ok reply => .pure reply
      | .error (.dpc message) =>
        match sendText .error 0 (message ++ [newline]) with
        | .ok reply => .pure reply
        | .error _ => .throw (dpcError "socket closed")
      | .error e => .throw e := by
  simp only [handleConnection, PacketCodec.decode_encode hf]
  rfl

/-- An answer that is no error is that of the packet. -/
theorem exchange_ok (hx : (exchange env now packet).exec s = (.ok ack, t))
    (hack : requireNotError ack = .ok ()) :
    ∃ reply, (handlePacket env now packet).exec s = (.ok reply, t) ∧
      PacketCodec.decode reply = .ok ack := by
  simp only [exchange, Prog.bind_eq] at hx
  obtain ⟨frame, m, hframe, hx⟩ := Prog.exec_bind_ok hx
  rw [Prog.exec_ofExcept, Prod.mk.injEq] at hframe
  obtain ⟨hframe, rfl⟩ := hframe
  obtain ⟨reply, m, hreply, hx⟩ := Prog.exec_bind_ok hx
  rw [Prog.exec_ofExcept, Prod.mk.injEq] at hx
  obtain ⟨hdecode, rfl⟩ := hx
  rw [handleConnection_frame hframe] at hreply
  obtain ⟨result, m, hresult, hreply⟩ := Prog.exec_bind_ok hreply
  rw [Prog.exec_attempt, Prod.mk.injEq, Except.ok.injEq] at hresult
  obtain ⟨hfst, hsnd⟩ := hresult
  split at hreply
  · rename_i reply'
    cases hreply
    exact ⟨reply, Prod.ext hfst hsnd, hdecode⟩
  · split at hreply
    · rename_i hsent
      cases hreply
      -- the answer that is an error is not taken for the other
      rw [decode_sendText hsent] at hdecode
      cases hdecode
      cases hack
    · cases hreply
  · cases hreply

theorem exchange_cut (hc : Prog.Cut (exchange env now packet) s is t) :
    ∃ is', Prog.Cut (handlePacket env now packet) s is' t := by
  simp only [exchange, Prog.bind_eq] at hc
  rcases hc.of_bind with hc | ⟨frame, m, _, _, hframe, _, hc, _⟩
  · cases Prog.cut_ofExcept hc
    exact ⟨[], .stop _ _⟩
  rw [Prog.exec_ofExcept, Prod.mk.injEq] at hframe
  obtain ⟨hframe, rfl⟩ := hframe
  rw [handleConnection_frame hframe] at hc
  have hend : ∀ {is' : List FsEffect} {u : Fs}, Prog.Cut ((handlePacket env now packet).attempt.bind
      fun reply =>
        match reply with
        | .ok reply => .pure reply
        | .error (.dpc message) =>
          match sendText .error 0 (message ++ [newline]) with
          | .ok reply => .pure reply
          | .error _ => .throw (dpcError "socket closed")
        | .error e => .throw e) s is' u → ∃ is', Prog.Cut (handlePacket env now packet) s is' u := by
    intro is' u hu
    rcases hu.of_bind with hu | ⟨reply, m, is₁, _, _, hfirst, hu, _⟩
    · exact ⟨_, hu.of_attempt⟩
    · have hsame : u = m := by
        split at hu
        · cases hu; rfl
        · split at hu
          · cases hu; rfl
          · cases hu; rfl
        · cases hu; rfl
      rw [hsame]
      exact ⟨_, hfirst.of_attempt⟩
  rcases hc.of_bind with hc | ⟨_, m, _, _, _, hfirst, hc, _⟩
  · exact hend hc
  · cases Prog.cut_ofExcept hc
    exact hend hfirst

theorem sendChunk_ok (hsession : sessionId ≠ []) (hc : Sendable env chunk)
    (h : Carries s sessionId rs) {u : Unit}
    (hx : (sendChunk env now sessionId chunk).exec s = (.ok u, t)) :
    PutLeaves env chunk sessionId rs s t := by
  simp only [sendChunk, Prog.bind_eq] at hx
  obtain ⟨digest, m, hd, hx⟩ := Prog.exec_bind_ok hx
  rw [Prog.exec_ofExcept, Prod.mk.injEq] at hd
  obtain ⟨hd, rfl⟩ := hd
  obtain ⟨ack, m, hack, hx⟩ := Prog.exec_bind_ok hx
  obtain ⟨_, m, hnot, hx⟩ := Prog.exec_bind_ok hx
  rw [Prog.exec_ofExcept, Prod.mk.injEq] at hnot
  obtain ⟨hnot, rfl⟩ := hnot
  have hend : t = m := by
    split at hx
    · cases hx
    · cases hx
      rfl
  obtain ⟨reply, hreply, _⟩ := exchange_ok hack hnot
  rw [hend]
  exact put_ok hsession hc hd h hreply

theorem sendChunk_cut (hsession : sessionId ≠ []) (hc : Sendable env chunk)
    (h : Carries s sessionId rs) (hcut : Prog.Cut (sendChunk env now sessionId chunk) s is t) :
    Added env (· = chunk.raw) s t ∧ (Carries t sessionId rs ∨
      (SessionIndex.byGlobal rs)[chunk.globalIndex]? = none ∧
        ∃ r, Tells env t chunk r ∧ Carries t sessionId (rs ++ [r])) := by
  simp only [sendChunk, Prog.bind_eq] at hcut
  rcases hcut.of_bind with hcut | ⟨digest, m, _, _, hd, _, hcut, _⟩
  · cases Prog.cut_ofExcept hcut
    exact ⟨.refl s, .inl h⟩
  rw [Prog.exec_ofExcept, Prod.mk.injEq] at hd
  obtain ⟨hd, rfl⟩ := hd
  rcases hcut.of_bind with hcut | ⟨ack, m, _, _, _, hfirst, hcut, _⟩
  · obtain ⟨_, hput⟩ := exchange_cut hcut
    exact put_cut hsession hc hd h hput
  · obtain ⟨_, hput⟩ := exchange_cut hfirst
    have hsame : t = m := by
      rcases hcut.of_bind with hcut | ⟨_, m', _, _, _, hnot, hcut, _⟩
      · exact Prog.cut_ofExcept hcut
      · cases Prog.cut_ofExcept hnot
        split at hcut
        · cases hcut
          rfl
        · cases hcut
          rfl
    rw [hsame]
    exact put_cut hsession hc hd h hput

/-- The client looks an index up as the server has it. -/
theorem lookup_receivedOf (i : UInt64) :
    lookup (SessionIndex.receivedOf rs) i =
      ((SessionIndex.byGlobal rs)[i]?).map ReceivedChunkRecord.sha256 := by
  have hnodup : ((SessionIndex.receivedOf rs).map Prod.fst).Nodup := by
    have hkeys : (SessionIndex.receivedOf rs).map Prod.fst = (SessionIndex.byGlobal rs).keys := by
      rw [SessionIndex.receivedOf, List.map_map, ← Std.TreeMap.map_fst_toList_eq_keys]
      rfl
    rw [hkeys]
    exact Std.TreeMap.nodup_keys
  have hfind := SessionIndex.find?_received (SessionIndex.byGlobal rs) i
  cases hget : (SessionIndex.byGlobal rs)[i]? with
  | none =>
    rw [hget] at hfind
    have hnone : (SessionIndex.receivedOf rs).reverse.find? (·.1 == i) = none := by
      rw [List.find?_eq_none]
      exact fun e he => List.find?_eq_none.mp hfind e (List.mem_reverse.mp he)
    rw [lookup, hnone]
    rfl
  | some r =>
    rw [hget] at hfind
    have hmem : (i, r.sha256) ∈ SessionIndex.receivedOf rs := List.mem_of_find?_eq_some hfind
    cases hrev : (SessionIndex.receivedOf rs).reverse.find? (·.1 == i) with
    | none =>
      have hnone := List.find?_eq_none.mp hrev _ (List.mem_reverse.mpr hmem)
      simp at hnone
    | some e =>
      have he := List.mem_reverse.mp (List.mem_of_find?_eq_some hrev)
      have hi := List.find?_some hrev
      rw [beq_iff_eq] at hi
      have hsame := List.inj_on_of_nodup_map hnodup he hmem hi
      rw [lookup, hrev, hsame]
      rfl

variable {rs₀ : List ReceivedChunkRecord} {exitAfter sent : UInt64} {chunks post : List PreparedChunk}

/-- Chunks that the session has are passed over. -/
theorem sendChunks_skip
    (h : ∀ c ∈ chunks, ∃ r ∈ (SessionIndex.byGlobal rs)[c.globalIndex]?, r.sha256 = c.chunkSha256) :
    sendChunks env now sessionId exitAfter (SessionIndex.receivedOf rs) sent (chunks ++ post) =
      sendChunks env now sessionId exitAfter (SessionIndex.receivedOf rs) sent post := by
  induction chunks with
  | nil => rfl
  | cons c chunks ih =>
    obtain ⟨r, hr, hsha⟩ := h c List.mem_cons_self
    rw [Option.mem_def] at hr
    rw [List.cons_append, sendChunks, lookup_receivedOf, hr, Option.map_some, hsha, if_pos rfl]
    exact ih fun c' hc' => h c' (List.mem_cons_of_mem _ hc')

/-- Where the session has chunks with these indices, an upload that ends well has found them to
have the same hashes. -/
theorem sendChunks_known (hsession : sessionId ≠ []) (hc : ∀ c ∈ chunks, Sendable env c)
    (h : Carries s sessionId rs)
    (hknown : ∀ c ∈ chunks, ∃ r, (SessionIndex.byGlobal rs)[c.globalIndex]? = some r)
    (hx : (sendChunks env now sessionId exitAfter (SessionIndex.receivedOf rs) sent
      (chunks ++ post)).exec s = (.ok true, t)) :
    ∀ c ∈ chunks, ∃ r ∈ (SessionIndex.byGlobal rs)[c.globalIndex]?, r.sha256 = c.chunkSha256 := by
  induction chunks with
  | nil => simp
  | cons c chunks ih =>
    obtain ⟨r, hr⟩ := hknown c List.mem_cons_self
    rw [List.cons_append, sendChunks, lookup_receivedOf, hr, Option.map_some] at hx
    split at hx
    · rename_i hsha
      have hsha := Option.some.inj hsha
      have hrest := ih (fun c' hc' => hc c' (List.mem_cons_of_mem _ hc'))
        (fun c' hc' => hknown c' (List.mem_cons_of_mem _ hc')) hx
      exact List.forall_mem_cons.mpr ⟨⟨r, hr, hsha⟩, hrest⟩
    · rename_i hsha
      simp only [Prog.bind_eq] at hx
      obtain ⟨_, m, hsend, _⟩ := Prog.exec_bind_ok hx
      have hput := sendChunk_ok hsession (hc c List.mem_cons_self) h hsend
      exact absurd (congrArg some (hput.known r hr).1) hsha

/-- Chunks to send, none of which the session has. -/
structure Fresh (env : Env) (rs : List ReceivedChunkRecord) (chunks : List PreparedChunk) : Prop where
  sendable : ∀ c ∈ chunks, Sendable env c
  unknown : ∀ c ∈ chunks, (SessionIndex.byGlobal rs)[c.globalIndex]? = none
  apart : chunks.Pairwise (·.globalIndex ≠ ·.globalIndex)

theorem Fresh.tail {r : ReceivedChunkRecord} (h : Fresh env rs (chunk :: chunks))
    (hr : r.globalIndex = chunk.globalIndex) : Fresh env (rs ++ [r]) chunks where
  sendable c hc := h.sendable c (List.mem_cons_of_mem _ hc)
  unknown c hc := by
    have hne := (List.pairwise_cons.mp h.apart).1 c hc
    rw [SessionIndex.getElem?_byGlobal_concat, hr, if_neg hne]
    exact h.unknown c (List.mem_cons_of_mem _ hc)
  apart := (List.pairwise_cons.mp h.apart).2

/-- The first of some chunks have been recorded behind the others. -/
structure Grown (env : Env) (sessionId : Bytes) (rs : List ReceivedChunkRecord)
    (chunks first : List PreparedChunk) (s t : Fs) : Prop where
  added : Added env (fun raw => ∃ c ∈ chunks, c.raw = raw) s t
  records : ∃ new, List.Forall₂ (Tells env t) first new ∧ Carries t sessionId (rs ++ new)

theorem Grown.nil (h : Carries t sessionId rs)
    (ha : Added env (fun raw => ∃ c ∈ chunks, c.raw = raw) s t) :
    Grown env sessionId rs chunks [] s t :=
  ⟨ha, [], .nil, by rwa [List.append_nil]⟩

theorem Grown.cons {u : Fs} {r : ReceivedChunkRecord} {first : List PreparedChunk}
    (ha : Added env (· = chunk.raw) s u) (hr : Tells env u chunk r)
    (h : Grown env sessionId (rs ++ [r]) chunks first u t) :
    Grown env sessionId rs (chunk :: chunks) (chunk :: first) s t where
  added := by
    refine (ha.mono fun raw he => ⟨chunk, List.mem_cons_self, he.symm⟩).trans (h.added.mono ?_)
    intro raw hraw
    obtain ⟨c, hc, he⟩ := hraw
    exact ⟨c, List.mem_cons_of_mem _ hc, he⟩
  records := by
    obtain ⟨new, hnew, hcarries⟩ := h.records
    exact ⟨r :: new, .cons (hr.kept h.added.kept) hnew, by rwa [List.append_assoc] at hcarries⟩

theorem sendChunks_cons (hnew : (SessionIndex.byGlobal rs₀)[chunk.globalIndex]? = none) :
    sendChunks env now sessionId exitAfter (SessionIndex.receivedOf rs₀) sent (chunk :: chunks) =
      (sendChunk env now sessionId chunk).bind fun _ =>
        if 0 < exitAfter ∧ exitAfter ≤ sent + 1 then .pure false
        else sendChunks env now sessionId exitAfter (SessionIndex.receivedOf rs₀) (sent + 1) chunks := by
  rw [sendChunks, lookup_receivedOf, hnew]
  rfl

/-- All chunks that the session lacks are recorded when the upload goes on to its commit. -/
theorem sendChunks_new (hsession : sessionId ≠ []) (h : Carries s sessionId rs)
    (hfresh : Fresh env rs chunks)
    (hnew : ∀ c ∈ chunks, (SessionIndex.byGlobal rs₀)[c.globalIndex]? = none)
    (hx : (sendChunks env now sessionId exitAfter (SessionIndex.receivedOf rs₀) sent chunks).exec s =
      (.ok true, t)) :
    Grown env sessionId rs chunks chunks s t := by
  induction chunks generalizing s rs sent with
  | nil =>
    cases hx
    exact .nil h (.refl _)
  | cons c chunks ih =>
    rw [sendChunks_cons (hnew c List.mem_cons_self)] at hx
    obtain ⟨_, m, hsend, hx⟩ := Prog.exec_bind_ok hx
    have hput := sendChunk_ok hsession (hfresh.sendable c List.mem_cons_self) h hsend
    obtain ⟨r, hr, hcarries⟩ := hput.new (hfresh.unknown c List.mem_cons_self)
    split at hx
    · cases hx
    · exact .cons hput.added hr (ih hcarries (hfresh.tail hr.index.1)
        (fun c' hc' => hnew c' (List.mem_cons_of_mem _ hc')) hx)

/-- Wherever an upload stops, it has recorded the first of the chunks that the session lacks. -/
theorem sendChunks_cut (hsession : sessionId ≠ []) (h : Carries s sessionId rs)
    (hfresh : Fresh env rs chunks)
    (hnew : ∀ c ∈ chunks, (SessionIndex.byGlobal rs₀)[c.globalIndex]? = none)
    (hcut : Prog.Cut (sendChunks env now sessionId exitAfter (SessionIndex.receivedOf rs₀) sent chunks)
      s is t) :
    ∃ first, first <+: chunks ∧ Grown env sessionId rs chunks first s t := by
  induction chunks generalizing s rs sent is with
  | nil =>
    cases hcut
    exact ⟨[], List.nil_prefix, .nil h (.refl _)⟩
  | cons c chunks ih =>
    have hone : ∀ {u : Fs}, Added env (· = c.raw) s u →
        Added env (fun raw => ∃ c' ∈ c :: chunks, c'.raw = raw) s u := fun ha =>
      ha.mono fun raw he => ⟨c, List.mem_cons_self, he.symm⟩
    rw [sendChunks_cons (hnew c List.mem_cons_self)] at hcut
    rcases hcut.of_bind with hcut | ⟨_, m, _, _, hsend, _, hcut, _⟩
    · obtain ⟨ha, hcase⟩ := sendChunk_cut hsession (hfresh.sendable c List.mem_cons_self) h hcut
      rcases hcase with hcarries | ⟨_, r, hr, hcarries⟩
      · exact ⟨[], List.nil_prefix, .nil hcarries (hone ha)⟩
      · exact ⟨[c], List.prefix_append [c] chunks, hone ha, [r], .cons hr .nil, hcarries⟩
    · have hput := sendChunk_ok hsession (hfresh.sendable c List.mem_cons_self) h hsend
      obtain ⟨r, hr, hcarries⟩ := hput.new (hfresh.unknown c List.mem_cons_self)
      split at hcut
      · cases hcut
        exact ⟨[c], List.prefix_append [c] chunks, hone hput.added, [r], .cons hr .nil, hcarries⟩
      · obtain ⟨first, hprefix, hgrown⟩ := ih hcarries (hfresh.tail hr.index.1)
          (fun c' hc' => hnew c' (List.mem_cons_of_mem _ hc')) hcut
        exact ⟨c :: first, (List.prefix_cons_inj c).mpr hprefix, .cons hput.added hr hgrown⟩

theorem parseTextFields_textFields {header : String} {fs : List (Bytes × Bytes)}
    (hheader : IsWord (ascii header)) (h : ∀ f ∈ fs, IsWord f.1 ∧ IsWord f.2) :
    parseTextFields (textFields header fs) header = .ok fs := by
  have hparse := parseTextFields_lines hheader h
  have hwords : words (textFields header fs) =
      words (joinWith newline (ascii header :: fs.map fieldLine)) := by
    rw [textFields_lines, words_append_space (by decide), words_nil, List.append_nil]
  rw [parseTextFields, hwords, ← parseTextFields]
  exact hparse

/-- A greeting or a query changes nothing. -/
theorem asks_emits (hp : packet.type = .hello ∨ packet.type = .querySession) :
    (handlePacket env now packet).Emits fun _ => False := by
  rcases hp with hp | hp
  · simp only [handlePacket, hp]
    exact Prog.emits_ofExcept
  · simp only [handlePacket, hp, querySession, Prog.bind_eq]
    refine Prog.Emits.bind_ofExcept fun fields _ => Prog.Emits.bind_ofExcept fun hex _ => ?_
    refine Prog.Emits.bind_ofExcept fun session _ => emits_received.bind fun list => ?_
    exact Prog.emits_ofExcept

def queryPacket (sessionId : Bytes) : Packet :=
  ⟨.querySession, PacketCodec.sessionHash sessionId, 0, zeroDigest,
    textFields "DPC_QUERY_SESSION_V1" [(ascii "session_hex", hexEncodeString sessionId)]⟩

theorem isWord_session_hex : IsWord (ascii "session_hex") := .of_test (by decide)

/-- The client learns what the session has received. -/
theorem query_ok {status : Packet} {received : List (UInt64 × Bytes)} (hsession : sessionId ≠ [])
    (h : Carries s sessionId rs)
    (hx : (exchange env now (queryPacket sessionId)).exec s = (.ok status, t))
    (hs : parseStatus status = .ok received) :
    t = s ∧ received = SessionIndex.receivedOf rs := by
  obtain ⟨_, hnot, _⟩ := bind_ok hs
  obtain ⟨reply, hreply, hdecode⟩ := exchange_ok hx hnot
  have hfields : parseTextFields (queryPacket sessionId).payload "DPC_QUERY_SESSION_V1" =
      .ok [(ascii "session_hex", hexEncodeString sessionId)] := by
    refine parseTextFields_textFields (.of_test (by decide)) fun f hf => ?_
    rw [List.mem_singleton.mp hf]
    exact ⟨isWord_session_hex, isWord_hexEncode hsession⟩
  have hfield : field [(ascii "session_hex", hexEncodeString sessionId)] "session_hex" =
      .ok (hexEncodeString sessionId) := field_of_mem (by simp) (List.mem_singleton_self _)
  change (querySession (queryPacket sessionId)).exec s = (.ok reply, t) at hreply
  simp only [querySession, Prog.bind_eq] at hreply
  rw [hfields, Prog.exec_bind_of_ok (Prog.exec_ofExcept _ _), hfield,
    Prog.exec_bind_of_ok (Prog.exec_ofExcept _ _), hexDecodeString_hexEncodeString,
    Prog.exec_bind_of_ok (Prog.exec_ofExcept _ _)] at hreply
  obtain ⟨list, m, hlist, hreply⟩ := Prog.exec_bind_ok hreply
  rw [Prog.exec_ofExcept, Prod.mk.injEq] at hreply
  obtain ⟨hsent, rfl⟩ := hreply
  have hk : Keeps (fun _ _ _ => True) _ (SessionIndex.received sessionId) s :=
    SessionIndex.received_keeps
  obtain ⟨hm, rs', hrs', hl⟩ := Keeps.ok hk hlist
  cases hrs'.unique h.recorded
  rw [decode_sendText hsent] at hdecode
  cases hdecode
  have hword : ∀ entry ∈ list, IsWord entry.2 := by
    obtain ⟨lines, hlines, rfl⟩ := h
    intro entry he
    rw [hl] at he
    obtain ⟨e, hmem, rfl⟩ := List.mem_map.mp he
    have hr := (SessionIndex.mem_of_byGlobal (Std.TreeMap.mem_toList_iff_getElem?_eq_some.mp hmem)).1
    exact (hlines.writable _ hr).sha
  rw [parseStatus_statusText hword] at hs
  cases hs
  exact ⟨hm, hl⟩

def commitPacket (sessionId : Bytes) (totalChunks : UInt64) : Packet :=
  ⟨.commitSession, PacketCodec.sessionHash sessionId, 0, zeroDigest,
    commitPayload sessionId totalChunks⟩

theorem openCommit_commitPacket {total : UInt64} (hsession : sessionId ≠ []) :
    openCommit (commitPacket sessionId total) = .ok (sessionId, total) := by
  have hwords : ∀ f ∈ [(ascii "session_hex", hexEncodeString sessionId),
      (ascii "total_chunks", number total)], IsWord f.1 ∧ IsWord f.2 := by
    have htotal : IsWord (ascii "total_chunks") := .of_test (by decide)
    intro f hf
    rcases List.mem_cons.mp hf with rfl | hf
    · exact ⟨isWord_session_hex, isWord_hexEncode hsession⟩
    · rw [List.mem_singleton.mp hf]
      exact ⟨htotal, isWord_decimal _⟩
  have hkeys : ([(ascii "session_hex", hexEncodeString sessionId),
      (ascii "total_chunks", number total)].map Prod.fst).Nodup := by
    change [ascii "session_hex", ascii "total_chunks"].Nodup
    decide
  have hsid := @field_of_mem _ "session_hex" _ hkeys List.mem_cons_self
  have htotal := @parseU64_of_mem _ "total_chunks" total hkeys
    (List.mem_cons_of_mem _ (List.mem_singleton_self _))
  have hfields : parseTextFields (commitPacket sessionId total).payload "DPC_COMMIT_V1" = .ok _ :=
    parseTextFields_textFields (.of_test (by decide)) hwords
  simp only [openCommit, hfields, bind, Except.bind, hsid,
    hexDecodeString_hexEncodeString, htotal]
  rfl

/-- The effects of a commit leave the objects alone, and add to session files no more than marks. -/
def Marks (sessionId : Bytes) (i : FsEffect) : Prop :=
  (∀ q ∈ i.touches, ¬ObjectStore.InObjects q ∧ q ≠ SessionIndex.path sessionId) ∨
    ∃ other v mode e, i = .append (SessionIndex.path other) (SessionIndex.committedLine v) mode e

/-- The objects are as they were, and the session has the records that it had. -/
def Unmoved (env : Env) (sessionId : Bytes) (s t : Fs) : Prop :=
  Added env (fun _ => False) s t ∧ ∀ rs, Carries s sessionId rs → Carries t sessionId rs

theorem Unmoved.trans {u : Fs} (h : Unmoved env sessionId s t) (h' : Unmoved env sessionId t u) :
    Unmoved env sessionId s u :=
  ⟨h.1.trans h'.1, fun rs hrs => h'.2 rs (h.2 rs hrs)⟩

theorem Marks.unmoved {i : FsEffect} (h : Marks sessionId i) (ha : Effect.apply i s = .ok t) :
    Unmoved env sessionId s t := by
  rcases h with hfree | ⟨other, v, mode, e, rfl⟩
  · have hframe : Frame (· ∈ i.touches) s t := .of_apply ha fun q hq => hq
    refine ⟨.of_frame hframe fun q hq hm => (hfree q hm).1 hq, fun rs hrs => hrs.congr ?_⟩
    exact SessionIndex.textOf_congr (hframe _ fun hm => (hfree _ hm).2 rfl)
  · have hframe : Frame (· = SessionIndex.path other) s t :=
      .of_apply ha fun q hq => List.mem_singleton.mp hq
    refine ⟨.of_frame hframe fun q hq he => SessionIndex.not_inObjects_path other (he ▸ hq), ?_⟩
    intro rs hrs
    by_cases ho : other = sessionId
    · subst ho
      exact hrs.committed (SessionIndex.textOf_append ha)
    · exact hrs.congr (SessionIndex.textOf_congr (hframe _ fun he =>
        ho (SessionIndex.path_injective he).symm))

theorem commit_marks : CommitEffects env now packet s fun i _ _ => Marks sessionId i := by
  have hone : ∀ {i : FsEffect} {p : Path}, i.touches = [p] → ¬ObjectStore.InObjects p →
      p ≠ SessionIndex.path sessionId → Marks sessionId i := by
    intro i p hi hobject hsession
    refine .inl fun q hq => ?_
    rw [hi, List.mem_singleton] at hq
    exact hq ▸ ⟨hobject, hsession⟩
  have hwal : ∀ data mode e, Marks sessionId (.append WalLog.walPath data mode e) := fun _ _ _ =>
    hone rfl BackupEngine.not_inObjects_walPath (SessionIndex.path_ne_wal sessionId).symm
  refine ⟨fun p _ _ => .inl (by simp [FsEffect.touches]), fun data mode e _ _ => hwal data mode e, ?_,
    fun other v mode e _ _ => .inr ⟨other, v, mode, e, rfl⟩⟩
  intro u other rs m _ _
  refine ⟨fun p _ _ => .inl (by simp [FsEffect.touches]), fun data mode e _ _ => hwal data mode e, ?_,
    ?_, ?_, ?_⟩
  · exact fun mode _ _ => hone rfl (not_inObjects_tmp _) (SessionIndex.path_ne_tmp sessionId _).symm
  · intro _ _ _ _ _ _
    refine .inl fun q hq => ?_
    rcases List.mem_cons.mp hq with rfl | hq
    · exact ⟨not_inObjects_tmp _, (SessionIndex.path_ne_tmp sessionId _).symm⟩
    · rw [List.mem_singleton.mp hq]
      exact ⟨not_inObjects_manifest _, (SessionIndex.path_ne_manifest sessionId _).symm⟩
  · exact fun data mode _ _ _ _ _ _ =>
      hone rfl (not_inObjects_commit _) (SessionIndex.path_ne_commit sessionId _).symm
  · exact fun data mode _ _ =>
      hone rfl not_inObjects_checkpoint (SessionIndex.path_ne_checkpoint sessionId).symm

/-- Wherever a commit is stopped, the session has the records that it had. -/
theorem commit_cut {total : UInt64}
    (hcut : Prog.Cut (commit env now sessionId total) s is t) : Unmoved env sessionId s t := by
  have hhandle : ∀ {is' : List FsEffect} {u : Fs},
      Prog.Cut (handlePacket env now (commitPacket sessionId total)) s is' u →
        Unmoved env sessionId s u := by
    intro is' u hu
    change Prog.Cut (commitSession env now (commitPacket sessionId total)) s is' u at hu
    have hk : Keeps (fun i _ _ => Marks sessionId i) _
        (commitSession env now (commitPacket sessionId total)) s := commitSession_keeps commit_marks
    refine SafeAlone.cut (I := fun _ a b => Unmoved env sessionId a b) hk hu
      (fun a => ⟨.refl a, fun _ => id⟩) ?_
    exact fun i is a m b ha hg h => (hg.unmoved ha).trans h
  simp only [commit, Prog.bind_eq] at hcut
  rcases hcut.of_bind with hcut | ⟨ack, m, _, _, _, hfirst, hcut, _⟩
  · obtain ⟨_, h⟩ := exchange_cut hcut
    exact hhandle h
  · obtain ⟨_, h⟩ := exchange_cut hfirst
    have hsame : t = m := by
      rcases hcut.of_bind with hcut | ⟨_, m', _, _, _, hnot, hcut, _⟩
      · exact Prog.cut_ofExcept hcut
      · cases Prog.cut_ofExcept hnot
        split at hcut
        · cases hcut
          rfl
        · cases hcut
          rfl
    rw [hsame]
    exact hhandle h

/-- A commit that is acknowledged has made a version of the records of its session. -/
theorem commit_acked {total : UInt64} {text : Bytes} (hsession : sessionId ≠ [])
    (h : Carries s sessionId rs) (hx : (commit env now sessionId total).exec s = (.ok text, t)) :
    ∃ m, text = commitText m.version ∧
      Committed env now (commitPacket sessionId total) s t sessionId rs m := by
  simp only [commit, Prog.bind_eq] at hx
  obtain ⟨ack, m, hack, hx⟩ := Prog.exec_bind_ok hx
  obtain ⟨_, m', hnot, hx⟩ := Prog.exec_bind_ok hx
  rw [Prog.exec_ofExcept, Prod.mk.injEq] at hnot
  obtain ⟨hnot, rfl⟩ := hnot
  obtain ⟨reply, hreply, hdecode⟩ := exchange_ok hack hnot
  split at hx
  · cases hx
  cases hx
  have hk : Keeps (fun i _ _ => Marks sessionId i) _
      (commitSession env now (commitPacket sessionId total)) s := commitSession_keeps commit_marks
  obtain ⟨other, rs', m', hc, ha⟩ := Keeps.ok hk hreply
  obtain ⟨u, hg, _, _⟩ := hc.gathered
  obtain ⟨total', hopen, _⟩ := hg.opened
  rw [openCommit_commitPacket hsession, Except.ok.injEq, Prod.mk.injEq] at hopen
  obtain ⟨rfl, rfl⟩ := hopen
  have hrecorded := h.recorded
  cases hg.recorded.unique hrecorded
  refine ⟨m', ?_, hc⟩
  rw [decode_sendText ha] at hdecode
  cases hdecode
  rfl

end Dpc
