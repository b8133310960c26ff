import Dpc.Guarantees.Acked
import Dpc.Guarantees.Contained
import Dpc.Network.StatusFacts
import Mathlib.Algebra.Order.BigOperators.Group.Finset

namespace Dpc
open Text FileTree Effects ManifestStore BackupServer SessionIndex

variable {env : Env} {now : UInt64} {packet query : Packet} {packets : List Packet} {s t u : Fs}
  {sessionId : Bytes} {rs : List ReceivedChunkRecord}

/-- Chunks that were sent one after another, each of them acknowledged. -/
inductive Uploads (env : Env) (s : Fs) : List Packet → Fs → Prop where
  | nil : Uploads env s [] s
  | put {packets : List Packet} {t u : Fs} (h : Uploads env s packets t) (now : UInt64)
      (packet : Packet) (type : packet.type = .putChunk)
      (acked : ∃ reply, (handlePacket env now packet).exec t = (.ok reply, u)) :
      Uploads env s (packets ++ [packet]) u

/-- The packet is about the session. -/
def BelongsTo (sessionId : Bytes) (packet : Packet) : Prop :=
  (parsePutPayload packet.payload).toOption.map PutPayload.sessionId = some sessionId

instance (sessionId : Bytes) : DecidablePred (BelongsTo sessionId) :=
  fun _ => inferInstanceAs (Decidable (_ = _))

/-- The indices of a session's chunks. -/
def indicesOf (sessionId : Bytes) (packets : List Packet) : Finset UInt64 :=
  ((packets.filter (BelongsTo sessionId)).map (·.chunkIndex)).toFinset

/-- The server answers a query, and the client reads the answer as what was received. -/
def Resumes (env : Env) (now : UInt64) (query : Packet) (sessionId : Bytes) (t : Fs) : Prop :=
  ∃ reply status received, (handlePacket env now query).exec t = (.ok reply, t) ∧
    PacketCodec.decode reply = .ok status ∧ status.type = .sessionStatus ∧
    BackupClient.parseStatus status = .ok received ∧
    (SessionIndex.received sessionId).exec t = (.ok received, t)

/-- The session file has records of chunks with the indices. -/
structure HasChunks (t : Fs) (sessionId : Bytes) (rs : List ReceivedChunkRecord)
    (indices : Finset UInt64) : Prop where
  text : textOf t sessionId = rs.flatMap recordLine
  writable : ∀ r ∈ rs, Writable r
  sha : ∀ r ∈ rs, Hash.isSha256Hex r.sha256 = true
  indices : (rs.map (·.globalIndex)).toFinset = indices

theorem indicesOf_concat :
    indicesOf sessionId (packets ++ [packet]) =
      if BelongsTo sessionId packet then insert packet.chunkIndex (indicesOf sessionId packets)
      else indicesOf sessionId packets := by
  ext i
  by_cases hp : BelongsTo sessionId packet
  · simp [indicesOf, List.filter_append, hp]
  · simp [indicesOf, List.filter_append, hp]

/-- A chunk more, of this session or of another. -/
theorem HasChunks.put {put : PutPayload} {stored : PutObjectResult}
    (h : HasChunks s sessionId rs (indicesOf sessionId packets))
    (ht : Taken env packet put stored s u t) :
    ∃ rs', HasChunks t sessionId rs' (indicesOf sessionId (packets ++ [packet])) := by
  have hopen := (openPut_ok ht.opened).1
  have hsame := ht.text_eq sessionId
  rw [indicesOf_concat]
  by_cases hp : BelongsTo sessionId packet
  · have hput : put.sessionId = sessionId := by
      simpa [BelongsTo, hopen, Except.toOption] using hp
    rw [if_pos hp]
    obtain ⟨rs', hrs', hrecord⟩ := ht.record
    rw [hput, hsame] at hrecord
    rw [hput, Recorded, hsame] at hrs'
    cases Recorded.unique hrs' (recorded_lines h.writable h.text)
    split at hrecord
    · rename_i found hfound
      obtain ⟨hmem, hi⟩ := mem_of_byGlobal hfound
      have hin : packet.chunkIndex ∈ indicesOf sessionId packets := by
        rw [← h.indices, List.mem_toFinset]
        exact List.mem_map.mpr ⟨found, hmem, hi⟩
      refine ⟨rs, ?_, h.writable, h.sha, ?_⟩
      · rw [hrecord.2, h.text]
      · rw [Finset.insert_eq_of_mem hin, h.indices]
    · refine ⟨rs ++ [recordOf packet put stored], ?_, ?_, ?_, ?_⟩
      · rw [hrecord, h.text, List.flatMap_append, List.flatMap_singleton]
      · simpa [or_imp, forall_and] using ⟨h.writable, ht.writable⟩
      · simpa [or_imp, forall_and] using ⟨h.sha, ht.sha⟩
      · rw [List.map_append, List.toFinset_append, h.indices, Finset.union_comm]
        rfl
  · have hput : sessionId ≠ put.sessionId := by
      intro he
      exact hp (by simp [BelongsTo, hopen, Except.toOption, he])
    rw [if_neg hp]
    refine ⟨rs, ?_, h.writable, h.sha, h.indices⟩
    rw [textOf_congr (ht.frame _ fun he => hput (path_injective he)), hsame, h.text]

theorem Uploads.hasChunks (h : Uploads env s packets t) (hnew : textOf s sessionId = []) :
    ∃ rs, HasChunks t sessionId rs (indicesOf sessionId packets) := by
  induction h with
  | nil => exact ⟨[], hnew, by simp, by simp, rfl⟩
  | put _ now packet htype hacked ih =>
    obtain ⟨rs, hrs⟩ := ih
    obtain ⟨reply, hx⟩ := hacked
    obtain ⟨put, stored, v, ht⟩ := putChunk_ok htype hx
    exact hrs.put ht

/-- A chunk that is stored already is acknowledged at every new index. -/
theorem putChunk_again {put : PutPayload} {sha raw : Bytes} {f : File}
    (htype : packet.type = .putChunk) (hopen : openPut env packet = .ok (put, sha))
    (hlaid : ObjectStore.Laid t) (hstored : ObjectStore.Stored env t sha raw)
    (hsize : size raw = put.rawSize) (hf : t.leaf? (path put.sessionId) = some f)
    (hrec : Recorded t put.sessionId rs) (hnew : ∀ r ∈ rs, r.globalIndex ≠ packet.chunkIndex) :
    ∃ reply u, (handlePacket env now packet).exec t = (.ok reply, u) := by
  obtain ⟨g, hg, hd, hsha⟩ := hstored
  have hhex : Hash.isSha256Hex sha = true := hsha ▸ Hash.isSha256Hex_sha256Hex env.evp raw
  have hstorable : ObjectStore.Storable env t sha put.rawSize := by
    simp only [ObjectStore.Storable, Tree.leaf?_eq_some.mp hg]
    exact ⟨raw, ⟨g, hg, hd, hsha⟩, hsize⟩
  obtain ⟨stored, a, ha⟩ : ∃ stored a,
      (ObjectStore.putCompressed env sha put.compressed put.rawSize).exec t = (.ok stored, a) :=
    (ObjectStore.putCompressed_iff hhex).mpr ⟨hlaid, hstorable⟩
  have hk : Keeps (fun _ _ _ => True) _
      (ObjectStore.putCompressed env sha put.compressed put.rawSize) t :=
    ObjectStore.putCompressed_keeps (fun _ _ _ => trivial) fun _ _ _ _ _ _ => trivial
  obtain ⟨_, hput⟩ := Keeps.ok hk ha
  have hleaf : a.leaf? (path put.sessionId) = t.leaf? (path put.sessionId) :=
    hput.frame _ fun he => not_inObjects_path put.sessionId (he ▸ ObjectStore.inObjects_pathOf _)
  have hrec' : Recorded a put.sessionId rs := by
    rw [Recorded, textOf_congr hleaf]
    exact hrec
  obtain ⟨u, hu, _⟩ : ∃ u, (appendChunk env put.sessionId (recordOf packet put stored)).exec a = (.ok (), u) ∧
      textOf u put.sessionId = textOf a put.sessionId ++ recordLine (recordOf packet put stored) :=
    appendChunk_new (hleaf.trans hf) hrec' hnew
  obtain ⟨reply, hreply⟩ : ∃ reply,
      sendText .putChunkAck packet.sessionIdHash (ascii "ok" ++ [newline]) = .ok reply := ⟨_, rfl⟩
  refine ⟨reply, u, ?_⟩
  simp only [handlePacket, htype, putChunk, Prog.bind_eq, hopen]
  rw [Prog.exec_bind_of_ok (Prog.exec_ofExcept _ _), Prog.exec_bind_of_ok ha,
    Prog.exec_bind_of_ok hu, hreply, Prog.exec_ofExcept]

/-- The answer to a query, if it can be sent. -/
theorem exec_querySession {list : List (UInt64 × Bytes)} (htype : query.type = .querySession)
    (hquery : Queries query sessionId) (hx : (received sessionId).exec t = (.ok list, t)) :
    (handlePacket env now query).exec t =
      (sendText .sessionStatus query.sessionIdHash (statusText list), t) := by
  obtain ⟨fields, value, hfields, hvalue, hsession⟩ := hquery
  simp only [handlePacket, htype, querySession, Prog.bind_eq]
  rw [hfields, Prog.exec_bind_of_ok (Prog.exec_ofExcept _ _), hvalue,
    Prog.exec_bind_of_ok (Prog.exec_ofExcept _ _), hsession,
    Prog.exec_bind_of_ok (Prog.exec_ofExcept _ _), Prog.exec_bind_of_ok hx, Prog.exec_ofExcept]

theorem HasChunks.leaf {indices : Finset UInt64} {i : UInt64} (h : HasChunks t sessionId rs indices)
    (hi : i ∈ indices) : ∃ f, t.leaf? (path sessionId) = some f := by
  rw [← h.indices, List.mem_toFinset] at hi
  obtain ⟨r, hr, _⟩ := List.mem_map.mp hi
  refine leaf_of_textOf fun hnil => ?_
  rw [h.text] at hnil
  have := List.flatMap_eq_nil_iff.mp hnil r hr
  simp [recordLine] at this

theorem HasChunks.resumes_iff {indices : Finset UInt64} {f : File}
    (h : HasChunks t sessionId rs indices) (hf : t.leaf? (path sessionId) = some f)
    (htype : query.type = .querySession) (hquery : Queries query sessionId) :
    Resumes env now query sessionId t ↔ statusSize indices ≤ PacketCodec.kMaxPayloadSize := by
  have hreceived := exec_received hf (recorded_lines h.writable h.text)
  have hexec : (handlePacket env now query).exec t = (sendText .sessionStatus query.sessionIdHash _, t) :=
    exec_querySession htype hquery hreceived
  rw [← h.indices, ← length_status h.sha]
  constructor
  · intro ⟨reply, _, _, hx, _⟩
    have hsent := congrArg Prod.fst (hexec.symm.trans hx)
    simp only [sendText, PacketCodec.encode] at hsent
    split at hsent
    · contradiction
    · omega
  · intro hlen
    obtain ⟨reply, hreply⟩ : ∃ reply,
        sendText .sessionStatus query.sessionIdHash (statusText (receivedOf rs)) = .ok reply := by
      simp only [sendText, PacketCodec.encode, if_neg (Nat.not_lt.mpr hlen)]
      exact ⟨_, rfl⟩
    rw [hreply] at hexec
    refine ⟨reply, _, _, hexec, decode_sendText hreply, rfl, parseStatus_statusText ?_, hreceived⟩
    intro entry he
    obtain ⟨e, hmem, rfl⟩ := List.mem_map.mp he
    have hr := (mem_of_byGlobal (Std.TreeMap.mem_toList_iff_getElem?_eq_some.mp hmem)).1
    exact Hash.isWord_of_isSha256Hex (h.sha _ hr)

theorem mem_indicesOf {i : UInt64} :
    i ∈ indicesOf sessionId packets ↔
      ∃ packet ∈ packets, BelongsTo sessionId packet ∧ packet.chunkIndex = i := by
  simp [indicesOf, and_assoc]

/-- A session that received chunks is resumed if and only if its status fits in a packet. -/
theorem session_resumes_iff (h : Uploads env s packets t) (hnew : textOf s sessionId = [])
    (hone : ∃ packet ∈ packets, BelongsTo sessionId packet) (htype : query.type = .querySession)
    (hquery : Queries query sessionId) :
    Resumes env now query sessionId t ↔
      statusSize (indicesOf sessionId packets) ≤ PacketCodec.kMaxPayloadSize := by
  obtain ⟨rs, hrs⟩ := h.hasChunks hnew
  obtain ⟨packet, hp, hbelongs⟩ := hone
  obtain ⟨f, hf⟩ := hrs.leaf (mem_indicesOf.mpr ⟨packet, hp, hbelongs, rfl⟩)
  exact hrs.resumes_iff hf htype hquery

def letterQuery : Packet where
  type := .querySession
  sessionIdHash := PacketCodec.sessionHash (ascii "s")
  chunkIndex := 0
  chunkSha256 := zeroDigest
  payload := BackupClient.textFields "DPC_QUERY_SESSION_V1"
    [(ascii "session_hex", hexEncodeString (ascii "s"))]

theorem queries_letterQuery : Queries letterQuery (ascii "s") :=
  ⟨[(ascii "session_hex", hexEncodeString (ascii "s"))], hexEncodeString (ascii "s"), by decide +kernel,
    by decide +kernel, by decide +kernel⟩

/-- One chunk of one byte, wherever it stands in the session. -/
def letterAt (i : UInt64) : Packet := { claimedPut (ascii "a") with chunkIndex := i }

theorem openPut_letterAt (i : UInt64) :
    openPut letterEnv (letterAt i) =
      .ok (claimedFields (ascii "a"), PacketCodec.shaHexFromArray letterA.2) := by
  have h : openPut letterEnv (claimedPut (ascii "a")) =
      .ok (claimedFields (ascii "a"), PacketCodec.shaHexFromArray letterA.2) := by decide +kernel
  exact h

theorem belongsTo_letterAt (i : UInt64) : BelongsTo (ascii "s") (letterAt i) := by
  rw [BelongsTo, (openPut_ok (openPut_letterAt i)).1]
  rfl

theorem exec_letterAt : (handlePacket letterEnv 1700000000 (letterAt 0)).exec emptyRepo =
    (.ok okReply, claimedSession (ascii "a")) :=
  Prog.exec_of_fst (by decide +kernel)

theorem indicesOf_letters (is : List UInt64) :
    indicesOf (ascii "s") (is.map letterAt) = is.toFinset := by
  ext i
  rw [mem_indicesOf, List.mem_toFinset]
  constructor
  · intro ⟨packet, hp, _, hi⟩
    obtain ⟨j, hj, rfl⟩ := List.mem_map.mp hp
    rwa [← hi]
  · intro hi
    exact ⟨letterAt i, List.mem_map_of_mem hi, belongsTo_letterAt i, rfl⟩

theorem textOf_emptyRepo : textOf emptyRepo sessionId = [] := by
  simp [textOf]

theorem letter_session_resumes :
    Resumes letterEnv 1700000000 letterQuery (ascii "s") (claimedSession (ascii "a")) := by
  have hrun : Uploads letterEnv emptyRepo [letterAt 0] (claimedSession (ascii "a")) :=
    .put .nil 1700000000 (letterAt 0) rfl ⟨okReply, exec_letterAt⟩
  refine (session_resumes_iff hrun textOf_emptyRepo
    ⟨letterAt 0, List.mem_singleton_self _, belongsTo_letterAt 0⟩ rfl queries_letterQuery).mpr ?_
  rw [show indicesOf (ascii "s") [letterAt 0] = {0} from indicesOf_letters [0], statusSize,
    Finset.sum_singleton]
  decide

/-- The first indices. -/
def firstIndices (n : Nat) : List UInt64 := (List.range n).map UInt64.ofNat

theorem ofNat_inj {i j : Nat} (hi : i < 2 ^ 64) (hj : j < 2 ^ 64)
    (h : UInt64.ofNat i = UInt64.ofNat j) : i = j := by
  have h := congrArg UInt64.toNat h
  rwa [UInt64.toNat_ofNat_of_lt' hi, UInt64.toNat_ofNat_of_lt' hj] at h

theorem mem_firstIndices {n i : Nat} (hn : n ≤ 2 ^ 64) (hi : i < 2 ^ 64) :
    UInt64.ofNat i ∈ firstIndices n ↔ i < n := by
  simp only [firstIndices, List.mem_map, List.mem_range]
  constructor
  · intro ⟨j, hj, he⟩
    rwa [← ofNat_inj (by omega) hi he]
  · intro h
    exact ⟨i, h, rfl⟩

theorem nodup_firstIndices {n : Nat} (hn : n ≤ 2 ^ 64) : (firstIndices n).Nodup := by
  refine List.Nodup.map_on (fun i hi j hj he => ?_) List.nodup_range
  rw [List.mem_range] at hi hj
  exact ofNat_inj (by omega) (by omega) he

/-- The one chunk can be sent at any number of indices. -/
theorem uploads_letters (n : Nat) (hn : n < 2 ^ 64) :
    ∃ t, Uploads letterEnv emptyRepo ((firstIndices (n + 1)).map letterAt) t ∧
      (∀ d ∈ ObjectStore.layoutDirs, t.get? d = some .dir) ∧
      ObjectStore.Stored letterEnv t (PacketCodec.shaHexFromArray letterA.2) (ascii "a") := by
  induction n with
  | zero =>
    refine ⟨claimedSession (ascii "a"), .put .nil 1700000000 (letterAt 0) rfl ⟨okReply, exec_letterAt⟩,
      by decide +kernel, ?_⟩
    exact ⟨⟨rawFrame (ascii "a"), 0o644⟩, by decide +kernel, by decide +kernel, by decide +kernel⟩
  | succ n ih =>
    obtain ⟨t, hrun, hdirs, hstored⟩ := ih (by omega)
    obtain ⟨rs, hrs⟩ : ∃ rs, HasChunks t (ascii "s") rs _ := hrun.hasChunks textOf_emptyRepo
    rw [indicesOf_letters] at hrs
    have hzero : UInt64.ofNat 0 ∈ firstIndices (n + 1) :=
      (mem_firstIndices (by omega) (by omega)).mpr (by omega)
    obtain ⟨f, hf⟩ := hrs.leaf (List.mem_toFinset.mpr hzero)
    have hnew : ∀ r ∈ rs, r.globalIndex ≠ UInt64.ofNat (n + 1) := by
      intro r hr he
      have hin : UInt64.ofNat (n + 1) ∈ firstIndices (n + 1) := by
        rw [← List.mem_toFinset, ← hrs.indices, ← he, List.mem_toFinset]
        exact List.mem_map_of_mem hr
      exact absurd ((mem_firstIndices (by omega) hn).mp hin) (Nat.lt_irrefl _)
    have hlaid : ObjectStore.Laid t := fun d hd => Tree.mkdirs_iff.mp ⟨t, Tree.mkdirs_of_dir (hdirs d hd)⟩
    obtain ⟨reply, u, hx⟩ : ∃ reply u, (handlePacket letterEnv 1700000000
        (letterAt (UInt64.ofNat (n + 1)))).exec t = (.ok reply, u) := putChunk_again rfl (openPut_letterAt _) hlaid hstored (by decide) hf
      (recorded_lines hrs.writable hrs.text) hnew
    obtain ⟨put, stored, v, ht⟩ := putChunk_ok rfl hx
    refine ⟨u, ?_, fun d hd => ?_, ?_⟩
    · rw [firstIndices, List.range_succ, List.map_append, List.map_append]
      exact .put hrun 1700000000 _ rfl ⟨reply, hx⟩
    · have := exec_dir (handlePacket letterEnv 1700000000 (letterAt (UInt64.ofNat (n + 1)))) (hdirs d hd)
      rwa [hx] at this
    · refine (hstored.kept ht.object.kept).kept (.of_frame ht.frame ?_)
      rintro q hq rfl
      exact not_inObjects_path put.sessionId hq

theorem le_statusSize (indices : Finset UInt64) : 67 * indices.card ≤ statusSize indices := by
  have hone : ∀ i ∈ indices, 67 ≤ (number i).length + 66 := by
    intro i _
    have := List.length_pos_iff.mpr (decimal_ne_nil i.toNat)
    rw [number]
    omega
  have hsum := Finset.sum_le_sum hone
  rw [Finset.sum_const_nat fun _ _ => rfl, Nat.mul_comm] at hsum
  exact hsum.trans (Nat.le_add_left _ _)

theorem long_session_does_not_resume :
    ∃ packets t, Uploads letterEnv emptyRepo packets t ∧
      (∃ packet ∈ packets, BelongsTo (ascii "s") packet) ∧ letterQuery.type = .querySession ∧
      Queries letterQuery (ascii "s") ∧
      ¬Resumes letterEnv 1700000000 letterQuery (ascii "s") t := by
  have hn : 2 ^ 17 - 1 < 2 ^ 64 := by decide
  obtain ⟨t, hrun, _⟩ := uploads_letters (2 ^ 17 - 1) hn
  obtain ⟨rs, hrs⟩ : ∃ rs, HasChunks t (ascii "s") rs _ := hrun.hasChunks textOf_emptyRepo
  rw [indicesOf_letters] at hrs
  have hzero : UInt64.ofNat 0 ∈ firstIndices (2 ^ 17 - 1 + 1) :=
    (mem_firstIndices (by decide) (by decide)).mpr (by decide)
  obtain ⟨f, hf⟩ := hrs.leaf (List.mem_toFinset.mpr hzero)
  refine ⟨_, t, hrun, ⟨letterAt (UInt64.ofNat 0), List.mem_map_of_mem hzero, belongsTo_letterAt _⟩, rfl,
    queries_letterQuery, fun hresumes => ?_⟩
  have hlen := (hrs.resumes_iff hf rfl queries_letterQuery).mp hresumes
  have hcard : (firstIndices (2 ^ 17 - 1 + 1)).toFinset.card = 2 ^ 17 := by
    rw [List.toFinset_card_of_nodup (nodup_firstIndices (by decide)), firstIndices, List.length_map,
      List.length_range]
    rfl
  have hle := le_statusSize (firstIndices (2 ^ 17 - 1 + 1)).toFinset
  rw [hcard] at hle
  exact absurd (hle.trans hlen) (by decide)

end Dpc
