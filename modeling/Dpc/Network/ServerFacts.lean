import Dpc.Core.ManifestFormat
import Dpc.Core.PublishFacts
import Dpc.Network.BackupServer
import Dpc.Network.SessionFacts

namespace Dpc
open Text FileTree Effects ManifestStore

namespace SessionIndex

theorem not_inObjects_path (sessionId : Bytes) : ¬ObjectStore.InObjects (path sessionId) :=
  show some (ascii "metadata") ≠ some (ascii "objects") by decide

theorem length_path (sessionId : Bytes) : (path sessionId).length = 3 := rfl

theorem path_ne_wal (sessionId : Bytes) : path sessionId ≠ WalLog.walPath := by
  intro h
  have := congrArg List.length h
  rw [length_path] at this
  contradiction

theorem path_ne_checkpoint (sessionId : Bytes) : path sessionId ≠ Checkpoint.path := by
  intro h
  have := congrArg List.length h
  rw [length_path] at this
  contradiction

theorem path_ne_manifest (sessionId : Bytes) (v : UInt64) : path sessionId ≠ manifestPath v :=
  ne_of_head (show some (ascii "metadata") ≠ some (ascii "manifests") by decide)

theorem path_ne_commit (sessionId : Bytes) (v : UInt64) : path sessionId ≠ commitPath v :=
  ne_of_head (show some (ascii "metadata") ≠ some (ascii "manifests") by decide)

theorem path_ne_tmp (sessionId : Bytes) (v : UInt64) : path sessionId ≠ tmpManifestPath v :=
  ne_of_head (show some (ascii "metadata") ≠ some (ascii "tmp") by decide)

theorem not_publishPath (sessionId : Bytes) (v : UInt64) :
    ¬BackupEngine.PublishPath v (path sessionId) := by
  intro h
  rcases h with h | h | h | h | h
  · exact path_ne_tmp sessionId v h
  · exact path_ne_manifest sessionId v h
  · exact path_ne_commit sessionId v h
  · exact path_ne_wal sessionId h
  · exact path_ne_checkpoint sessionId h

end SessionIndex

namespace BackupServer

theorem mem_pairUp {ws : List Bytes} {e : Bytes × Bytes} (h : e ∈ pairUp ws) : e.2 ∈ ws := by
  induction ws using pairUp.induct with
  | case1 key value rest ih =>
    rw [pairUp, List.mem_cons] at h
    rcases h with he | h
    · simp [he]
    · simp [ih h]
  | case2 ws hne =>
    unfold pairUp at h
    split at h
    · exact absurd rfl (hne _ _ _)
    · contradiction

theorem isWord_field {text value : Bytes} {header key : String} {fields : Fields}
    (hf : parseTextFields text header = .ok fields) (h : field fields key = .ok value) :
    IsWord value := by
  unfold parseTextFields at hf
  dsimp only at hf
  split at hf
  · contradiction
  cases hf
  unfold field at h
  split at h
  · rename_i found hfound
    cases h
    have hm := List.mem_reverse.mp (List.mem_of_find?_eq_some hfound)
    exact isWord_of_mem_words (List.mem_of_mem_tail (mem_pairUp hm))
  · contradiction

theorem bind_ok {α β : Type} {x : Except Exn α} {f : α → Except Exn β} {b : β}
    (h : (x >>= f) = .ok b) : ∃ a, x = .ok a ∧ f a = .ok b := by
  cases x with
  | error e => contradiction
  | ok a => exact ⟨a, rfl, h⟩

/-- The texts of a payload that was taken are not empty. -/
theorem parsePutPayload_ok {payload : Bytes} {put : PutPayload}
    (h : parsePutPayload payload = .ok put) :
    IsWord put.fileSha256 ∧ put.relativePath ≠ [] := by
  unfold parsePutPayload at h
  split at h
  · contradiction
  obtain ⟨fields, hfields, h⟩ := bind_ok h
  obtain ⟨sessionHex, _, h⟩ := bind_ok h
  obtain ⟨sessionId, _, h⟩ := bind_ok h
  obtain ⟨relativeHex, hrel, h⟩ := bind_ok h
  obtain ⟨relativePath, hpath, h⟩ := bind_ok h
  obtain ⟨fileSize, _, h⟩ := bind_ok h
  obtain ⟨fileMode, _, h⟩ := bind_ok h
  obtain ⟨fileSha256, hsha, h⟩ := bind_ok h
  obtain ⟨chunkIndex, _, h⟩ := bind_ok h
  obtain ⟨rawSize, _, h⟩ := bind_ok h
  obtain ⟨compressedSize, _, h⟩ := bind_ok h
  have hput : put.fileSha256 = fileSha256 ∧ put.relativePath = relativePath := by
    split at h
    · contradiction
    · cases h
      exact ⟨rfl, rfl⟩
  rw [hput.1, hput.2]
  exact ⟨isWord_field hfields hsha, hexDecodeString_ne_nil (isWord_field hfields hrel).ne_nil hpath⟩

theorem openPut_ok {env : Env} {packet : Packet} {put : PutPayload} {sha : Bytes}
    (h : openPut env packet = .ok (put, sha)) :
    parsePutPayload packet.payload = .ok put ∧
      sha = PacketCodec.shaHexFromArray packet.chunkSha256 ∧
      ∃ raw, Compressor.decompress env put.compressed put.rawSize = .ok raw ∧
        Hash.sha256Hex env.evp raw = sha := by
  unfold openPut at h
  obtain ⟨put', hput, h⟩ := bind_ok h
  obtain ⟨raw, hraw, h⟩ := bind_ok h
  dsimp only at h
  split at h
  · contradiction
  · rename_i hsha
    cases h
    exact ⟨hput, not_not.mp hsha, raw, hraw, rfl⟩

theorem decode_sendText {type : PacketType} {hash : UInt64} {text reply : Bytes}
    (h : sendText type hash text = .ok reply) :
    PacketCodec.decode reply = .ok ⟨type, hash, 0, zeroDigest, text⟩ :=
  PacketCodec.decode_encode h

theorem commitText_injective {v w : UInt64} (h : commitText v = commitText w) : v = w := by
  simp only [commitText, List.append_cancel_left_eq, List.append_cancel_right_eq,
    List.append_assoc, number] at h
  exact UInt64.toNat_inj.mp (decimal_injective h)

/-- The answer to a packet acknowledges a version. -/
def Acknowledges (packet : Packet) (version : UInt64) (reply : Bytes) : Prop :=
  sendText .commitAck packet.sessionIdHash (commitText version) = .ok reply

instance (packet : Packet) (version : UInt64) (reply : Bytes) :
    Decidable (Acknowledges packet version reply) := inferInstanceAs (Decidable (_ = _))

theorem Acknowledges.unique {packet : Packet} {v w : UInt64} {reply : Bytes}
    (h : Acknowledges packet v reply) (h' : Acknowledges packet w reply) : v = w := by
  have hd := decode_sendText h
  rw [decode_sendText h'] at hd
  simp only [Except.ok.injEq, Packet.mk.injEq, true_and] at hd
  exact (commitText_injective hd).symm

theorem Acknowledges.type_eq {packet : Packet} {v : UInt64} {type : PacketType} {hash : UInt64}
    {text reply : Bytes} (h : Acknowledges packet v reply)
    (h' : sendText type hash text = .ok reply) : type = .commitAck := by
  have hd := decode_sendText h
  rw [decode_sendText h'] at hd
  simp only [Except.ok.injEq, Packet.mk.injEq] at hd
  exact hd.1

variable {G : FsEffect → Fs → Fs → Prop} {env : Env} {s t : Fs} {now : UInt64} {packet : Packet}

theorem querySession_keeps :
    Keeps G (fun reply t => t = s ∧ ∃ text,
      sendText .sessionStatus packet.sessionIdHash text = .ok reply) (querySession packet) s := by
  simp only [querySession, Prog.bind_eq]
  refine Keeps.bind_ofExcept fun fields _ => ?_
  refine Keeps.bind_ofExcept fun sessionHex _ => ?_
  refine Keeps.bind_ofExcept fun sessionId _ => ?_
  refine Keeps.bind SessionIndex.received_keeps fun list a ⟨he, _⟩ => ?_
  exact Keeps.ofExcept fun reply hr => ⟨he, _, hr⟩

/-- The effects of taking a chunk: its object if it was not there, and its record once
the object is. -/
structure PutEffects (G : FsEffect → Fs → Fs → Prop) : Prop where
  dir : ∀ p a b, G (.ensureDirectory p) a b
  object : ∀ sha data mode a b, Hash.isSha256Hex sha = true →
    a.leaf? (ObjectStore.pathOf sha) = none → G (.replace (ObjectStore.pathOf sha) data mode) a b
  record : ∀ sessionId record mode e a b, SessionIndex.Writable record →
    Hash.isSha256Hex record.sha256 = true →
    record.objectPath = ObjectStore.textOf record.sha256 →
    (a.leaf? (ObjectStore.pathOf record.sha256)).isSome →
    G (.append (SessionIndex.path sessionId) (SessionIndex.recordLine record) mode e) a b

/-- A chunk that the server took, with the states before, between and after its two parts. -/
structure Taken (env : Env) (packet : Packet) (put : PutPayload) (stored : PutObjectResult)
    (s u t : Fs) : Prop where
  opened : openPut env packet = .ok (put, stored.sha256)
  sha : Hash.isSha256Hex stored.sha256 = true
  object : ObjectStore.Put env stored.sha256 put.compressed put.rawSize s u stored
  frame : Frame (· = SessionIndex.path put.sessionId) u t
  record : ∃ rs, SessionIndex.Recorded u put.sessionId rs ∧
    match (SessionIndex.byGlobal rs)[packet.chunkIndex]? with
    | some r => r.sha256 = stored.sha256 ∧
        SessionIndex.textOf t put.sessionId = SessionIndex.textOf u put.sessionId
    | none => SessionIndex.textOf t put.sessionId =
        SessionIndex.textOf u put.sessionId ++ SessionIndex.recordLine (recordOf packet put stored)

/-- The record of a chunk that was taken can be written. -/
theorem Taken.writable {put : PutPayload} {stored : PutObjectResult} {u : Fs}
    (h : Taken env packet put stored s u t) :
    SessionIndex.Writable (recordOf packet put stored) := by
  obtain ⟨hfile, hpath⟩ := parsePutPayload_ok (openPut_ok h.opened).1
  refine ⟨Hash.isWord_of_isSha256Hex h.sha, hfile, hpath, ?_⟩
  rw [recordOf, h.object.path_eq]
  exact ObjectStore.textOf_ne_nil h.sha

/-- Until the object is there, the session file is as it was. -/
theorem Taken.text_eq {put : PutPayload} {stored : PutObjectResult} {u : Fs}
    (h : Taken env packet put stored s u t) (sessionId : Bytes) :
    SessionIndex.textOf u sessionId = SessionIndex.textOf s sessionId :=
  SessionIndex.textOf_congr (h.object.frame _ fun he =>
    SessionIndex.not_inObjects_path sessionId (he ▸ ObjectStore.inObjects_pathOf _))

theorem putChunk_keeps (hG : PutEffects G) :
    Keeps G (fun reply t => (∃ put stored u, Taken env packet put stored s u t) ∧
      ∃ text, sendText .putChunkAck packet.sessionIdHash text = .ok reply)
      (putChunk env packet) s := by
  simp only [putChunk, Prog.bind_eq]
  refine Keeps.bind_ofExcept fun (put, sha) hopen => ?_
  obtain ⟨hput, _, _⟩ := openPut_ok hopen
  obtain ⟨hfile, hpath⟩ := parsePutPayload_ok hput
  refine Keeps.bind (ObjectStore.putCompressed_keeps hG.dir fun m a b hsha ha hn =>
    hG.object sha _ m a b hsha (by rw [ha, hn])) fun stored u ⟨hsha, hp⟩ => ?_
  have heq := hp.sha_eq
  subst heq
  obtain ⟨f, hf, _⟩ := hp.file
  have hwrite : SessionIndex.Writable (recordOf packet put stored) := by
    refine ⟨Hash.isWord_of_isSha256Hex hsha, hfile, hpath, ?_⟩
    simp only [recordOf, hp.path_eq]
    exact ObjectStore.textOf_ne_nil hsha
  refine Keeps.bind (SessionIndex.appendChunk_keeps hG.dir fun mode e a b ha =>
    hG.record _ _ mode e a b hwrite hsha hp.path_eq ?_) fun _ t ⟨hframe, hrecord⟩ => ?_
  · simp only [recordOf, ha, hf, Option.isSome_some]
  · exact Keeps.ofExcept fun reply hr => ⟨⟨put, stored, u, hopen, hsha, hp, hframe, hrecord⟩, _, hr⟩

/-- An acknowledged chunk was taken. -/
theorem putChunk_ok {reply : Bytes} (hp : packet.type = .putChunk)
    (h : (handlePacket env now packet).exec s = (.ok reply, t)) :
    ∃ put stored u, Taken env packet put stored s u t := by
  have hput : (putChunk env packet).exec s = (.ok reply, t) := by
    rw [← h, handlePacket, hp]
  have hk : Keeps (fun _ _ _ => True) _ (putChunk env packet) s :=
    putChunk_keeps ⟨fun _ _ _ => trivial, fun _ _ _ _ _ _ _ => trivial,
      fun _ _ _ _ _ _ _ _ _ _ => trivial⟩
  exact (Keeps.ok hk hput).1

/-- The manifest of a commit, complete, and the state it was built in. -/
structure Gathered (env : Env) (now : UInt64) (packet : Packet) (s t : Fs) (sessionId : Bytes)
    (rs : List ReceivedChunkRecord) (m : Manifest) : Prop where
  opened : ∃ total, openCommit packet = .ok (sessionId, total) ∧
    SessionIndex.firstMissing (SessionIndex.byGlobal rs).contains total.toNat 0 = none
  recorded : SessionIndex.Recorded s sessionId rs
  manifest : m = SessionIndex.manifestOf env sessionId m.version now rs
  frame : Frame (· = WalLog.walPath) s t
  next : NextOf s m.version

theorem session_buildManifest_keeps {sessionId : Bytes} {version total : UInt64} :
    Keeps G (fun m t => t = s ∧ ∃ rs, SessionIndex.Recorded s sessionId rs ∧
        SessionIndex.firstMissing (SessionIndex.byGlobal rs).contains total.toNat 0 = none ∧
        m = SessionIndex.manifestOf env sessionId version now rs)
      (SessionIndex.buildManifest env sessionId version total now) s := by
  simp only [SessionIndex.buildManifest, Prog.bind_eq]
  refine Keeps.bind SessionIndex.records_keeps fun rs c h => ?_
  obtain ⟨he, hrs⟩ := h
  subst he
  split
  · exact Keeps.throw
  · rename_i hmissing
    exact Keeps.pure ⟨rfl, rs, hrs, hmissing, rfl⟩

theorem buildManifest_keeps (hdir : ∀ p a b, G (.ensureDirectory p) a b)
    (hwal : ∀ data mode e a b, G (.append WalLog.walPath data mode e) a b) :
    Keeps G (fun built t => ∃ rs, Gathered env now packet s t built.1 rs built.2)
      (buildManifest env now packet) s := by
  simp only [buildManifest, Prog.bind_eq]
  refine Keeps.bind_ofExcept fun opened hopen => ?_
  obtain ⟨sessionId, total⟩ := opened
  refine Keeps.bind nextVersion_keeps fun version a h => ?_
  obtain ⟨he, hnext⟩ := h
  subst he
  refine Keeps.bind (WalLog.append_keeps hdir fun data m e b c _ => hwal data m e b c) ?_
  intro _ b hframe
  refine Keeps.bind session_buildManifest_keeps fun manifest c h => ?_
  obtain ⟨he, rs, hrs, hmissing, hm⟩ := h
  subst he hm
  refine Keeps.pure ⟨rs, ⟨total, hopen, hmissing⟩, ?_, rfl, hframe, hnext⟩
  rw [SessionIndex.Recorded, ← SessionIndex.textOf_congr (hframe _ (SessionIndex.path_ne_wal _))]
  exact hrs

/-- The effects of a commit. -/
structure CommitEffects (env : Env) (now : UInt64) (packet : Packet) (s : Fs)
    (G : FsEffect → Fs → Fs → Prop) : Prop where
  dir : ∀ p a b, G (.ensureDirectory p) a b
  wal : ∀ data mode e a b, G (.append WalLog.walPath data mode e) a b
  publish : ∀ u sessionId rs m, Gathered env now packet s u sessionId rs m →
    (buildManifest env now packet).exec s = (.ok (sessionId, m), u) →
    BackupEngine.PublishEffects m u G
  mark : ∀ sessionId version mode e a b,
    G (.append (SessionIndex.path sessionId) (SessionIndex.committedLine version) mode e) a b

/-- A session that was committed. -/
structure Committed (env : Env) (now : UInt64) (packet : Packet) (s t : Fs) (sessionId : Bytes)
    (rs : List ReceivedChunkRecord) (m : Manifest) : Prop where
  gathered : ∃ u, Gathered env now packet s u sessionId rs m ∧
    (buildManifest env now packet).exec s = (.ok (sessionId, m), u) ∧
    Frame (fun q => BackupEngine.PublishPath m.version q ∨ q = SessionIndex.path sessionId) u t
  manifest : ∃ f, t.leaf? (manifestPath m.version) = some f ∧ f.data = serialize m
  marker : (t.leaf? (commitPath m.version)).isSome
  text : SessionIndex.textOf t sessionId =
    SessionIndex.textOf s sessionId ++ SessionIndex.committedLine m.version

theorem commitSession_keeps (hG : CommitEffects env now packet s G) :
    Keeps G (fun reply t => ∃ sessionId rs m, Committed env now packet s t sessionId rs m ∧
      Acknowledges packet m.version reply) (commitSession env now packet) s := by
  simp only [commitSession, Prog.bind_eq]
  have hbuild : Keeps G _ (buildManifest env now packet) s := buildManifest_keeps hG.dir hG.wal
  refine Keeps.bind hbuild.with_exec fun (sessionId, m) u ⟨⟨rs, hb⟩, hx⟩ => ?_
  have hpub : Keeps G _ (BackupEngine.publish env .none m) u :=
    BackupEngine.publish_keeps (hG.publish u sessionId rs m hb hx)
  refine Keeps.bind hpub fun _ a ⟨hf, ⟨f, hfile, hdata⟩, hmark⟩ => ?_
  refine Keeps.bind (SessionIndex.appendLine_keeps hG.dir fun mode e b c _ =>
    hG.mark sessionId m.version mode e b c) fun _ t ⟨hft, htext⟩ => ?_
  refine Keeps.ofExcept fun reply hr => ⟨sessionId, rs, m, ⟨⟨u, hb, hx, ?_⟩, ⟨f, ?_, hdata⟩, ?_, ?_⟩, hr⟩
  · exact (hf.mono fun q hq => .inl hq).trans (hft.mono fun q hq => .inr hq)
  · rw [hft _ (SessionIndex.path_ne_manifest sessionId m.version).symm, hfile]
  · rw [hft _ (SessionIndex.path_ne_commit sessionId m.version).symm]
    exact hmark
  · rw [htext, SessionIndex.textOf_congr (hf _ (SessionIndex.not_publishPath sessionId _)),
      SessionIndex.textOf_congr (hb.frame _ (SessionIndex.path_ne_wal sessionId))]

/-- The effects of the two packets that change the repository. -/
theorem handlePacket_keeps (hput : PutEffects G)
    (hcommit : packet.type = .commitSession → CommitEffects env now packet s G) :
    Keeps G (fun reply t => ∀ v, Acknowledges packet v reply →
      packet.type = .commitSession ∧
        ∃ sessionId rs m, m.version = v ∧ Committed env now packet s t sessionId rs m)
      (handlePacket env now packet) s := by
  have other : ∀ {type : PacketType} {hash : UInt64} {text reply : Bytes} {P : Prop} {v : UInt64},
      sendText type hash text = .ok reply → type ≠ .commitAck → Acknowledges packet v reply → P :=
    fun hr hne ha => absurd (ha.type_eq hr) hne
  unfold handlePacket
  split
  · refine Keeps.ofExcept fun reply hr v ha => ?_
    exact other hr (by decide) ha
  · refine querySession_keeps.post fun reply t ⟨_, text, hr⟩ v ha => ?_
    exact other hr (by decide) ha
  · refine (putChunk_keeps hput).post fun reply t ⟨_, text, hr⟩ v ha => ?_
    exact other hr (by decide) ha
  · rename_i htype
    refine (commitSession_keeps (hcommit htype)).post fun reply t ⟨sessionId, rs, m, hc, hr⟩ v ha => ?_
    exact ⟨htype, sessionId, rs, m, hr.unique ha, hc⟩
  · exact Keeps.throw

theorem quiet_keeps (hG : PutEffects G) (hp : packet.type ≠ .commitSession) :
    Keeps G (fun _ _ => True) (handlePacket env now packet) s :=
  (handlePacket_keeps hG fun hc => absurd hc hp).post fun _ _ _ => trivial

/-- The files of objects and of sessions. -/
def ChunkPath (q : Path) : Prop := ObjectStore.InObjects q ∨ ∃ sessionId, q = SessionIndex.path sessionId

/-- However it ends, a packet that is no commit leaves all but objects and sessions alone. -/
theorem quiet_frame (hp : packet.type ≠ .commitSession) :
    Frame ChunkPath s ((handlePacket env now packet).exec s).2 := by
  have hG : PutEffects fun i _ _ => ∀ q ∈ i.touches, ChunkPath q := by
    refine ⟨?_, ?_, ?_⟩
    · intro p a b q hq
      contradiction
    · intro sha data mode a b _ _ q hq
      rw [List.mem_singleton.mp hq]
      exact .inl (ObjectStore.inObjects_pathOf sha)
    · intro sessionId record mode e a b _ _ _ _ q hq
      rw [List.mem_singleton.mp hq]
      exact .inr ⟨sessionId, rfl⟩
  exact Frame.of_keeps (quiet_keeps hG hp)

/-- An acknowledged commit has done all that it should. -/
theorem commit_ok {reply : Bytes} {v : UInt64}
    (h : (handlePacket env now packet).exec s = (.ok reply, t)) (ha : Acknowledges packet v reply) :
    packet.type = .commitSession ∧
      ∃ sessionId rs m, m.version = v ∧ Committed env now packet s t sessionId rs m := by
  have hput : PutEffects fun _ _ _ => True :=
    ⟨fun _ _ _ => trivial, fun _ _ _ _ _ _ _ => trivial, fun _ _ _ _ _ _ _ _ _ _ => trivial⟩
  have hcommit : CommitEffects env now packet s fun _ _ _ => True :=
    ⟨fun _ _ _ => trivial, fun _ _ _ _ _ => trivial, fun _ _ _ _ _ _ => ⟨fun _ _ _ => trivial,
      fun _ _ _ _ _ => trivial, fun _ _ _ => trivial, fun _ _ _ _ _ _ => trivial,
      fun _ _ _ _ _ _ _ _ => trivial, fun _ _ _ _ => trivial⟩, fun _ _ _ _ _ _ => trivial⟩
  have hk : Keeps (fun _ _ _ => True) _ (handlePacket env now packet) s :=
    handlePacket_keeps hput fun _ => hcommit
  have hq := Keeps.ok hk h
  exact hq v ha

end BackupServer

end Dpc
