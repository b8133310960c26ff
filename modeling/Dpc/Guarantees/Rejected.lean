import Dpc.Core.FailureFacts
import Dpc.Guarantees.Readable

namespace Dpc
open Text FileTree Effects

variable {env : Env} {s t : Fs} {now : UInt64} {packet : Packet}

namespace FileUtils

theorem ensureDirectory_smooth {p : Path} (h : (ensureDirectory p).Smooth s) :
    ∃ u t, (ensureDirectory p).exec s = (.ok u, t) := ⟨_, h.perform⟩

theorem writeFileAtomic_smooth {umask mode : UInt32} {p : Path} {data : Bytes}
    (h : (writeFileAtomic umask p data mode).Smooth s) :
    ∃ u t, (writeFileAtomic umask p data mode).exec s = (.ok u, t) :=
  h.bind ensureDirectory_smooth fun _ _ _ hs => ⟨_, hs.perform⟩

end FileUtils

theorem WalLog.append_smooth {type : WalRecordType} {payload : Bytes}
    (hlen : payload.length ≤ kMaxPayloadSize) (h : (append env type payload).Smooth s) :
    ∃ u t, (append env type payload).exec s = (.ok u, t) := by
  simp only [append, Prog.bind_eq] at h ⊢
  refine h.bind FileUtils.ensureDirectory_smooth fun _ a _ hs => ?_
  refine hs.bind (fun _ => ?_) fun _ b _ hs => ⟨_, hs.perform⟩
  rw [encodeRecord, if_neg (Nat.not_lt.mpr hlen)]
  exact ⟨_, _, rfl⟩

theorem SessionIndex.appendLine_smooth {sessionId line : Bytes}
    (h : (appendLine env sessionId line).Smooth s) :
    ∃ u t, (appendLine env sessionId line).exec s = (.ok u, t) :=
  h.bind FileUtils.ensureDirectory_smooth fun _ _ _ hs => ⟨_, hs.perform⟩

namespace ManifestStore

/-- The names in the directory of manifests, but for those of one version, are as they were. -/
theorem Parses.publish {v : UInt64} (h : Parses s) (hf : Frame (BackupEngine.PublishPath v) s t) :
    Parses t := by
  intro name hname hmarker
  by_cases hp : BackupEngine.PublishPath v (manifestsDir ++ [name])
  · have hlast : ∀ n, manifestsDir ++ [name] = manifestsDir ++ [n] → name = n := by
      intro n he
      simpa using he
    rcases hp with hp | hp | hp | hp | hp
    · exact absurd hp (ne_of_head (show some (ascii "manifests") ≠ some (ascii "tmp") by decide))
    · rw [hlast _ hp, not_marker_manifest] at hmarker
      contradiction
    · rw [hlast _ hp] at hmarker ⊢
      exact ⟨v, markerNumber_versionFileName ((isMarkerName_versionFileName v).mp hmarker)⟩
    · exact absurd hp (ne_of_head (show some (ascii "manifests") ≠ some (ascii "metadata") by decide))
    · exact absurd hp (ne_of_head (show some (ascii "manifests") ≠ some (ascii "metadata") by decide))
  · rw [hf _ hp] at hname
    exact h name hname hmarker

end ManifestStore

namespace BackupEngine
open ManifestStore

theorem length_versionPayload (v : UInt64) :
    (versionPayload v).length ≤ WalLog.kMaxPayloadSize := by
  have hnum := (length_decimal_le (n := v.toNat) (k := 20) (by decide)).mpr
    (Nat.lt_trans v.toNat_lt (by decide))
  have h8 : (ascii "version=").length = 8 := rfl
  rw [versionPayload, List.length_append, List.length_append, number, List.length_singleton, h8,
    WalLog.kMaxPayloadSize]
  omega

section Steps

variable {v : UInt64} {u : Unit}

theorem append_parses {type : WalRecordType} {payload : Bytes} (v : UInt64)
    (hx : (WalLog.append env type payload).exec s = (.ok u, t)) (h : Parses s) : Parses t := by
  have hk : Keeps (fun _ _ _ => True) _ (WalLog.append env type payload) s :=
    WalLog.append_keeps (fun _ _ _ => trivial) fun _ _ _ _ _ _ => trivial
  have hf := Keeps.ok hk hx
  exact h.publish (hf.mono fun q hq => (.inr (.inr (.inr (.inl hq))) : PublishPath v q))

theorem write_parses {umask mode : UInt32} {p : Path} {data : Bytes} (hp : PublishPath v p)
    (hx : (FileUtils.writeFileAtomic umask p data mode).exec s = (.ok u, t)) (h : Parses s) :
    Parses t := by
  have hk : Keeps (fun _ _ _ => True) _ (FileUtils.writeFileAtomic umask p data mode) s :=
    FileUtils.writeFileAtomic_keeps _ _ _ (fun _ _ _ => trivial) fun _ _ _ _ => trivial
  have hf := (Keeps.ok hk hx).1
  exact h.publish (hf.mono fun q hq => hq ▸ hp)

theorem rename_parses (hx : (renameTmpToManifest v).exec s = (.ok u, t)) (h : Parses s) :
    Parses t := by
  simp only [renameTmpToManifest, FileUtils.ensureDirectory, Prog.bind_eq] at hx
  obtain ⟨_, a, ha, hx⟩ := Prog.exec_bind_ok hx
  have hdir : Frame (PublishPath v) s a := by
    apply Frame.of_apply (Prog.exec_perform_ok ha)
    intro q hq
    contradiction
  refine h.publish (hdir.trans (Frame.of_apply (Prog.exec_perform_ok hx) fun q hq => ?_))
  simp only [FsEffect.touches, List.mem_cons, List.not_mem_nil, or_false] at hq
  rcases hq with hq | hq
  · exact .inl hq
  · exact .inr (.inl hq)

theorem writeCheckpoint_smooth (hd : s.get? manifestsDir = some .dir) (hp : Parses s)
    (h : (writeCheckpoint env).Smooth s) : ∃ vs t, (writeCheckpoint env).exec s = (.ok vs, t) := by
  obtain ⟨vs, hvs⟩ := listCommittedVersions_succeeds hd hp
  refine h.bind (fun _ => ⟨vs, s, hvs⟩) fun ws a ha hs => ?_
  exact hs.bind FileUtils.writeFileAtomic_smooth fun _ b _ _ => ⟨_, _, rfl⟩

end Steps

/-- A complete manifest is published unless a file cannot be written: nothing else stands in
the way, since the list of versions could be made before and its new name is a version's. -/
theorem publish_smooth {m : Manifest} (hp : Parses s) (h : (publish env .none m).Smooth s) :
    ∃ u t, (publish env .none m).exec s = (.ok u, t) := by
  have htrigger : ∀ stage, FaultInjector.trigger .none stage = (Prog.pure () : Op Unit) :=
    fun _ => rfl
  have hlen := length_versionPayload m.version
  simp only [publish, htrigger, Prog.bind_eq, Prog.pure_bind'] at h ⊢
  refine h.bind FileUtils.writeFileAtomic_smooth fun _ a ha hs => ?_
  have hpa := write_parses (v := m.version) (.inl rfl) ha hp
  refine hs.bind (WalLog.append_smooth hlen) fun _ b hb hs => ?_
  have hpb := append_parses m.version hb hpa
  refine hs.bind (fun hs => hs.bind FileUtils.ensureDirectory_smooth fun _ _ _ hs =>
    ⟨_, hs.perform⟩) fun _ c hc hs => ?_
  have hpc := rename_parses hc hpb
  refine hs.bind (WalLog.append_smooth hlen) fun _ d hd hs => ?_
  have hpd := append_parses m.version hd hpc
  refine hs.bind FileUtils.writeFileAtomic_smooth fun _ e he hs => ?_
  have hpe := write_parses (v := m.version) (.inr (.inr (.inl rfl))) he hpd
  refine hs.bind (WalLog.append_smooth hlen) fun _ f hf hs => ?_
  have hpf := append_parses m.version hf hpe
  have hdir := exec_manifestsDir (create_dir he) hf
  exact hs.bind (writeCheckpoint_smooth hdir hpf) fun _ _ _ _ => ⟨_, _, rfl⟩

end BackupEngine

end Dpc

namespace Dpc
open Text FileTree Effects ManifestStore BackupServer

variable {env : Env} {s t : Fs} {now : UInt64} {packet : Packet} {e : Exn}

/-- The files of committed versions, the checkpoint and the sessions are as they were. -/
structure SameCatalogue (s t : Fs) : Prop where
  marker : ∀ v, t.leaf? (commitPath v) = s.leaf? (commitPath v)
  listed : ∀ v, Listed t v ↔ Listed s v
  manifest : ∀ v, t.leaf? (manifestPath v) = s.leaf? (manifestPath v)
  checkpoint : t.leaf? Checkpoint.path = s.leaf? Checkpoint.path
  session : ∀ sessionId, t.leaf? (SessionIndex.path sessionId) = s.leaf? (SessionIndex.path sessionId)
  records : ∀ sessionId rs,
    SessionIndex.Recorded t sessionId rs ↔ SessionIndex.Recorded s sessionId rs

/-- Objects and the log may stay behind. -/
def LeftBehind (q : Path) : Prop := ObjectStore.InObjects q ∨ q = WalLog.walPath

theorem SameCatalogue.of_frame (h : Frame LeftBehind s t) : SameCatalogue s t := by
  have hmarker : ∀ v, t.leaf? (commitPath v) = s.leaf? (commitPath v) := fun v =>
    h _ fun hq => hq.elim (not_inObjects_commit v) (commit_ne_wal v)
  have hsession : ∀ sessionId,
      t.leaf? (SessionIndex.path sessionId) = s.leaf? (SessionIndex.path sessionId) := fun sessionId =>
    h _ fun hq => hq.elim (SessionIndex.not_inObjects_path sessionId) (SessionIndex.path_ne_wal sessionId)
  refine ⟨hmarker, fun v => listed_congr (hmarker v), fun v => ?_, ?_, hsession, fun sessionId rs => ?_⟩
  · exact h _ fun hq => hq.elim (not_inObjects_manifest v) (manifest_ne_wal v)
  · exact h _ fun hq => hq.elim not_inObjects_checkpoint (by decide)
  · rw [SessionIndex.Recorded, SessionIndex.Recorded, SessionIndex.textOf_congr (hsession sessionId)]

theorem sendText_short {type : PacketType} {hash : UInt64} {text : Bytes}
    (h : text.length ≤ PacketCodec.kMaxPayloadSize) : ∃ reply, sendText type hash text = .ok reply := by
  rw [sendText, PacketCodec.encode, if_neg (Nat.not_lt.mpr h)]
  exact ⟨_, rfl⟩

theorem length_commitText (v : UInt64) : (commitText v).length ≤ PacketCodec.kMaxPayloadSize := by
  have hnum := (length_decimal_le (n := v.toNat) (k := 20) (by decide)).mpr
    (Nat.lt_trans v.toNat_lt (by decide))
  have h18 : (ascii "committed_version ").length = 18 := rfl
  rw [commitText, List.length_append, List.length_append, number, List.length_singleton, h18,
    PacketCodec.kMaxPayloadSize]
  omega

/-- A line that cannot be appended leaves the files as they were. -/
theorem appendLine_failed {sessionId line : Bytes}
    (hx : (SessionIndex.appendLine env sessionId line).exec s = (.error e, t)) :
    Frame (fun _ => False) s t := by
  simp only [SessionIndex.appendLine, FileUtils.ensureDirectory, Prog.bind_eq] at hx
  rcases Prog.exec_bind_error hx with hx | ⟨_, u, hu, hx⟩
  · rw [Prog.exec_perform_error hx]
    exact .refl _ s
  · rw [Prog.exec_perform_error hx]
    apply Frame.of_apply (Prog.exec_perform_ok hu)
    intro q hq
    contradiction

/-- A record is refused before the session file is touched. -/
theorem appendChunk_failed {sessionId : Bytes} {record : ReceivedChunkRecord}
    (hx : (SessionIndex.appendChunk env sessionId record).exec s = (.error e, t)) :
    Frame (fun _ => False) s t := by
  have hread : Keeps (fun i _ _ => ∀ q ∈ FsEffect.touches i, False) _
      (SessionIndex.received sessionId) s := SessionIndex.received_keeps
  have hquiet := Frame.of_keeps hread
  simp only [SessionIndex.appendChunk, Prog.bind_eq] at hx
  rcases Prog.exec_bind_error hx with hx | ⟨list, u, hu, hx⟩
  · rwa [hx] at hquiet
  rw [hu] at hquiet
  cases hfound : list.find? (·.1 == record.globalIndex) with
  | none =>
    rw [hfound] at hx
    exact hquiet.trans (appendLine_failed hx)
  | some found =>
    rw [hfound] at hx
    dsimp only at hx
    split at hx
    · cases hx
      exact hquiet
    · cases hx

theorem putChunk_failed (hx : (putChunk env packet).exec s = (.error e, t)) :
    Frame ObjectStore.InObjects s t := by
  simp only [putChunk, Prog.bind_eq] at hx
  rcases Prog.exec_bind_error hx with hx | ⟨opened, u, hu, hx⟩
  · rw [Prog.exec_ofExcept] at hx
    obtain ⟨_, rfl⟩ := Prod.mk.inj hx
    exact .refl _ s
  rw [Prog.exec_ofExcept] at hu
  obtain ⟨_, rfl⟩ := Prod.mk.inj hu
  obtain ⟨put, sha⟩ := opened
  have hput : Keeps (fun i _ _ => ∀ q ∈ FsEffect.touches i, ObjectStore.InObjects q)
      (fun r a => Hash.isSha256Hex sha = true ∧
        ObjectStore.Put env sha put.compressed put.rawSize s a r)
      (ObjectStore.putCompressed env sha put.compressed put.rawSize) s := by
    refine ObjectStore.putCompressed_keeps ?_ ?_
    · intro p a b q hq
      contradiction
    · intro m a b _ _ _ q hq
      rw [List.mem_singleton.mp hq]
      exact ObjectStore.inObjects_pathOf sha
  have hobjects := Frame.of_keeps hput
  rcases Prog.exec_bind_error hx with hx | ⟨stored, u, hu, hx⟩
  · rwa [hx] at hobjects
  rw [hu] at hobjects
  rcases Prog.exec_bind_error hx with hx | ⟨_, w, _, hx⟩
  · exact hobjects.trans ((appendChunk_failed hx).mono fun _ hq => hq.elim)
  · obtain ⟨reply, hreply⟩ := @sendText_short .putChunkAck packet.sessionIdHash
      (ascii "ok" ++ [newline]) (by decide)
    rw [Prog.exec_ofExcept, hreply] at hx
    cases hx

/-- A commit is refused before it publishes. -/
theorem commitSession_rejected (hs : (commitSession env now packet).Smooth s)
    (hx : (commitSession env now packet).exec s = (.error e, t)) :
    Frame (· = WalLog.walPath) s t := by
  have hbuild : Keeps (fun i _ _ => ∀ q ∈ FsEffect.touches i, q = WalLog.walPath)
      (fun built u => ∃ rs, Gathered env now packet s u built.1 rs built.2)
      (BackupServer.buildManifest env now packet) s := by
    refine buildManifest_keeps ?_ ?_
    · intro p a b q hq
      contradiction
    · intro data mode e a b q hq
      exact List.mem_singleton.mp hq
  have hwal := Frame.of_keeps hbuild
  simp only [commitSession, Prog.bind_eq] at hs hx
  rcases hs.error_bind hx with hx | ⟨built, u, hu, hs, hx⟩
  · rwa [hx] at hwal
  obtain ⟨rs, hgathered⟩ := Keeps.ok hbuild hu
  have hparses : Parses u := hgathered.next.parses.publish (v := built.2.version)
    (hgathered.frame.mono fun q hq => .inr (.inr (.inr (.inl hq))))
  -- from here on nothing is refused
  obtain ⟨hpublish, hnext⟩ := hs.of_bind
  obtain ⟨_, w, hw⟩ := BackupEngine.publish_smooth hparses hpublish
  rw [Prog.exec_bind_of_ok hw] at hx
  obtain ⟨hmark, _⟩ := (hnext _ _ hw).of_bind
  obtain ⟨_, a, ha⟩ := SessionIndex.appendLine_smooth hmark
  obtain ⟨reply, hreply⟩ := @sendText_short .commitAck packet.sessionIdHash
    (commitText built.2.version) (length_commitText _)
  rw [SessionIndex.markCommitted, Prog.exec_bind_of_ok ha, Prog.exec_ofExcept, hreply] at hx
  cases hx

/-- A packet that is refused has changed neither versions nor manifests nor the checkpoint nor
any session. Only for a commit the refusal has to be one of the packet: where a file could not
be written, a commit may have got further. -/
theorem rejected_packet_keeps_catalogue (hx : (handlePacket env now packet).exec s = (.error e, t))
    (hs : packet.type = .commitSession → (handlePacket env now packet).Smooth s) :
    SameCatalogue s t := by
  apply SameCatalogue.of_frame
  unfold handlePacket at hs hx
  split at hx
  · rw [Prog.exec_ofExcept] at hx
    obtain ⟨_, rfl⟩ := Prod.mk.inj hx
    exact .refl _ s
  · have hquery : Keeps (fun i _ _ => ∀ q ∈ FsEffect.touches i, LeftBehind q) _
        (querySession packet) s := querySession_keeps
    have hquiet := Frame.of_keeps hquery
    rwa [hx] at hquiet
  · exact (putChunk_failed hx).mono fun q hq => .inl hq
  · rename_i htype
    have hsmooth := hs htype
    rw [htype] at hsmooth
    exact (commitSession_rejected hsmooth hx).mono fun q hq => .inr hq
  · cases hx
    exact .refl _ _

def earlyCommit : Packet := { letterCommit with payload := BackupClient.commitPayload (ascii "s") 2 }

/-- A commit of two chunks after one: the log has grown, the session can be completed. -/
theorem early_commit_keeps_catalogue :
    SameCatalogue (letterSession (ascii "a.txt"))
      ((handlePacket letterEnv 1700000000 earlyCommit).exec (letterSession (ascii "a.txt"))).2 :=
  rejected_packet_keeps_catalogue (e := dpcError "session is missing chunk index 1")
    (Prog.exec_of_fst (by decide +kernel)) (by decide +kernel)

end Dpc
