import Dpc.Guarantees.Visible
import Dpc.Network.BackupClient

namespace Dpc
open Text FileTree Effects ManifestStore ObjectStore BackupServer

variable {env : Env} {s t : Fs} {now : UInt64} {packet : Packet} {reply : Bytes} {v : UInt64}

/-- A commit that was acknowledged: the packet, the state before it, the version, and the
state after it. -/
structure Commit where
  now : UInt64
  packet : Packet
  before : Fs
  version : UInt64
  after : Fs

/-- What a file system can hold. -/
def Fits (s : Fs) : Prop := ∀ q f, s.leaf? q = some f → f.data.length < 2 ^ 63

theorem fits_iff : Fits s ↔ ∀ q ∈ s.nodes.keys, ∀ f ∈ s.leaf? q, f.data.length < 2 ^ 63 := by
  constructor
  · exact fun h q _ f hf => h q f hf
  · intro h q f hf
    have hg := Tree.leaf?_eq_some.mp hf
    have hq : q ≠ [] := by
      intro he
      rw [he] at hg
      simp at hg
    refine h q ?_ f hf
    rw [← AList.mem_keys, ← AList.lookup_isSome, Tree.lookup_of_get? hq, hg]
    rfl

instance (s : Fs) : Decidable (Fits s) := decidable_of_iff _ fits_iff.symm

/-- The run of a server on an empty repository, with the commits that it acknowledged. -/
inductive Served (env : Env) : List Commit → Fs → Prop where
  | nil : Served env [] emptyRepo
  | packet {cs : List Commit} {s : Fs} (h : Served env cs s) (now : UInt64) (packet : Packet)
      (hfits : Fits ((handlePacket env now packet).exec s).2) :
      Served env cs ((handlePacket env now packet).exec s).2
  | commit {cs : List Commit} {s t : Fs} {now : UInt64} {packet : Packet} {reply : Bytes}
      {v : UInt64} (h : Served env cs s)
      (hx : (handlePacket env now packet).exec s = (.ok reply, t))
      (ha : Acknowledges packet v reply) (hfits : Fits t) :
      Served env (cs ++ [⟨now, packet, s, v, t⟩]) t

theorem fits_emptyRepo : Fits emptyRepo := by
  intro q f hf
  rw [leaf?_emptyRepo] at hf
  contradiction

theorem Served.fits {cs : List Commit} (h : Served env cs s) : Fits s := by
  cases h with
  | nil => exact fits_emptyRepo
  | packet _ _ _ hfits => exact hfits
  | commit _ _ _ hfits => exact hfits

theorem cut_handle (env : Env) (s : Fs) (now : UInt64) (packet : Packet) :
    ∃ is, Prog.Cut ((Operation.handle now packet).prog env) s is
      ((handlePacket env now packet).exec s).2 := by
  obtain ⟨is, hc⟩ := Prog.cut_exec ((Operation.handle now packet).prog env) s
  refine ⟨is, ?_⟩
  have hsnd : (((Operation.handle now packet).prog env).exec s).2 =
      ((handlePacket env now packet).exec s).2 := by
    simp only [Operation.prog, Prog.bind_eq, Prog.exec_bind]
    split
    · rename_i heq
      rw [heq]
      rfl
    · rename_i heq
      rw [heq]
  rwa [hsnd] at hc

/-- A run of the server is a history, so what it leaves is sound. -/
theorem Served.sound {cs : List Commit} (h : Served env cs s) : ∃ log, Sound env log s := by
  induction h with
  | nil => exact ⟨[], sound_empty⟩
  | packet h now packet hfits ih =>
    rename_i cs s
    obtain ⟨log, hs⟩ := ih
    obtain ⟨is, hc⟩ := cut_handle env s now packet
    exact ⟨_, hs.cut hc⟩
  | commit h hx ha hfits ih =>
    rename_i cs s t now packet reply v
    obtain ⟨log, hs⟩ := ih
    obtain ⟨is, hc⟩ := cut_handle env s now packet
    rw [hx] at hc
    exact ⟨_, hs.cut hc⟩

namespace Commit

/-- The version is loaded, and it is the manifest that the commit built. -/
def ReadsBack (env : Env) (c : Commit) : Prop :=
  ∃ m, (Operation.handle c.now c.packet).builds env c.before = some m ∧
    (load c.version).exec c.after = (.ok m, c.after)

/-- The reader takes what the session had recorded before the commit. -/
def Sane (c : Commit) : Prop :=
  ∃ sessionId total rs, openCommit c.packet = .ok (sessionId, total) ∧
    SessionIndex.Recorded c.before sessionId rs ∧ SessionIndex.Readable (SessionIndex.ordered rs)

theorem not_readsBack {c : Commit} {e : Exn} (h : ((load c.version).exec c.after).1 = .error e) :
    ¬c.ReadsBack env := by
  intro ⟨m, _, hl⟩
  rw [hl] at h
  contradiction

theorem sane_of {sessionId : Bytes} {total : UInt64} {rs : List ReceivedChunkRecord}
    (hopen : openCommit packet = .ok (sessionId, total))
    (hrecorded : SessionIndex.Recorded s sessionId rs)
    (hread : SessionIndex.Readable (SessionIndex.ordered rs)) : Sane ⟨now, packet, s, v, t⟩ :=
  ⟨sessionId, total, rs, hopen, hrecorded, hread⟩

end Commit

theorem Sound.recorded {log : List Event} {sessionId : Bytes} {rs : List ReceivedChunkRecord}
    (h : Sound env log s) (hr : SessionIndex.Recorded s sessionId rs) :
    ∀ r ∈ rs, SessionIndex.Writable r ∧ Backed s r := by
  obtain ⟨lines, hlines, hbacked⟩ := h.sessions sessionId
  rw [hr.unique hlines.recorded]
  exact fun r hm => ⟨hlines.writable r hm, hbacked r hm⟩

theorem length_textOf (h : Fits s) (sessionId : Bytes) :
    (SessionIndex.textOf s sessionId).length < 2 ^ 63 := by
  unfold SessionIndex.textOf
  cases hf : s.leaf? (SessionIndex.path sessionId) with
  | none => simp
  | some f => exact h _ f hf

theorem Backed.wellFormed {r : ReceivedChunkRecord} (h : Backed s r) :
    WellFormedChunk (SessionIndex.refOf r) := by
  obtain ⟨hsha, hpath, _⟩ := h
  refine ⟨hsha, ?_⟩
  simp only [SessionIndex.refOf, hpath]
  exact ⟨_, safeRelativePath_textOf hsha ""⟩

/-- The step lemma: one commit is read back exactly when its session was sane. -/
theorem commit_reads_back_iff {log : List Event} (hs : Sound env log s) (hfits : Fits s)
    (hx : (handlePacket env now packet).exec s = (.ok reply, t)) (ha : Acknowledges packet v reply) :
    Commit.ReadsBack env ⟨now, packet, s, v, t⟩ ↔ Commit.Sane ⟨now, packet, s, v, t⟩ := by
  obtain ⟨htype, sessionId, rs, m, rfl, hc⟩ := commit_ok hx ha
  obtain ⟨u, hg, hbuild, _⟩ := hc.gathered
  obtain ⟨total, hopen, _⟩ := hg.opened
  have hbuilds : (Operation.handle now packet).builds env s = some m := by
    simp only [Operation.builds, htype, if_true, hbuild]
  have hall := hs.recorded hg.recorded
  have hlen : rs.length < 2 ^ 64 := by
    have h1 := SessionIndex.length_of_parseRecords hg.recorded
    have h2 := length_textOf hfits sessionId
    omega
  have hprint : Printable m := by
    rw [hg.manifest]
    exact SessionIndex.manifestOf_printable (fun r hr => (hall r hr).1) hlen
  have hload : (load m.version).exec t = (.ok m, t) ↔ SessionIndex.Readable (SessionIndex.ordered rs) := by
    rw [← SessionIndex.wellFormed_iff (fun r hr => (hall r hr).1.path)
      (fun r hr => (hall r hr).2.wellFormed), ← hg.manifest]
    obtain ⟨f, hf, hd⟩ := hc.manifest
    obtain ⟨marker, hmark⟩ := Option.isSome_iff_exists.mp hc.marker
    constructor
    · intro hl
      obtain ⟨_, _, f', hf', hp⟩ := load_ok hl
      rw [hf] at hf'
      cases hf'
      rw [hd] at hp
      exact ((parse_serialize_iff hprint).mp hp).2
    · intro hwf
      refine load_of hmark hf ?_
      rw [hd]
      exact (parse_serialize_iff hprint).mpr ⟨rfl, hwf⟩
  constructor
  · intro h
    obtain ⟨m', hb, hl⟩ := h
    rw [hbuilds] at hb
    cases hb
    exact ⟨sessionId, total, rs, hopen, hg.recorded, hload.mp hl⟩
  · intro h
    obtain ⟨sessionId', total', rs', hopen', hrs', hread⟩ := h
    rw [hopen] at hopen'
    cases hopen'
    rw [← hg.recorded.unique hrs'] at hread
    exact ⟨m, hbuilds, hload.mpr hread⟩

/-- On a server's run from an empty repository, every acknowledged version is read back as
it was built, exactly when no commit meets a path or a file hash that the reader refuses. -/
theorem served_commits_read_back_iff {cs : List Commit} (h : Served env cs s) :
    (∀ c ∈ cs, c.ReadsBack env) ↔ ∀ c ∈ cs, c.Sane := by
  induction h with
  | nil => simp
  | packet _ _ _ _ ih => exact ih
  | commit h hx ha _ ih =>
    obtain ⟨log, hs⟩ := h.sound
    have hlast := commit_reads_back_iff hs h.fits hx ha
    simp only [List.forall_mem_append, List.forall_mem_singleton, ih, hlast]

/-- A chunk of one byte, for a file whose path the client chooses. -/
def letterPut (relativePath : Bytes) : Packet where
  type := .putChunk
  sessionIdHash := PacketCodec.sessionHash (ascii "s")
  chunkIndex := 0
  chunkSha256 := letterA.2
  payload := BackupClient.makePutPayload (ascii "s") ⟨0, relativePath, 1, 0o644,
    PacketCodec.shaHexFromArray letterA.2, 0, PacketCodec.shaHexFromArray letterA.2, ascii "a",
    rawFrame (ascii "a")⟩

def letterCommit : Packet where
  type := .commitSession
  sessionIdHash := PacketCodec.sessionHash (ascii "s")
  chunkIndex := 0
  chunkSha256 := zeroDigest
  payload := BackupClient.commitPayload (ascii "s") 1

def letterReply : Bytes :=
  (sendText .commitAck letterCommit.sessionIdHash (commitText 1)).toOption.getD []

/-- The repository after the chunk. -/
def letterSession (relativePath : Bytes) : Fs :=
  ((handlePacket letterEnv 1700000000 (letterPut relativePath)).exec emptyRepo).2

theorem acknowledges_letter : Acknowledges letterCommit 1 letterReply := by decide +kernel

theorem served_letter (relativePath : Bytes) (hfits : Fits (letterSession relativePath))
    (hx : ((handlePacket letterEnv 1700000000 letterCommit).exec (letterSession relativePath)).1 =
      .ok letterReply)
    (hfits' : Fits ((handlePacket letterEnv 1700000000 letterCommit).exec
      (letterSession relativePath)).2) :
    Served letterEnv [⟨1700000000, letterCommit, letterSession relativePath, 1,
      ((handlePacket letterEnv 1700000000 letterCommit).exec (letterSession relativePath)).2⟩]
      ((handlePacket letterEnv 1700000000 letterCommit).exec (letterSession relativePath)).2 :=
  .commit (.packet .nil 1700000000 (letterPut relativePath) hfits) (Prog.exec_of_fst hx)
    acknowledges_letter hfits'

def letterRecord : ReceivedChunkRecord :=
  ⟨0, PacketCodec.shaHexFromArray letterA.2, ascii "a.txt", 1, 0o644,
    PacketCodec.shaHexFromArray letterA.2, 0, 1, 10, textOf (PacketCodec.shaHexFromArray letterA.2)⟩

theorem plain_commit_reads_back : ∃ c t, Served letterEnv [c] t ∧ c.ReadsBack letterEnv := by
  have hserved := served_letter (ascii "a.txt") (by decide +kernel)
    (by decide +kernel) (by decide +kernel)
  refine ⟨_, _, hserved, ?_⟩
  refine (served_commits_read_back_iff hserved).mpr (fun c hc => ?_) _ (List.mem_singleton_self _)
  rw [List.mem_singleton.mp hc]
  have hordered : SessionIndex.ordered [letterRecord] = [letterRecord] := by decide +kernel
  have hsafe : FileUtils.SafePath letterRecord.relativePath := ⟨[ascii "a.txt"], by decide +kernel⟩
  have hsha : Hash.isSha256Hex letterRecord.fileSha256 = true := by decide +kernel
  have hrecorded : SessionIndex.Recorded (letterSession (ascii "a.txt")) (ascii "s")
      [letterRecord] := by decide +kernel
  have hopen : openCommit letterCommit = .ok (ascii "s", 1) := by decide +kernel
  refine Commit.sane_of hopen hrecorded ?_
  rw [hordered]
  intro r hr
  rw [List.mem_singleton.mp hr]
  exact ⟨hsafe, fun _ => hsha⟩

/-- One packet with a path that goes up, and the version that is acknowledged is not loaded. -/
theorem climbing_commit_does_not_read_back :
    ∃ c t, Served letterEnv [c] t ∧ ¬c.ReadsBack letterEnv := by
  have hserved := served_letter (ascii "../a") (by decide +kernel)
    (by decide +kernel) (by decide +kernel)
  exact ⟨_, _, hserved, Commit.not_readsBack (e := dpcError
    "manifest relative_path must not contain parent directory traversal") (by decide +kernel)⟩

end Dpc
