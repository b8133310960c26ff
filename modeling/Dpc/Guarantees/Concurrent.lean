import Dpc.Core.Emitted
import Dpc.Guarantees.Readable
import Dpc.Lib.Duo

/-! Two commits at the same time. Nothing is held between the choice of a version and its
marker, so the two may choose one. -/

namespace Dpc
open Text FileTree Effects ManifestStore BackupEngine BackupServer

variable {env : Env} {s t u : Fs} {v w now : UInt64} {packet : Packet} {sessionId : Bytes}

/-- Two workers, each with a packet of its own. -/
def workers (env : Env) (now now' : UInt64) (packet packet' : Packet) (s : Fs) :
    Duo Fs FsEffect Exn Bytes Bytes :=
  ⟨handlePacket env now packet, handlePacket env now' packet', s⟩

/-- The second worker has not begun when the first has left the marker of its version. -/
def BeginsAfter (c d : Duo Fs FsEffect Exn Bytes Bytes) (v : UInt64) : Prop :=
  ∃ p u, Duo.Reaches c ⟨p, c.right, u⟩ ∧ Listed u v ∧ Duo.Reaches ⟨p, c.right, u⟩ d

/-- A version is read as the manifest of what the session had recorded at first. -/
def ReadsSession (env : Env) (now : UInt64) (s t : Fs) (sessionId : Bytes) (v : UInt64) : Prop :=
  ∃ rs, SessionIndex.Recorded s sessionId rs ∧
    let m := SessionIndex.manifestOf env sessionId v now rs
    (load v).exec t = (parse (serialize m), t) ∧ (WellFormed m → (load v).exec t = (.ok m, t))

/-- The effects of committing a session as one version. -/
inductive CommitEffect (sessionId : Bytes) (v : UInt64) : FsEffect → Prop where
  | dir (p : Path) : CommitEffect sessionId v (.ensureDirectory p)
  | wal (data : Bytes) (mode : UInt32) (e : Exn) :
      CommitEffect sessionId v (.append WalLog.walPath data mode e)
  | staged (data : Bytes) (mode : UInt32) :
      CommitEffect sessionId v (.replace (tmpManifestPath v) data mode)
  | renamed : CommitEffect sessionId v (.rename (tmpManifestPath v) (manifestPath v))
  | marker (data : Bytes) (mode : UInt32) :
      CommitEffect sessionId v (.replace (commitPath v) data mode)
  | checkpoint (data : Bytes) (mode : UInt32) :
      CommitEffect sessionId v (.replace Checkpoint.path data mode)
  | session (line : Bytes) (mode : UInt32) (e : Exn) :
      CommitEffect sessionId v (.append (SessionIndex.path sessionId) line mode e)

theorem mayPublish : MayPublish v (CommitEffect sessionId v) :=
  ⟨.dir, .wal, .staged, .renamed, .marker, .checkpoint⟩

/-- A commit once it has its version. -/
def commitVersion (env : Env) (now : UInt64) (packet : Packet) (sessionId : Bytes)
    (total version : UInt64) : Op Bytes := do
  WalLog.append env .beginBackup (ascii "network-version=" ++ number version ++ [newline])
  let manifest ← SessionIndex.buildManifest env sessionId version total now
  publish env .none manifest
  SessionIndex.markCommitted env sessionId manifest.version
  .ofExcept (sendText .commitAck packet.sessionIdHash (commitText manifest.version))

theorem handlePacket_commit {total : UInt64} (hp : packet.type = .commitSession)
    (hopen : openCommit packet = .ok (sessionId, total)) :
    handlePacket env now packet = nextVersion.bind (commitVersion env now packet sessionId total) := by
  simp only [handlePacket, hp, commitSession, BackupServer.buildManifest, hopen, Prog.bind_eq,
    Prog.ofExcept, Prog.pure_bind', Prog.pure_eq, Prog.bind_assoc']
  rfl

/-- The manifest that is built has the version that was chosen. -/
theorem buildManifest_version {total : UInt64} :
    (SessionIndex.buildManifest env sessionId w total now).Never fun m => ¬m.version = w := by
  simp only [SessionIndex.buildManifest, Prog.bind_eq]
  refine Prog.Never.bind fun rs => ?_
  split
  · trivial
  · exact fun h => h rfl

/-- With another version no acknowledgement of this one is sent. -/
theorem commitVersion_never {total : UInt64} (hw : w ≠ v) :
    (commitVersion env now packet sessionId total w).Never (Acknowledges packet v) := by
  simp only [commitVersion, Prog.bind_eq]
  refine Prog.Never.bind fun _ => Prog.Never.bind_of buildManifest_version fun m hm => ?_
  refine Prog.Never.bind fun _ => Prog.Never.bind fun _ => Prog.never_ofExcept fun reply hr ha => ?_
  subst hm
  exact hw (Acknowledges.unique hr ha)

theorem emits_records {P : FsEffect → Prop} : (SessionIndex.records sessionId).Emits P := by
  simp only [SessionIndex.records, Prog.bind_eq]
  refine Prog.emits_query.bind fun there => ?_
  split
  · exact Prog.emits_query.bind fun _ => Prog.emits_ofExcept
  · trivial

theorem emits_session_buildManifest {P : FsEffect → Prop} {total : UInt64} :
    (SessionIndex.buildManifest env sessionId w total now).Emits P := by
  simp only [SessionIndex.buildManifest, Prog.bind_eq]
  refine emits_records.bind fun rs => ?_
  split
  · trivial
  · trivial

theorem emits_markCommitted {P : FsEffect → Prop} (hdir : ∀ p, P (.ensureDirectory p))
    (happend : ∀ line mode e, P (.append (SessionIndex.path sessionId) line mode e)) :
    (SessionIndex.markCommitted env sessionId v).Emits P :=
  (emits_ensureDirectory (hdir _)).bind fun _ => Prog.emits_perform (happend _ _ _)

/-- As long as a commit may acknowledge a version, it has the effects of that version only. -/
theorem commit_only {total : UInt64} (hp : packet.type = .commitSession)
    (hopen : openCommit packet = .ok (sessionId, total)) :
    (handlePacket env now packet).Only (CommitEffect sessionId v) (Acknowledges packet v) := by
  rw [handlePacket_commit hp hopen]
  refine Prog.Only.bind emits_nextVersion fun w => ?_
  by_cases hw : w = v
  · subst hw
    simp only [commitVersion, Prog.bind_eq]
    refine Prog.Only.bind (emits_append .dir .wal) fun _ => ?_
    refine Prog.Only.bind_of emits_session_buildManifest buildManifest_version fun m hm => ?_
    subst hm
    refine Prog.Only.bind (emits_publish mayPublish) fun _ => ?_
    refine Prog.Only.bind (emits_markCommitted .dir .session) fun _ => ?_
    exact Prog.Emits.only Prog.emits_ofExcept
  · exact Prog.Never.only (commitVersion_never hw)

/-- Files that are of no account to the commit of a session as a version. -/
def Foreign (sessionId : Bytes) (v : UInt64) (q : Path) : Prop :=
  q ≠ tmpManifestPath v ∧ q ≠ manifestPath v ∧ q ≠ commitPath v ∧ q ≠ SessionIndex.path sessionId

theorem tmpManifestPath_injective {v w : UInt64} (h : tmpManifestPath v = tmpManifestPath w) :
    v = w := by
  simp only [tmpManifestPath, List.append_cancel_left_eq, List.cons.injEq, and_true] at h
  exact versionFileName_injective h

theorem tmp_ne_checkpoint (v : UInt64) : tmpManifestPath v ≠ Checkpoint.path :=
  ne_of_head (show some (ascii "tmp") ≠ some (ascii "metadata") by decide)

/-- A commit of another session as another version touches foreign files only. -/
theorem CommitEffect.foreign {other : Bytes} {i : FsEffect} (hs : other ≠ sessionId) (hw : w ≠ v)
    (h : CommitEffect other w i) : ∀ q ∈ i.touches, Foreign sessionId v q := by
  have htmp : Foreign sessionId v (tmpManifestPath w) :=
    ⟨fun he => hw (tmpManifestPath_injective he), tmp_ne_manifest w v, tmp_ne_commit w v,
      (SessionIndex.path_ne_tmp sessionId w).symm⟩
  have hmanifest : Foreign sessionId v (manifestPath w) :=
    ⟨(tmp_ne_manifest v w).symm, fun he => hw (manifestPath_injective he),
      manifestPath_ne_commitPath w v, (SessionIndex.path_ne_manifest sessionId w).symm⟩
  have hcommit : Foreign sessionId v (commitPath w) :=
    ⟨(tmp_ne_commit v w).symm, (manifestPath_ne_commitPath v w).symm,
      fun he => hw (commitPath_injective he), (SessionIndex.path_ne_commit sessionId w).symm⟩
  intro q hq
  cases h with
  | dir p => cases hq
  | wal data mode e =>
    rw [List.mem_singleton.mp hq]
    exact ⟨(tmp_ne_wal v).symm, (manifest_ne_wal v).symm, (commit_ne_wal v).symm,
      (SessionIndex.path_ne_wal sessionId).symm⟩
  | staged data mode =>
    rw [List.mem_singleton.mp hq]
    exact htmp
  | renamed =>
    rcases List.mem_cons.mp hq with rfl | hq
    · exact htmp
    · rw [List.mem_singleton.mp hq]
      exact hmanifest
  | marker data mode =>
    rw [List.mem_singleton.mp hq]
    exact hcommit
  | checkpoint data mode =>
    rw [List.mem_singleton.mp hq]
    exact ⟨(tmp_ne_checkpoint v).symm, (manifest_ne_checkpoint v).symm,
      (commit_ne_checkpoint v).symm, (SessionIndex.path_ne_checkpoint sessionId).symm⟩
  | session line mode e =>
    rw [List.mem_singleton.mp hq]
    exact ⟨SessionIndex.path_ne_tmp other v, SessionIndex.path_ne_manifest other v,
      SessionIndex.path_ne_commit other v, fun he => hs (SessionIndex.path_injective he)⟩

/-- A commit takes no marker away. -/
theorem CommitEffect.listed {i : FsEffect} (h : CommitEffect sessionId w i)
    (ha : Effect.apply i s = .ok t) (hl : Listed s v) : Listed t v := by
  refine ⟨hl.1, ?_⟩
  by_cases hq : commitPath v ∈ i.touches
  · cases h with
    | dir p => cases hq
    | marker data mode =>
      rw [(FsEffect.replace_ok ha).leaf?, if_pos (List.mem_singleton.mp hq)]
      rfl
    | wal data mode e => exact absurd (List.mem_singleton.mp hq) (commit_ne_wal v)
    | staged data mode => exact absurd (List.mem_singleton.mp hq).symm (tmp_ne_commit w v)
    | checkpoint data mode => exact absurd (List.mem_singleton.mp hq) (commit_ne_checkpoint v)
    | session line mode e =>
      exact absurd (List.mem_singleton.mp hq).symm (SessionIndex.path_ne_commit sessionId v)
    | renamed =>
      rcases List.mem_cons.mp hq with he | hq
      · exact absurd he.symm (tmp_ne_commit w v)
      · exact absurd (List.mem_singleton.mp hq).symm (manifestPath_ne_commitPath w v)
  · rw [FsEffect.apply_frame ha hq]
    exact hl.2

/-- A file with such bytes is there. -/
def Holds (q : Path) (data : Bytes) (t : Fs) : Prop := ∃ f, t.leaf? q = some f ∧ f.data = data

/-- A version's marker is there, and its manifest file has these bytes. -/
def Stands (v : UInt64) (data : Bytes) (t : Fs) : Prop :=
  Holds (manifestPath v) data t ∧ (t.leaf? (commitPath v)).isSome

variable {data : Bytes} {rs : List ReceivedChunkRecord}

theorem Holds.congr {q : Path} (he : t.leaf? q = s.leaf? q) (h : Holds q data s) : Holds q data t := by
  rwa [Holds, he]

theorem Stands.congr (hm : t.leaf? (manifestPath v) = s.leaf? (manifestPath v))
    (hc : t.leaf? (commitPath v) = s.leaf? (commitPath v)) (h : Stands v data s) :
    Stands v data t :=
  ⟨h.1.congr hm, by rw [hc]; exact h.2⟩

abbrev BesideCommit (sessionId : Bytes) (v : UInt64) {α : Type} (Q : α → Fs → Prop) :
    Op α → Fs → Prop :=
  Beside (Frame (Foreign sessionId v)) Q

theorem writeFileAtomic_beside {R : Fs → Fs → Prop} {umask mode : UInt32} {q : Path} :
    Beside R (fun _ t => Holds q data t) (FileUtils.writeFileAtomic umask q data mode) s := by
  have hdir : Beside R (fun _ _ => True) (FileUtils.ensureDirectory q.dropLast) s :=
    Safe.perform (fun _ _ _ _ => ⟨trivial, trivial⟩) fun _ _ _ _ => trivial
  simp only [FileUtils.writeFileAtomic, Prog.bind_eq]
  refine hdir.bind fun _ _ _ => Safe.perform (fun a b _ h => ⟨trivial, ?_⟩) fun _ _ _ _ => trivial
  exact ⟨⟨data, _⟩, by rw [(FsEffect.replace_ok h).leaf?, if_pos rfl], rfl⟩

/-- A file that is not foreign stays while effects do not touch it. -/
theorem holds_beside {α : Type} {p : Op α} {q : Path} (hq : ¬Foreign sessionId v q)
    (hp : p.Emits fun i => q ∉ i.touches) (h : Holds q data s) :
    BesideCommit sessionId v (fun _ t => Holds q data t) p s :=
  Beside.of_emits (fun _ _ hr => Holds.congr (hr q hq))
    (fun _ _ _ hi ha => Holds.congr (FsEffect.apply_frame ha hi)) hp h

theorem stands_beside {α : Type} {p : Op α}
    (hp : p.Emits fun i => manifestPath v ∉ i.touches ∧ commitPath v ∉ i.touches)
    (h : Stands v data s) : BesideCommit sessionId v (fun _ t => Stands v data t) p s := by
  refine Beside.of_emits (fun a b hr => ?_) (fun i a b hi ha => ?_) hp h
  · exact Stands.congr (hr _ fun hf => hf.2.1 rfl) (hr _ fun hf => hf.2.2.1 rfl)
  · exact Stands.congr (FsEffect.apply_frame ha hi.1) (FsEffect.apply_frame ha hi.2)

theorem renameTmpToManifest_beside (h : Holds (tmpManifestPath v) data s) :
    BesideCommit sessionId v (fun _ t => Holds (manifestPath v) data t) (renameTmpToManifest v) s := by
  have htmp : ¬Foreign sessionId v (tmpManifestPath v) := fun hf => hf.1 rfl
  simp only [renameTmpToManifest, Prog.bind_eq]
  refine (holds_beside htmp (emits_ensureDirectory (by simp [FsEffect.touches])) h).bind fun _ a ha => ?_
  refine Safe.perform (fun b c hr hx => ⟨trivial, ?_⟩) fun _ _ _ _ => trivial
  obtain ⟨f, hf, hdata⟩ := ha.congr (hr _ htmp)
  obtain ⟨f', hf', _, _, hget⟩ := FsEffect.rename_ok (tmp_ne_manifest v v) hx
  cases hf.symm.trans hf'
  refine ⟨f, Tree.leaf?_eq_some.mpr ?_, hdata⟩
  rw [hget, if_neg (tmp_ne_manifest v v).symm, if_pos rfl]

/-- A published version has its manifest and its marker, whatever other versions the others
publish. -/
theorem publish_beside {m : Manifest} :
    BesideCommit sessionId m.version (fun _ t => Stands m.version (serialize m) t)
      (publish env .none m) s := by
  have htmp : ¬Foreign sessionId m.version (tmpManifestPath m.version) := fun hf => hf.1 rfl
  have hmanifest : ¬Foreign sessionId m.version (manifestPath m.version) := fun hf => hf.2.1 rfl
  simp only [publish, Prog.bind_eq]
  -- the draft
  refine writeFileAtomic_beside.bind fun _ a ha => ?_
  refine (holds_beside htmp (emits_append (by simp [FsEffect.touches]) ?_) ha).bind fun _ b hb => ?_
  · simp [FsEffect.touches, tmp_ne_wal]
  refine (holds_beside htmp emits_trigger hb).bind fun _ c hc => ?_
  -- the manifest
  refine (renameTmpToManifest_beside hc).bind fun _ d hd => ?_
  refine (holds_beside hmanifest (emits_append (by simp [FsEffect.touches]) ?_) hd).bind fun _ e he => ?_
  · simp [FsEffect.touches, manifest_ne_wal]
  refine (holds_beside hmanifest emits_trigger he).bind fun _ f hf => ?_
  -- the marker
  have hmark : BesideCommit sessionId m.version (fun _ t => Stands m.version (serialize m) t)
      (CommitMarker.create env m.version) f := by
    refine Safe.post (Beside.and (holds_beside hmanifest ?_ hf) writeFileAtomic_beside) ?_
    · refine emits_writeFileAtomic (by simp [FsEffect.touches]) fun mode => ?_
      simp [FsEffect.touches, manifestPath_ne_commitPath]
    · intro _ t h
      obtain ⟨hfile, marker, hm, _⟩ := h
      exact ⟨hfile, by rw [hm]; rfl⟩
  refine hmark.bind fun _ g hg => (stands_beside emits_trigger hg).bind fun _ h hh => ?_
  refine (stands_beside (emits_append (by simp [FsEffect.touches]) ?_) hh).bind fun _ k hk => ?_
  · simp [FsEffect.touches, manifest_ne_wal, commit_ne_wal]
  refine (stands_beside (emits_writeCheckpoint (by simp [FsEffect.touches]) ?_) hk).bind
    fun _ l hl => hl
  simp [FsEffect.touches, manifest_ne_checkpoint, commit_ne_checkpoint]

/-- What is read of a session is what it had at first. -/
theorem records_beside (h : u.leaf? (SessionIndex.path sessionId) = s.leaf? (SessionIndex.path sessionId)) :
    BesideCommit sessionId v (fun rs _ => SessionIndex.Recorded s sessionId rs)
      (SessionIndex.records sessionId) u := by
  have hpath : ¬Foreign sessionId v (SessionIndex.path sessionId) := fun hf => hf.2.2.2 rfl
  have hthere : BesideCommit sessionId v
      (fun b t => t.leaf? (SessionIndex.path sessionId) = s.leaf? (SessionIndex.path sessionId) ∧
        (b = false → s.leaf? (SessionIndex.path sessionId) = none))
      (FileUtils.pathExists (SessionIndex.path sessionId)) u := by
    refine Safe.query (fun t b hr hb => ?_) fun _ _ _ _ => trivial
    have hleaf := (hr _ hpath).trans h
    have hx : (FileUtils.pathExists (SessionIndex.path sessionId)).exec t = (.ok b, t) := by
      simp only [FileUtils.pathExists, Prog.exec_query, hb]
    obtain ⟨_, hsome⟩ := FileUtils.exec_pathExists_ok hx
    refine ⟨hleaf, fun hb => ?_⟩
    rw [← hleaf]
    exact Tree.leaf?_eq_none_of_none (by simpa [hb] using hsome)
  simp only [SessionIndex.records, Prog.bind_eq]
  refine hthere.bind fun b a ha => ?_
  split
  · refine Beside.bind (Q := fun text _ => SessionIndex.textOf s sessionId = text) ?_ fun text _ ht =>
      Safe.ofExcept (fun rs hrs => ?_) fun _ _ => trivial
    · refine Safe.query (fun t text hr ht => ?_) fun _ _ _ _ => trivial
      have hx : (FileUtils.readFile (SessionIndex.path sessionId)).exec t = (.ok text, t) := by
        simp only [FileUtils.readFile, Prog.exec_query, ht]
      obtain ⟨_, f, hf, rfl⟩ := FileUtils.exec_readFile_ok hx
      rw [SessionIndex.textOf, ← ha.1, ← hr _ hpath, hf]
      rfl
    · rw [SessionIndex.Recorded, ht]
      exact hrs
  · rename_i hb
    have hnone := ha.2 (by simpa using hb)
    show SessionIndex.Recorded s sessionId []
    rw [SessionIndex.Recorded, SessionIndex.textOf, hnone]
    rfl

theorem session_buildManifest_beside {total : UInt64}
    (h : u.leaf? (SessionIndex.path sessionId) = s.leaf? (SessionIndex.path sessionId)) :
    BesideCommit sessionId v (fun m _ => ∃ rs, SessionIndex.Recorded s sessionId rs ∧
        m = SessionIndex.manifestOf env sessionId w now rs)
      (SessionIndex.buildManifest env sessionId w total now) u := by
  simp only [SessionIndex.buildManifest, Prog.bind_eq]
  refine (records_beside h).bind fun rs _ hrs => ?_
  split
  · trivial
  · exact ⟨rs, hrs, rfl⟩

/-- The version of a session stands. -/
def SessionStands (env : Env) (now : UInt64) (s : Fs) (sessionId : Bytes) (v : UInt64) (t : Fs) : Prop :=
  ∃ rs, SessionIndex.Recorded s sessionId rs ∧
    Stands v (serialize (SessionIndex.manifestOf env sessionId v now rs)) t

/-- A commit that acknowledges a version has built it from its session, and nothing that
others do as another version or to another session has changed it. -/
theorem commit_beside {total : UInt64} (hp : packet.type = .commitSession)
    (hopen : openCommit packet = .ok (sessionId, total)) :
    BesideCommit sessionId v (fun reply t => Acknowledges packet v reply →
      SessionStands env now s sessionId v t) (handlePacket env now packet) s := by
  have hpath : ¬Foreign sessionId v (SessionIndex.path sessionId) := fun hf => hf.2.2.2 rfl
  let Same (t : Fs) : Prop :=
    t.leaf? (SessionIndex.path sessionId) = s.leaf? (SessionIndex.path sessionId)
  have keeps : ∀ {α : Type} {p : Op α} {a : Fs},
      p.Emits (fun i => SessionIndex.path sessionId ∉ i.touches) → Same a →
        BesideCommit sessionId v (fun _ t => Same t) p a := fun hemits ha =>
    Beside.of_emits (fun _ _ hr hsame => (hr _ hpath).trans hsame)
      (fun _ _ _ hi happly hsame => (FsEffect.apply_frame happly hi).trans hsame) hemits ha
  rw [handlePacket_commit hp hopen]
  refine (keeps emits_nextVersion rfl).bind fun w a ha => ?_
  by_cases hw : w = v
  · subst hw
    simp only [commitVersion, Prog.bind_eq]
    refine (keeps (emits_append (by simp [FsEffect.touches]) ?_) ha).bind fun _ b hb => ?_
    · simp [FsEffect.touches, SessionIndex.path_ne_wal]
    refine (session_buildManifest_beside hb).bind fun m _ hm => ?_
    obtain ⟨rs, hrs, hm⟩ := hm
    have hversion : m.version = w := by rw [hm]; rfl
    subst hversion
    refine publish_beside.bind fun _ c hc => ?_
    refine (stands_beside (emits_markCommitted (by simp [FsEffect.touches]) ?_) hc).bind fun _ d hd => ?_
    · intro line mode e
      simp only [FsEffect.touches, List.mem_singleton]
      exact ⟨(SessionIndex.path_ne_manifest sessionId _).symm,
        (SessionIndex.path_ne_commit sessionId _).symm⟩
    exact Safe.ofExcept (fun reply _ _ => ⟨rs, hrs, hm ▸ hd⟩) fun _ _ => trivial
  · exact (Beside.of_never (commitVersion_never hw)).post fun reply _ hnot ha => absurd ha hnot

/-- A version whose marker is there is not chosen again. -/
theorem nextVersion_beside {R : Fs → Fs → Prop} (hR : ∀ a b, R a b → Listed a v → Listed b v)
    (h : Listed s v) : Beside R (fun w _ => v < w) nextVersion s := by
  have hlist : Beside R (fun vs _ => v ∈ vs ∧ vs.Pairwise (· ≤ ·) ∧ ∀ w ∈ vs, w.toNat < 10 ^ 6)
      listCommittedVersions s := by
    simp only [listCommittedVersions, Prog.bind_eq]
    have hthere : Beside R (fun b t => b = true ∧ Listed t v) (FileUtils.pathExists manifestsDir) s := by
      refine Safe.query (fun t b hr hb => ?_) fun _ _ _ _ => trivial
      have ht := hR s t hr h
      have hx : (FileUtils.pathExists manifestsDir).exec t = (.ok b, t) := by
        simp only [FileUtils.pathExists, Prog.exec_query, hb]
      cases hx.symm.trans (FileUtils.exec_pathExists_dir ht.dir)
      exact ⟨rfl, ht⟩
    refine hthere.bind fun b a hb => ?_
    rw [hb.1, if_pos rfl]
    have hnames : Beside R (fun names _ => versionFileName v ".commit" ∈ names)
        (FileUtils.regularFiles manifestsDir) a := by
      refine Safe.query (fun t names hr ht => ?_) fun _ _ _ _ => trivial
      have hl := hR a t hr hb.2
      rw [hl.dir] at ht
      cases ht
      exact Tree.mem_leafNames.mpr (Option.isSome_iff_exists.mp hl.2)
    refine hnames.bind fun names _ hname => ?_
    refine Beside.bind (Q := fun vs _ => markerNumbers names = .ok vs)
      (Safe.ofExcept (fun _ hvs => hvs) fun _ _ => trivial) fun vs _ hvs => ?_
    have hmem : ∀ w, w ∈ vs.insertionSort (· ≤ ·) ↔ _ := fun w =>
      (List.mem_insertionSort _).trans (mem_markerNumbers hvs)
    exact ⟨(hmem v).mpr ⟨h.1, hname⟩, List.pairwise_insertionSort _ _, fun w hw => ((hmem w).mp hw).1⟩
  simp only [nextVersion, Prog.bind_eq]
  refine hlist.bind fun vs _ hvs => ?_
  obtain ⟨hv, hsort, hsix⟩ := hvs
  split
  · rename_i hnone
    rw [List.getLast?_eq_none_iff.mp hnone] at hv
    cases hv
  · rename_i last hlast
    exact lt_next hsort hlast (hsix last (List.mem_of_getLast? hlast)) hv

theorem SessionStands.congr (h : SessionStands env now s sessionId v t)
    (hr : Frame (Foreign sessionId v) t u) : SessionStands env now s sessionId v u := by
  obtain ⟨rs, hrs, hst⟩ := h
  exact ⟨rs, hrs, hst.congr (hr _ fun hf => hf.2.1 rfl) (hr _ fun hf => hf.2.2.1 rfl)⟩

theorem SessionStands.reads (h : SessionStands env now s sessionId v t) :
    ReadsSession env now s t sessionId v := by
  obtain ⟨rs, hrs, ⟨file, hfile, hdata⟩, hmark⟩ := h
  obtain ⟨marker, hmarker⟩ := Option.isSome_iff_exists.mp hmark
  have hload := exec_load hmarker hfile
  rw [hdata] at hload
  refine ⟨rs, hrs, hload, fun hwf => ?_⟩
  rw [hload, parse_of_wellFormed hwf]

variable {now' v' total total' : UInt64} {packet' : Packet} {sessionId' reply reply' : Bytes}

/-- Two commits that end with different versions do not disturb each other. -/
theorem reads_of_ne (hp : packet.type = .commitSession) (hp' : packet'.type = .commitSession)
    (hopen : openCommit packet = .ok (sessionId, total))
    (hopen' : openCommit packet' = .ok (sessionId', total')) (hne : sessionId ≠ sessionId')
    (hr : Duo.Reaches (workers env now now' packet packet' s) ⟨.pure reply, .pure reply', t⟩)
    (ha : Acknowledges packet v reply) (ha' : Acknowledges packet' v' reply') (hv : v ≠ v') :
    ReadsSession env now s t sessionId v := by
  have hends := hr.left_ends (F := Acknowledges packet' v') (R := Frame (Foreign sessionId v))
    (fun a => Frame.refl _ a) (fun h h' => h.trans h')
    (fun _ _ _ h hr ha => SessionStands.congr (h ha) hr)
    (fun _ _ _ hi happly => Frame.of_apply happly (hi.foreign hne.symm hv.symm))
    ha' (commit_only hp' hopen') (commit_beside (v := v) hp hopen)
  exact (hends ha).reads

/-- A commit that begins when the other has left its marker chooses another version. -/
theorem ne_of_beginsAfter (hp : packet.type = .commitSession) (hp' : packet'.type = .commitSession)
    (hopen : openCommit packet = .ok (sessionId, total))
    (hopen' : openCommit packet' = .ok (sessionId', total'))
    (ha : Acknowledges packet v reply) (ha' : Acknowledges packet' v' reply')
    (hb : BeginsAfter (workers env now now' packet packet' s) ⟨.pure reply, .pure reply', t⟩ v) :
    v ≠ v' := by
  obtain ⟨p, u, hfirst, hlisted, hrest⟩ := hb
  intro hv
  subst hv
  have honly : p.Only (CommitEffect sessionId v) (Acknowledges packet v) :=
    Duo.Reaches.keeps_left (K := (Prog.Only (CommitEffect sessionId v) (Acknowledges packet v) ·))
      (fun _ _ _ _ _ hs h => Prog.Only.step h hs) (commit_only hp hopen) hfirst
  have hbeside : Beside (fun a b => Listed a v → Listed b v)
      (fun reply _ => ¬Acknowledges packet' v reply) (handlePacket env now' packet') u := by
    rw [handlePacket_commit hp' hopen']
    refine (nextVersion_beside (fun _ _ h => h) hlisted).bind fun w _ hw => ?_
    refine Beside.of_never (commitVersion_never fun he => ?_)
    rw [he] at hw
    exact UInt64.lt_irrefl v hw
  exact hrest.right_ends (fun _ h => h) (fun h h' hl => h' (h hl)) (fun _ _ _ h _ => h)
    (fun _ _ _ hi happly => hi.listed happly) ha honly hbeside ha'

/-- Two commits of different sessions at the same time, both acknowledged: where the versions
differ each is read as the manifest of its session, whatever the order of their steps; and they
differ when one begins after the other has left its marker. -/
theorem concurrent_commits (hp : packet.type = .commitSession)
    (hp' : packet'.type = .commitSession) (hopen : openCommit packet = .ok (sessionId, total))
    (hopen' : openCommit packet' = .ok (sessionId', total')) (hne : sessionId ≠ sessionId')
    (hr : Duo.Reaches (workers env now now' packet packet' s) ⟨.pure reply, .pure reply', t⟩)
    (ha : Acknowledges packet v reply) (ha' : Acknowledges packet' v' reply') :
    (v ≠ v' → ReadsSession env now s t sessionId v ∧ ReadsSession env now' s t sessionId' v') ∧
      (BeginsAfter (workers env now now' packet packet' s) ⟨.pure reply, .pure reply', t⟩ v →
        v ≠ v') :=
  ⟨fun hv => ⟨reads_of_ne hp hp' hopen hopen' hne hr ha ha' hv,
      reads_of_ne hp' hp hopen' hopen hne.symm hr.swap ha' ha hv.symm⟩,
    ne_of_beginsAfter hp hp' hopen hopen' ha ha'⟩

def emptyCommit : Packet where
  type := .commitSession
  sessionIdHash := PacketCodec.sessionHash (ascii "e")
  chunkIndex := 0
  chunkSha256 := zeroDigest
  payload := BackupClient.commitPayload (ascii "e") 0

def emptyReply (version : UInt64) : Bytes :=
  (sendText .commitAck emptyCommit.sessionIdHash (commitText version)).toOption.getD []

/-- The commit of the session without a file, when it has chosen its version. -/
def emptyChosen (s : Fs) : Op Bytes :=
  ((handlePacket letterEnv 1700000000 emptyCommit).looked s).looked s

def lettersFirst : Fs :=
  ((handlePacket letterEnv 1700000000 letterCommit).exec (letterSession (ascii "a.txt"))).2

theorem letter_first :
    (handlePacket letterEnv 1700000000 letterCommit).exec (letterSession (ascii "a.txt")) =
      (.ok letterReply, lettersFirst) :=
  Prog.exec_of_fst (by decide +kernel)

theorem one_after_the_other : ∃ t,
    ReadsSession letterEnv 1700000000 (letterSession (ascii "a.txt")) t (ascii "s") 1 ∧
      ReadsSession letterEnv 1700000000 (letterSession (ascii "a.txt")) t (ascii "e") 2 := by
  have hsecond : (handlePacket letterEnv 1700000000 emptyCommit).exec lettersFirst =
      (.ok (emptyReply 2), _) := Prog.exec_of_fst (by decide +kernel)
  have hfirst : Duo.Reaches
      (workers letterEnv 1700000000 1700000000 letterCommit emptyCommit (letterSession (ascii "a.txt")))
      _ := Duo.reaches_exec_left letter_first
  have hrest := Duo.reaches_exec_right (p := .pure letterReply) hsecond
  have hopen : openCommit letterCommit = .ok (ascii "s", 1) := by decide +kernel
  have hopen' : openCommit emptyCommit = .ok (ascii "e", 0) := by decide +kernel
  have ha : Acknowledges emptyCommit 2 (emptyReply 2) := by decide +kernel
  have hboth := concurrent_commits rfl rfl hopen hopen' (by decide) (hfirst.trans hrest)
    acknowledges_letter ha
  exact ⟨_, hboth.1 (hboth.2 ⟨_, _, hfirst, by decide +kernel, hrest⟩)⟩

def lettersLost : Fs := ((emptyChosen (letterSession (ascii "a.txt"))).exec lettersFirst).2

/-- Both commits are acknowledged with one version, and the file of the first is not in it. -/
theorem concurrent_commit_is_lost :
    Duo.Reaches
        (workers letterEnv 1700000000 1700000000 letterCommit emptyCommit
          (letterSession (ascii "a.txt")))
        ⟨.pure letterReply, .pure (emptyReply 1), lettersLost⟩ ∧
      Acknowledges letterCommit 1 letterReply ∧ Acknowledges emptyCommit 1 (emptyReply 1) ∧
      ¬ReadsSession letterEnv 1700000000 (letterSession (ascii "a.txt")) lettersLost (ascii "s") 1 := by
  have hsecond : (emptyChosen (letterSession (ascii "a.txt"))).exec lettersFirst =
      (.ok (emptyReply 1), lettersLost) := Prog.exec_of_fst (by decide +kernel)
  refine ⟨?_, acknowledges_letter, by decide +kernel, ?_⟩
  · exact Duo.reaches_looked_right.trans (Duo.reaches_looked_right.trans
      ((Duo.reaches_exec_left letter_first).trans (Duo.reaches_exec_right hsecond)))
  · intro h
    obtain ⟨rs, hrs, hload, _⟩ := h
    have hrecorded : SessionIndex.Recorded (letterSession (ascii "a.txt")) (ascii "s")
        [letterRecord] := by decide +kernel
    rw [hrs.unique hrecorded] at hload
    have hother : ((load 1).exec lettersLost).1 ≠
        parse (serialize (SessionIndex.manifestOf letterEnv (ascii "s") 1 1700000000 [letterRecord])) := by
      decide +kernel
    exact hother (by rw [hload])

end Dpc
