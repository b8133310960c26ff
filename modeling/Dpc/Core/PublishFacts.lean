import Dpc.Core.BackupFacts

namespace Dpc
open Text FileTree Effects

theorem ne_of_head {p q : Path} (h : p.head? ≠ q.head?) : p ≠ q := by
  intro he
  exact h (by rw [he])

variable {G : FsEffect → Fs → Fs → Prop} {env : Env} {s t : Fs}

namespace ManifestStore

theorem tmp_ne_manifest (v w : UInt64) : tmpManifestPath v ≠ manifestPath w :=
  ne_of_head (show some (ascii "tmp") ≠ some (ascii "manifests") by decide)

theorem tmp_ne_commit (v w : UInt64) : tmpManifestPath v ≠ commitPath w :=
  ne_of_head (show some (ascii "tmp") ≠ some (ascii "manifests") by decide)

theorem tmp_ne_wal (v : UInt64) : tmpManifestPath v ≠ WalLog.walPath :=
  ne_of_head (show some (ascii "tmp") ≠ some (ascii "metadata") by decide)

theorem manifest_ne_wal (v : UInt64) : manifestPath v ≠ WalLog.walPath :=
  ne_of_head (show some (ascii "manifests") ≠ some (ascii "metadata") by decide)

theorem commit_ne_wal (v : UInt64) : commitPath v ≠ WalLog.walPath :=
  ne_of_head (show some (ascii "manifests") ≠ some (ascii "metadata") by decide)

theorem manifest_ne_checkpoint (v : UInt64) : manifestPath v ≠ Checkpoint.path :=
  ne_of_head (show some (ascii "manifests") ≠ some (ascii "metadata") by decide)

theorem commit_ne_checkpoint (v : UInt64) : commitPath v ≠ Checkpoint.path :=
  ne_of_head (show some (ascii "manifests") ≠ some (ascii "metadata") by decide)

theorem not_inObjects_manifest (v : UInt64) : ¬ObjectStore.InObjects (manifestPath v) :=
  show some (ascii "manifests") ≠ some (ascii "objects") by decide

theorem not_inObjects_commit (v : UInt64) : ¬ObjectStore.InObjects (commitPath v) :=
  show some (ascii "manifests") ≠ some (ascii "objects") by decide

theorem not_inObjects_tmp (v : UInt64) : ¬ObjectStore.InObjects (tmpManifestPath v) :=
  show some (ascii "tmp") ≠ some (ascii "objects") by decide

theorem not_inObjects_checkpoint : ¬ObjectStore.InObjects Checkpoint.path := by decide

theorem listed_congr {v : UInt64} (h : t.leaf? (commitPath v) = s.leaf? (commitPath v)) :
    Listed t v ↔ Listed s v := by
  simp [Listed, h]

/-- The version after the last one that is listed. -/
structure NextOf (s : Fs) (v : UInt64) : Prop where
  above : ∀ w, Listed s w → w < v
  next : v = 1 ∧ (∀ w, ¬Listed s w) ∨ ∃ w, Listed s w ∧ v.toNat = w.toNat + 1
  parses : Parses s

theorem NextOf.fresh {v : UInt64} (h : NextOf s v) : ¬Listed s v := by
  intro hv
  exact absurd (h.above v hv) (UInt64.lt_irrefl v)

theorem NextOf.congr {v : UInt64} (hl : ∀ q, t.leaf? q = s.leaf? q) (h : NextOf t v) :
    NextOf s v := by
  have hs : ∀ w, Listed t w ↔ Listed s w := fun w => listed_congr (hl _)
  refine ⟨fun w hw => h.above w ((hs w).mpr hw), ?_, fun name hname => ?_⟩
  · rcases h.next with ⟨h1, h2⟩ | ⟨w, hw, h3⟩
    · exact .inl ⟨h1, fun w hw => h2 w ((hs w).mpr hw)⟩
    · exact .inr ⟨w, (hs w).mp hw, h3⟩
  · exact h.parses name (by rwa [hl])

theorem listCommittedVersions_keeps :
    Keeps G (fun vs t => t = s ∧ (∀ v, v ∈ vs ↔ Listed s v) ∧ vs.Pairwise (· ≤ ·) ∧ vs.Nodup ∧
        Parses s)
      listCommittedVersions s := by
  refine Keeps.of_exec (fun vs t h => listCommittedVersions_ok h) ?_
  simp only [listCommittedVersions, Prog.bind_eq]
  refine Keeps.bind (FileUtils.pathExists_keeps _) fun b a h => ?_
  split
  · refine Keeps.bind_query fun names _ => ?_
    exact Keeps.bind_ofExcept fun vs _ => trivial
  · trivial

theorem nextVersion_keeps : Keeps G (fun v t => t = s ∧ NextOf s v) nextVersion s := by
  refine Keeps.of_exec (fun v t h => ?_) ?_
  · obtain ⟨h1, h2, h3, h4⟩ := nextVersion_ok h
    exact ⟨h1, h2, h3, h4⟩
  · simp only [nextVersion, Prog.bind_eq]
    refine Keeps.bind listCommittedVersions_keeps fun vs a _ => ?_
    split
    · trivial
    · trivial

end ManifestStore

theorem writeCheckpoint_keeps (hdir : ∀ p a b, G (.ensureDirectory p) a b)
    (hput : ∀ data m a b, (∀ q, a.leaf? q = s.leaf? q) → G (.replace Checkpoint.path data m) a b) :
    Keeps G (fun vs t => Frame (· = Checkpoint.path) s t ∧ (∀ v, v ∈ vs ↔ ManifestStore.Listed s v))
      (writeCheckpoint env) s := by
  simp only [writeCheckpoint, Prog.bind_eq]
  refine Keeps.bind ManifestStore.listCommittedVersions_keeps fun vs a ⟨he, hvs, _⟩ => ?_
  subst he
  refine Keeps.bind (FileUtils.writeFileAtomic_keeps _ _ _ hdir fun m a b ha => hput _ m a b ha) ?_
  intro _ t ⟨hf, _⟩
  exact Keeps.pure ⟨hf, hvs⟩

namespace BackupEngine
open ManifestStore ObjectStore

/-- What publishing a version writes to. -/
def PublishPath (v : UInt64) (q : Path) : Prop :=
  q = tmpManifestPath v ∨ q = manifestPath v ∨ q = commitPath v ∨ q = WalLog.walPath ∨
    q = Checkpoint.path

/-- Before the rename only these have been written. -/
def DraftPath (v : UInt64) (q : Path) : Prop := q = tmpManifestPath v ∨ q = WalLog.walPath

/-- Before the marker these have been written as well. -/
def NamedPath (v : UInt64) (q : Path) : Prop := DraftPath v q ∨ q = manifestPath v

/-- The effects of publishing a manifest, with what is known of the state each is tried in. -/
structure PublishEffects (m : Manifest) (s : Fs) (G : FsEffect → Fs → Fs → Prop) : Prop where
  dir : ∀ p a b, G (.ensureDirectory p) a b
  wal : ∀ data mode e a b, G (.append WalLog.walPath data mode e) a b
  tmp : ∀ mode a b, G (.replace (tmpManifestPath m.version) (serialize m) mode) a b
  rename : ∀ a b f, Frame (DraftPath m.version) s a →
    a.leaf? (tmpManifestPath m.version) = some f → f.data = serialize m →
    G (.rename (tmpManifestPath m.version) (manifestPath m.version)) a b
  marker : ∀ data mode a b f, Frame (NamedPath m.version) s a →
    a.leaf? (manifestPath m.version) = some f → f.data = serialize m →
    G (.replace (commitPath m.version) data mode) a b
  checkpoint : ∀ data mode a b, G (.replace Checkpoint.path data mode) a b

/-- `publish` up to the rename of the manifest. -/
def stage (env : Env) (fault : FaultStage) (manifest : Manifest) : Op Unit := do
  writeTmp env manifest.version manifest
  WalLog.append env .writeManifest (versionPayload manifest.version)
  FaultInjector.trigger fault .afterManifestWrite
  FileUtils.ensureDirectory manifestsDir

/-- `publish` after it. -/
def conclude (env : Env) (fault : FaultStage) (manifest : Manifest) : Op Unit := do
  WalLog.append env .renameManifest (versionPayload manifest.version)
  FaultInjector.trigger fault .afterManifestRename
  CommitMarker.create env manifest.version
  FaultInjector.trigger fault .afterCommitMarker
  WalLog.append env .commitBackup (versionPayload manifest.version)
  let _ ← writeCheckpoint env

theorem publish_eq (env : Env) (fault : FaultStage) (m : Manifest) :
    publish env fault m = (stage env fault m).bind fun _ =>
      (Prog.perform (.rename (tmpManifestPath m.version) (manifestPath m.version))).bind fun _ =>
        conclude env fault m := by
  simp only [publish, stage, conclude, renameTmpToManifest, Prog.bind_eq, Prog.bind_assoc']

theorem stage_keeps {fault : FaultStage} {m : Manifest} (hdir : ∀ p a b, G (.ensureDirectory p) a b)
    (hwal : ∀ data mode e a b, G (.append WalLog.walPath data mode e) a b)
    (htmp : ∀ mode a b, G (.replace (tmpManifestPath m.version) (serialize m) mode) a b) :
    Keeps G (fun _ t => Frame (DraftPath m.version) s t ∧
      ∃ f, t.leaf? (tmpManifestPath m.version) = some f ∧ f.data = serialize m)
      (stage env fault m) s := by
  simp only [stage, writeTmp, FileUtils.writeTextAtomic, FileUtils.ensureDirectory, Prog.bind_eq]
  refine Keeps.bind (FileUtils.writeFileAtomic_keeps _ _ _ hdir fun mode a b _ => htmp mode a b)
    fun _ s1 h => ?_
  obtain ⟨hf1, f, hfile, hdata⟩ := h
  refine Keeps.bind (WalLog.append_keeps hdir fun data mode e a b _ => hwal data mode e a b)
    fun _ s2 hf2 => ?_
  refine Keeps.bind (FaultInjector.trigger_keeps _ _) fun _ s2' he => ?_
  subst he
  have hdraft : Frame (DraftPath m.version) s s2' :=
    (hf1.mono fun q hq => .inl hq).trans (hf2.mono fun q hq => .inr hq)
  refine Keeps.perform fun b hb => ⟨hdir _ _ b, fun q hq => ?_, f, ?_, hdata⟩
  · rw [(FsEffect.ensureDirectory_ok hb).1.leaf?, hdraft q hq]
  · rw [(FsEffect.ensureDirectory_ok hb).1.leaf?, hf2 _ (tmp_ne_wal _), hfile]

/-- What is written after the rename. -/
def ConcludePath (v : UInt64) (q : Path) : Prop :=
  q = commitPath v ∨ q = WalLog.walPath ∨ q = Checkpoint.path

theorem conclude_keeps {fault : FaultStage} {m : Manifest} (hdir : ∀ p a b, G (.ensureDirectory p) a b)
    (hwal : ∀ data mode e a b, G (.append WalLog.walPath data mode e) a b)
    (hmarker : ∀ data mode a b, Frame (· = WalLog.walPath) s a →
      G (.replace (commitPath m.version) data mode) a b)
    (hcheckpoint : ∀ data mode a b, G (.replace Checkpoint.path data mode) a b) :
    Keeps G (fun _ t => Frame (ConcludePath m.version) s t ∧ (t.leaf? (commitPath m.version)).isSome)
      (conclude env fault m) s := by
  have wal : ∀ {type payload} (a : Fs),
      Keeps G (fun _ b => Frame (· = WalLog.walPath) a b) (WalLog.append env type payload) a :=
    fun a => WalLog.append_keeps hdir fun data mode e b c _ => hwal data mode e b c
  simp only [conclude, CommitMarker.create, FileUtils.writeTextAtomic, Prog.bind_eq]
  refine Keeps.bind (wal s) fun _ s1 hf1 => ?_
  refine Keeps.bind (FaultInjector.trigger_keeps _ _) fun _ s1' he => ?_
  subst he
  refine Keeps.bind (FileUtils.writeFileAtomic_keeps _ _ _ hdir fun mode a b ha =>
    hmarker _ mode a b fun q hq => by rw [ha, hf1 q hq]) fun _ s2 h => ?_
  obtain ⟨hf2, g, hmark, _⟩ := h
  refine Keeps.bind (FaultInjector.trigger_keeps _ _) fun _ s2' he => ?_
  subst he
  refine Keeps.bind (wal s2') fun _ s3 hf3 => ?_
  refine Keeps.bind (writeCheckpoint_keeps hdir fun data mode a b _ => hcheckpoint data mode a b)
    fun _ s4 h => ?_
  obtain ⟨hf4, _⟩ := h
  have hfirst : Frame (ConcludePath m.version) s s2' :=
    (hf1.mono fun q hq => .inr (.inl hq)).trans (hf2.mono fun q hq => .inl hq)
  have hlast : Frame (ConcludePath m.version) s2' s4 :=
    (hf3.mono fun q hq => .inr (.inl hq)).trans (hf4.mono fun q hq => .inr (.inr hq))
  refine Keeps.pure ⟨hfirst.trans hlast, ?_⟩
  rw [hf4 _ (commit_ne_checkpoint _), hf3 _ (commit_ne_wal _), hmark]
  rfl

theorem publish_keeps {fault : FaultStage} {m : Manifest} (hG : PublishEffects m s G) :
    Keeps G (fun _ t => Frame (PublishPath m.version) s t ∧
      (∃ f, t.leaf? (manifestPath m.version) = some f ∧ f.data = serialize m) ∧
      (t.leaf? (commitPath m.version)).isSome)
      (publish env fault m) s := by
  rw [publish_eq]
  refine Keeps.bind (stage_keeps hG.dir hG.wal hG.tmp) fun _ s1 h => ?_
  obtain ⟨hdraft, f, hfile, hdata⟩ := h
  have hren : Keeps G (fun _ b => Frame (NamedPath m.version) s b ∧
      b.leaf? (manifestPath m.version) = some f)
      (Prog.perform (.rename (tmpManifestPath m.version) (manifestPath m.version))) s1 := by
    refine Keeps.perform fun b hb => ?_
    obtain ⟨g, hg, _, _, hget⟩ := FsEffect.rename_ok (tmp_ne_manifest _ _) hb
    rw [hfile] at hg
    cases hg
    refine ⟨hG.rename s1 b f hdraft hfile hdata, fun q hq => ?_, ?_⟩
    · have h1 : q ≠ tmpManifestPath m.version := fun he => hq (.inl (.inl he))
      have h2 : q ≠ manifestPath m.version := fun he => hq (.inr he)
      rw [FsEffect.leaf?_of_get? (s := s1) (by rw [hget, if_neg h1, if_neg h2]),
        hdraft q fun hd => hq (.inl hd)]
    · rw [Tree.leaf?_eq_some, hget, if_neg (tmp_ne_manifest _ _).symm, if_pos rfl]
  refine Keeps.bind hren fun _ s2 h => ?_
  obtain ⟨hnamed, hfile2⟩ := h
  have hmarker : ∀ data mode a b, Frame (· = WalLog.walPath) s2 a →
      G (.replace (commitPath m.version) data mode) a b := by
    intro data mode a b ha
    refine hG.marker data mode a b f (hnamed.trans (ha.mono fun q hq => .inl (.inr hq))) ?_ hdata
    rw [ha _ (manifest_ne_wal _), hfile2]
  refine Safe.post (conclude_keeps hG.dir hG.wal hmarker hG.checkpoint) fun _ t h => ?_
  obtain ⟨hconclude, hmark⟩ := h
  refine ⟨(hnamed.mono fun q hq => ?_).trans (hconclude.mono fun q hq => ?_), ⟨f, ?_, hdata⟩, hmark⟩
  · rcases hq with (hq | hq) | hq
    · exact .inl hq
    · exact .inr (.inr (.inr (.inl hq)))
    · exact .inr (.inl hq)
  · exact hq.elim (fun hq => .inr (.inr (.inl hq))) fun hq => .inr (.inr (.inr hq))
  · rw [hconclude, hfile2]
    rintro (hq | hq | hq)
    · exact manifestPath_ne_commitPath _ _ hq
    · exact manifest_ne_wal _ hq
    · exact manifest_ne_checkpoint _ hq

/-- A complete manifest, and how it came about. -/
structure Built (env : Env) (now : UInt64) (source : Source) (mode : ChunkingMode) (s t : Fs)
    (m : Manifest) : Prop where
  frame : Frame BackupPath s t
  next : NextOf s m.version
  files : ∃ files, source.scan = .ok files ∧ Added env (ChunkOf mode files) s t ∧
    List.Forall₂ (fun scanned file => ∃ data, FileDescribes env t mode data scanned file)
      files m.files ∧
    m = ⟨m.version, now, mode, source.root, inputBytes 0 m.files, m.totalStoredBytes, m.files⟩

theorem listed_of_frame {P : Path → Prop} (h : Frame P s t) (hp : ∀ v, ¬P (commitPath v))
    (v : UInt64) : Listed t v ↔ Listed s v := listed_congr (h _ (hp v))

theorem not_backupPath_commit (v : UInt64) : ¬BackupPath (commitPath v) := by
  rintro (h | h)
  · exact not_inObjects_commit v h
  · exact commit_ne_wal v h

theorem buildManifest_keeps {now : UInt64} {fault : FaultStage} {source : Source}
    {mode : ChunkingMode} (hG : BackupEffects env G) :
    Keeps G (fun p t => Built env now source mode s t p.manifest ∧
      p.result.version = p.manifest.version)
      (buildManifest env now fault source mode) s := by
  simp only [buildManifest, Prog.bind_eq]
  refine Keeps.bind (ensureLayout_keeps hG.dir) fun _ a ha => ?_
  refine Keeps.bind nextVersion_keeps fun version a' h => ?_
  obtain ⟨he, hnext⟩ := h
  subst he
  have hnext' : NextOf s version := hnext.congr ha
  refine Keeps.bind (WalLog.append_keeps hG.dir fun data m e b c _ => hG.wal data m e b c) ?_
  intro _ b hb
  refine Keeps.bind (FaultInjector.trigger_keeps _ _) fun _ b' he => ?_
  subst he
  refine Keeps.bind_ofExcept fun files hfiles => ?_
  have hsb : Frame BackupPath s b' := fun q hq => by rw [hb q fun h => hq (.inr h), ha]
  refine (backupFiles_keeps (D := ChunkOf mode files) (fun raw h => h) hG).post ?_
  intro p t h
  obtain ⟨hf, hadd, entries, n, hentries, hver, hman⟩ := h
  have hadded : Added env (ChunkOf mode files) s t := by
    refine Added.trans ⟨fun q f hq hf => ?_, fun sha f hf => .inl ?_⟩ hadd
    · rw [hb q fun h => not_inObjects_walPath (h ▸ hq), ha, hf]
    · rwa [hb _ fun h => not_inObjects_walPath (h ▸ inObjects_pathOf sha), ha] at hf
  refine ⟨⟨hsb.trans hf, ?_, files, hfiles, hadded, ?_, ?_⟩, ?_⟩
  · rw [hman]
    exact hnext'
  · rw [hman]
    simpa [started] using hentries
  · rw [hman]
    simp [started]
  · rw [hver, hman]
    rfl

end BackupEngine

end Dpc
