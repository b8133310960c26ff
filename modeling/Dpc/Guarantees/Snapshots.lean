import Dpc.Guarantees.Visible
import Dpc.Metadata.CheckpointFacts

namespace Dpc
open Text FileTree Effects ManifestStore ObjectStore BackupEngine

variable {env : Env} {s t a b : Fs} {op : Operation} {i : FsEffect} {is : List FsEffect}
  {log : List Event} {v w : UInt64} {vs ws : List UInt64} {m : Manifest}

/-- The first of two increasing lists is the part of the second up to some number. -/
theorem prefix_of_increasing (hv : vs.Pairwise (· < ·)) (hw : ws.Pairwise (· < ·))
    (hsub : ∀ v ∈ vs, v ∈ ws) (hrest : ∀ w ∈ ws, w ∈ vs ∨ ∀ v ∈ vs, v < w) : vs <+: ws := by
  induction vs generalizing ws with
  | nil => exact List.nil_prefix
  | cons v vs ih =>
    obtain ⟨hvs, hvtail⟩ := List.pairwise_cons.mp hv
    cases ws with
    | nil => exact absurd (hsub v List.mem_cons_self) List.not_mem_nil
    | cons w ws =>
      obtain ⟨hws, hwtail⟩ := List.pairwise_cons.mp hw
      have hle : v = w ∨ w < v := by
        rcases List.mem_cons.mp (hsub v List.mem_cons_self) with h | h
        · exact .inl h
        · exact .inr (hws v h)
      have hge : w = v ∨ v < w := by
        rcases hrest w List.mem_cons_self with h | h
        · rcases List.mem_cons.mp h with h | h
          · exact .inl h
          · exact .inr (hvs w h)
        · exact .inr (h v List.mem_cons_self)
      have heq : v = w := by
        rcases hle with h | h
        · exact h
        · rcases hge with h' | h'
          · exact h'.symm
          · exact absurd (UInt64.lt_trans h h') (UInt64.lt_irrefl w)
      subst heq
      refine List.cons_prefix_cons.mpr ⟨rfl, ih hvtail hwtail (fun x hx => ?_) fun x hx => ?_⟩
      · rcases List.mem_cons.mp (hsub x (List.mem_cons_of_mem _ hx)) with h | h
        · exact absurd (h ▸ hvs x hx) (UInt64.lt_irrefl v)
        · exact h
      · rcases hrest x (List.mem_cons_of_mem _ hx) with h | h
        · rcases List.mem_cons.mp h with h | h
          · exact absurd (h ▸ hws x hx) (UInt64.lt_irrefl v)
          · exact .inl h
        · exact .inr fun y hy => h y (List.mem_cons_of_mem _ hy)

/-- The versions that are listed, in order. -/
structure ListedAs (t : Fs) (vs : List UInt64) : Prop where
  mem : ∀ v, v ∈ vs ↔ Listed t v
  increasing : vs.Pairwise (· < ·)

theorem increasing_of {vs : List UInt64} (hle : vs.Pairwise (· ≤ ·)) (hn : vs.Nodup) :
    vs.Pairwise (· < ·) := by
  refine (hle.and hn).imp fun h => ?_
  exact UInt64.lt_of_le_of_ne h.1 h.2

theorem listedAs_of_exec (h : listCommittedVersions.exec s = (.ok vs, t)) : ListedAs s vs := by
  obtain ⟨_, hmem, hle, hn, _⟩ := listCommittedVersions_ok h
  exact ⟨hmem, increasing_of hle hn⟩

theorem ListedAs.congr (h : ListedAs s vs) (hl : ∀ v, Listed t v ↔ Listed s v) : ListedAs t vs :=
  ⟨fun v => (h.mem v).trans (hl v).symm, h.increasing⟩

theorem ListedAs.unique (h : ListedAs t vs) (h' : ListedAs t ws) : vs = ws := by
  have hvs : vs <+: ws := prefix_of_increasing h.increasing h'.increasing
    (fun v hv => (h'.mem v).mpr ((h.mem v).mp hv)) fun w hw => .inl ((h.mem w).mpr ((h'.mem w).mp hw))
  have hws : ws <+: vs := prefix_of_increasing h'.increasing h.increasing
    (fun v hv => (h.mem v).mpr ((h'.mem v).mp hv)) fun w hw => .inl ((h'.mem w).mpr ((h.mem w).mp hw))
  exact hvs.eq_of_length_le hws.length_le

/-- A checkpoint is only replaced, by that of the versions that are listed. -/
def Snapshots (i : FsEffect) (a : Fs) : Prop :=
  Checkpoint.path ∈ i.touches → ∃ vs mode, ListedAs a vs ∧
    i = .replace Checkpoint.path (Checkpoint.text (Checkpoint.ofVersions vs)) mode

theorem snapshots_of_quiet (h : Checkpoint.path ∉ i.touches) : Snapshots i a := fun hm => absurd hm h

theorem snapshots_one {p : Path} (h : i.touches = [p]) (hp : p ≠ Checkpoint.path) : Snapshots i a := by
  refine snapshots_of_quiet fun hm => hp ?_
  rw [h] at hm
  exact (List.mem_singleton.mp hm).symm

/-- The checkpoint is that of the versions that are listed. -/
def Recent (t : Fs) : Prop :=
  ∃ vs f, ListedAs t vs ∧ t.leaf? Checkpoint.path = some f ∧
    f.data = Checkpoint.text (Checkpoint.ofVersions vs)

theorem Recent.frame {P : Path → Prop} (h : Recent s) (hf : Frame P s t) (hc : ¬P Checkpoint.path)
    (hp : ∀ v, ¬P (commitPath v)) : Recent t := by
  obtain ⟨vs, f, hvs, hleaf, hdata⟩ := h
  exact ⟨vs, f, hvs.congr (listed_of_frame hf hp), (hf _ hc).trans hleaf, hdata⟩

theorem snapshots_dir (p : Path) (a : Fs) : Snapshots (.ensureDirectory p) a :=
  snapshots_of_quiet List.not_mem_nil

theorem snapshots_wal (data : Bytes) (mode : UInt32) (e : Exn) (a : Fs) :
    Snapshots (.append WalLog.walPath data mode e) a :=
  snapshots_one rfl (by decide)

theorem writeCheckpoint_recent :
    Keeps (fun i a _ => Snapshots i a) (fun _ t => Recent t) (writeCheckpoint env) s := by
  simp only [writeCheckpoint, Prog.bind_eq]
  refine Keeps.bind listCommittedVersions_keeps fun vs a h => ?_
  obtain ⟨he, hmem, hle, hn, _⟩ := h
  subst he
  have hlisted : ListedAs a vs := ⟨hmem, increasing_of hle hn⟩
  have hput : ∀ mode (b c : Fs), (∀ q, b.leaf? q = a.leaf? q) →
      Snapshots (.replace Checkpoint.path (Checkpoint.text (Checkpoint.ofVersions vs)) mode) b := by
    intro mode b c hb _
    exact ⟨vs, mode, hlisted.congr fun v => listed_congr (hb _), rfl⟩
  refine Keeps.bind (FileUtils.writeFileAtomic_keeps _ _ _ (fun p b _ => snapshots_dir p b) hput) ?_
  intro _ t h
  obtain ⟨hf, f, hfile, hdata⟩ := h
  refine Keeps.pure ⟨vs, f, hlisted.congr fun v => ?_, hfile, hdata⟩
  exact listed_congr (hf _ (commit_ne_checkpoint v))

theorem wal_snapshots {type : WalRecordType} {payload : Bytes} :
    Keeps (fun i a _ => Snapshots i a) (fun _ _ => True) (WalLog.append env type payload) s :=
  (WalLog.append_keeps (fun p b _ => snapshots_dir p b) fun data mode e b _ _ =>
    snapshots_wal data mode e b).post fun _ _ _ => trivial

theorem trigger_snapshots {stage now : FaultStage} :
    Keeps (fun i a _ => Snapshots i a) (fun _ _ => True) (FaultInjector.trigger stage now) s :=
  (FaultInjector.trigger_keeps stage now).post fun _ _ _ => trivial

theorem replace_snapshots {umask : UInt32} {p : Path} {data : Bytes} {mode : UInt32}
    (hp : p ≠ Checkpoint.path) : Keeps (fun i a _ => Snapshots i a) (fun _ _ => True)
      (FileUtils.writeFileAtomic umask p data mode) s :=
  (FileUtils.writeFileAtomic_keeps _ _ _ (fun q b _ => snapshots_dir q b) fun _ _ _ _ =>
    snapshots_one rfl hp).post fun _ _ _ => trivial

theorem rename_snapshots {v : UInt64} :
    Keeps (fun i a _ => Snapshots i a) (fun _ _ => True) (renameTmpToManifest v) s := by
  simp only [renameTmpToManifest, FileUtils.ensureDirectory, Prog.bind_eq]
  refine Keeps.bind (Q := fun _ _ => True) (Keeps.perform fun b _ => ⟨snapshots_dir _ s, trivial⟩) ?_
  intro _ a _
  refine Keeps.perform fun b _ => ⟨snapshots_of_quiet fun hm => ?_, trivial⟩
  simp only [FsEffect.touches, List.mem_cons, List.not_mem_nil, or_false] at hm
  rcases hm with hm | hm
  · exact absurd hm (ne_of_head (show some (ascii "metadata") ≠ some (ascii "tmp") by decide))
  · exact manifest_ne_checkpoint v hm.symm

/-- Publishing a version ends with the checkpoint. -/
theorem publish_recent {fault : FaultStage} :
    Keeps (fun i a _ => Snapshots i a) (fun _ t => Recent t) (publish env fault m) s := by
  simp only [publish, writeTmp, CommitMarker.create, FileUtils.writeTextAtomic, Prog.bind_eq]
  have htmp : tmpManifestPath m.version ≠ Checkpoint.path :=
    ne_of_head (show some (ascii "tmp") ≠ some (ascii "metadata") by decide)
  refine Keeps.bind (replace_snapshots htmp) fun _ _ _ => ?_
  refine Keeps.bind wal_snapshots fun _ _ _ => Keeps.bind trigger_snapshots fun _ _ _ => ?_
  refine Keeps.bind rename_snapshots fun _ _ _ => ?_
  refine Keeps.bind wal_snapshots fun _ _ _ => Keeps.bind trigger_snapshots fun _ _ _ => ?_
  refine Keeps.bind (replace_snapshots (commit_ne_checkpoint _)) fun _ _ _ => ?_
  refine Keeps.bind trigger_snapshots fun _ _ _ => Keeps.bind wal_snapshots fun _ _ _ => ?_
  exact Keeps.bind writeCheckpoint_recent fun _ t ht => ht

theorem create_recent {now : UInt64} {fault : FaultStage} {source : Source} {mode : ChunkingMode} :
    Keeps (fun i a _ => Snapshots i a) (fun _ t => Recent t) (create env now fault source mode) s := by
  have hG : BackupEffects env fun i a _ => Snapshots i a := by
    refine ⟨fun p a _ => snapshots_dir p a, fun data compressed mode a b _ _ => ?_, fun data mode e a _ =>
      snapshots_wal data mode e a⟩
    exact snapshots_one rfl (ne_of_head (show some (ascii "objects") ≠ some (ascii "metadata") by decide))
  have hbuild : Keeps _ _ (BackupEngine.buildManifest env now fault source mode) s :=
    buildManifest_keeps hG
  simp only [create, Prog.bind_eq]
  refine Keeps.bind hbuild fun p u _ => ?_
  exact Keeps.bind publish_recent fun _ t ht => ht

theorem put_snapshots : BackupServer.PutEffects fun i a _ => Snapshots i a where
  dir p a _ := snapshots_dir p a
  object sha data mode a b _ _ :=
    snapshots_one rfl (ne_of_head (show some (ascii "objects") ≠ some (ascii "metadata") by decide))
  record sessionId r mode e a b _ _ _ _ := snapshots_one rfl (SessionIndex.path_ne_checkpoint sessionId)

theorem commit_recent {now : UInt64} {packet : Packet} :
    Keeps (fun i a _ => Snapshots i a) (fun _ t => Recent t)
      (BackupServer.commitSession env now packet) s := by
  have hbuild : Keeps (fun i a _ => Snapshots i a) _ (BackupServer.buildManifest env now packet) s :=
    BackupServer.buildManifest_keeps (fun p a _ => snapshots_dir p a) fun data mode e a _ =>
      snapshots_wal data mode e a
  simp only [BackupServer.commitSession, Prog.bind_eq]
  refine Keeps.bind hbuild fun built u _ => ?_
  refine Keeps.bind publish_recent fun _ a ha => ?_
  refine Keeps.bind (SessionIndex.appendLine_keeps (fun p b _ => snapshots_dir p b)
    fun mode e b c _ => snapshots_one rfl (SessionIndex.path_ne_checkpoint _)) fun _ t ht => ?_
  refine Keeps.ofExcept fun reply _ => ha.frame ht.1 ?_ fun v => ?_
  · exact (SessionIndex.path_ne_checkpoint _).symm
  · exact (SessionIndex.path_ne_commit _ v).symm

theorem handle_snapshots {now : UInt64} {packet : Packet} :
    Keeps (fun i a _ => Snapshots i a) (fun _ t => packet.type = .commitSession → Recent t)
      (BackupServer.handlePacket env now packet) s := by
  by_cases htype : packet.type = .commitSession
  · rw [BackupServer.handlePacket, htype]
    exact commit_recent.post fun _ t ht _ => ht
  · exact (BackupServer.quiet_keeps put_snapshots htype).post fun _ t _ h => absurd h htype

theorem removeFiles_snapshots (names : List Name) :
    Keeps (fun i a _ => Snapshots i a) (fun _ _ => True)
      (RecoveryManager.removeFiles tmpDir names) s := by
  induction names generalizing s with
  | nil => trivial
  | cons name names ih =>
    simp only [RecoveryManager.removeFiles, Prog.bind_eq]
    refine Keeps.bind (Q := fun _ _ => True) (Keeps.perform fun b _ => ⟨?_, trivial⟩) fun _ _ _ => ih
    exact snapshots_one rfl (ne_of_head (show some (ascii "tmp") ≠ some (ascii "metadata") by decide))

theorem recover_recent :
    Keeps (fun i a _ => Snapshots i a) (fun _ t => Recent t) (RecoveryManager.recover env) s := by
  simp only [RecoveryManager.recover, RecoveryManager.removeTmpFiles, Prog.bind_eq]
  refine Keeps.bind (ensureLayout_keeps fun p b _ => snapshots_dir p b) fun _ a _ => ?_
  refine Keeps.bind RecoveryManager.readAll_keeps fun _ b _ => ?_
  refine Keeps.bind (Q := fun _ _ => True) ?_ fun _ c _ => ?_
  · refine Keeps.bind_query fun there _ => ?_
    split
    · refine Keeps.bind_query fun names _ => ?_
      exact Keeps.bind (removeFiles_snapshots names) fun _ _ _ => trivial
    · trivial
  · exact Keeps.bind writeCheckpoint_recent fun _ t ht => ht

theorem compact_recent :
    Keeps (fun i a _ => Snapshots i a) (fun _ t => Recent t) (MetadataCompactor.compact env) s := by
  simp only [MetadataCompactor.compact, WalLog.replaceWith, Prog.bind_eq]
  refine Keeps.bind writeCheckpoint_recent fun _ a ha => ?_
  refine Keeps.bind_ofExcept fun data _ => ?_
  refine (FileUtils.writeFileAtomic_keeps _ _ _ (fun p b _ => snapshots_dir p b) fun mode b c _ =>
    snapshots_one rfl (by decide)).post fun _ t ht => ?_
  exact ha.frame ht.1 (by decide) fun v => commit_ne_wal v

/-- The operations that end with a checkpoint: all but the handling of other packets. -/
def Operation.Settles (op : Operation) : Prop :=
  ∀ now packet, op = .handle now packet → packet.type = .commitSession

theorem Operation.snapshots (op : Operation) :
    Keeps (fun i a _ => Snapshots i a) (fun _ t => op.Settles → Recent t) (op.prog env) s := by
  cases op with
  | create now fault source mode => exact Keeps.bind create_recent fun _ _ ht _ => ht
  | handle now packet => exact Keeps.bind handle_snapshots fun _ _ ht hs => ht (hs now packet rfl)
  | recover => exact Keeps.bind recover_recent fun _ _ ht _ => ht
  | checkpoint => exact Keeps.bind writeCheckpoint_recent fun _ _ ht _ => ht
  | compact => exact compact_recent.post fun _ _ ht _ => ht

/-- What an operation builds is the version after those that are listed. -/
theorem Operation.next_of_builds (h : op.builds env s = some m) : NextOf s m.version := by
  cases op with
  | create now fault source mode =>
    have hbuild : Keeps (fun _ _ _ => True) _
        (BackupEngine.buildManifest env now fault source mode) s :=
      BackupEngine.buildManifest_keeps ⟨fun _ _ _ => trivial, fun _ _ _ _ _ _ _ => trivial,
        fun _ _ _ _ _ => trivial⟩
    simp only [Operation.builds] at h
    split at h
    · rename_i p u hx
      cases h
      exact (Keeps.ok hbuild hx).1.next
    · contradiction
  | handle now packet =>
    have hbuild : Keeps (fun _ _ _ => True) _ (BackupServer.buildManifest env now packet) s :=
      BackupServer.buildManifest_keeps (fun _ _ _ => trivial) fun _ _ _ _ _ => trivial
    simp only [Operation.builds] at h
    split at h
    · split at h
      · rename_i built u hx
        cases h
        obtain ⟨rs, hg⟩ := Keeps.ok hbuild hx
        exact hg.next
      · contradiction
    · contradiction
  | recover => contradiction
  | checkpoint => contradiction
  | compact => contradiction

/-- The versions that were listed up to some time. -/
structure Begins (t : Fs) (vs : List UInt64) : Prop where
  increasing : vs.Pairwise (· < ·)
  listed : ∀ v ∈ vs, Listed t v
  rest : ∀ w, Listed t w → w ∈ vs ∨ ∀ v ∈ vs, v < w

/-- The checkpoint, if there is one, was made of the versions up to some time. -/
def Dated (t : Fs) : Prop :=
  ∀ f, t.leaf? Checkpoint.path = some f →
    ∃ vs, f.data = Checkpoint.text (Checkpoint.ofVersions vs) ∧ Begins t vs

/-- While an operation runs, only the version that it builds comes to the list. -/
def During (env : Env) (op : Operation) (start a : Fs) : Prop :=
  ∀ v, Listed a v → Listed start v ∨ ∃ m, op.builds env start = some m ∧ m.version = v

theorem ListedAs.begins (h : ListedAs t vs) : Begins t vs :=
  ⟨h.increasing, fun v hv => (h.mem v).mp hv, fun w hw => .inl ((h.mem w).mpr hw)⟩

theorem Begins.prefix (h : Begins t vs) (hw : ListedAs t ws) : vs <+: ws :=
  prefix_of_increasing h.increasing hw.increasing (fun v hv => (hw.mem v).mpr (h.listed v hv))
    fun w hm => h.rest w ((hw.mem w).mp hm)

/-- The marker of a version that is new is the one that the operation builds. -/
theorem Allowed.marks {start : Fs} (h : Allowed env op start a i) (ha : Effect.apply i a = .ok b)
    (hnew : ¬Listed a v) (hl : Listed b v) : ∃ m, op.builds env start = some m ∧ m.version = v := by
  rcases h.adds ha hl with hold | ⟨data, mode, hi⟩
  · exact absurd hold hnew
  · cases h with
    | scratch hs =>
      rw [hi] at hs
      exact absurd (hs _ (List.mem_singleton_self _)) (Allowed.not_scratch_manifests rfl)
    | object =>
      have he := (FsEffect.replace.inj hi).1
      exact absurd he (ne_of_head (show some (ascii "objects") ≠ some (ascii "manifests") by decide))
    | record => contradiction
    | committed => contradiction
    | rename => contradiction
    | marker hbuilds => exact ⟨_, hbuilds, commitPath_injective (FsEffect.replace.inj hi).1⟩

theorem During.step {start : Fs} (h : During env op start a) (hallowed : Allowed env op start a i)
    (ha : Effect.apply i a = .ok b) : During env op start b := by
  intro v hl
  by_cases hold : Listed a v
  · exact h v hold
  · exact .inr (hallowed.marks ha hold hl)

/-- A version that is new comes after all those that are listed. -/
theorem Begins.step {start : Fs} (h : Begins a vs) (hd : During env op start a)
    (hallowed : Allowed env op start a i) (ha : Effect.apply i a = .ok b) : Begins b vs := by
  refine ⟨h.increasing, fun v hv => (hallowed.stays ha (h.listed v hv)).1, fun w hw => ?_⟩
  by_cases hold : Listed a w
  · exact h.rest w hold
  · obtain ⟨m, hbuilds, hm⟩ := hallowed.marks ha hold hw
    refine .inr fun v hv => ?_
    have hv := h.listed v hv
    rcases hd v hv with hstart | ⟨m', hbuilds', hm'⟩
    · rw [← hm]
      exact (Operation.next_of_builds hbuilds).above v hstart
    · cases hbuilds.symm.trans hbuilds'
      exact absurd (hm.symm.trans hm' ▸ hv) hold

/-- The step lemma. -/
theorem Dated.step {start : Fs} (h : Dated a) (hd : During env op start a)
    (hallowed : Allowed env op start a i) (hsnap : Snapshots i a) (ha : Effect.apply i a = .ok b) :
    Dated b := by
  intro f hf
  by_cases hm : Checkpoint.path ∈ i.touches
  · obtain ⟨vs, mode, hvs, rfl⟩ := hsnap hm
    rw [(FsEffect.replace_ok ha).leaf?, if_pos rfl] at hf
    cases hf
    refine ⟨vs, rfl, (hvs.congr fun v => listed_congr ?_).begins⟩
    exact FsEffect.apply_frame ha fun hc => commit_ne_checkpoint v (List.mem_singleton.mp hc)
  · rw [FsEffect.apply_frame ha hm] at hf
    obtain ⟨vs, hdata, hvs⟩ := h f hf
    exact ⟨vs, hdata, hvs.step hd hallowed ha⟩

theorem Dated.trace {start : Fs} (h : Dated a) (hd : During env op start a)
    (ht : Trace (fun i a _ => Allowed env op start a i ∧ Snapshots i a) a is b) : Dated b := by
  induction ht with
  | nil => exact h
  | cons ha hg _ ih => exact ih (h.step hd hg.1 hg.2 ha) (hd.step hg.1 ha)

/-- The run lemma. -/
theorem Steps.dated (h : Steps env emptyRepo log t) : Dated t := by
  induction h with
  | nil =>
    intro f hf
    rw [leaf?_emptyRepo] at hf
    contradiction
  | snoc h hc ih =>
    rename_i op is t u
    have htrace := ((op.allowed h.sound).trace hc).and (op.snapshots.trace hc)
    exact ih.trace (fun v hv => .inl hv) htrace

/-- In every state that is reached, what a checkpoint says is a first part of the history; and
each operation that ends leaves it complete. -/
theorem checkpoint_is_a_snapshot (h : Steps env emptyRepo log t) :
    (∀ f, t.leaf? Checkpoint.path = some f → ∃ data vs, Checkpoint.load.exec t = (.ok data, t) ∧
      listCommittedVersions.exec t = (.ok vs, t) ∧ data.committedVersions.Pairwise (· < ·) ∧
      data.committedVersions <+: vs ∧
      data.latestCommittedVersion = data.committedVersions.getLast?.getD 0) ∧
    ∀ (op : Operation) (u : Fs), op.Settles → (op.prog env).exec t = (.ok (), u) →
      ∃ vs, Checkpoint.load.exec u = (.ok (Checkpoint.ofVersions vs), u) ∧
        listCommittedVersions.exec u = (.ok vs, u) := by
  constructor
  · intro f hf
    obtain ⟨vs, hdata, hvs⟩ := h.dated f hf
    obtain ⟨ws, hx⟩ := h.sound.lists
    exact ⟨_, ws, Checkpoint.exec_load hf hdata, hx, hvs.increasing, hvs.prefix (listedAs_of_exec hx),
      rfl⟩
  · intro op u hsettles hx
    obtain ⟨vs, f, hvs, hf, hdata⟩ := Keeps.ok op.snapshots hx hsettles
    obtain ⟨is, hc⟩ := Prog.cut_exec (op.prog env) t
    rw [hx] at hc
    obtain ⟨ws, hlist⟩ := (h.snoc hc).sound.lists
    rw [← (listedAs_of_exec hlist).unique hvs] at hdata
    exact ⟨ws, Checkpoint.exec_load hf hdata, hlist⟩

/-- The backup of one letter. -/
def letterCreate : Operation := .create 1700000000 .none (.ofWorld plainWorld [ascii "data"]) .fixed

theorem letter_checkpoint :
    ∃ u vs, (letterCreate.prog letterEnv).exec emptyRepo = (.ok (), u) ∧
      Checkpoint.load.exec u = (.ok (Checkpoint.ofVersions vs), u) ∧
      listCommittedVersions.exec u = (.ok vs, u) := by
  have hx : ((letterCreate.prog letterEnv).exec emptyRepo).1 = .ok () := by decide +kernel
  have hsettles : letterCreate.Settles := by
    intro now packet h
    rw [letterCreate] at h
    cases h
  have hruns := checkpoint_is_a_snapshot (.nil : Steps letterEnv emptyRepo [] emptyRepo)
  obtain ⟨vs, hload, hlist⟩ := hruns.2 letterCreate _ hsettles (Prog.exec_of_fst hx)
  exact ⟨_, vs, Prog.exec_of_fst hx, hload, hlist⟩

end Dpc
