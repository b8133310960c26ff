import Dpc.Guarantees.Addressed
import Dpc.Guarantees.Concurrent
import Dpc.Guarantees.Confined
import Dpc.Guarantees.Verified
import Dpc.Guarantees.Visible
import Dpc.Lib.Steady
import Dpc.Metadata.UpkeepEmitted
import Dpc.Network.UploadFacts

/-! What was there when the workers started stays as it is, and is read as it was. -/

namespace Dpc
open Text FileTree Effects ManifestStore ObjectStore

variable {env : Env} {s s₀ t : Fs} {v w : UInt64} {i : FsEffect} {now : UInt64}
  {fault : FaultStage} {mode : ChunkingMode} {packet : Packet} {sessionId : Bytes}

/-- A file that nobody may touch any more: an object, or the marker or the manifest of a version
that is listed. -/
def Fixed (s₀ : Fs) (q : Path) : Prop :=
  (InObjects q ∧ (s₀.leaf? q).isSome) ∨
    ∃ v, Listed s₀ v ∧ (q = manifestPath v ∨ q = commitPath v)

/-- The files that nobody may touch are as they were. -/
structure Preserves (s₀ s : Fs) : Prop where
  nameMax : s.nameMax = s₀.nameMax
  leaf? : ∀ q, Fixed s₀ q → s.leaf? q = s₀.leaf? q

theorem Preserves.refl (s : Fs) : Preserves s s := ⟨rfl, fun _ _ => rfl⟩

theorem Preserves.listed (h : Preserves s₀ s) (hl : Listed s₀ v) : Listed s v :=
  ⟨hl.1, by rw [h.leaf? _ (.inr ⟨v, hl, .inr rfl⟩)]; exact hl.2⟩

/-- An effect touches no such file. -/
def Spares (s₀ : Fs) (i : FsEffect) : Prop := ∀ q ∈ i.touches, ¬Fixed s₀ q

theorem Spares.preserves (h : Spares s₀ i) (hs : Preserves s₀ s) (ha : Effect.apply i s = .ok t) :
    Preserves s₀ t where
  nameMax := by rw [FsEffect.apply_nameMax ha, hs.nameMax]
  leaf? q hq := by rw [FsEffect.apply_frame ha fun hm => h q hm hq, hs.leaf? q hq]

namespace Spares

theorem one {p : Path} (he : i.touches = [p]) (hp : ¬Fixed s₀ p) : Spares s₀ i := by
  intro q hq
  rw [he, List.mem_singleton] at hq
  rwa [hq]

theorem dir (p : Path) : Spares s₀ (.ensureDirectory p) := fun _ hq => absurd hq List.not_mem_nil

theorem scratch {p : Path} (hp : Scratch p) : ¬Fixed s₀ p := by
  rintro (⟨hin, _⟩ | ⟨v, _, rfl | rfl⟩)
  · exact Allowed.not_scratch_object hin hp
  · exact Allowed.not_scratch_manifests rfl hp
  · exact Allowed.not_scratch_manifests rfl hp

theorem wal (data : Bytes) (mode : UInt32) (e : Exn) :
    Spares s₀ (.append WalLog.walPath data mode e) := one rfl (scratch (.inr (.inl rfl)))

theorem checkpoint (data : Bytes) (mode : UInt32) : Spares s₀ (.replace Checkpoint.path data mode) :=
  one rfl (scratch (.inr (.inr rfl)))

theorem session (data : Bytes) (mode : UInt32) (e : Exn) :
    Spares s₀ (.append (SessionIndex.path sessionId) data mode e) := by
  refine one rfl ?_
  rintro (⟨hin, _⟩ | ⟨v, _, he | he⟩)
  · exact SessionIndex.not_inObjects_path sessionId hin
  · exact SessionIndex.path_ne_manifest sessionId v he
  · exact SessionIndex.path_ne_commit sessionId v he

/-- A version that was not listed may be published. -/
theorem publish (hw : ¬Listed s₀ w) : BackupEngine.MayPublish w (Spares s₀) := by
  have hmanifest : ¬Fixed s₀ (manifestPath w) := by
    rintro (⟨hin, _⟩ | ⟨v, hv, he | he⟩)
    · exact not_inObjects_manifest w hin
    · exact hw (manifestPath_injective he ▸ hv)
    · exact manifestPath_ne_commitPath w v he
  have hmarker : ¬Fixed s₀ (commitPath w) := by
    rintro (⟨hin, _⟩ | ⟨v, hv, he | he⟩)
    · exact not_inObjects_commit w hin
    · exact manifestPath_ne_commitPath v w he.symm
    · exact hw (commitPath_injective he ▸ hv)
  have htmp : ¬Fixed s₀ (tmpManifestPath w) := scratch (.inl rfl)
  refine ⟨dir, wal, fun _ _ => one rfl htmp, fun q hq => ?_, fun _ _ => one rfl hmarker, checkpoint⟩
  rcases List.mem_pair.mp hq with rfl | rfl
  · exact htmp
  · exact hmanifest

end Spares

theorem steady_of_emits {α : Type} {p : Op α} (h : p.Emits (Spares s₀)) :
    Steady (Preserves s₀) (fun _ => True) p s :=
  .of_emits (fun _ _ _ hi hs ha => hi.preserves hs ha) h

/-- A version that is chosen while listed versions stay is not listed. -/
theorem steady_nextVersion : Steady (Preserves s₀) (fun w => ¬Listed s₀ w) nextVersion s := by
  have hall : Beside (fun _ t => Preserves s₀ t) (fun w _ => ∀ v, Listed s₀ v → v < w)
      nextVersion s₀ := by
    refine Beside.forall fun v => ?_
    by_cases hv : Listed s₀ v
    · exact (nextVersion_beside (fun _ _ hr _ => hr.listed hv) hv).post fun _ _ hlt _ => hlt
    · exact (Steady.of_emits (K := Preserves s₀) (P := fun _ => False) (fun _ _ _ => False.elim)
        emits_nextVersion).mono (fun _ _ => id) (fun _ _ _ _ => trivial) (fun _ _ => id)
        fun _ _ _ hl => absurd hl hv
  have hsteady : Steady (Preserves s₀) (fun w => ¬Listed s₀ w) nextVersion s₀ :=
    .of_beside emits_nextVersion (hall.post fun w _ hlt hl => UInt64.lt_irrefl w (hlt w hl))
  exact hsteady.anywhere

/-- An object that was there is found there, and is not written. -/
theorem steady_putCompressed {sha compressed : Bytes} {rawSize : UInt64} :
    Steady (Preserves s₀) (fun _ => True) (putCompressed env sha compressed rawSize) s := by
  simp only [putCompressed, Prog.bind_eq]
  refine (steady_of_emits (emits_ensureLayout Spares.dir)).bind fun _ _ => ?_
  refine Steady.bind_ofExcept fun _ hs => ?_
  have hsha := Hash.requireSha256Hex_ok hs
  rw [objectPathForHash_of hsha]
  refine Steady.bind_ofExcept fun rel hrel => ?_
  cases hrel
  rw [absoluteObjectPath_textOf hsha]
  refine Steady.bind_ofExcept fun abs habs => ?_
  cases habs
  have hexists : Steady (Preserves s₀) (fun b => b = false → s₀.leaf? (pathOf sha) = none)
      (FileUtils.pathExists (pathOf sha)) s := by
    refine Safe.query (fun a b ha hb he => ?_) fun _ _ _ _ => trivial
    have hx : (FileUtils.pathExists (pathOf sha)).exec a = (.ok b, a) := by
      simp only [FileUtils.pathExists, Prog.exec_query, hb]
    obtain ⟨_, rfl⟩ := FileUtils.exec_pathExists_ok hx
    by_contra hne
    obtain ⟨f, hf⟩ := Option.ne_none_iff_exists'.mp hne
    have hleaf : a.leaf? (pathOf sha) = some f := by
      rw [ha.leaf? _ (.inl ⟨inObjects_pathOf sha, by simp [hf]⟩), hf]
    simp [Tree.leaf?_eq_some.mp hleaf] at he
  refine hexists.bind fun b hb => ?_
  split
  · refine (steady_of_emits emits_readRaw).bind fun raw _ => ?_
    split
    · trivial
    · exact (steady_of_emits Prog.emits_query).bind fun _ _ => trivial
  · rename_i hfalse
    have hnone := hb (by simpa using hfalse)
    have hfree : ¬Fixed s₀ (pathOf sha) := by
      rintro (⟨_, hsome⟩ | ⟨v, _, he | he⟩)
      · simp [hnone] at hsome
      · exact not_inObjects_manifest v (he ▸ inObjects_pathOf sha)
      · exact not_inObjects_commit v (he ▸ inObjects_pathOf sha)
    exact (steady_of_emits (emits_writeFileAtomic Spares.dir fun _ => .one rfl hfree)).bind
      fun _ _ => trivial

namespace BackupEngine

theorem steady_append {type : WalRecordType} {payload : Bytes} :
    Steady (Preserves s₀) (fun _ => True) (WalLog.append env type payload) s :=
  steady_of_emits (emits_append Spares.dir Spares.wal)

/-- The loop over chunks leaves the version. -/
theorem steady_putChunks {st : FileProgress env} {chunks : List Chunk} :
    Steady (Preserves s₀) (fun st' => st'.total.manifest.version = st.total.manifest.version)
      (putChunks env fault st chunks) s := by
  induction chunks generalizing st s with
  | nil => exact rfl
  | cons chunk chunks ih =>
    have hone : Steady (Preserves s₀)
        (fun st' => st'.total.manifest.version = st.total.manifest.version)
        (putChunk env fault st chunk) s := by
      simp only [putChunk, putRaw, Prog.bind_eq]
      refine (Steady.bind_ofExcept fun _ _ => steady_putCompressed).bind fun put _ => ?_
      refine steady_append.bind fun _ _ => (steady_of_emits emits_trigger).bind fun _ _ => ?_
      exact show (countPut put st.total).manifest.version = _ by
        unfold countPut
        split <;> rfl
    exact hone.bind fun st' hst => Safe.post ih fun st'' _ hlast => hlast.trans hst

theorem steady_backupFiles {total : Progress} {files : List ScannedFile} :
    Steady (Preserves s₀) (fun total' => total'.manifest.version = total.manifest.version)
      (backupFiles env fault mode total files) s := by
  induction files generalizing total s with
  | nil => exact rfl
  | cons scanned files ih =>
    have hone : Steady (Preserves s₀)
        (fun total' => total'.manifest.version = total.manifest.version)
        (backupFile env fault mode total scanned) s := by
      simp only [backupFile, Prog.bind_eq]
      refine Steady.bind_ofExcept fun _ _ => Steady.bind_ofExcept fun _ _ => ?_
      exact Steady.bind_ofExcept fun _ _ => steady_putChunks.bind fun st hst => hst
    exact hone.bind fun total' ht => Safe.post ih fun total'' _ hlast => hlast.trans ht

theorem steady_publish {m : Manifest} (hm : ¬Listed s₀ m.version) :
    Steady (Preserves s₀) (fun _ => True) (publish env fault m) s :=
  steady_of_emits (emits_publish (Spares.publish hm))

theorem steady_create {source : Source} :
    Steady (Preserves s₀) (fun _ => True) (create env now fault source mode) s := by
  have hbuild : Steady (Preserves s₀) (fun p => ¬Listed s₀ p.manifest.version)
      (buildManifest env now fault source mode) s := by
    simp only [buildManifest, Prog.bind_eq]
    refine (steady_of_emits (emits_ensureLayout Spares.dir)).bind fun _ _ => ?_
    refine steady_nextVersion.bind fun w hw => steady_append.bind fun _ _ => ?_
    refine (steady_of_emits emits_trigger).bind fun _ _ => Steady.bind_ofExcept fun files _ => ?_
    refine steady_backupFiles.post fun p _ hp => ?_
    have hversion : p.manifest.version = w := hp
    rw [← hversion] at hw
    exact hw
  simp only [create, Prog.bind_eq]
  exact hbuild.bind fun p hp => (steady_publish hp).bind fun _ _ => trivial

end BackupEngine

namespace BackupServer

theorem steady_putChunk :
    Steady (Preserves s₀) (fun _ => True) (putChunk env packet) s := by
  simp only [putChunk, Prog.bind_eq]
  refine Steady.bind_ofExcept fun opened _ => steady_putCompressed.bind fun stored _ => ?_
  refine (steady_of_emits (emits_appendChunk Spares.dir Spares.session)).bind fun _ _ => ?_
  exact steady_of_emits Prog.emits_ofExcept

theorem steady_commitSession :
    Steady (Preserves s₀) (fun _ => True) (commitSession env now packet) s := by
  have hbuild : Steady (Preserves s₀) (fun built => ¬Listed s₀ built.2.version)
      (buildManifest env now packet) s := by
    simp only [buildManifest, Prog.bind_eq]
    refine Steady.bind_ofExcept fun opened _ => steady_nextVersion.bind fun w hw => ?_
    refine BackupEngine.steady_append.bind fun _ _ => ?_
    have hversion : Steady (Preserves s₀) (fun m => m.version = w)
        (SessionIndex.buildManifest env opened.1 w opened.2 now) s :=
      .of_beside emits_session_buildManifest
        ((Beside.of_never buildManifest_version).post fun _ _ => Classical.not_not.mp)
    refine hversion.bind fun m hm => ?_
    rw [← hm] at hw
    exact hw
  simp only [commitSession, Prog.bind_eq]
  refine hbuild.bind fun built hm => (BackupEngine.steady_publish hm).bind fun _ _ => ?_
  refine (steady_of_emits (emits_markCommitted Spares.dir fun _ _ _ => Spares.session _ _ _)).bind
    fun _ _ => ?_
  exact steady_of_emits Prog.emits_ofExcept

theorem steady_handlePacket :
    Steady (Preserves s₀) (fun _ => True) (handlePacket env now packet) s := by
  cases htype : packet.type with
  | putChunk =>
    simp only [handlePacket, htype]
    exact steady_putChunk
  | commitSession =>
    simp only [handlePacket, htype]
    exact steady_commitSession
  | hello => exact .of_emits (fun _ _ _ => False.elim) (asks_emits (.inl htype))
  | querySession => exact .of_emits (fun _ _ _ => False.elim) (asks_emits (.inr htype))
  | _ =>
    simp only [handlePacket, htype]
    trivial

end BackupServer

/-- Every operation leaves what was there before it started, whatever others do meanwhile that
leave it too. -/
theorem Operation.steady (op : Operation) :
    Steady (Preserves s₀) (fun _ => True) (op.prog env) s := by
  cases op with
  | create now fault source mode => exact BackupEngine.steady_create.bind fun _ _ => trivial
  | handle now packet => exact BackupServer.steady_handlePacket.bind fun _ _ => trivial
  | recover =>
    refine (steady_of_emits (RecoveryManager.emits_recover Spares.dir (fun name => ?_)
      Spares.checkpoint)).bind fun _ _ => trivial
    exact .one rfl (Spares.scratch (.inl rfl))
  | checkpoint =>
    exact (steady_of_emits (emits_writeCheckpoint Spares.dir Spares.checkpoint)).bind
      fun _ _ => trivial
  | compact =>
    refine steady_of_emits (MetadataCompactor.emits_compact Spares.dir Spares.checkpoint ?_)
    exact fun _ _ => .one rfl (Spares.scratch (.inr (.inl rfl)))

/-- The programs of workers: operations, and whatever only reads. -/
def Works (env : Env) (p : Op Unit) : Prop :=
  (∃ op : Operation, p = op.prog env) ∨ p.Emits fun _ => False

theorem Works.steady {p : Op Unit} (h : Works env p) :
    Steady (Preserves s₀) (fun _ => True) p s := by
  rcases h with ⟨op, rfl⟩ | h
  · exact op.steady
  · exact .of_emits (fun _ _ _ => False.elim) h

variable {a b : Pool Fs FsEffect Exn}

/-- However many operations have started since a moment at which none was running, however they
take turns and wherever they have stopped, the versions that were listed are listed, their
manifests and markers are the same files, and every object that was there is there with the same
bytes. -/
theorem concurrent_work_preserves (h : Pool.Reaches (Works env) ⟨[], s⟩ b) :
    (∀ v, Listed s v → Listed b.state v ∧
      b.state.leaf? (manifestPath v) = s.leaf? (manifestPath v) ∧
      b.state.leaf? (commitPath v) = s.leaf? (commitPath v)) ∧
    ∀ q f, InObjects q → s.leaf? q = some f → b.state.leaf? q = some f := by
  have hnobody : Pool.Kept (Preserves s) (⟨[], s⟩ : Pool Fs FsEffect Exn) :=
    ⟨.refl s, fun p hp => absurd hp List.not_mem_nil⟩
  have hkept := (hnobody.run (fun p a hp => hp.steady) h).holds
  refine ⟨fun v hv => ⟨hkept.listed hv, ?_, ?_⟩, fun q f hq hf => ?_⟩
  · exact hkept.leaf? _ (.inr ⟨v, hv, .inl rfl⟩)
  · exact hkept.leaf? _ (.inr ⟨v, hv, .inr rfl⟩)
  · rw [hkept.leaf? q (.inl ⟨hq, by simp [hf]⟩), hf]

def firstLetter : Fs :=
  ((BackupEngine.create letterEnv 1700000000 .none (letterSource 1) .fixed).exec emptyRepo).2

/-- Another backup starts, and a third that is stopped before the second goes on. -/
theorem first_letter_is_preserved : ∃ b, Pool.Reaches (Works letterEnv) ⟨[], firstLetter⟩ b ∧
    Listed b.state 1 ∧ b.state.leaf? (manifestPath 1) = firstLetter.leaf? (manifestPath 1) := by
  let again : Op Unit := Operation.prog letterEnv (.create 1700000001 .none (letterSource 1) .fixed)
  have hworks : Works letterEnv again := .inl ⟨_, rfl⟩
  have hr : Pool.Reaches (Works letterEnv) ⟨[], firstLetter⟩ ⟨[], (again.exec firstLetter).2⟩ :=
    .head (.start [] firstLetter again hworks) <| .head (.start [again] firstLetter again hworks) <|
      .head (.stop [] [again] firstLetter again) (Pool.reaches_exec again firstLetter [])
  have hlisted : Listed firstLetter 1 := by decide +kernel
  obtain ⟨hstays, hmanifest, _⟩ := (concurrent_work_preserves hr).1 1 hlisted
  exact ⟨_, hr, hstays, hmanifest⟩

section Readers

variable {P : FsEffect → Prop} {m : Manifest} {file : FileManifest} {data : Bytes}

theorem emits_load : (load v).Emits P := by
  simp only [load, isCommitted, FileUtils.readTextFile, Prog.bind_eq]
  refine Prog.emits_query.bind fun there => ?_
  split
  · exact Prog.emits_query.bind fun _ => Prog.emits_ofExcept
  · trivial

theorem VerifyEngine.emits_verifyChunks {path : Bytes} {hash : env.evp.Ctx} {n : UInt64}
    {refs : List ChunkRef} : (verifyChunks env path hash n refs).Emits P := by
  induction refs generalizing hash n with
  | nil => trivial
  | cons ref refs ih =>
    simp only [verifyChunks, Prog.bind_eq]
    refine emits_readRaw.bind fun raw => ?_
    split
    · trivial
    split
    · trivial
    · exact ih

theorem VerifyEngine.emits_verifyFiles {files : List FileManifest} :
    (verifyFiles env files).Emits P := by
  induction files with
  | nil => trivial
  | cons file files ih =>
    have hone : (verifyFile env file).Emits P := by
      simp only [verifyFile, Prog.bind_eq]
      refine emits_verifyChunks.bind fun out => ?_
      split
      · trivial
      split
      · trivial
      · trivial
    simp only [verifyFiles, Prog.bind_eq]
    exact hone.bind fun _ => ih

theorem VerifyEngine.emits_verify : (verify env v).Emits P :=
  emits_load.bind fun _ => emits_verifyFiles

theorem RestoreEngine.emits_assemble {path acc : Bytes} {refs : List ChunkRef} :
    (assemble env path acc refs).Emits P := by
  induction refs generalizing acc with
  | nil => trivial
  | cons ref refs ih =>
    simp only [assemble, Prog.bind_eq]
    refine emits_readRaw.bind fun raw => ?_
    split
    · trivial
    · exact ih

theorem RestoreEngine.emits_readFile : (readFile env file).Emits P := by
  simp only [readFile, Prog.bind_eq]
  refine Prog.Emits.bind_ofExcept fun _ _ => emits_assemble.bind fun assembled => ?_
  split
  · trivial
  split
  · trivial
  · trivial

/-- Where there is a file, whether its path can be asked about depends on its names alone. -/
theorem blocked_of_leaf {q : Path} {f : File} (h : s.leaf? q = some f) :
    s.blocked q = q.inits.any fun r => (r.getLast?.map (badName s.nameMax)).getD false := by
  simp only [Tree.blocked]
  rw [Bool.eq_iff_iff, List.any_eq_true, List.any_eq_true]
  refine exists_congr fun r => and_congr_right fun hr => ?_
  cases hlast : r.getLast? with
  | none => rfl
  | some n =>
    obtain ⟨rest, rfl⟩ := (List.mem_inits r q).mp hr
    have hsplit : r.dropLast ++ ([n] ++ rest) = r ++ rest := by
      rw [← List.append_assoc, List.dropLast_append_getLast? n hlast]
    have hdir : s.get? r.dropLast = some .dir := by
      refine s.dir_of_prefix (List.append_ne_nil_of_left_ne_nil (List.cons_ne_nil n []) rest) ?_
      rw [hsplit, Tree.leaf?_eq_some.mp h]
      simp
    simp [hdir]

/-- A file that nobody may touch is seen as it was. -/
theorem Preserves.sees {q : Path} (h : Preserves s₀ s) (hq : Fixed s₀ q)
    (hsome : (s₀.leaf? q).isSome) : s.status q = s₀.status q ∧ s.get? q = s₀.get? q := by
  obtain ⟨f, hf⟩ := Option.isSome_iff_exists.mp hsome
  have hf' := (h.leaf? q hq).trans hf
  have hget : s.get? q = s₀.get? q := by
    rw [Tree.leaf?_eq_some.mp hf, Tree.leaf?_eq_some.mp hf']
  refine ⟨?_, hget⟩
  rw [Tree.status, Tree.status, blocked_of_leaf hf, blocked_of_leaf hf', h.nameMax, hget]

theorem Fixed.marker (hl : Listed s₀ v) : Fixed s₀ (commitPath v) := .inr ⟨v, hl, .inr rfl⟩

theorem Fixed.manifest (hl : Listed s₀ v) : Fixed s₀ (manifestPath v) := .inr ⟨v, hl, .inl rfl⟩

/-- All that the readers of a version that verifies look at is there, and nobody may touch it. -/
theorem fixed_of_readable (hl : Listed s₀ v)
    (hverify : ((VerifyEngine.verify env v).exec s₀).1 = .ok ()) {q : Path} (hq : Readable s₀ v q) : Fixed s₀ q ∧ (s₀.leaf? q).isSome := by
  obtain ⟨m, hload, hwhole⟩ := VerifyEngine.verify_iff.mp hverify
  rcases hq with rfl | rfl | ⟨m', hload', file, hfile, ref, href, hsha, hpath, rfl⟩
  · exact ⟨.marker hl, hl.2⟩
  · obtain ⟨_, _, f, hf, _⟩ := load_ok hload
    exact ⟨.manifest hl, by simp [hf]⟩
  · rw [hload, Prod.mk.injEq, Except.ok.injEq] at hload'
    obtain ⟨rfl, _⟩ := hload'
    obtain ⟨datas, hholds, _⟩ := hwhole file hfile
    obtain ⟨data, _, hheld⟩ := hholds.chunks.exists_left href
    obtain ⟨f, hf, _⟩ := hheld.stored
    exact ⟨.inl ⟨inObjects_pathOf _, by simp [hf]⟩, by simp [hf]⟩

/-- What a reader may have come to beside the workers: it goes on, or it has returned this. -/
def Agrees {α : Type} (env : Env) (reader : Op α) (s : Fs) (a : α) : Prop :=
  ∀ p b, Watched.Reaches (Works env) ⟨reader, [], s⟩ ⟨p, b⟩ →
    (∀ e, p ≠ .throw e) ∧ ∀ a', p = .pure a' → a' = a

theorem agrees_of_within {α : Type} {reader : Op α} {a : α} {A : Path → Prop}
    (hw : reader.Within (Sees A) s) (he : reader.Emits fun _ => False)
    (hx : (reader.exec s).1 = .ok a) (hA : ∀ q, A q → Fixed s q ∧ (s.leaf? q).isSome) :
    Agrees env reader s a := by
  intro p b hr
  have hnobody : Pool.Kept (Preserves s) (⟨[], s⟩ : Pool Fs FsEffect Exn) :=
    ⟨.refl s, fun p hp => absurd hp List.not_mem_nil⟩
  have hanswers : reader.Answers (Preserves s) a := by
    refine (hw.answers he hx).mono fun t ht q hq => ?_
    obtain ⟨hfixed, hsome⟩ := hA q hq
    exact ht.sees hfixed hsome
  obtain ⟨_, hp⟩ := hr.answers (fun p a hp => hp.steady) hnobody hanswers
  refine ⟨fun e he => ?_, fun a' he => ?_⟩
  · rw [he] at hp
    exact hp
  · rw [he] at hp
    exact hp

/-- A version that verified at a moment at which no operation was running is loaded, verified and
read from then on as it was, at whatever points of the work of others the readers get to look. -/
theorem concurrent_readers_agree (hl : Listed s v)
    (hverify : ((VerifyEngine.verify env v).exec s).1 = .ok ()) :
    Agrees env (VerifyEngine.verify env v) s () ∧
      ∃ m, Agrees env (load v) s m ∧ ∀ file ∈ m.files, ∀ data,
        ((RestoreEngine.readFile env file).exec s).1 = .ok data →
          Agrees env (RestoreEngine.readFile env file) s data := by
  obtain ⟨m, hload, _⟩ := VerifyEngine.verify_iff.mp hverify
  have hA : ∀ q, Readable s v q → Fixed s q ∧ (s.leaf? q).isSome := fun q hq =>
    fixed_of_readable hl hverify hq
  have hfirst : (load v).Within (Sees (Readable s v)) s := within_load (.inl rfl) (.inr (.inl rfl))
  refine ⟨?_, m, ?_, fun file hf data hdata => ?_⟩
  · refine agrees_of_within ?_ VerifyEngine.emits_verify hverify hA
    simp only [VerifyEngine.verify, Prog.bind_eq]
    refine hfirst.bind fun m' t hm => ?_
    obtain ⟨rfl, _⟩ := load_wellFormed hm
    exact within_verifyFiles fun file hf => readable_of_loaded hm hf
  · exact agrees_of_within hfirst emits_load (congrArg Prod.fst hload) hA
  · exact agrees_of_within (RestoreEngine.within_readFile (readable_of_loaded hload hf))
      RestoreEngine.emits_readFile hdata hA

theorem letters_are_read_beside :
    Agrees (lettersEnv (2 ^ 32)) (VerifyEngine.verify (lettersEnv (2 ^ 32)) 1) lettersRepo () := by
  have hlisted : Listed lettersRepo 1 := by decide +kernel
  have hfiles : ((VerifyEngine.verifyFiles (lettersEnv (2 ^ 32)) lettersManifest.files).exec
      lettersRepo).1 = .ok () := by decide +kernel
  exact (concurrent_readers_agree hlisted (verify_letters hfiles)).1

end Readers

end Dpc
