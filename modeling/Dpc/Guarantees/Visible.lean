import Dpc.Guarantees.History
import Dpc.Guarantees.Sources

namespace Dpc
open Text FileTree Effects ManifestStore ObjectStore BackupEngine

variable {env : Env} {s t u a b : Fs} {op : Operation} {i : FsEffect} {is : List FsEffect}
  {log log' : List Event} {v : UInt64} {m : Manifest}

theorem not_draftPath_commit (v w : UInt64) : ¬DraftPath v (commitPath w) := by
  intro h
  rcases h with h | h
  · exact tmp_ne_commit v w h.symm
  · exact commit_ne_wal w h

theorem kept_of_named {v : UInt64} (h : Frame (NamedPath v) s a) : Kept s a := by
  refine .of_frame h fun q hq hn => ?_
  rcases hn with (rfl | rfl) | rfl
  · exact not_inObjects_tmp v hq
  · exact not_inObjects_walPath hq
  · exact not_inObjects_manifest v hq

/-- Publishing a manifest whose objects are all there is allowed to the operation that
built it. -/
theorem publish_allowed {start : Fs} (hbuilds : op.builds env start = some m)
    (hfresh : ¬Listed u m.version) (hpresent : Present u m) :
    PublishEffects m u fun i a _ => Allowed env op start a i where
  dir := Allowed.scratch_effects.dir
  wal := Allowed.scratch_effects.wal
  checkpoint := Allowed.scratch_effects.checkpoint
  tmp mode a b := Allowed.scratch_effects.replace (.inl rfl) _ mode a b
  rename a b f hframe _ _ := by
    refine .rename fun hl => hfresh ?_
    exact (listed_of_frame hframe (not_draftPath_commit m.version) _).mp hl
  marker data mode a b f hframe hfile hdata := by
    exact .marker hbuilds hfile hdata (hpresent.kept (kept_of_named hframe))

theorem BackupEngine.Built.present {now : UInt64} {source : Source} {mode : ChunkingMode}
    (h : Built env now source mode s u m) : Present u m := by
  obtain ⟨files, _, _, hfiles, _⟩ := h.files
  intro file hf ref hr
  obtain ⟨scanned, _, data, hd⟩ := hfiles.exists_left hf
  obtain ⟨chunk, _, _, hdesc⟩ := hd.chunks.exists_left hr
  obtain ⟨_, hwf⟩ := hdesc.wellFormed
  obtain ⟨f, hleaf, _⟩ := hdesc.file
  refine ⟨pathOf ref.sha256, ?_, Option.isSome_iff_exists.mpr ⟨f, hleaf⟩⟩
  rw [hdesc.path]
  exact absoluteObjectPath_textOf hwf.sha

theorem create_allowed {now : UInt64} {fault : FaultStage} {source : Source}
    {mode : ChunkingMode} :
    Keeps (fun i a _ => Allowed env (.create now fault source mode) s a i) (fun _ _ => True)
      (create env now fault source mode) s := by
  have hG : BackupEffects env fun i a _ => Allowed env (.create now fault source mode) s a i :=
    ⟨Allowed.scratch_effects.dir, fun _ _ _ _ _ hn _ => .object hn, Allowed.scratch_effects.wal⟩
  have hbuild : Keeps _ _ (BackupEngine.buildManifest env now fault source mode) s :=
    buildManifest_keeps hG
  simp only [create, Prog.bind_eq]
  refine Keeps.bind hbuild.with_exec fun p u h => ?_
  obtain ⟨⟨hb, _⟩, hx⟩ := h
  have hbuilds : (Operation.create now fault source mode).builds env s = some p.manifest := by
    simp only [Operation.builds, hx]
  have hfresh : ¬Listed u p.manifest.version := by
    rw [listed_congr (hb.frame _ (not_backupPath_commit _))]
    exact hb.next.fresh
  have hpub : Keeps _ _ (publish env fault p.manifest) u :=
    publish_keeps (publish_allowed hbuilds hfresh hb.present)
  exact Keeps.bind hpub fun _ _ _ => trivial

theorem commit_allowed {now : UInt64} {packet : Packet} (hs : Sound env log s)
    (htype : packet.type = .commitSession) :
    BackupServer.CommitEffects env now packet s
      fun i a _ => Allowed env (.handle now packet) s a i where
  dir := Allowed.scratch_effects.dir
  wal := Allowed.scratch_effects.wal
  mark _ _ _ _ _ _ := .committed
  publish u sessionId rs m hg hx := by
    have hbuilds : (Operation.handle now packet).builds env s = some m := by
      simp only [Operation.builds, htype, if_true, hx]
    have hfresh : ¬Listed u m.version := by
      rw [listed_congr (hg.frame _ (commit_ne_wal _))]
      exact hg.next.fresh
    refine publish_allowed hbuilds hfresh fun file hf ref hr => ?_
    rw [hg.manifest] at hf
    obtain ⟨r, hmem, rfl⟩ := SessionIndex.recorded_of_mem_chunks hf hr
    obtain ⟨lines, hlines, hbacked⟩ := hs.sessions sessionId
    rw [hg.recorded.unique hlines.recorded] at hmem
    have hkept : Kept s u := .of_frame hg.frame fun q hq he => not_inObjects_walPath (he ▸ hq)
    obtain ⟨hsha, hpath, hsome⟩ := (hbacked r hmem).kept hkept
    refine ⟨pathOf r.sha256, ?_, hsome⟩
    simp only [SessionIndex.refOf, hpath]
    exact absoluteObjectPath_textOf hsha

theorem put_allowed {now : UInt64} {packet : Packet} :
    BackupServer.PutEffects fun i a _ => Allowed env (.handle now packet) s a i where
  dir := Allowed.scratch_effects.dir
  object _ _ _ _ _ _ hn := .object hn
  record _ _ _ _ _ _ hw hsha hpath hobject := .record hw hsha hpath hobject

/-- Every effect of an operation that starts in a sound state is allowed. -/
theorem Operation.allowed (op : Operation) (hs : Sound env log s) :
    Keeps (fun i a _ => Allowed env op s a i) (fun _ _ => True) (op.prog env) s := by
  cases op with
  | create now fault source mode => exact Keeps.bind create_allowed fun _ _ _ => trivial
  | handle now packet =>
    have hk : Keeps _ _ (BackupServer.handlePacket env now packet) s :=
      BackupServer.handlePacket_keeps put_allowed (commit_allowed hs)
    exact Keeps.bind hk fun _ _ _ => trivial
  | recover =>
    exact Keeps.bind (RecoveryManager.recover_keeps Allowed.scratch_effects) fun _ _ _ => trivial
  | checkpoint =>
    exact Keeps.bind (checkpoint_keeps Allowed.scratch_effects) fun _ _ _ => trivial
  | compact => exact MetadataCompactor.compact_keeps Allowed.scratch_effects

theorem Sound.started (h : Sound env log s) (op : Operation) :
    Sound env (log ++ [⟨op, s, []⟩]) s where
  nameMax := h.nameMax
  dir := h.dir
  parses := h.parses
  versions v hl := by
    obtain ⟨e, he, hrest⟩ := h.versions v hl
    exact ⟨e, List.mem_append_left _ he, hrest⟩
  sessions := h.sessions

/-- Wherever an operation is stopped, the state is sound. -/
theorem Sound.cut (h : Sound env log s) (hc : Prog.Cut (op.prog env) s is t) :
    Sound env (log ++ [⟨op, s, is⟩]) t := by
  have hrun : ∀ done, Sound env (log ++ [⟨op, s, done⟩]) s →
      Sound env (log ++ [⟨op, s, done ++ is⟩]) t := by
    refine SafeAlone.cut (I := fun is a b => ∀ done, Sound env (log ++ [⟨op, s, done⟩]) a →
      Sound env (log ++ [⟨op, s, done ++ is⟩]) b) (op.allowed h) hc ?_ ?_
    · intro a done ha
      rwa [List.append_nil]
    · intro i is a m b happly hallowed hrest done ha
      have hstep := hrest (done ++ [i]) (ha.step hallowed happly)
      rwa [List.append_assoc, List.singleton_append] at hstep
  exact hrun [] (h.started op)

theorem Steps.sound (h : Steps env emptyRepo log t) : Sound env log t := by
  induction h with
  | nil => exact sound_empty
  | snoc _ hc ih => exact ih.cut hc

/-- What is listed stays listed, with the manifest that it has. -/
def Stays (s t : Fs) : Prop :=
  ∀ v, Listed s v → Listed t v ∧ t.leaf? (manifestPath v) = s.leaf? (manifestPath v)

theorem Stays.trans (h : Stays s t) (h' : Stays t u) : Stays s u := by
  intro v hl
  obtain ⟨hl1, hm1⟩ := h v hl
  obtain ⟨hl2, hm2⟩ := h' v hl1
  exact ⟨hl2, hm2.trans hm1⟩

theorem Sound.stays_cut (h : Sound env log s) (hc : Prog.Cut (op.prog env) s is t) :
    Stays s t := by
  refine SafeAlone.cut (I := fun _ a b => Stays a b) (op.allowed h) hc ?_ ?_
  · exact fun a v hl => ⟨hl, rfl⟩
  · intro i is a m b happly hallowed hrest
    exact Stays.trans (fun v hl => hallowed.stays happly hl) hrest

/-- Without a marker nothing new is listed. -/
theorem Sound.adds_cut (h : Sound env log s) (hc : Prog.Cut (op.prog env) s is t)
    (hn : ∀ v, ¬Event.Marks ⟨op, s, is⟩ v) (v : UInt64) (hl : Listed t v) : Listed s v := by
  have hrun : Listed t v → Listed s v ∨ ∃ data mode, .replace (commitPath v) data mode ∈ is := by
    refine SafeAlone.cut (I := fun is a b => Listed b v → Listed a v ∨ ∃ data mode,
      .replace (commitPath v) data mode ∈ is) (op.allowed h) hc ?_ ?_
    · exact fun a hl => .inl hl
    · intro i is a m b happly hallowed hrest hl
      rcases hrest hl with hm | ⟨data, mode, hin⟩
      · rcases hallowed.adds happly hm with ha | ⟨data, mode, rfl⟩
        · exact .inl ha
        · exact .inr ⟨data, mode, List.mem_cons_self⟩
      · exact .inr ⟨data, mode, List.mem_cons_of_mem _ hin⟩
  rcases hrun hl with hs | hin
  · exact hs
  · exact absurd hin (hn v)

theorem Steps.stays (h : Steps env emptyRepo log s) (h' : Steps env s log' t) : Stays s t := by
  induction h' with
  | nil => exact fun v hl => ⟨hl, rfl⟩
  | snoc hprev hc ih => exact ih.trans ((h.append hprev).sound.stays_cut hc)

theorem Steps.adds (h : Steps env emptyRepo log s) (h' : Steps env s log' t)
    (hn : ∀ e ∈ log', ∀ v, ¬e.Marks v) (v : UInt64) (hl : Listed t v) : Listed s v := by
  induction h' with
  | nil => exact hl
  | snoc hprev hc ih =>
    have hlast := (h.append hprev).sound.adds_cut hc (hn _ (by simp)) v hl
    exact ih (fun e he => hn e (by simp [he])) hlast

/-- In a sound state the list of versions is made. -/
theorem Sound.lists (h : Sound env log t) : ∃ vs, listCommittedVersions.exec t = (.ok vs, t) := by
  cases hd : t.get? manifestsDir with
  | none =>
    have hstatus : t.status manifestsDir = .ok none := by
      have hblocked : t.blocked manifestsDir = false := by
        simp [Tree.blocked, manifestsDir, List.inits, h.nameMax, badName]
        decide
      simp [Tree.status, hblocked, hd]
    refine ⟨[], ?_⟩
    simp [listCommittedVersions, FileUtils.pathExists, Prog.exec_bind, hstatus]
  | some node =>
    cases node with
    | dir => exact listCommittedVersions_succeeds hd h.parses
    | leaf f =>
      have hdir := h.dir
      rw [Tree.leaf?_eq_some.mpr hd] at hdir
      contradiction

theorem Sound.inList_iff (h : Sound env log t) : InList t v ↔ Listed t v :=
  ⟨InList.listed, InList.of_listed h.parses⟩

/-- In every state that a history reaches the list of versions is made, and each version on
it has the manifest that its operation built, with all objects; it stays on the list with
this manifest whatever comes later; and operations that were stopped before their marker
add nothing to the list. -/
theorem visible_versions_survive (h : Steps env emptyRepo log s) (h' : Steps env s log' t) :
    (∃ vs, listCommittedVersions.exec t = (.ok vs, t) ∧
        ∀ v ∈ vs, Origin env (log ++ log') t v) ∧
      (∀ v, InList s v → InList t v ∧ t.leaf? (manifestPath v) = s.leaf? (manifestPath v)) ∧
      ((∀ e ∈ log', ∀ v, ¬e.Marks v) → ∀ v, InList t v → InList s v) := by
  have hs := h.sound
  have ht := (h.append h').sound
  refine ⟨?_, ?_, ?_⟩
  · obtain ⟨vs, hx⟩ := ht.lists
    exact ⟨vs, hx, fun v hv => ht.versions v (((listCommittedVersions_ok hx).2.1 v).mp hv)⟩
  · intro v hl
    obtain ⟨hlist, hmanifest⟩ := h.stays h' v (hs.inList_iff.mp hl)
    exact ⟨ht.inList_iff.mpr hlist, hmanifest⟩
  · intro hn v hl
    exact hs.inList_iff.mpr (h.adds h' hn v (ht.inList_iff.mp hl))

/-- A first backup, and a recovery after it. -/
theorem first_version_survives :
    ∃ is is' s t, Prog.Cut ((Operation.create 1700000000 .none (.ofWorld plainWorld [ascii "data"])
          .fixed).prog letterEnv) emptyRepo is s ∧
      Prog.Cut (Operation.recover.prog letterEnv) s is' t ∧
      InList t 1 ∧ t.leaf? (manifestPath 1) = s.leaf? (manifestPath 1) := by
  obtain ⟨is, hfirst⟩ := Prog.cut_exec ((Operation.create 1700000000 .none
    (.ofWorld plainWorld [ascii "data"]) .fixed).prog letterEnv) emptyRepo
  obtain ⟨is', hsecond⟩ := Prog.cut_exec (Operation.recover.prog letterEnv)
    (((Operation.create 1700000000 .none (.ofWorld plainWorld [ascii "data"]) .fixed).prog
      letterEnv).exec emptyRepo).2
  have hx : (listCommittedVersions.exec (((Operation.create 1700000000 .none
      (.ofWorld plainWorld [ascii "data"]) .fixed).prog letterEnv).exec emptyRepo).2).1 =
      .ok [1] := by decide +kernel
  obtain ⟨_, hstays, _⟩ := visible_versions_survive (.snoc .nil hfirst) (.snoc .nil hsecond)
  have hin := Prog.exec_of_fst hx
  rw [exec_listCommittedVersions_snd] at hin
  obtain ⟨hlist, hmanifest⟩ := hstays 1 ⟨[1], hin, by simp⟩
  exact ⟨is, is', _, _, hfirst, hsecond, hlist, hmanifest⟩

end Dpc
