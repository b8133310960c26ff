import Dpc.Core.Emitted
import Dpc.Guarantees.Contained
import Dpc.Guarantees.Garbled
import Dpc.Lib.Learns
import Dpc.Metadata.CheckpointFacts
import Dpc.Network.StatusFacts

/-! What the programs of the repository do to each other: what is there stays there, the log and
the checkpoint say what is so, and session files grow by whole lines. -/

namespace Dpc
open Text FileTree Effects Framing ManifestStore ObjectStore

variable {env : Env} {s t u : Fs} {q : Path} {v : UInt64} {i : FsEffect} {record : WalRecord}

/-- An object, a manifest or a marker. -/
def Lasting (q : Path) : Prop := InObjects q ∨ q.head? = some (ascii "manifests")

/-- Of these files none goes away. -/
def Retains (s t : Fs) : Prop := ∀ q, Lasting q → (s.leaf? q).isSome → (t.leaf? q).isSome

theorem Retains.refl (s : Fs) : Retains s s := fun _ _ h => h

theorem Retains.trans (h : Retains s t) (h' : Retains t u) : Retains s u :=
  fun q hq hs => h' q hq (h q hq hs)

theorem Retains.listed (h : Retains s t) (hl : Listed s v) : Listed t v :=
  ⟨hl.1, h _ (.inr rfl) hl.2⟩

/-- The paths at which an effect leaves nothing. -/
def taken : FsEffect → List Path
  | .rename src _ => [src]
  | .remove p => [p]
  | _ => []

theorem retains_of_apply (ha : Effect.apply i s = .ok t) (hi : ∀ q ∈ taken i, ¬Lasting q) :
    Retains s t := by
  intro q hq hs
  cases i with
  | ensureDirectory p => rwa [(FsEffect.ensureDirectory_ok ha).1.leaf?]
  | replace p data mode =>
    rw [(FsEffect.replace_ok ha).leaf?]
    split
    · rfl
    · exact hs
  | append p data mode e =>
    rw [(FsEffect.append_ok ha).leaf?]
    split
    · rfl
    · exact hs
  | chmod p mode =>
    obtain ⟨f, _, hput⟩ := FsEffect.chmod_ok ha
    rw [hput.leaf?]
    split
    · rfl
    · exact hs
  | rename src dst =>
    by_cases hne : src = dst
    · subst hne
      rwa [FsEffect.rename_self ha]
    · obtain ⟨f, hf, _, _, hget⟩ := FsEffect.rename_ok hne ha
      have hsrc : q ≠ src := fun he => hi src (List.mem_singleton_self _) (he ▸ hq)
      by_cases hdst : q = dst
      · rw [Tree.leaf?_eq_some.mpr (by rw [hget, if_neg hsrc, if_pos hdst])]
        rfl
      · rwa [FsEffect.leaf?_of_get? (s := s) (by rw [hget, if_neg hsrc, if_neg hdst])]
  | remove p =>
    obtain ⟨_, _, hget⟩ := FsEffect.remove_ok ha
    have hne : q ≠ p := fun he => hi p (List.mem_singleton_self _) (he ▸ hq)
    rwa [FsEffect.leaf?_of_get? (s := s) (by rw [hget, if_neg hne])]

/-- What a record says is so. -/
def Says (t : Fs) (record : WalRecord) : Prop :=
  match record.type with
  | .beginBackup => ∃ v, record.payload = BackupEngine.versionPayload v ∨
      record.payload = ascii "network-version=" ++ number v ++ [newline]
  | .writeManifest => ∃ v, record.payload = BackupEngine.versionPayload v
  | .putObject => ∃ sha, Hash.isSha256Hex sha = true ∧
      record.payload = sha ++ [space] ++ textOf sha ++ [newline] ∧ (t.leaf? (pathOf sha)).isSome
  | .renameManifest => ∃ v, record.payload = BackupEngine.versionPayload v ∧
      (t.leaf? (manifestPath v)).isSome
  | .commitBackup => ∃ v, record.payload = BackupEngine.versionPayload v ∧
      (t.leaf? (manifestPath v)).isSome ∧ (t.leaf? (commitPath v)).isSome
  | .checkpoint => ∃ vs, record.payload = MetadataCompactor.payload vs ∧ ∀ v ∈ vs, Listed t v
  | .compact => record.payload = ascii "compact"

theorem Says.retains (hg : Retains s t) (h : Says s record) : Says t record := by
  obtain ⟨type, payload⟩ := record
  have hmanifest : ∀ v, (s.leaf? (manifestPath v)).isSome → (t.leaf? (manifestPath v)).isSome :=
    fun v => hg _ (.inr rfl)
  cases type with
  | beginBackup => exact h
  | writeManifest => exact h
  | putObject =>
    obtain ⟨sha, hsha, hp, hobject⟩ := h
    exact ⟨sha, hsha, hp, hg _ (.inl (inObjects_pathOf sha)) hobject⟩
  | renameManifest =>
    obtain ⟨v, hp, hm⟩ := h
    exact ⟨v, hp, hmanifest v hm⟩
  | commitBackup =>
    obtain ⟨v, hp, hm, hc⟩ := h
    exact ⟨v, hp, hmanifest v hm, hg _ (.inr rfl) hc⟩
  | checkpoint =>
    obtain ⟨vs, hp, hl⟩ := h
    exact ⟨vs, hp, fun v hv => hg.listed (hl v hv)⟩
  | compact => exact h

/-- The log reads as records, and all that they say is so; a checkpoint names listed versions. -/
structure Truthful (t : Fs) : Prop where
  log : ∃ records, Written WalLog.code records (WalLog.logOf t) ∧ ∀ record ∈ records, Says t record
  checkpoint : ∀ f, t.leaf? Checkpoint.path = some f →
    ∃ vs, f.data = Checkpoint.text (Checkpoint.ofVersions vs) ∧ ∀ v ∈ vs, Listed t v

theorem Backed.retains {r : ReceivedChunkRecord} (h : Backed s r) (hg : Retains s t) : Backed t r :=
  ⟨h.1, h.2.1, hg _ (.inl (inObjects_pathOf _)) h.2.2⟩

/-- A session file goes on with whole lines, and the object of each new record is there. -/
def GoesOn (s t : Fs) (sessionId : Bytes) : Prop :=
  ∃ more : List SessionIndex.Line,
    SessionIndex.textOf t sessionId =
      SessionIndex.textOf s sessionId ++ more.flatMap SessionIndex.Line.text ∧
    ∀ r ∈ more.filterMap SessionIndex.Line.record?, SessionIndex.Writable r ∧ Backed t r

/-- A move of anybody: nothing goes away that the log or a checkpoint may name, both stay truthful,
and session files go on. -/
structure Moves (s t : Fs) : Prop where
  retains : Retains s t
  truthful : Truthful s → Truthful t
  sessions : ∀ sessionId, GoesOn s t sessionId

theorem goesOn_of_same {sessionId : Bytes}
    (h : t.leaf? (SessionIndex.path sessionId) = s.leaf? (SessionIndex.path sessionId)) :
    GoesOn s t sessionId :=
  ⟨[], by rw [SessionIndex.textOf_congr h, List.flatMap_nil, List.append_nil],
    fun _ hr => absurd hr List.not_mem_nil⟩

theorem Moves.refl (s : Fs) : Moves s s := ⟨.refl s, id, fun _ => goesOn_of_same rfl⟩

theorem Moves.trans (h : Moves s t) (h' : Moves t u) : Moves s u where
  retains := h.retains.trans h'.retains
  truthful hs := h'.truthful (h.truthful hs)
  sessions sessionId := by
    obtain ⟨more, htext, hmore⟩ := h.sessions sessionId
    obtain ⟨more', htext', hmore'⟩ := h'.sessions sessionId
    refine ⟨more ++ more', ?_, fun r hr => ?_⟩
    · rw [htext', htext, List.flatMap_append, List.append_assoc]
    · rw [List.filterMap_append] at hr
      rcases List.mem_append.mp hr with hr | hr
      · exact ⟨(hmore r hr).1, (hmore r hr).2.retains h'.retains⟩
      · exact hmore' r hr

theorem Truthful.log_of_same (hs : Truthful s) (hg : Retains s t)
    (hlog : t.leaf? WalLog.walPath = s.leaf? WalLog.walPath) :
    ∃ records, Written WalLog.code records (WalLog.logOf t) ∧ ∀ record ∈ records, Says t record := by
  obtain ⟨records, hwritten, hso⟩ := hs.log
  refine ⟨records, ?_, fun record hr => (hso record hr).retains hg⟩
  rwa [WalLog.logOf, hlog]

theorem Truthful.checkpoint_of_same (hs : Truthful s) (hg : Retains s t)
    (hfile : t.leaf? Checkpoint.path = s.leaf? Checkpoint.path) (f : File)
    (hf : t.leaf? Checkpoint.path = some f) :
    ∃ vs, f.data = Checkpoint.text (Checkpoint.ofVersions vs) ∧ ∀ v ∈ vs, Listed t v := by
  obtain ⟨vs, hdata, hvs⟩ := hs.checkpoint f (hfile ▸ hf)
  exact ⟨vs, hdata, fun v hv => hg.listed (hvs v hv)⟩

/-- A session file is whole lines, and the object of each record is there. -/
def SessionsBacked (t : Fs) : Prop :=
  ∀ sessionId, ∃ lines, SessionIndex.Lines t sessionId lines ∧
    ∀ r ∈ lines.filterMap SessionIndex.Line.record?, Backed t r

/-- A session has a record of a chunk with this index and this hash, and its object is there. -/
def Heard (t : Fs) (sessionId : Bytes) (index : UInt64) (sha : Bytes) : Prop :=
  ∃ lines, SessionIndex.Lines t sessionId lines ∧
    ∃ r ∈ lines.filterMap SessionIndex.Line.record?,
      r.globalIndex = index ∧ r.sha256 = sha ∧ Backed t r

theorem GoesOn.lines {sessionId : Bytes} {lines : List SessionIndex.Line} (h : GoesOn s t sessionId)
    (hl : SessionIndex.Lines s sessionId lines) :
    ∃ more, SessionIndex.Lines t sessionId (lines ++ more) ∧
      ∀ r ∈ more.filterMap SessionIndex.Line.record?, Backed t r := by
  obtain ⟨more, htext, hmore⟩ := h
  refine ⟨more, ⟨by rw [htext, hl.text, List.flatMap_append], fun r hr => ?_⟩,
    fun r hr => (hmore r hr).2⟩
  rw [List.filterMap_append] at hr
  rcases List.mem_append.mp hr with hr | hr
  · exact hl.writable r hr
  · exact (hmore r hr).1

theorem SessionsBacked.moves (hs : SessionsBacked s) (h : Moves s t) : SessionsBacked t := by
  intro sessionId
  obtain ⟨lines, hlines, hbacked⟩ := hs sessionId
  obtain ⟨more, hall, hmore⟩ := (h.sessions sessionId).lines hlines
  refine ⟨lines ++ more, hall, fun r hr => ?_⟩
  rw [List.filterMap_append] at hr
  rcases List.mem_append.mp hr with hr | hr
  · exact (hbacked r hr).retains h.retains
  · exact hmore r hr

theorem Heard.moves {sessionId sha : Bytes} {index : UInt64} (hs : Heard s sessionId index sha)
    (h : Moves s t) : Heard t sessionId index sha := by
  obtain ⟨lines, hlines, r, hr, hindex, hsha, hbacked⟩ := hs
  obtain ⟨more, hall, _⟩ := (h.sessions sessionId).lines hlines
  refine ⟨_, hall, r, ?_, hindex, hsha, hbacked.retains h.retains⟩
  rw [List.filterMap_append]
  exact List.mem_append_left _ hr

theorem heard_of_recorded {sessionId : Bytes} {rs : List ReceivedChunkRecord}
    {r : ReceivedChunkRecord} (hs : SessionsBacked s) (hrs : SessionIndex.Recorded s sessionId rs)
    (hr : r ∈ rs) : Heard s sessionId r.globalIndex r.sha256 := by
  obtain ⟨lines, hlines, hbacked⟩ := hs sessionId
  cases hrs.unique hlines.recorded
  exact ⟨lines, hlines, r, hr, rfl, rfl, hbacked r hr⟩

/-- The log, the checkpoint and the session files are left alone, and so is what they may name. -/
structure Silent (i : FsEffect) : Prop where
  wal : WalLog.walPath ∉ i.touches
  checkpoint : Checkpoint.path ∉ i.touches
  session : ∀ sessionId, SessionIndex.path sessionId ∉ i.touches
  taken : ∀ q ∈ taken i, ¬Lasting q

theorem Silent.moves (h : Silent i) (ha : Effect.apply i s = .ok t) : Moves s t := by
  have hretains := retains_of_apply ha h.taken
  refine ⟨hretains, fun hs => ⟨hs.log_of_same hretains (FsEffect.apply_frame ha h.wal), ?_⟩, ?_⟩
  · exact hs.checkpoint_of_same hretains (FsEffect.apply_frame ha h.checkpoint)
  · exact fun sessionId => goesOn_of_same (FsEffect.apply_frame ha (h.session sessionId))

theorem learns_silent {α : Type} {p : Op α} (h : p.Emits Silent) :
    Learns Moves (fun _ _ => True) p s :=
  .of_emits (fun _ _ _ hi ha => hi.moves ha) h

variable {type : WalRecordType} {payload : Bytes}

theorem silent_dir (p : Path) : Silent (.ensureDirectory p) :=
  ⟨List.not_mem_nil, List.not_mem_nil, fun _ => List.not_mem_nil,
    fun _ hq => absurd hq List.not_mem_nil⟩

/-- A file that is neither the log, nor the checkpoint, nor that of a session. -/
structure Mute (p : Path) : Prop where
  wal : p ≠ WalLog.walPath
  checkpoint : p ≠ Checkpoint.path
  session : ∀ sessionId, p ≠ SessionIndex.path sessionId

theorem Mute.silent (hi : ∀ p ∈ i.touches, Mute p) (htaken : ∀ q ∈ taken i, ¬Lasting q) :
    Silent i where
  wal h := (hi _ h).wal rfl
  checkpoint h := (hi _ h).checkpoint rfl
  session sessionId h := (hi _ h).session sessionId rfl
  taken := htaken

theorem silent_replace {p : Path} (hp : Mute p) (data : Bytes) (mode : UInt32) :
    Silent (.replace p data mode) := by
  refine Mute.silent (fun q hq => ?_) fun _ hq => absurd hq List.not_mem_nil
  rwa [List.mem_singleton.mp hq]

theorem mute_of_head {p : Path} (hp : p.head? ≠ some (ascii "metadata")) : Mute p :=
  ⟨fun h => hp (h ▸ rfl), fun h => hp (h ▸ rfl), fun _ h => hp (h ▸ rfl)⟩

theorem mute_tmp : Mute (tmpManifestPath v) :=
  mute_of_head (show some (ascii "tmp") ≠ some (ascii "metadata") by decide)

theorem mute_manifests {p : Path} (hp : p.head? = some (ascii "manifests")) : Mute p :=
  mute_of_head (by rw [hp]; decide)

theorem mute_object {p : Path} (hp : InObjects p) : Mute p :=
  mute_of_head fun h => absurd (hp.symm.trans h) (by decide)

/-- The log and the checkpoint are no session files. -/
theorem sessions_of_touches {p : Path} (hp : p = WalLog.walPath ∨ p = Checkpoint.path)
    (hi : i.touches = [p]) (ha : Effect.apply i s = .ok t) (sessionId : Bytes) :
    GoesOn s t sessionId := by
  refine goesOn_of_same (FsEffect.apply_frame ha fun hm => ?_)
  rw [hi, List.mem_singleton] at hm
  rcases hp with rfl | rfl
  · exact SessionIndex.path_ne_wal sessionId hm
  · exact SessionIndex.path_ne_checkpoint sessionId hm

theorem logOf_appended {data : Bytes} {mode : UInt32} {e : Exn}
    (ha : Effect.apply (FsEffect.append WalLog.walPath data mode e) s = .ok t) :
    WalLog.logOf t = WalLog.logOf s ++ data := by
  have hput := (FsEffect.append_ok ha).leaf? WalLog.walPath
  rw [if_pos rfl] at hput
  rw [WalLog.logOf_some hput, WalLog.logOf]
  cases s.leaf? WalLog.walPath with
  | none => rfl
  | some f => rfl

/-- A record is appended that says what is so from now on. -/
theorem learns_append (hso : ∀ t, Moves s t → Says t ⟨type, payload⟩) :
    Learns Moves (fun _ _ => True) (WalLog.append env type payload) s := by
  simp only [WalLog.append, Prog.bind_eq]
  refine Learns.bind ((learns_silent (emits_ensureDirectory (silent_dir _))).keep (F := Moves s)
    (fun _ _ hm hs => hs.trans hm) (.refl s)) fun _ a ha => ?_
  refine Learns.bind_ofExcept fun encoded hencoded => Learns.perform fun m t hm ht => ⟨?_, trivial⟩
  have hretains : Retains m t := retains_of_apply ht fun _ hq => absurd hq List.not_mem_nil
  have hfile : t.leaf? Checkpoint.path = m.leaf? Checkpoint.path :=
    FsEffect.apply_frame ht fun h => absurd (List.mem_singleton.mp h) (by decide)
  refine ⟨hretains, fun hs => ⟨?_, hs.checkpoint_of_same hretains hfile⟩,
    sessions_of_touches (.inl rfl) rfl ht⟩
  obtain ⟨records, hwritten, hall⟩ := hs.log
  refine ⟨records ++ [⟨type, payload⟩], ?_, fun record hr => ?_⟩
  · rw [logOf_appended ht]
    exact hwritten.append (written_cons.mpr ⟨encoded, [], hencoded, written_nil.mpr rfl,
      (List.append_nil _).symm⟩)
  · rcases List.mem_append.mp hr with hr | hr
    · exact (hall record hr).retains hretains
    · rw [List.mem_singleton.mp hr]
      exact (hso m (ha.2.trans hm)).retains hretains

theorem Moves.isSome (h : Moves s t) (hq : Lasting q) (hs : (s.leaf? q).isSome) :
    (t.leaf? q).isSome :=
  h.retains q hq hs

theorem not_lasting_tmp : ¬Lasting (tmpManifestPath v) := by
  rintro (h | h)
  · exact not_inObjects_tmp v h
  · exact absurd h (show some (ascii "tmp") ≠ some (ascii "manifests") by decide)

/-- The manifest of a version is there, and its marker. -/
def OnDisk (t : Fs) (v : UInt64) : Prop :=
  (t.leaf? (manifestPath v)).isSome ∧ (t.leaf? (commitPath v)).isSome

theorem OnDisk.moves (hs : OnDisk s v) (h : Moves s t) : OnDisk t v :=
  ⟨h.isSome (.inr rfl) hs.1, h.isSome (.inr rfl) hs.2⟩

/-- A file that was put is there. -/
theorem learns_writeFileAtomic {umask mode : UInt32} {data : Bytes} (hp : Mute q) :
    Learns Moves (fun _ t => (t.leaf? q).isSome) (FileUtils.writeFileAtomic umask q data mode) s := by
  simp only [FileUtils.writeFileAtomic, Prog.bind_eq]
  refine Learns.bind (learns_silent (emits_ensureDirectory (silent_dir _))) fun _ a _ => ?_
  refine Learns.perform fun m t _ ht => ⟨(silent_replace hp data _).moves ht, ?_⟩
  rw [(FsEffect.replace_ok ht).leaf?, if_pos rfl]
  rfl

/-- An object that was read was there. -/
theorem learns_readRaw {sha : Bytes} (hsha : Hash.isSha256Hex sha = true) :
    Learns Moves (fun _ t => (t.leaf? (pathOf sha)).isSome) (readRaw env sha (textOf sha)) s := by
  simp only [readRaw, Prog.bind_eq, objectPathForHash_of hsha]
  refine Learns.bind_ofExcept fun expected he => ?_
  cases he
  rw [if_neg (not_not.mpr rfl), absoluteObjectPath_textOf hsha]
  refine Learns.bind_ofExcept fun abs habs => ?_
  cases habs
  refine Learns.bind (Learns.query fun _ _ _ _ => trivial) fun there a _ => ?_
  split
  · have hread : Learns Moves (fun _ t => (t.leaf? (pathOf sha)).isSome)
        (FileUtils.readFile (pathOf sha)) a := by
      refine Learns.query fun t data _ hdata => ?_
      have hx : (FileUtils.readFile (pathOf sha)).exec t = (.ok data, t) := by
        simp only [FileUtils.readFile, Prog.exec_query, hdata]
      obtain ⟨_, f, hf, _⟩ := FileUtils.exec_readFile_ok hx
      rw [hf]
      rfl
    refine hread.bind fun compressed b hb => Learns.bind_ofExcept fun raw _ => ?_
    split
    · trivial
    · exact hb
  · trivial

theorem learns_putCompressed {sha compressed : Bytes} {rawSize : UInt64} :
    Learns Moves (fun put t => Hash.isSha256Hex sha = true ∧ put.sha256 = sha ∧
      put.objectPath = textOf sha ∧ (t.leaf? (pathOf sha)).isSome)
      (putCompressed env sha compressed rawSize) s := by
  have hstays : ∀ a b, Moves a b → (a.leaf? (pathOf sha)).isSome → (b.leaf? (pathOf sha)).isSome :=
    fun _ _ hm => hm.isSome (.inl (inObjects_pathOf sha))
  simp only [putCompressed, Prog.bind_eq]
  refine Learns.bind (learns_silent (emits_ensureLayout silent_dir)) fun _ a _ => ?_
  refine Learns.bind_ofExcept fun _ hs => ?_
  have hsha := Hash.requireSha256Hex_ok hs
  rw [objectPathForHash_of hsha]
  refine Learns.bind_ofExcept fun rel hrel => ?_
  cases hrel
  rw [absoluteObjectPath_textOf hsha]
  refine Learns.bind_ofExcept fun abs habs => ?_
  cases habs
  refine Learns.bind (Learns.query fun _ _ _ _ => trivial) fun there b _ => ?_
  split
  · refine Learns.bind (learns_readRaw hsha) fun raw c hc => ?_
    split
    · trivial
    · refine Learns.bind (Learns.keep hstays (learns_silent Prog.emits_query) hc) fun n d hd => ?_
      exact ⟨hsha, rfl, rfl, hd.2⟩
  · exact Learns.bind (learns_writeFileAtomic (mute_object (inObjects_pathOf sha)))
      fun _ c hc => ⟨hsha, rfl, rfl, hc⟩

/-- The versions that are listed stay listed. -/
theorem learns_list : Learns Moves (fun vs t => ∀ v ∈ vs, Listed t v) listCommittedVersions s := by
  simp only [listCommittedVersions, Prog.bind_eq]
  refine Learns.bind (Learns.query fun _ _ _ _ => trivial) fun there a _ => ?_
  split
  · have hnames : Learns Moves (fun names t => ∀ n ∈ names, (t.leaf? (manifestsDir ++ [n])).isSome)
        (FileUtils.regularFiles manifestsDir) a := by
      refine Learns.query fun t names _ ht => ?_
      split at ht
      · cases ht
        exact fun n hn => Option.isSome_iff_exists.mpr (Tree.mem_leafNames.mp hn)
      · contradiction
    refine hnames.bind fun names b hb => Learns.bind_ofExcept fun vs hvs => fun v hv => ?_
    obtain ⟨hlt, hname⟩ := (mem_markerNumbers hvs).mp ((List.mem_insertionSort _).mp hv)
    exact ⟨hlt, hb _ hname⟩
  · exact fun _ hv => absurd hv List.not_mem_nil

theorem learns_rename : Learns Moves (fun _ t => (t.leaf? (manifestPath v)).isSome)
    (renameTmpToManifest v) s := by
  simp only [renameTmpToManifest, Prog.bind_eq]
  refine Learns.bind (learns_silent (emits_ensureDirectory (silent_dir _))) fun _ a _ => ?_
  have hsilent : Silent (.rename (tmpManifestPath v) (manifestPath v)) := by
    refine Mute.silent (fun p hp => ?_) fun q hq => ?_
    · rcases List.mem_pair.mp hp with rfl | rfl
      · exact mute_tmp
      · exact mute_manifests rfl
    · rw [List.mem_singleton.mp hq]
      exact not_lasting_tmp
  refine Learns.perform fun m t _ ht => ⟨hsilent.moves ht, ?_⟩
  obtain ⟨f, _, _, _, hget⟩ := FsEffect.rename_ok (tmp_ne_manifest v v) ht
  rw [Tree.leaf?_eq_some.mpr (by rw [hget, if_neg (tmp_ne_manifest v v).symm, if_pos rfl])]
  rfl

theorem learns_trigger {fault stage : FaultStage} :
    Learns Moves (fun _ _ => True) (FaultInjector.trigger fault stage) s :=
  learns_silent emits_trigger

theorem Moves.listed {vs : List UInt64} (h : Moves s t) (hl : ∀ v ∈ vs, Listed s v) :
    ∀ v ∈ vs, Listed t v :=
  fun v hv => h.retains.listed (hl v hv)

/-- A checkpoint names versions that are listed. -/
theorem learns_checkpoint :
    Learns Moves (fun vs t => ∀ v ∈ vs, Listed t v) (writeCheckpoint env) s := by
  simp only [writeCheckpoint, Checkpoint.write, FileUtils.writeTextAtomic, FileUtils.writeFileAtomic,
    Prog.bind_eq]
  refine learns_list.bind fun vs a hvs => ?_
  refine Learns.bind (Q := fun _ t => ∀ v ∈ vs, Listed t v) ?_ fun _ b hb => hb
  refine Learns.bind (Learns.keep (fun _ _ hm => hm.listed)
    (learns_silent (emits_ensureDirectory (silent_dir _))) hvs) fun _ b hb => ?_
  refine Learns.perform fun m t hm ht => ?_
  have hretains : Retains m t := retains_of_apply ht fun _ hq => absurd hq List.not_mem_nil
  have hlisted : ∀ v ∈ vs, Listed t v := fun v hv => hretains.listed (hm.listed hb.2 v hv)
  have hlog : t.leaf? WalLog.walPath = m.leaf? WalLog.walPath :=
    FsEffect.apply_frame ht fun h => absurd (List.mem_singleton.mp h) (by decide)
  refine ⟨⟨hretains, fun hs => ⟨hs.log_of_same hretains hlog, fun f hf => ?_⟩,
    sessions_of_touches (.inr rfl) rfl ht⟩, hlisted⟩
  have hput := (FsEffect.replace_ok ht).leaf? Checkpoint.path
  rw [if_pos rfl] at hput
  cases hf.symm.trans hput
  exact ⟨vs, rfl, hlisted⟩

namespace BackupEngine

variable {now : UInt64} {fault : FaultStage} {mode : ChunkingMode}

/-- The loop over chunks: an object is there before the log says so. -/
theorem learns_putChunks {st : FileProgress env} {chunks : List Chunk} :
    Learns Moves (fun _ _ => True) (putChunks env fault st chunks) s := by
  induction chunks generalizing st s with
  | nil => trivial
  | cons chunk chunks ih =>
    have hone : Learns Moves (fun _ _ => True) (putChunk env fault st chunk) s := by
      simp only [putChunk, putRaw, Prog.bind_eq]
      refine Learns.bind (Learns.bind_ofExcept fun _ _ => learns_putCompressed) fun put a hput => ?_
      obtain ⟨hsha, hname, hpath, hthere⟩ := hput
      refine Learns.bind (learns_append fun t hm => ?_) fun _ _ _ =>
        learns_trigger.bind fun _ _ _ => trivial
      rw [hpath, hname]
      exact ⟨_, hsha, rfl, hm.isSome (.inl (inObjects_pathOf _)) hthere⟩
    exact Learns.bind hone fun _ _ _ => ih

theorem learns_backupFiles {total : Progress} {files : List ScannedFile} :
    Learns Moves (fun _ _ => True) (backupFiles env fault mode total files) s := by
  induction files generalizing total s with
  | nil => trivial
  | cons scanned files ih =>
    have hone : Learns Moves (fun _ _ => True) (backupFile env fault mode total scanned) s := by
      simp only [backupFile, Prog.bind_eq]
      refine Learns.bind_ofExcept fun _ _ => Learns.bind_ofExcept fun _ _ => ?_
      exact Learns.bind_ofExcept fun _ _ => learns_putChunks.bind fun _ _ _ => trivial
    exact Learns.bind hone fun _ _ _ => ih

/-- A manifest is in its place before the log says so, and so is a marker. -/
theorem learns_publish {m : Manifest} :
    Learns Moves (fun _ t => OnDisk t m.version) (publish env fault m) s := by
  have hstays : ∀ a b, Moves a b → (a.leaf? (manifestPath m.version)).isSome →
      (b.leaf? (manifestPath m.version)).isSome := fun _ _ hm => hm.isSome (.inr rfl)
  simp only [publish, Prog.bind_eq]
  refine Learns.bind (learns_silent (emits_writeFileAtomic silent_dir fun _ =>
    silent_replace mute_tmp _ _)) fun _ _ _ => ?_
  refine Learns.bind (learns_append fun _ _ => ⟨m.version, rfl⟩) fun _ _ _ => ?_
  refine learns_trigger.bind fun _ _ _ => learns_rename.bind fun _ a hmanifest => ?_
  refine Learns.bind (Learns.keep hstays (learns_append fun t hm =>
    ⟨m.version, rfl, hstays a t hm hmanifest⟩) hmanifest) fun _ b hb => ?_
  refine Learns.bind (Learns.keep hstays learns_trigger hb.2) fun _ c hc => ?_
  refine Learns.bind (Learns.keep hstays (learns_writeFileAtomic (mute_manifests rfl)) hc.2)
    fun _ d hd => ?_
  have hpublished : OnDisk d m.version := ⟨hd.2, hd.1⟩
  have hkeeps : ∀ a b, Moves a b → OnDisk a m.version → OnDisk b m.version :=
    fun _ _ hm h => h.moves hm
  refine Learns.bind (Learns.keep hkeeps learns_trigger hpublished) fun _ e he => ?_
  refine Learns.bind (Learns.keep hkeeps (learns_append fun t hm =>
    ⟨m.version, rfl, he.2.moves hm⟩) he.2) fun _ f hf => ?_
  exact Learns.bind (Learns.keep hkeeps learns_checkpoint hf.2) fun _ g hg => hg.2

theorem learns_create {source : Source} :
    Learns Moves (fun _ _ => True) (create env now fault source mode) s := by
  have hbuild : Learns Moves (fun _ _ => True) (buildManifest env now fault source mode) s := by
    simp only [buildManifest, Prog.bind_eq]
    refine Learns.bind (learns_silent (emits_ensureLayout silent_dir)) fun _ _ _ => ?_
    refine Learns.bind (learns_silent emits_nextVersion) fun v _ _ => ?_
    refine Learns.bind (learns_append fun _ _ => ⟨v, .inl rfl⟩) fun _ _ _ => ?_
    exact learns_trigger.bind fun _ _ _ => Learns.bind_ofExcept fun _ _ => learns_backupFiles
  simp only [create, Prog.bind_eq]
  exact hbuild.bind fun _ _ _ => learns_publish.bind fun _ _ _ => trivial

end BackupEngine

namespace SessionIndex

variable {sessionId : Bytes} {record : ReceivedChunkRecord}

/-- What is read is what the file holds when it is read. -/
theorem learns_records :
    Learns Moves (fun rs t => Recorded t sessionId rs) (records sessionId) s := by
  simp only [records, Prog.bind_eq]
  have hexists : Learns Moves (fun b t => b = false → textOf t sessionId = [])
      (FileUtils.pathExists (path sessionId)) s := by
    refine Learns.query fun t b _ hb he => ?_
    have hx : (FileUtils.pathExists (path sessionId)).exec t = (.ok b, t) := by
      simp only [FileUtils.pathExists, Prog.exec_query, hb]
    obtain ⟨_, rfl⟩ := FileUtils.exec_pathExists_ok hx
    rw [textOf, Tree.leaf?_eq_none_of_none (by simpa using he)]
    rfl
  refine hexists.bind fun b a hb => ?_
  split
  · have hread : Learns Moves (fun text t => textOf t sessionId = text)
        (FileUtils.readTextFile (path sessionId)) a := by
      refine Learns.query fun t text _ ht => ?_
      split at ht
      · rename_i f hf
        cases ht
        rw [textOf, Tree.leaf?_eq_some.mpr hf]
        rfl
      · contradiction
      · contradiction
    refine hread.bind fun text c hc => Safe.ofExcept (fun rs hrs => ?_) fun _ _ => trivial
    rw [Recorded, hc, hrs]
  · rename_i hfalse
    have hnone := hb (by simpa using hfalse)
    rw [Prog.pure_eq]
    exact show Recorded a sessionId [] by rw [Recorded, hnone]; rfl

theorem learns_received :
    Learns Moves (fun list t => ∃ rs, Recorded t sessionId rs ∧ list = receivedOf rs)
      (received sessionId) s := by
  simp only [received, Prog.bind_eq]
  exact learns_records.bind fun rs a hrs => ⟨rs, hrs, rfl⟩

theorem silent_but_session {data : Bytes} {mode : UInt32} {e : Exn} {other : Bytes}
    (ha : Effect.apply (FsEffect.append (path sessionId) data mode e) s = .ok t)
    (hne : other ≠ sessionId) : GoesOn s t other := by
  refine goesOn_of_same (FsEffect.apply_frame ha fun hm => hne ?_)
  exact path_injective (List.mem_singleton.mp hm)

/-- A line is added, and the object of its record is there. -/
theorem learns_appendLine {line : Line}
    (hline : ∀ t, Moves s t → ∀ r ∈ line.record?, Writable r ∧ Backed t r) :
    Learns Moves (fun _ t => SessionsBacked s → ∀ r ∈ line.record?,
      Heard t sessionId r.globalIndex r.sha256) (appendLine env sessionId line.text) s := by
  simp only [appendLine, Prog.bind_eq]
  refine Learns.bind ((learns_silent (emits_ensureDirectory (silent_dir _))).keep (F := Moves s)
    (fun _ _ hm hs => hs.trans hm) (.refl s)) fun _ a ha => ?_
  refine Learns.perform fun m t hm ht => ?_
  have hretains : Retains m t := retains_of_apply ht fun _ hq => absurd hq List.not_mem_nil
  have hwal : t.leaf? WalLog.walPath = m.leaf? WalLog.walPath :=
    FsEffect.apply_frame ht fun h => path_ne_wal sessionId (List.mem_singleton.mp h).symm
  have hcheckpoint : t.leaf? Checkpoint.path = m.leaf? Checkpoint.path :=
    FsEffect.apply_frame ht fun h => path_ne_checkpoint sessionId (List.mem_singleton.mp h).symm
  have hnew : ∀ r ∈ [line].filterMap Line.record?, Writable r ∧ Backed t r := by
    intro r hr
    have hr' : r ∈ line.record? := by
      cases line with
      | chunk r' => simpa [Line.record?, eq_comm] using hr
      | committed v => cases hr
    obtain ⟨hw, hb⟩ := hline m (ha.2.trans hm) r hr'
    exact ⟨hw, hb.retains hretains⟩
  have htext : textOf t sessionId = textOf m sessionId ++ [line].flatMap Line.text := by
    rw [textOf_append ht, List.flatMap_cons, List.flatMap_nil, List.append_nil]
  have hgoes : GoesOn m t sessionId := ⟨[line], htext, hnew⟩
  have hmoves : Moves m t := by
    refine ⟨hretains, fun hs => ⟨hs.log_of_same hretains hwal,
      hs.checkpoint_of_same hretains hcheckpoint⟩, fun other => ?_⟩
    by_cases he : other = sessionId
    · exact he ▸ hgoes
    · exact silent_but_session ht he
  refine ⟨hmoves, fun hs r hr => ?_⟩
  obtain ⟨lines, hlines, _⟩ := hs.moves (ha.2.trans hm) sessionId
  have hr' : r ∈ [line].filterMap Line.record? := by
    cases line with
    | chunk r' => simpa [Line.record?, eq_comm] using hr
    | committed v => cases hr
  refine ⟨lines ++ [line], ⟨by rw [htext, hlines.text, List.flatMap_append], fun x hx => ?_⟩, r, ?_,
    rfl, rfl, (hnew r hr').2⟩
  · rw [List.filterMap_append] at hx
    rcases List.mem_append.mp hx with hx | hx
    · exact hlines.writable x hx
    · exact (hnew x hx).1
  · rw [List.filterMap_append]
    exact List.mem_append_right _ hr'

/-- A chunk that the session has taken is on record, whether it was before or not. -/
theorem learns_appendChunk (hw : Writable record) (hb : Backed s record) :
    Learns Moves (fun _ t => SessionsBacked s → Heard t sessionId record.globalIndex record.sha256)
      (appendChunk env sessionId record) s := by
  simp only [appendChunk, Prog.bind_eq]
  refine Learns.bind (learns_received.keep (F := Moves s) (fun _ _ hm hs => hs.trans hm) (.refl s))
    fun list a ha => ?_
  obtain ⟨⟨rs, hrs, rfl⟩, hmoves⟩ := ha
  rw [receivedOf, find?_received]
  cases hfound : (byGlobal rs)[record.globalIndex]? with
  | none =>
    have hadd : Learns Moves _ (appendLine env sessionId (Line.chunk record).text) a :=
      learns_appendLine fun t hm r hr => by
        cases hr
        exact ⟨hw, hb.retains (hmoves.trans hm).retains⟩
    exact hadd.post fun _ t ht hs => ht (hs.moves hmoves) record rfl
  | some r =>
    simp only [Option.map_some]
    split
    · trivial
    · rename_i hsha
      obtain ⟨hr, hindex⟩ := mem_of_byGlobal hfound
      exact fun hs => by
        have hheard := heard_of_recorded (hs.moves hmoves) hrs hr
        rwa [hindex, not_not.mp hsha] at hheard

end SessionIndex

namespace BackupServer

variable {now : UInt64} {packet : Packet} {sessionId : Bytes}

/-- What an answer says is so. -/
def Answered (env : Env) (packet : Packet) (reply : Bytes) (t : Fs) : Prop :=
  ∃ answer, PacketCodec.decode reply = .ok answer ∧
    match answer.type with
    | .putChunkAck => ∃ put sha, openPut env packet = .ok (put, sha) ∧
        Heard t put.sessionId packet.chunkIndex sha
    | .commitAck => ∃ v, answer.payload = commitText v ∧ OnDisk t v
    | .sessionStatus => ∃ sessionId received, Queries packet sessionId ∧
        BackupClient.parseStatus answer = .ok received ∧ ∀ e ∈ received, Heard t sessionId e.1 e.2
    | .hello => True
    | .error => True
    | _ => False

theorem learns_putChunk :
    Learns Moves (fun reply t => SessionsBacked s → Answered env packet reply t)
      (putChunk env packet) s := by
  simp only [putChunk, Prog.bind_eq]
  refine Learns.bind_ofExcept fun opened hopen => ?_
  obtain ⟨put, sha⟩ := opened
  obtain ⟨hfile, hpath⟩ := parsePutPayload_ok (openPut_ok hopen).1
  refine Learns.bind (learns_putCompressed.keep (F := Moves s) (fun _ _ hm hs => hs.trans hm)
    (.refl s)) fun stored a ha => ?_
  obtain ⟨⟨hsha, rfl, hobject, hthere⟩, hmoves⟩ := ha
  have hw : SessionIndex.Writable (recordOf packet put stored) := by
    refine ⟨Hash.isWord_of_isSha256Hex hsha, hfile, hpath, ?_⟩
    rw [recordOf, hobject]
    exact ObjectStore.textOf_ne_nil hsha
  have hb : Backed a (recordOf packet put stored) := ⟨hsha, hobject, hthere⟩
  refine Learns.bind (SessionIndex.learns_appendChunk hw hb) fun _ b hheard => ?_
  refine Safe.ofExcept (fun reply hreply hs => ?_) fun _ _ => trivial
  exact ⟨_, decode_sendText hreply, put, stored.sha256, hopen, hheard (hs.moves hmoves)⟩

theorem learns_commitSession :
    Learns Moves (fun reply t => Answered env packet reply t) (commitSession env now packet) s := by
  have hbuild : Learns Moves (fun _ _ => True) (buildManifest env now packet) s := by
    simp only [buildManifest, Prog.bind_eq]
    refine Learns.bind_ofExcept fun opened _ => ?_
    refine Learns.bind (learns_silent emits_nextVersion) fun v _ _ => ?_
    refine Learns.bind (learns_append fun _ _ => ⟨v, .inr rfl⟩) fun _ _ _ => ?_
    exact Learns.bind (learns_silent emits_session_buildManifest) fun _ _ _ => trivial
  simp only [commitSession, Prog.bind_eq]
  refine hbuild.bind fun built _ _ => BackupEngine.learns_publish.bind fun _ a hpublished => ?_
  have hmark : Learns Moves _ (SessionIndex.appendLine env built.1
      (SessionIndex.Line.committed built.2.version).text) a :=
    SessionIndex.learns_appendLine fun _ _ _ hr => by cases hr
  refine Learns.bind (hmark.keep (F := fun t => OnDisk t built.2.version)
    (fun _ _ hm h => h.moves hm) hpublished) fun _ b hb => ?_
  refine Safe.ofExcept (fun reply hreply => ?_) fun _ _ => trivial
  exact ⟨_, decode_sendText hreply, built.2.version, rfl, hb.2⟩

theorem learns_querySession :
    Learns Moves (fun reply t => SessionsBacked s → Answered env packet reply t)
      (querySession packet) s := by
  simp only [querySession, Prog.bind_eq]
  refine Learns.bind_ofExcept fun fields hfields => Learns.bind_ofExcept fun hex hhex => ?_
  refine Learns.bind_ofExcept fun sessionId hsession => ?_
  refine Learns.bind (SessionIndex.learns_received.keep (F := Moves s) (fun _ _ hm hs => hs.trans hm)
    (.refl s)) fun list a ha => ?_
  obtain ⟨⟨rs, hrs, rfl⟩, hmoves⟩ := ha
  refine Safe.ofExcept (fun reply hreply hs => ?_) fun _ _ => trivial
  have hqueries : Queries packet sessionId := ⟨fields, hex, hfields, hhex, hsession⟩
  have hheard : ∀ e ∈ SessionIndex.receivedOf rs, Heard a sessionId e.1 e.2 := by
    intro e he
    obtain ⟨entry, hmem, rfl⟩ := List.mem_map.mp he
    obtain ⟨hr, hindex⟩ :=
      SessionIndex.mem_of_byGlobal (Std.TreeMap.mem_toList_iff_getElem?_eq_some.mp hmem)
    have hrecord := heard_of_recorded (hs.moves hmoves) hrs hr
    rwa [hindex] at hrecord
  have hword : ∀ e ∈ SessionIndex.receivedOf rs, IsWord e.2 := by
    intro e he
    obtain ⟨_, _, _, _, _, hsha, hbacked⟩ := hheard e he
    rw [← hsha]
    exact Hash.isWord_of_isSha256Hex hbacked.1
  exact ⟨_, decode_sendText hreply, sessionId, _, hqueries, parseStatus_statusText hword, hheard⟩

theorem learns_handlePacket :
    Learns Moves (fun reply t => SessionsBacked s → Answered env packet reply t)
      (handlePacket env now packet) s := by
  cases htype : packet.type with
  | hello =>
    simp only [handlePacket, htype]
    exact Safe.ofExcept (fun reply hreply _ => ⟨_, decode_sendText hreply, trivial⟩) fun _ _ => trivial
  | querySession =>
    simp only [handlePacket, htype]
    exact learns_querySession
  | putChunk =>
    simp only [handlePacket, htype]
    exact learns_putChunk
  | commitSession =>
    simp only [handlePacket, htype]
    exact learns_commitSession.post fun _ _ h _ => h
  | _ =>
    simp only [handlePacket, htype]
    trivial

end BackupServer

/-- The log is replaced by two records that are so: the versions that were listed, and that it was
done. -/
theorem learns_compact : Learns Moves (fun _ _ => True) (MetadataCompactor.compact env) s := by
  simp only [MetadataCompactor.compact, WalLog.replaceWith, FileUtils.writeFileAtomic, Prog.bind_eq]
  refine learns_checkpoint.bind fun vs a hvs => Learns.bind_ofExcept fun data hdata => ?_
  refine Learns.bind (Learns.keep (fun _ _ hm => hm.listed)
    (learns_silent (emits_ensureDirectory (silent_dir _))) hvs) fun _ b hb => ?_
  refine Learns.perform fun m t hm ht => ⟨?_, trivial⟩
  have hretains : Retains m t := retains_of_apply ht fun _ hq => absurd hq List.not_mem_nil
  have hlog : WalLog.logOf t = data := by
    have hput := (FsEffect.replace_ok ht).leaf? WalLog.walPath
    rw [if_pos rfl] at hput
    exact WalLog.logOf_some hput
  have hwritten := WalLog.encodeRecords_iff.mp hdata
  rw [← hlog] at hwritten
  have hfile : t.leaf? Checkpoint.path = m.leaf? Checkpoint.path :=
    FsEffect.apply_frame ht fun h => absurd (List.mem_singleton.mp h) (by decide)
  refine ⟨hretains, fun hs => ⟨⟨_, hwritten, fun record hr => ?_⟩,
    hs.checkpoint_of_same hretains hfile⟩, sessions_of_touches (.inl rfl) rfl ht⟩
  rcases List.mem_pair.mp hr with rfl | rfl
  · exact ⟨vs, rfl, fun v hv => hretains.listed (hm.listed hb.2 v hv)⟩
  · exact rfl

theorem silent_remove (name : Name) : Silent (.remove (tmpDir ++ [name])) := by
  have hhead : (tmpDir ++ [name]).head? = some (ascii "tmp") := rfl
  refine Mute.silent (fun p hp => ?_) fun q hq => ?_
  · rw [List.mem_singleton.mp hp]
    exact mute_of_head (by rw [hhead]; decide)
  · rw [List.mem_singleton.mp hq]
    rintro (h | h)
    · exact absurd (h.symm.trans hhead) (by decide)
    · exact absurd (h.symm.trans hhead) (by decide)

theorem learns_recover : Learns Moves (fun _ _ => True) (RecoveryManager.recover env) s := by
  simp only [RecoveryManager.recover, Prog.bind_eq]
  refine Learns.bind (learns_silent (emits_ensureLayout silent_dir)) fun _ _ _ => ?_
  refine Learns.bind (learns_silent WalLog.emits_readAll) fun _ _ _ => ?_
  refine Learns.bind (learns_silent (RecoveryManager.emits_removeTmpFiles silent_remove))
    fun _ _ _ => ?_
  exact learns_checkpoint.bind fun _ _ _ => trivial

theorem Operation.learns (op : Operation) :
    Learns Moves (fun _ _ => True) (op.prog env) s := by
  cases op with
  | create now fault source mode => exact BackupEngine.learns_create.bind fun _ _ _ => trivial
  | handle now packet => exact BackupServer.learns_handlePacket.bind fun _ _ _ => trivial
  | recover => exact learns_recover.bind fun _ _ _ => trivial
  | checkpoint => exact learns_checkpoint.bind fun _ _ _ => trivial
  | compact => exact learns_compact

theorem Works.learns {p : Op Unit} (h : Works env p) : Learns Moves (fun _ _ => True) p s := by
  rcases h with ⟨op, rfl⟩ | h
  · exact op.learns
  · exact .of_emits (fun _ _ _ => False.elim) h

end Dpc
