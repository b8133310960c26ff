import Dpc.Cli.BackupCtl
import Dpc.Guarantees.Accounted
import Dpc.Guarantees.Injected
import Dpc.Guarantees.Snapshots

/-! What `list` and `stats` print, against what the backups have printed. -/

namespace Dpc
open Text FileTree Effects ManifestStore ObjectStore BackupEngine BackupCtl

variable {env : Env} {s t u : Fs} {vs : List UInt64} {ms : List Manifest} {m : Manifest}
  {totals : Totals} {hashes acc : List Bytes}

/-- A set with some hashes put in. -/
def inserted (acc hashes : List Bytes) : List Bytes := hashes.foldl (fun out h => out.insert h) acc

theorem nodup_inserted (h : acc.Nodup) : (inserted acc hashes).Nodup := by
  induction hashes generalizing acc with
  | nil => exact h
  | cons x hashes ih => exact ih h.insert

theorem mem_inserted {x : Bytes} : x ∈ inserted acc hashes ↔ x ∈ acc ∨ x ∈ hashes := by
  induction hashes generalizing acc with
  | nil => simp [inserted]
  | cons y hashes ih =>
    have hstep : x ∈ inserted acc (y :: hashes) ↔ x ∈ acc.insert y ∨ x ∈ hashes := ih
    rw [hstep, List.mem_insert_iff, List.mem_cons]
    tauto

theorem addChunks_eq {chunks : List ChunkRef} : chunks.foldl addChunk totals =
    ⟨totals.totalChunks + UInt64.ofNat chunks.length, totals.totalInput,
      inserted totals.uniqueHashes (chunks.map ChunkRef.sha256)⟩ := by
  induction chunks generalizing totals with
  | nil => simp [inserted]
  | cons chunk chunks ih =>
    rw [List.foldl_cons, ih, List.length_cons, UInt64.ofNat_add, List.map_cons]
    simp only [addChunk, inserted, List.foldl_cons, Totals.mk.injEq, and_self, and_true]
    rw [UInt64.add_assoc, UInt64.add_comm 1]
    rfl

theorem inserted_append {more : List Bytes} :
    inserted (inserted acc hashes) more = inserted acc (hashes ++ more) :=
  List.foldl_append.symm

theorem addManifest_eq : addManifest totals m =
    ⟨totals.totalChunks + UInt64.ofNat m.refs.length, totals.totalInput + m.totalInputBytes,
      inserted totals.uniqueHashes (m.refs.map ChunkRef.sha256)⟩ := by
  have hfiles : ∀ (files : List FileManifest) (totals : Totals), files.foldl addFile totals =
      ⟨totals.totalChunks + UInt64.ofNat (files.flatMap FileManifest.chunks).length,
        totals.totalInput,
        inserted totals.uniqueHashes ((files.flatMap FileManifest.chunks).map ChunkRef.sha256)⟩ := by
    intro files
    induction files with
    | nil =>
      intro totals
      simp [inserted]
    | cons file files ih =>
      intro totals
      rw [List.foldl_cons, ih, addFile, addChunks_eq, List.flatMap_cons, List.length_append,
        List.map_append, ← inserted_append, UInt64.ofNat_add, UInt64.add_assoc]
  exact hfiles _ _

/-- Each of these versions is loaded as its manifest. -/
def LoadAs (t : Fs) (vs : List UInt64) (ms : List Manifest) : Prop :=
  List.Forall₂ (fun v m => (load v).exec t = (.ok m, t)) vs ms

theorem exec_addVersions (h : LoadAs t vs ms) : (addVersions totals vs).exec t =
    (.ok ⟨totals.totalChunks + UInt64.ofNat (ms.flatMap Manifest.refs).length,
      totals.totalInput + (ms.map Manifest.totalInputBytes).sum,
      inserted totals.uniqueHashes ((ms.flatMap Manifest.refs).map ChunkRef.sha256)⟩, t) := by
  induction h generalizing totals with
  | nil => simp [addVersions, inserted]
  | @cons v m vs ms hload _ ih =>
    simp only [addVersions, Prog.bind_eq]
    rw [Prog.exec_bind_of_ok hload, ih, addManifest_eq, List.flatMap_cons, List.length_append,
      List.map_append, ← inserted_append, UInt64.ofNat_add, List.map_cons, List.sum_cons,
      UInt64.add_assoc, UInt64.add_assoc]

theorem exec_listLines (h : LoadAs t vs ms) :
    (listLines vs).exec t = (.ok (List.zipWith lineOf vs ms), t) := by
  induction h with
  | nil => rfl
  | cons hload _ ih =>
    simp only [listLines, Prog.bind_eq]
    rw [Prog.exec_bind_of_ok hload, Prog.exec_bind_of_ok ih]
    rfl

/-- A backup that has succeeded, with its manifest and what it has counted. -/
structure Booked (mode : ChunkingMode) (s t : Fs) (r : BackupResult) (m : Manifest) : Prop where
  line : lineOf r.version m =
    ⟨r.version, r.fileCount, r.totalInputBytes, r.totalStoredBytes, mode⟩
  refs : r.totalChunks = UInt64.ofNat m.refs.length
  chunks : r.totalChunks = r.uniqueChunks + r.duplicateChunks
  loads : ∀ m', (load r.version).exec t = (.ok m', t) → m' = m
  store : tally t =
    ⟨(tally s).objectCount + r.uniqueChunks, (tally s).storedBytes + r.totalStoredBytes⟩
  objects : ∀ q, InObjects q → ((t.leaf? q).isSome ↔
    (s.leaf? q).isSome ∨ ∃ ref ∈ m.refs, q = pathOf ref.sha256)

variable {now : UInt64} {fault : FaultStage} {source : Source} {mode : ChunkingMode}
  {r : BackupResult} {files : List ScannedFile} {entered : List FileManifest}

/-- Whatever a backup does, what is new under `objects` is named by a hash. -/
theorem create_objects (h : (create env now fault source mode).exec s = (.ok r, t)) :
    ∀ q, InObjects q → (t.leaf? q).isSome → (s.leaf? q).isSome ∨ ∃ sha, q = pathOf sha := by
  obtain ⟨is, hc⟩ := (Prog.Stopped.refl (e := Exn.badAlloc) (create env now fault source mode)).cut s
  rw [h] at hc
  have hother : ∀ {q p : Path}, InObjects q → q ∈ [p] → ¬InObjects p → ∃ sha, q = pathOf sha :=
    fun hq hm hp => absurd (List.mem_singleton.mp hm ▸ hq) hp
  have hemits : (create env now fault source mode).Emits fun i =>
      ∀ q ∈ i.touches, InObjects q → ∃ sha, q = pathOf sha := by
    refine emits_create ⟨touches_dir, fun _ _ _ q hm hq => hother hq hm not_inObjects_walPath,
      fun raw _ _ _ q hm _ => ⟨_, List.mem_singleton.mp hm⟩,
      fun v _ _ q hm hq => hother hq hm (not_inObjects_tmp v), fun v q hm hq => ?_,
      fun v _ _ q hm hq => hother hq hm (not_inObjects_commit v),
      fun _ _ q hm hq => hother hq hm not_inObjects_checkpoint⟩
    rcases List.mem_cons.mp hm with rfl | hm
    · exact absurd hq (not_inObjects_tmp v)
    · exact hother hq hm (not_inObjects_manifest v)
  refine Prog.Emits.cut (R := fun a b => ∀ q, InObjects q → (b.leaf? q).isSome →
    (a.leaf? q).isSome ∨ ∃ sha, q = pathOf sha) (fun a q _ h => .inl h) ?_ ?_ hemits hc
  · intro a b c hab hbc q hq hs
    rcases hbc q hq hs with hb | hnew
    · exact hab q hq hb
    · exact .inr hnew
  · intro i a b hi ha q hq hs
    by_cases hm : q ∈ i.touches
    · exact .inr (hi q hm hq)
    · rw [FsEffect.apply_frame ha hm] at hs
      exact .inl hs

/-- Each piece of the source has its reference, and each reference its object. -/
theorem described_objects (h : Described env mode (ChunkOf mode files) s t files entered)
    (hnew : ∀ q, InObjects q → (t.leaf? q).isSome → (s.leaf? q).isSome ∨ ∃ sha, q = pathOf sha)
    {q : Path} (hq : InObjects q) : (t.leaf? q).isSome ↔
      (s.leaf? q).isSome ∨ ∃ ref ∈ entered.flatMap FileManifest.chunks, q = pathOf ref.sha256 := by
  constructor
  · intro ht
    rcases hnew q hq ht with hs | ⟨sha, rfl⟩
    · exact .inl hs
    obtain ⟨f, hf⟩ := Option.isSome_iff_exists.mp ht
    rcases h.added.new sha f hf with hs | ⟨raw, ⟨scanned, hin, data, hread, hraw⟩, rfl, _⟩
    · exact .inl (Option.isSome_iff_exists.mpr ⟨f, hs⟩)
    · obtain ⟨file, hfile, data', hd⟩ := h.files.exists_right hin
      cases hread.symm.trans hd.read_eq
      obtain ⟨chunk, hchunk, rfl⟩ := List.mem_map.mp hraw
      obtain ⟨ref, href, _, hdesc⟩ := hd.chunks.exists_right hchunk
      exact .inr ⟨ref, List.mem_flatMap.mpr ⟨file, hfile, href⟩, by rw [hdesc.sha]⟩
  · rintro (hs | ⟨ref, href, rfl⟩)
    · obtain ⟨f, hf⟩ := Option.isSome_iff_exists.mp hs
      rw [h.added.kept q f hq hf]
      rfl
    · obtain ⟨file, hfile, href⟩ := List.mem_flatMap.mp href
      obtain ⟨scanned, _, data, hd⟩ := h.files.exists_left hfile
      obtain ⟨chunk, _, _, hdesc⟩ := hd.chunks.exists_left href
      obtain ⟨f, hf, _⟩ := hdesc.file
      rw [hf]
      rfl

theorem create_booked (h : (create env now fault source mode).exec s = (.ok r, t)) :
    ∃ m, Created env now source mode s t m ∧ Booked mode s t r m := by
  have hnew := create_objects h
  have hG : BackupEffects env fun _ _ _ => True :=
    ⟨fun _ _ _ => trivial, fun _ _ _ _ _ _ _ => trivial, fun _ _ _ _ _ => trivial⟩
  have hbuild : Keeps (fun _ _ _ => True) _ (buildManifest env now fault source mode) s :=
    buildManifest_keeps hG
  have hcount : Keeps (fun _ _ _ => True) _ (buildManifest env now fault source mode) s :=
    buildManifest_accounted
  simp only [create, Prog.bind_eq] at h
  obtain ⟨p, u, hp, h⟩ := Prog.exec_bind_ok h
  obtain ⟨_, t', hpub, h⟩ := Prog.exec_bind_ok h
  cases h
  obtain ⟨hbuilt, hversion⟩ := Keeps.ok hbuild hp
  have hpublish : Keeps (fun _ _ _ => True) _ (publish env fault p.manifest) u :=
    publish_keeps ⟨fun _ _ _ => trivial, fun _ _ _ _ _ => trivial, fun _ _ _ => trivial,
      fun _ _ _ _ _ _ => trivial, fun _ _ _ _ _ _ _ _ => trivial, fun _ _ _ _ => trivial⟩
  obtain ⟨hframe, hmanifest, hmarker⟩ := Keeps.ok hpublish hpub
  have hcreated : Created env now source mode s t p.manifest := ⟨⟨u, hbuilt, hframe⟩, hmanifest, hmarker⟩
  have hcounted := Keeps.ok hcount hp
  have hacc := Accounted.congr hcounted fun q hq => hframe q (not_inObjects_publishPath hq)
  obtain ⟨files, hscan, hd⟩ := hcreated.described
  obtain ⟨_, _, _, _, hm⟩ := hbuilt.files
  refine ⟨p.manifest, hcreated, ?_, hacc.refs, hacc.chunks, fun m' hload => ?_, ?_,
    fun q hq => ?_⟩
  · have hmode : p.manifest.chunkingMode = mode := congrArg Manifest.chunkingMode hm
    simp [lineOf, hmode]
  · rw [hversion] at hload
    exact (hcreated.exec_load.mp hload).1
  · rw [← hacc.objects, ← hacc.bytes]
  · exact described_objects hd hnew hq

/-- Backups one after another, with what each has printed. Between them the repository may be
recovered, compacted and the like. -/
inductive Printed (env : Env) (s : Fs) : List (BackupResult × ChunkingMode) → Fs → Prop where
  | nil : Printed env s [] s
  | create {printed : List (BackupResult × ChunkingMode)} {now : UInt64} {fault : FaultStage}
      {source : Source} {mode : ChunkingMode} {r : BackupResult} {m : Manifest} {t u : Fs}
      (h : Printed env s printed t) (hx : (create env now fault source mode).exec t = (.ok r, u))
      (hload : (load r.version).exec u = (.ok m, u)) : Printed env s (printed ++ [(r, mode)]) u
  | upkeep {printed : List (BackupResult × ChunkingMode)} {t u : Fs} (h : Printed env s printed t)
      (hk : Upkeep env t u) : Printed env s printed u

def versionOf (entry : BackupResult × ChunkingMode) : UInt64 := entry.1.version

/-- What a backup has printed, as `list` prints it. -/
def printedLine (entry : BackupResult × ChunkingMode) : VersionLine :=
  ⟨entry.1.version, entry.1.fileCount, entry.1.totalInputBytes, entry.1.totalStoredBytes, entry.2⟩

/-- The manifest of a version that a backup has printed. -/
structure RecordedAs (t : Fs) (entry : BackupResult × ChunkingMode) (m : Manifest) : Prop where
  load : (ManifestStore.load (versionOf entry)).exec t = (.ok m, t)
  line : lineOf (versionOf entry) m = printedLine entry
  refs : entry.1.totalChunks = UInt64.ofNat m.refs.length
  chunks : entry.1.totalChunks = entry.1.uniqueChunks + entry.1.duplicateChunks

/-- The state of a repository agrees with what the backups have printed. -/
structure Agree (t : Fs) (printed : List (BackupResult × ChunkingMode)) (ms : List Manifest) :
    Prop where
  recorded : List.Forall₂ (RecordedAs t) printed ms
  latest : Latest t printed.length
  listed : ListedAs t (printed.map versionOf)
  parses : printed ≠ [] → Parses t
  dir : printed ≠ [] → t.get? objectsDir = some .dir
  store : tally t = ⟨(printed.map fun entry => entry.1.uniqueChunks).sum,
    (printed.map fun entry => entry.1.totalStoredBytes).sum⟩
  objects : ∀ q, InObjects q → ((t.leaf? q).isSome ↔
    ∃ ref ∈ ms.flatMap Manifest.refs, q = pathOf ref.sha256)

variable {printed : List (BackupResult × ChunkingMode)} {q : Path} {v : UInt64}

theorem cut_dir {α : Type} {p : Op α} {is : List FsEffect} (hc : Prog.Cut p s is t)
    (h : s.get? q = some .dir) : t.get? q = some .dir := by
  induction hc with
  | stop => exact h
  | look _ ih => exact ih h
  | act ha _ ih => exact ih (FsEffect.apply_dir ha h)
  | fail _ _ ih => exact ih h

theorem Upkeep.dir (h : Upkeep env s t) (hd : s.get? q = some .dir) : t.get? q = some .dir := by
  induction h with
  | nil => exact hd
  | recover _ hc ih => exact cut_dir hc ih
  | checkpoint _ hc ih => exact cut_dir hc ih
  | compact _ hc ih => exact cut_dir hc ih

theorem dir_of_exec {α : Type} {p : Op α} {x : Except Exn α} (hx : p.exec s = (x, t))
    (h : s.get? q = some .dir) : t.get? q = some .dir := by
  have hkept := exec_dir p h
  rwa [hx] at hkept

theorem create_dir (h : (create env now fault source mode).exec s = (.ok r, t)) :
    t.get? objectsDir = some .dir := by
  simp only [create, buildManifest, ensureLayout, Prog.bind_eq, Prog.bind_assoc'] at h
  obtain ⟨_, a, ha, h⟩ := Prog.exec_bind_ok h
  have hdir := (Tree.mkdirs_ok (FileUtils.ensureDirectory_iff.mp ha)).2
  exact dir_of_exec h hdir

/-- A listed version is loaded as before, as long as its two files are as before. -/
theorem load_kept (hl : Listed t v) (hload : (load v).exec t = (.ok m, t))
    (hc : u.leaf? (commitPath v) = t.leaf? (commitPath v))
    (hm : u.leaf? (manifestPath v) = t.leaf? (manifestPath v)) :
    (load v).exec u = (.ok m, u) := by
  obtain ⟨marker, hmarker⟩ := Option.isSome_iff_exists.mp hl.2
  obtain ⟨_, _, f, hf, hp⟩ := load_ok hload
  exact load_of (hc.trans hmarker) (hm.trans hf) hp

theorem RecordedAs.kept {entry : BackupResult × ChunkingMode} (h : RecordedAs t entry m)
    (hl : Listed t (versionOf entry))
    (hc : u.leaf? (commitPath (versionOf entry)) = t.leaf? (commitPath (versionOf entry)))
    (hm : u.leaf? (manifestPath (versionOf entry)) = t.leaf? (manifestPath (versionOf entry))) :
    RecordedAs u entry m :=
  ⟨load_kept hl h.load hc hm, h.line, h.refs, h.chunks⟩

namespace Agree

theorem start (hempty : ∀ q, s.leaf? q = none) : Agree s [] [] where
  recorded := .nil
  latest := ⟨fun v hv => by simp [Listed, hempty] at hv, .inl rfl⟩
  listed := ⟨fun v => by simp [Listed, hempty], .nil⟩
  parses h := absurd rfl h
  dir h := absurd rfl h
  store := by
    have hnone : objectFiles s = [] := by
      refine List.eq_nil_iff_forall_not_mem.mpr fun p hp => ?_
      have hsome := (mem_objectFiles.mp hp).2
      rw [hempty] at hsome
      contradiction
    rw [tally, hnone]
    rfl
  objects q _ := by simp [hempty]

theorem listed_of (h : Agree t printed ms) {entry : BackupResult × ChunkingMode}
    (hin : entry ∈ printed) : Listed t (versionOf entry) :=
  (h.listed.mem _).mp (List.mem_map_of_mem hin)

/-- Where the files of the versions and the objects are as before, so is all of it. -/
theorem quiet (h : Agree t printed ms) (hf : Frame Scratch t u)
    (hd : ∀ q, t.get? q = some .dir → u.get? q = some .dir) : Agree u printed ms := by
  have hnames : ∀ name, u.leaf? (manifestsDir ++ [name]) = t.leaf? (manifestsDir ++ [name]) :=
    fun name => hf _ (Allowed.not_scratch_manifests rfl)
  have hl : ∀ v, Listed u v ↔ Listed t v := fun v => listed_congr (hnames _)
  have hobjects : ∀ q, InObjects q → u.leaf? q = t.leaf? q := fun q hq =>
    hf q (Allowed.not_scratch_object hq)
  refine ⟨?_, h.latest.congr hl, h.listed.congr hl, fun hne name hname => ?_, fun hne => hd _ (h.dir hne),
    ?_, fun q hq => ?_⟩
  · exact h.recorded.imp_mem fun entry he m _ hr => hr.kept (h.listed_of he) (hnames _) (hnames _)
  · exact h.parses hne name (by rwa [← hnames])
  · rw [tally_congr hobjects, h.store]
  · rw [hobjects q hq, h.objects q hq]

/-- The step lemma: a backup that succeeds enters its line and its counts. -/
theorem create (h : Agree t printed ms) (hn : printed.length + 1 < 10 ^ 6)
    (hx : (BackupEngine.create env now fault source mode).exec t = (.ok r, u))
    (hload : (load r.version).exec u = (.ok m, u)) :
    Agree u (printed ++ [(r, mode)]) (ms ++ [m]) := by
  have hpub := (Publishes.create hx).published
  obtain ⟨m', _, hb⟩ := create_booked hx
  cases hb.loads m hload
  have hv : r.version.toNat < 10 ^ 6 := by
    rw [h.latest.next hpub.next]
    exact hn
  have hold : List.Forall₂ (RecordedAs u) printed ms := h.recorded.imp_mem fun entry he m _ hr => by
    have hl := h.listed_of he
    have hne : versionOf entry ≠ r.version := fun heq => hpub.next.fresh (heq ▸ hl)
    refine hr.kept hl (hpub.leaf?_commitPath hne) (hpub.frame _ ?_)
    rintro (hp | hp | hp)
    · exact hne (manifestPath_injective hp)
    · exact manifestPath_ne_commitPath _ _ hp
    · exact hp rfl
  refine ⟨?_, ?_, ⟨fun v => ?_, ?_⟩, fun _ => hpub.parses, fun _ => create_dir hx, ?_, fun q hq => ?_⟩
  · exact List.rel_append hold (.cons ⟨hload, hb.line, hb.refs, hb.chunks⟩ .nil)
  · rw [List.length_append, List.length_singleton]
    exact (h.latest.step hpub hn).1
  · rw [List.map_append, List.map_singleton, List.mem_append, List.mem_singleton, h.listed.mem,
      hpub.listed_iff, versionOf]
    exact or_congr_right (iff_self_and.mpr fun _ => hv)
  · rw [List.map_append, List.map_singleton, List.pairwise_append]
    refine ⟨h.listed.increasing, List.pairwise_singleton _ _, fun v hin w hw => ?_⟩
    rw [List.mem_singleton.mp hw]
    exact hpub.next.above v ((h.listed.mem v).mp hin)
  · rw [hb.store, h.store]
    simp only [List.map_append, List.map_singleton, List.sum_append, List.sum_singleton]
  · rw [hb.objects q hq, h.objects q hq]
    simp only [List.flatMap_append, List.flatMap_singleton, List.mem_append]
    constructor
    · rintro (⟨ref, href, rfl⟩ | ⟨ref, href, rfl⟩)
      · exact ⟨ref, .inl href, rfl⟩
      · exact ⟨ref, .inr href, rfl⟩
    · rintro ⟨ref, href | href, rfl⟩
      · exact .inl ⟨ref, href, rfl⟩
      · exact .inr ⟨ref, href, rfl⟩

end Agree

/-- The run lemma. -/
theorem Printed.agree (hempty : ∀ q, s.leaf? q = none) (h : Printed env s printed t)
    (hn : printed.length < 10 ^ 6) : ∃ ms, Agree t printed ms := by
  induction h with
  | nil => exact ⟨[], .start hempty⟩
  | create h hx hload ih =>
    rw [List.length_append, List.length_singleton] at hn
    obtain ⟨ms, hagree⟩ := ih (by omega)
    exact ⟨_, hagree.create hn hx hload⟩
  | upkeep h hk ih =>
    obtain ⟨ms, hagree⟩ := ih hn
    exact ⟨ms, hagree.quiet hk.frame fun q hd => hk.dir hd⟩

theorem Agree.loads (h : Agree t printed ms) : LoadAs t (printed.map versionOf) ms :=
  List.forall₂_map_left_iff.mpr (h.recorded.imp fun _ _ hr => hr.load)

theorem Agree.lists (h : Agree t printed ms) (hne : printed ≠ []) :
    listCommittedVersions.exec t = (.ok (printed.map versionOf), t) := by
  obtain ⟨entry, hin⟩ := List.exists_mem_of_ne_nil _ hne
  obtain ⟨vs, hvs⟩ := listCommittedVersions_succeeds (h.listed_of hin).dir (h.parses hne)
  rw [hvs, (listedAs_of_exec hvs).unique h.listed]

/-- The hashes of the references of some manifests, each once. -/
def hashesOf (ms : List Manifest) : List Bytes :=
  inserted [] ((ms.flatMap Manifest.refs).map ChunkRef.sha256)

/-- The objects are those of the hashes. -/
theorem Agree.count (h : Agree t printed ms) :
    (tally t).objectCount = UInt64.ofNat (hashesOf ms).length := by
  have hnodup : (hashesOf ms).Nodup := nodup_inserted .nil
  have hfiles : (objectFiles t).Nodup := t.nodup_leavesBelow _
  have hperm : (objectFiles t).Perm ((hashesOf ms).map pathOf) := by
    refine (List.perm_ext_iff_of_nodup hfiles (hnodup.map fun _ _ => pathOf_injective)).mpr fun q => ?_
    rw [mem_objectFiles, List.mem_map]
    constructor
    · intro ⟨hq, hs⟩
      obtain ⟨ref, href, rfl⟩ := (h.objects q hq).mp hs
      exact ⟨ref.sha256, mem_inserted.mpr (.inr (List.mem_map_of_mem href)), rfl⟩
    · rintro ⟨sha, hin, rfl⟩
      obtain ⟨ref, href, rfl⟩ := List.mem_map.mp ((mem_inserted.mp hin).resolve_left List.not_mem_nil)
      exact ⟨inObjects_pathOf _, (h.objects _ (inObjects_pathOf _)).mpr ⟨ref, href, rfl⟩⟩
  rw [tally, hperm.length_eq, List.length_map]

/-- The statistics add up what the backups have printed. -/
structure Sums (t : Fs) (printed : List (BackupResult × ChunkingMode)) (stats : BackupCtl.Stats) :
    Prop where
  versions : stats.versions = UInt64.ofNat printed.length
  objects : stats.objects = (printed.map fun entry => entry.1.uniqueChunks).sum
  objectBytes : stats.objectBytes = (printed.map fun entry => entry.1.totalStoredBytes).sum
  totalInputBytes : stats.totalInputBytes = (printed.map fun entry => entry.1.totalInputBytes).sum
  totalChunks : stats.totalChunks = (printed.map fun entry => entry.1.totalChunks).sum
  uniqueChunks : stats.uniqueChunks = stats.objects
  duplicateChunks : ∃ ms, LoadAs t (printed.map versionOf) ms ∧
    ((ms.flatMap Manifest.refs).length < 2 ^ 64 →
      stats.duplicateChunks = (printed.map fun entry => entry.1.duplicateChunks).sum)

/-- What is summed over the manifests is summed over what was printed. -/
theorem Agree.sums (h : Agree t printed ms) :
    (ms.map Manifest.totalInputBytes).sum =
        (printed.map fun entry => entry.1.totalInputBytes).sum ∧
      UInt64.ofNat (ms.flatMap Manifest.refs).length =
        (printed.map fun entry => entry.1.totalChunks).sum ∧
      (printed.map fun entry => entry.1.totalChunks).sum =
        (printed.map fun entry => entry.1.uniqueChunks).sum +
          (printed.map fun entry => entry.1.duplicateChunks).sum := by
  have hrecorded := h.recorded
  clear h
  induction hrecorded with
  | nil => exact ⟨rfl, rfl, rfl⟩
  | @cons entry m printed ms hr _ ih =>
    obtain ⟨hinput, hrefs, hchunks⟩ := ih
    have hline : m.totalInputBytes = entry.1.totalInputBytes := congrArg VersionLine.inputBytes hr.line
    simp only [List.map_cons, List.sum_cons, List.flatMap_cons, List.length_append, UInt64.ofNat_add]
    refine ⟨by rw [hinput, hline], by rw [hrefs, ← hr.refs], ?_⟩
    rw [hchunks, hr.chunks]
    ac_rfl

/-- More hashes than chunks there are not. -/
theorem length_inserted_le : (inserted [] hashes).length ≤ hashes.length := by
  have hnodup : (inserted [] hashes).Nodup := nodup_inserted .nil
  exact (List.subperm_of_subset hnodup fun x hx =>
    (mem_inserted.mp hx).resolve_left List.not_mem_nil).length_le

/-- What `printStats` takes for the duplicates, where the counters have not run over. -/
theorem duplicates_eq {n k : Nat} {unique duplicate : UInt64} (hkn : k ≤ n) (hn : n < 2 ^ 64)
    (hunique : UInt64.ofNat k = unique) (htotal : UInt64.ofNat n = unique + duplicate) :
    (if UInt64.ofNat n > UInt64.ofNat k then UInt64.ofNat n - UInt64.ofNat k else 0) = duplicate := by
  rw [hunique, htotal]
  split
  · rw [UInt64.add_comm, UInt64.add_sub_cancel]
  · rename_i hgt
    have hle : n ≤ k := by
      rw [← htotal, ← hunique, gt_iff_lt, UInt64.lt_iff_toNat_lt, UInt64.toNat_ofNat_of_lt' hn,
        UInt64.toNat_ofNat_of_lt' (Nat.lt_of_le_of_lt hkn hn)] at hgt
      omega
    have hsame : unique + duplicate = unique + 0 := by
      rw [← htotal, Nat.le_antisymm hle hkn, hunique, UInt64.add_zero]
    exact ((UInt64.add_right_inj unique).mp hsame).symm

theorem Agree.exec_list (h : Agree t printed ms) (hne : printed ≠ []) :
    BackupCtl.list.exec t = (.ok (printed.map printedLine), t) := by
  have hlines : List.zipWith lineOf (printed.map versionOf) ms = printed.map printedLine := by
    have hrecorded := h.recorded
    clear h hne
    induction hrecorded with
    | nil => rfl
    | cons hr _ ih => rw [List.map_cons, List.zipWith_cons_cons, ih, hr.line, List.map_cons]
  simp only [BackupCtl.list, Prog.bind_eq]
  rw [Prog.exec_bind_of_ok (h.lists hne), exec_listLines h.loads, hlines]

theorem Agree.exec_printStats (h : Agree t printed ms) (hne : printed ≠ []) :
    printStats.exec t = (.ok {
      versions := UInt64.ofNat printed.length
      objects := (tally t).objectCount
      objectBytes := (tally t).storedBytes
      totalInputBytes := (ms.map Manifest.totalInputBytes).sum
      totalChunks := UInt64.ofNat (ms.flatMap Manifest.refs).length
      uniqueChunks := UInt64.ofNat (hashesOf ms).length
      duplicateChunks :=
        if UInt64.ofNat (ms.flatMap Manifest.refs).length > UInt64.ofNat (hashesOf ms).length then
          UInt64.ofNat (ms.flatMap Manifest.refs).length - UInt64.ofNat (hashesOf ms).length
        else 0 }, t) := by
  have hstats := exec_stats (s := t) (Tree.mkdirs_iff.mp ⟨t, Tree.mkdirs_of_dir (h.dir hne)⟩)
  simp only [printStats, Prog.bind_eq]
  rw [Prog.exec_bind_of_ok (h.lists hne), Prog.exec_bind_of_ok hstats,
    Prog.exec_bind_of_ok (exec_addVersions h.loads)]
  simp only [UInt64.zero_add, List.length_map, hashesOf]
  rfl

/-- From a repository without files on, whatever backups have succeeded and whatever upkeep there
was between them: `list` prints what each of them has printed, in the order in which they came, and
`stats` adds it up. -/
theorem printed_is_listed_and_summed (hempty : ∀ q, s.leaf? q = none) (h : Printed env s printed t)
    (hne : printed ≠ []) (hn : printed.length < 10 ^ 6) :
    BackupCtl.list.exec t = (.ok (printed.map printedLine), t) ∧
      ∃ stats, printStats.exec t = (.ok stats, t) ∧ Sums t printed stats := by
  obtain ⟨ms, hagree⟩ := h.agree hempty hn
  obtain ⟨hinput, htotal, hchunks⟩ := hagree.sums
  have hcount := hagree.count
  refine ⟨hagree.exec_list hne, _, hagree.exec_printStats hne, rfl, ?_, ?_, hinput, htotal,
    hcount.symm, ms, hagree.loads, fun hsmall => ?_⟩
  · rw [hagree.store]
  · rw [hagree.store]
  · have hunique : (tally t).objectCount = (printed.map fun entry => entry.1.uniqueChunks).sum := by
      rw [hagree.store]
    refine duplicates_eq ?_ hsmall (hcount.symm.trans hunique) ?_
    · exact length_inserted_le.trans (Nat.le_of_eq (List.length_map _))
    · rw [htotal, hchunks]

theorem exists_load (h : ((load v).exec t).1.toBool = true) : ∃ m, (load v).exec t = (.ok m, t) := by
  rcases hx : (load v).exec t with ⟨_ | m, u⟩
  · rw [hx] at h
    contradiction
  · obtain ⟨rfl, _⟩ := load_ok hx
    exact ⟨m, rfl⟩

/-- The first letter, and the same again. -/
theorem letters_are_summed : ∃ t,
    BackupCtl.list.exec t = (.ok [⟨1, 1, 1, 10, .fixed⟩, ⟨2, 1, 1, 0, .fixed⟩], t) ∧
      ∃ stats, printStats.exec t = (.ok stats, t) ∧ stats.objects = 1 ∧ stats.objectBytes = 10 ∧
        stats.totalChunks = 2 := by
  have hfirst : (letterBackup.exec emptyRepo).1 = .ok ⟨1, 1, 1, 10, 1, 1, 0⟩ := by decide +kernel
  have hsecond : (letterBackup.exec (letterBackup.exec emptyRepo).2).1 =
      .ok ⟨2, 1, 1, 0, 1, 0, 1⟩ := by decide +kernel
  obtain ⟨m, hm⟩ := exists_load (v := 1) (t := (letterBackup.exec emptyRepo).2) (by decide +kernel)
  obtain ⟨m', hm'⟩ := exists_load (v := 2)
    (t := (letterBackup.exec (letterBackup.exec emptyRepo).2).2) (by decide +kernel)
  have hprinted : Printed letterEnv emptyRepo
      [(⟨1, 1, 1, 10, 1, 1, 0⟩, .fixed), (⟨2, 1, 1, 0, 1, 0, 1⟩, .fixed)] _ :=
    (Printed.nil.create (Prog.exec_of_fst hfirst) hm).create (Prog.exec_of_fst hsecond) hm'
  obtain ⟨hlist, stats, hstats, hsums⟩ :=
    printed_is_listed_and_summed leaf?_emptyRepo hprinted (List.cons_ne_nil _ _) (by decide)
  refine ⟨_, hlist, stats, hstats, hsums.objects, hsums.objectBytes, hsums.totalChunks⟩

end Dpc
