import Dpc.Common.SystemCalls
import Dpc.Core.Emitted
import Dpc.Core.StatsFacts
import Dpc.Guarantees.Durable
import Dpc.Guarantees.Recovered
import Dpc.Lib.Halted

namespace Dpc
open Text FileTree Effects ManifestStore ObjectStore

variable {env : Env} {s t u : Fs} {temps : List Path} {p q : Path}

/-- What an effect leaves that was stopped inside: some of the directories, a part of what was to
be appended, or the temporary file with a part of the data. A rename is one system call. -/
inductive FsEffect.Torn : FsEffect → Fs → List Path → Fs → Prop where
  | ensureDirectory {p q : Path} {s t : Fs} (hq : q <+: p)
      (h : Effect.apply (FsEffect.ensureDirectory q) s = .ok t) : Torn (.ensureDirectory p) s [] t
  | append {p : Path} {data written : Bytes} {mode : UInt32} {failure : Exn} {s t : Fs}
      (hw : written <+: data) (h : Effect.apply (FsEffect.append p written mode failure) s = .ok t) :
      Torn (.append p data mode failure) s [] t
  | replace {p : Path} {data written : Bytes} {mode : UInt32} {s t : Fs} (pid now : Nat)
      (hw : written <+: data) (hnew : s.get? (FileUtils.makeTempPath p pid now) = none)
      (h : s.putLeaf (FileUtils.makeTempPath p pid now) ⟨written, mode⟩ = .ok t) :
      Torn (.replace p data mode) s [FileUtils.makeTempPath p pid now] t

/-- Backups one after another, each of which may be stopped anywhere, and the temporary files that
they left. -/
inductive Backups (env : Env) : List Path → Fs → Prop where
  | nil : Backups env [] emptyRepo
  | snoc {temps left : List Path} {t u : Fs} (h : Backups env temps t) (now : UInt64)
      (fault : FaultStage) (source : Source) (mode : ChunkingMode)
      (hh : Prog.Halted FsEffect.Torn (BackupEngine.create env now fault source mode) t left u) :
      Backups env (temps ++ left) u

/-- The effects that a backup may try. -/
def CreateEffect (env : Env) : FsEffect → Prop
  | .ensureDirectory _ => True
  | .replace p data _ => ¬InObjects p ∨
      ∃ raw, p = pathOf (Hash.sha256Hex env.evp raw) ∧ Compressor.compress env raw = .ok data
  | .rename src dst => src ≠ dst ∧ ¬InObjects src ∧ ¬InObjects dst
  | .append p _ _ _ => ¬InObjects p
  | .remove _ => False
  | .chmod _ _ => False

theorem mayBackUp : BackupEngine.MayBackUp env (CreateEffect env) where
  dir _ := trivial
  wal _ _ _ := BackupEngine.not_inObjects_walPath
  object raw _ _ hc := .inr ⟨raw, rfl, hc⟩
  staged version _ _ := .inl fun h => BackupEngine.not_inObjects_publishPath h (.inl rfl)
  renamed version := ⟨ne_of_head (show some (ascii "tmp") ≠ some (ascii "manifests") by decide),
    fun h => BackupEngine.not_inObjects_publishPath h (.inl rfl),
    fun h => BackupEngine.not_inObjects_publishPath h (.inr (.inl rfl))⟩
  marker version _ _ := .inl fun h => BackupEngine.not_inObjects_publishPath h (.inr (.inr (.inl rfl)))
  checkpoint _ _ := .inl (by decide)

/-- A complete object: the frame of bytes, under the name of their hash. -/
def Complete (env : Env) (s : Fs) (p : Path) : Prop :=
  ∃ raw f, p = pathOf (Hash.sha256Hex env.evp raw) ∧ s.leaf? p = some f ∧
    Compressor.compress env raw = .ok f.data

/-- Every file under `objects` is a complete object or was left over, and what was left over is
still there. -/
structure Littered (env : Env) (temps : List Path) (s : Fs) : Prop where
  whole : ∀ p, InObjects p → (s.leaf? p).isSome → p ∈ temps ∨ Complete env s p
  there : ∀ p ∈ temps, InObjects p → (s.leaf? p).isSome
  named : ∀ p ∈ temps, ∃ q pid now, p = FileUtils.makeTempPath q pid now
  once : (temps.filter (InObjects ·)).Nodup

theorem Complete.inObjects (h : Complete env s p) : InObjects p := by
  obtain ⟨raw, f, rfl, _⟩ := h
  exact inObjects_pathOf _

theorem Complete.congr (h : Complete env s p) (hp : t.leaf? p = s.leaf? p) : Complete env t p := by
  obtain ⟨raw, f, he, hf, hc⟩ := h
  exact ⟨raw, f, he, hp.trans hf, hc⟩

theorem makeTempPath_ne_pathOf {sha : Bytes} {pid now : Nat} :
    FileUtils.makeTempPath q pid now ≠ pathOf sha := by
  refine FileUtils.makeTempPath_ne (n := sha ++ ascii ".zst") (b := 116) rfl ?_ (by decide)
  rw [List.getLast?_append]
  rfl

namespace Littered

theorem not_complete (h : Littered env temps s) (hp : p ∈ temps) : ¬Complete env t p := by
  intro hc
  obtain ⟨q, pid, now, hq⟩ := h.named p hp
  obtain ⟨raw, f, he, _⟩ := hc
  exact makeTempPath_ne_pathOf (hq.symm.trans he)

theorem congr (h : Littered env temps s) (hs : ∀ q, InObjects q → t.leaf? q = s.leaf? q) :
    Littered env temps t where
  whole p hp hleaf := by
    rw [hs p hp] at hleaf
    exact (h.whole p hp hleaf).imp_right fun hc => hc.congr (hs p hp)
  there p hp hin := by
    rw [hs p hin]
    exact h.there p hp hin
  named := h.named
  once := h.once

theorem emptyRepo : Littered env [] emptyRepo where
  whole p _ hleaf := by
    rw [leaf?_emptyRepo] at hleaf
    contradiction
  there _ hp := absurd hp List.not_mem_nil
  named _ hp := absurd hp List.not_mem_nil
  once := List.nodup_nil

/-- One more complete object. -/
theorem put {raw data : Bytes} {m : UInt32} (h : Littered env temps s)
    (hc : Compressor.compress env raw = .ok data)
    (hp : Tree.Put s t (pathOf (Hash.sha256Hex env.evp raw)) ⟨data, m⟩) : Littered env temps t where
  whole q hq hleaf := by
    by_cases he : q = pathOf (Hash.sha256Hex env.evp raw)
    · exact .inr ⟨raw, _, he, by rw [hp.leaf?, if_pos he], hc⟩
    · have hsame : t.leaf? q = s.leaf? q := by rw [hp.leaf?, if_neg he]
      rw [hsame] at hleaf
      exact (h.whole q hq hleaf).imp_right fun hc => hc.congr hsame
  there q hq hin := by
    rw [hp.leaf?]
    split
    · rfl
    · exact h.there q hq hin
  named := h.named
  once := h.once

/-- One more file left over. -/
theorem leave {pid now : Nat} {x : File} (h : Littered env temps s)
    (hnew : s.get? (FileUtils.makeTempPath q pid now) = none)
    (hp : Tree.Put s t (FileUtils.makeTempPath q pid now) x) :
    Littered env (temps ++ [FileUtils.makeTempPath q pid now]) t where
  whole p hin hleaf := by
    by_cases he : p = FileUtils.makeTempPath q pid now
    · exact .inl (List.mem_append_right _ (List.mem_singleton.mpr he))
    · have hsame : t.leaf? p = s.leaf? p := by rw [hp.leaf?, if_neg he]
      rw [hsame] at hleaf
      exact (h.whole p hin hleaf).imp (List.mem_append_left _) fun hc => hc.congr hsame
  there p hmem hin := by
    rw [hp.leaf?]
    split
    · rfl
    · rename_i he
      rcases List.mem_append.mp hmem with hmem | hmem
      · exact h.there p hmem hin
      · exact absurd (List.mem_singleton.mp hmem) he
  named p hmem := by
    rcases List.mem_append.mp hmem with hmem | hmem
    · exact h.named p hmem
    · exact ⟨q, pid, now, List.mem_singleton.mp hmem⟩
  once := by
    have hfresh : FileUtils.makeTempPath q pid now ∉ temps.filter (InObjects ·) := by
      intro hmem
      obtain ⟨hmem, hin⟩ := List.mem_filter.mp hmem
      have hthere := h.there _ hmem (of_decide_eq_true hin)
      rw [Tree.leaf?_eq_none_of_none hnew] at hthere
      contradiction
    rw [List.filter_append]
    by_cases hin : InObjects (FileUtils.makeTempPath q pid now)
    · rw [List.filter_singleton, decide_eq_true hin]
      refine List.nodup_append.mpr ⟨h.once, List.nodup_singleton _, fun a ha b hb he => ?_⟩
      rw [List.mem_singleton.mp hb] at he
      exact hfresh (he ▸ ha)
    · rw [List.filter_singleton, decide_eq_false hin, cond_false, List.append_nil]
      exact h.once

/-- The step lemma: an effect that takes place. -/
theorem done {i : FsEffect} (hi : CreateEffect env i) (ha : Effect.apply i s = .ok t)
    (h : Littered env temps s) : Littered env temps t := by
  cases i with
  | ensureDirectory p => exact h.congr fun q _ => (FsEffect.ensureDirectory_ok ha).1.leaf? q
  | replace p data m =>
    have hput := FsEffect.replace_ok ha
    rcases hi with hout | ⟨raw, rfl, hc⟩
    · refine h.congr fun q hq => ?_
      rw [hput.leaf?, if_neg]
      rintro rfl
      exact hout hq
    · exact h.put hc hput
  | rename src dst =>
    obtain ⟨hne, hsrc, hdst⟩ := hi
    obtain ⟨_, _, _, _, hget⟩ := FsEffect.rename_ok hne ha
    refine h.congr fun q hq => FsEffect.leaf?_of_get? ?_
    have h1 : q ≠ src := by
      rintro rfl
      exact hsrc hq
    have h2 : q ≠ dst := by
      rintro rfl
      exact hdst hq
    rw [hget, if_neg h1, if_neg h2]
  | append p data m e =>
    refine h.congr fun q hq => ?_
    rw [(FsEffect.append_ok ha).leaf?, if_neg]
    rintro rfl
    exact hi hq
  | remove p => cases hi
  | chmod p m => cases hi

/-- The step lemma: an effect that is stopped inside. -/
theorem torn {i : FsEffect} {left : List Path} (hi : CreateEffect env i) (ht : i.Torn s left t)
    (h : Littered env temps s) : Littered env (temps ++ left) t := by
  cases ht with
  | ensureDirectory hq ha =>
    rw [List.append_nil]
    exact h.done (i := .ensureDirectory _) trivial ha
  | append hw ha =>
    rw [List.append_nil]
    refine h.done (i := .append _ _ _ _) ?_ ha
    exact hi
  | replace pid now hw hnew ha => exact h.leave hnew (.of_place ha)

end Littered

/-- The run lemma. -/
theorem Backups.littered (h : Backups env temps t) : Littered env temps t := by
  induction h with
  | nil => exact .emptyRepo
  | snoc h now fault source mode hh ih =>
    exact hh.keeps (BackupEngine.emits_create mayBackUp) (fun _ _ _ hi ha hl => hl.done hi ha)
      (fun _ _ _ _ hi ht hl => hl.torn hi ht) ih

theorem bytesAt_append {ps qs : List Path} : bytesAt s (ps ++ qs) = bytesAt s ps + bytesAt s qs := by
  induction ps with
  | nil => simp [bytesAt]
  | cons p ps ih => rw [List.cons_append, bytesAt, bytesAt, ih, UInt64.add_assoc]

/-- The files that recovery leaves alone: all but those it removes and the checkpoint. -/
theorem Recovers.leaf? {vs : List UInt64} (h : Recovers env s t vs) (htmp : q.dropLast ≠ tmpDir)
    (hq : q ≠ Checkpoint.path) : t.leaf? q = s.leaf? q := by
  rcases h.kept q htmp hq with hsame | ⟨hnone, hdir, _⟩
  · exact FsEffect.leaf?_of_get? hsame
  · rw [Tree.leaf?_eq_none_of_dir hdir, Tree.leaf?_eq_none_of_none hnone]

theorem Recovers.objects {vs : List UInt64} (h : Recovers env s t vs) (hq : InObjects q) :
    t.leaf? q = s.leaf? q := by
  refine h.leaf? ?_ ?_
  · intro he
    have hhead : q.dropLast.head? = some (ascii "tmp") := congrArg List.head? he
    rw [List.head?_dropLast] at hhead
    split at hhead
    · rw [hq, Option.some.injEq] at hhead
      exact absurd hhead (by decide)
    · cases hhead
  · rintro rfl
    exact absurd hq (by decide)

/-- The complete objects, and what was left over beside them. -/
theorem Littered.objectFiles_perm (h : Littered env temps s) :
    (objectFiles s).Perm ((objectFiles s).filter (· ∉ temps) ++ temps.filter (InObjects ·)) := by
  have hnodup : (objectFiles s).Nodup := Tree.nodup_leavesBelow _ _
  have hleft : ((objectFiles s).filter (· ∈ temps)).Perm (temps.filter (InObjects ·)) := by
    refine (List.perm_ext_iff_of_nodup (hnodup.filter _) h.once).mpr fun p => ?_
    simp only [List.mem_filter, decide_eq_true_eq, mem_objectFiles]
    constructor
    · intro hp
      exact ⟨hp.2, hp.1.1⟩
    · intro hp
      exact ⟨⟨hp.2, h.there p hp.1 hp.2⟩, hp.1⟩
  have hsplit := (List.filter_append_perm (· ∈ temps) (objectFiles s)).symm
  simp only [← decide_not] at hsplit
  exact hsplit.trans (List.perm_append_comm.trans (hleft.append_left _))

theorem Littered.mem_complete (h : Littered env temps s) :
    p ∈ (objectFiles s).filter (· ∉ temps) ↔ Complete env s p := by
  simp only [List.mem_filter, decide_eq_true_eq, mem_objectFiles]
  constructor
  · intro hp
    exact (h.whole p hp.1.1 hp.1.2).resolve_left hp.2
  · intro hc
    refine ⟨⟨hc.inObjects, ?_⟩, fun hmem => h.not_complete hmem hc⟩
    obtain ⟨raw, f, _, hf, _⟩ := hc
    rw [hf]
    rfl

/-- After any backups, each stopped anywhere, and a recovery, the temporary files beside the
objects are still there: the statistics count them with the complete objects. -/
theorem recovery_leaves_object_temps {r : RecoveryReport} (h : Backups env temps t)
    (hr : (RecoveryManager.recover env).exec t = (.ok r, u)) :
    (∀ n, u.leaf? (tmpDir ++ [n]) = none) ∧
      (∀ q, q.dropLast ≠ tmpDir → q ≠ Checkpoint.path → u.leaf? q = t.leaf? q) ∧
      (∀ p ∈ temps, InObjects p → (u.leaf? p).isSome ∧ ¬Complete env u p) ∧
      ∃ objects, objects.Nodup ∧ (∀ p, p ∈ objects ↔ Complete env u p) ∧
        (objectFiles u).Perm (objects ++ temps.filter (InObjects ·)) ∧
        stats.exec u = (.ok
          ⟨UInt64.ofNat (objects.length + (temps.filter (InObjects ·)).length),
            bytesAt u objects + bytesAt u (temps.filter (InObjects ·))⟩, u) := by
  obtain ⟨vs, hrec⟩ := recover_ok hr
  have hu : Littered env temps u := h.littered.congr fun q hq => hrec.objects hq
  have hperm := hu.objectFiles_perm
  have hmake : u.Makeable objectsDir :=
    Tree.mkdirs_iff.mp ⟨u, Tree.mkdirs_of_dir (hrec.dirs objectsDir (by simp [layoutDirs]))⟩
  refine ⟨hrec.tmp, fun q htmp hq => hrec.leaf? htmp hq,
    fun p hp hin => ⟨hu.there p hp hin, hu.not_complete hp⟩,
    (objectFiles u).filter (· ∉ temps), (Tree.nodup_leavesBelow _ _).filter _, fun p => hu.mem_complete,
    hperm, ?_⟩
  rw [exec_stats hmake, tally, bytesAt_perm hperm, bytesAt_append, hperm.length_eq,
    List.length_append]

/-- A backup of one letter that is about to write the first object. -/
def letterStop : Option (FsEffect × Fs) :=
  (BackupEngine.create letterEnv 1700000000 .none (.ofWorld plainWorld [ascii "data"]) .fixed).next 11
    emptyRepo

/-- It is stopped when two bytes are written. -/
def tornLetter : Option Fs :=
  letterStop.bind fun stop =>
    (stop.2.putLeaf letterTemp ⟨[0x28, 0xb5], 0o644⟩).toOption

theorem backups_tornLetter (h : tornLetter = some t) : Backups letterEnv [letterTemp] t := by
  obtain ⟨stop, hstop, ht⟩ := Option.bind_eq_some_iff.mp h
  have hi : letterStop.map (·.1) = some (.replace (pathOf (Hash.sha256Hex letterEnv.evp (ascii "a")))
      (rawFrame (ascii "a")) 0o644) := by decide +kernel
  have hnew : letterStop.all (·.2.get? letterTemp = none) = true := by decide +kernel
  rw [hstop] at hi hnew
  simp only [Option.map_some, Option.some.injEq, Option.all_some, decide_eq_true_eq] at hi hnew
  have hnext : letterStop = some (stop.1, stop.2) := hstop
  rw [hi] at hnext
  have hh : Prog.Halted FsEffect.Torn _ emptyRepo [letterTemp] t :=
    .of_next hnext (.replace 1 1 (by decide) hnew (eq_ok_of_toOption ht))
  exact Backups.nil.snoc 1700000000 .none (.ofWorld plainWorld [ascii "data"]) .fixed hh

theorem torn_letter_is_counted :
    ∃ t u r objects, Backups letterEnv [letterTemp] t ∧
      (RecoveryManager.recover letterEnv).exec t = (.ok r, u) ∧
      (u.leaf? letterTemp).isSome ∧ (∀ p, p ∈ objects ↔ Complete letterEnv u p) ∧
      (stats.exec u).1 = .ok ⟨UInt64.ofNat (objects.length + 1),
        bytesAt u objects + bytesAt u [letterTemp]⟩ := by
  obtain ⟨t, ht⟩ : ∃ t, tornLetter = some t := Option.isSome_iff_exists.mp (by decide +kernel)
  have hr : tornLetter.all (fun t => ((RecoveryManager.recover letterEnv).exec t).1.toOption.isSome) =
      true := by decide +kernel
  rw [ht, Option.all_some] at hr
  obtain ⟨r, hr⟩ := Option.isSome_iff_exists.mp hr
  have hrun := backups_tornLetter ht
  have hrec := Prog.exec_of_fst (eq_ok_of_toOption hr)
  obtain ⟨_, _, hthere, objects, _, hmem, _, hstats⟩ := recovery_leaves_object_temps hrun hrec
  have hfilter : [letterTemp].filter (InObjects ·) = [letterTemp] := by decide +kernel
  rw [hfilter] at hstats
  exact ⟨t, _, r, objects, hrun, hrec, (hthere _ (List.mem_singleton_self _) (by decide +kernel)).1, hmem,
    by rw [hstats]; rfl⟩

/-- The recovery has succeeded; no object is complete, and the statistics count one. -/
theorem torn_letter_is_not_removed :
    ∃ temps t u r, Backups letterEnv temps t ∧
      (RecoveryManager.recover letterEnv).exec t = (.ok r, u) ∧
      (∃ p, InObjects p ∧ (u.leaf? p).isSome ∧ ∀ sha, p ≠ pathOf sha) ∧
      (∀ p, ¬Complete letterEnv u p) ∧ (stats.exec u).1 = .ok ⟨1, 2⟩ := by
  obtain ⟨t, ht⟩ : ∃ t, tornLetter = some t := Option.isSome_iff_exists.mp (by decide +kernel)
  have hr : tornLetter.all (fun t => ((RecoveryManager.recover letterEnv).exec t).1.toOption.isSome ∧
      (stats.exec ((RecoveryManager.recover letterEnv).exec t).2).1.toOption = some ⟨1, 2⟩ ∧
      objectFiles ((RecoveryManager.recover letterEnv).exec t).2 = [letterTemp]) = true := by
    decide +kernel
  rw [ht, Option.all_some, decide_eq_true_eq] at hr
  obtain ⟨hr, hstats, hfiles⟩ := hr
  obtain ⟨r, hr⟩ := Option.isSome_iff_exists.mp hr
  have hmem : ∀ p, InObjects p ∧ (((RecoveryManager.recover letterEnv).exec t).2.leaf? p).isSome ↔
      p = letterTemp := by
    intro p
    rw [← mem_objectFiles, hfiles, List.mem_singleton]
  refine ⟨_, t, _, r, backups_tornLetter ht, Prog.exec_of_fst (eq_ok_of_toOption hr),
    ⟨letterTemp, ((hmem _).mpr rfl).1, ((hmem _).mpr rfl).2, fun sha => makeTempPath_ne_pathOf⟩, ?_,
    eq_ok_of_toOption hstats⟩
  intro p hc
  obtain ⟨raw, f, rfl, hf, _⟩ := hc
  exact makeTempPath_ne_pathOf ((hmem _).mp ⟨inObjects_pathOf _, by rw [hf]; rfl⟩).symm

end Dpc
