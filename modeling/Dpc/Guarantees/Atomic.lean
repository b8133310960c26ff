import Dpc.Common.AtomicWrite
import Dpc.Guarantees.Littered

namespace Dpc
open Text FileTree Effects

namespace AtomicWrite

variable {w : AtomicWrite} {s t : Fs} {seen os : List Outcome} {p : Point} {m : Point × Fs}

/-- After every part of the outcomes the file is as it was, or it is the data. -/
def AllOrNothing (w : AtomicWrite) (s : Fs) (os : List Outcome) : Prop :=
  ∀ seen, seen <+: os → ∃ m, w.run s seen = some m ∧
    (m.2.leaf? w.finalPath = s.leaf? w.finalPath ∨
      m.2.leaf? w.finalPath = some ⟨w.data, w.perm⟩)

/-- An exception before the rename leaves the files that were there. -/
def CleansUp (w : AtomicWrite) (s : Fs) (os : List Outcome) : Prop :=
  ∀ e t, w.run s os = some (.threw e, t) → (∀ n, ⟨.rename, .ret n⟩ ∉ os) →
    ∀ q, t.leaf? q = s.leaf? q

theorem Before.leaf? (h : w.Before s t) (q : Path) : t.leaf? q = s.leaf? q := by
  obtain ⟨_, _, hu⟩ := h
  exact (FsEffect.ensureDirectory_ok hu).1.leaf? q

theorem Replaced.leaf? (h : w.Replaced s t) (q : Path) :
    t.leaf? q = if q = w.finalPath then some ⟨w.data, w.perm⟩ else s.leaf? q := by
  obtain ⟨_, _, u, hu, ht⟩ := h
  rw [(Tree.Put.of_place ht).leaf?, (FsEffect.ensureDirectory_ok hu).1.leaf?]

/-- The temporary file is a new one. -/
theorem Beside.new {part : Bytes} (h : w.Beside s part t) : s.leaf? w.tmpPath = none := by
  obtain ⟨u, hu, hnew, _⟩ := h
  rw [← (FsEffect.ensureDirectory_ok hu).1.leaf?]
  exact Tree.leaf?_eq_none_of_none hnew

/-- The files at every point. -/
theorem Inv.files (h : w.Inv s seen p t) :
    w.Before s t ∨ (∃ part, part <+: w.data ∧ w.Beside s part t) ∨ w.Replaced s t := by
  cases p with
  | ensureDirectory made rest => exact .inl ⟨made, ⟨rest, h.1⟩, h.2.1⟩
  | openTemp => exact .inl ⟨w.parent, List.prefix_rfl, h.1⟩
  | writeAll rest =>
    obtain ⟨part, hp, hb, _⟩ := h
    exact .inr (.inl ⟨part, ⟨rest, hp⟩, hb⟩)
  | fsyncFd => exact .inr (.inl ⟨w.data, List.prefix_rfl, h.1⟩)
  | rename => exact .inr (.inl ⟨w.data, List.prefix_rfl, h.1⟩)
  | remove => exact .inr (.inl ⟨w.data, List.prefix_rfl, h.1⟩)
  | openDirectory => exact .inr (.inr h.1)
  | fsyncDirectory => exact .inr (.inr h.1)
  | returned => exact .inr (.inr h.1)
  | threw e =>
    cases h with
    | before h _ => exact .inl h
    | beside part hp h _ _ => exact .inr (.inl ⟨part, hp, h⟩)
    | replaced h _ _ => exact .inr (.inr h)

theorem Inv.file (h : w.Inv s seen p t) :
    t.leaf? w.finalPath = s.leaf? w.finalPath ∨ t.leaf? w.finalPath = some ⟨w.data, w.perm⟩ := by
  rcases h.files with hb | ⟨part, _, hb⟩ | hr
  · exact .inl (hb.leaf? _)
  · have hne : w.finalPath ≠ w.tmpPath := FileUtils.makeTempPath_ne_self.symm
    rw [hb.leaf?, if_neg hne]
    exact .inl rfl
  · rw [hr.leaf?, if_pos rfl]
    exact .inr rfl

/-- Only an exception comes after a failure that spoils the call, and the temporary file stays. -/
theorem Inv.spoilt (h : w.Inv s seen p t) (hs : ∃ o ∈ seen, o.Spoils) :
    (∃ e, p = .threw e) ∧ ¬Renamed seen ∧ ∃ part, w.Beside s part t := by
  obtain ⟨o, ho, hspoils⟩ := hs
  have hno {P : Prop} (hc : Clean seen) : P := absurd hspoils (hc o ho)
  cases p with
  | ensureDirectory made rest => exact hno h.2.2.clean
  | openTemp => exact hno h.2.clean
  | writeAll rest =>
    obtain ⟨_, _, _, hq⟩ := h
    exact hno hq.clean
  | fsyncFd => exact hno h.2.clean
  | rename => exact hno h.2.clean
  | remove => exact hno h.2.clean
  | openDirectory => exact hno h.2.1
  | fsyncDirectory => exact hno h.2.1
  | returned => exact hno h.2.1
  | threw e =>
    cases h with
    | before _ hq => exact hno hq.clean
    | beside part _ hb _ hr => exact ⟨⟨e, rfl⟩, hr, part, hb⟩
    | replaced _ hc _ => exact hno hc

/-- The file is never half written; the temporary file is cleaned up exactly where no write and no
flush of it fails, nor the remove after a rename that failed. -/
theorem cleans_up_iff_unspoilt (h : w.run s os = some m) :
    w.AllOrNothing s os ∧ (w.CleansUp s os ↔ ∀ o ∈ os, ¬o.Spoils) := by
  have hinv := inv_run h
  refine ⟨fun seen hseen => ?_, fun hclean => ?_, fun hclean e t ht hearly q => ?_⟩
  · obtain ⟨m', hm⟩ := run_prefix h hseen
    exact ⟨m', hm, (inv_run hm).file⟩
  · by_contra hspoilt
    simp only [not_forall, not_not] at hspoilt
    obtain ⟨o, ho, hspoils⟩ := hspoilt
    obtain ⟨⟨e, he⟩, hearly, part, hb⟩ := hinv.spoilt ⟨o, ho, hspoils⟩
    have hrun : w.run s os = some (.threw e, m.2) := by rw [h, ← he]
    have hsame := hclean e m.2 hrun (not_exists.mp hearly) w.tmpPath
    rw [hb.leaf?, if_pos rfl, hb.new] at hsame
    cases hsame
  · cases inv_run ht with
    | before hb _ => exact hb.leaf? q
    | beside _ _ _ hs _ =>
      obtain ⟨o, ho, hspoils⟩ := hs
      exact absurd hspoils (hclean o ho)
    | replaced _ _ hr => exact absurd hr (not_exists.mpr hearly)

/-- A file of two bytes. -/
def twoBytes : AtomicWrite where
  finalPath := [ascii "dir", ascii "f"]
  data := ascii "ab"
  mode := 0o644
  umask := 0o022
  pid := 1
  now := 1

/-- The rename fails, and the temporary file is removed. -/
def failedRename : List Outcome :=
  [⟨.mkdir, .ret 0⟩, ⟨.openTemp, .ret 3⟩, ⟨.write, .ret 1⟩, ⟨.write, .interrupted⟩, ⟨.write, .ret 1⟩,
    ⟨.fsync, .ret 0⟩, ⟨.rename, .failed⟩, ⟨.remove, .ret 0⟩]

theorem failed_rename_cleans_up :
    twoBytes.CleansUp (Tree.empty nameMax255) failedRename ∧
      ((twoBytes.run (Tree.empty nameMax255) failedRename).map (·.1) =
        some (.threw (dpcError "rename failed: "))) := by
  obtain ⟨m, hm⟩ : ∃ m, twoBytes.run (Tree.empty nameMax255) failedRename = some m :=
    Option.isSome_iff_exists.mp (by decide +kernel)
  refine ⟨(cleans_up_iff_unspoilt hm).2.mpr ?_, by decide +kernel⟩
  decide +kernel

/-- No space is left after the first byte. -/
def fullDisk : List Outcome := 
  [⟨.mkdir, .ret 0⟩, ⟨.openTemp, .ret 3⟩, ⟨.write, .ret 1⟩, ⟨.write, .failed⟩]

theorem full_disk_leaves_temp :
    (∃ m, twoBytes.run (Tree.empty nameMax255) fullDisk = some m ∧
      m.1 = .threw (dpcError "write failed: ") ∧ (∀ n, ⟨.rename, .ret n⟩ ∉ fullDisk) ∧
      (Tree.empty nameMax255 : Fs).leaf? twoBytes.tmpPath = none ∧
      m.2.leaf? twoBytes.tmpPath = some ⟨ascii "a", 0o644⟩) ∧
    ¬twoBytes.CleansUp (Tree.empty nameMax255) fullDisk := by
  obtain ⟨m, hm⟩ : ∃ m, twoBytes.run (Tree.empty nameMax255) fullDisk = some m :=
    Option.isSome_iff_exists.mp (by decide +kernel)
  have hthrew : (twoBytes.run (Tree.empty nameMax255) fullDisk).map (·.1) =
      some (.threw (dpcError "write failed: ")) := by decide +kernel
  have hleft : (twoBytes.run (Tree.empty nameMax255) fullDisk).map (·.2.leaf? twoBytes.tmpPath) =
      some (some ⟨ascii "a", 0o644⟩) := by decide +kernel
  have hnew : (Tree.empty nameMax255 : Fs).leaf? twoBytes.tmpPath = none := by decide +kernel
  have hearly : ∀ n, ⟨.rename, .ret n⟩ ∉ fullDisk := by simp [fullDisk]
  rw [hm, Option.map_some, Option.some.injEq] at hthrew hleft
  refine ⟨⟨m, hm, hthrew, hearly, hnew, hleft⟩, fun hclean => ?_⟩
  have hsame := hclean _ m.2 (by rw [hm, ← hthrew]) hearly twoBytes.tmpPath
  rw [hleft, hnew] at hsame
  cases hsame

/-- Where the temporary file had its name, the effect takes place. -/
theorem Replaced.apply (hnames : FileUtils.NamesTemp s.nameMax w.pid w.now) (h : w.Replaced s t) :
    ∃ u, Effect.apply (FsEffect.ensureDirectory w.parent) s = .ok u ∧
      Effect.apply (FsEffect.replace w.finalPath w.data w.perm) u = .ok t := by
  obtain ⟨v, ⟨u', hu', _, hv⟩, u, hu, ht⟩ := h
  refine ⟨u, hu, ?_⟩
  have htmp : badName v.nameMax (w.finalPath.getLast?.getD [] ++ ascii ".tmp." ++ decimal w.pid ++
      ascii "." ++ decimal w.now) = false := by
    refine v.name_fits (p := w.finalPath.dropLast) ?_
    have hget := (Tree.Put.of_place hv).get? w.tmpPath
    rw [if_pos rfl] at hget
    rw [← FileUtils.makeTempPath, ← tmpPath, hget]
    simp
  have hroom : crowded u.nameMax (w.finalPath.getLast?.getD []) = false := by
    rw [(Tree.Put.of_place hv).nameMax, FsEffect.apply_nameMax hu'] at htmp
    rw [FsEffect.apply_nameMax hu]
    simp only [badName, Bool.or_eq_false_iff] at htmp
    have htemp : s.nameMax.temp = (ascii ".tmp." ++ decimal w.pid ++ ascii "." ++
      decimal w.now).length := hnames
    simpa [crowded, htemp, List.length_append, Nat.add_assoc] using htmp.2
  simp only [Effect.apply, FsEffect.apply, Tree.replaceLeaf_iff.mpr ⟨hroom, ht⟩, orThrow]

/-- What `writeFileAtomic` does when it returns. -/
theorem exec_of_returned (hnames : FileUtils.NamesTemp s.nameMax w.pid w.now)
    (h : w.run s os = some (.returned, t)) :
    (FileUtils.writeFileAtomic w.umask w.finalPath w.data w.mode).exec s = (.ok (), t) := by
  obtain ⟨u, hu, ht⟩ := (inv_run h).1.apply hnames
  have hdir : (FileUtils.ensureDirectory w.parent).exec s = (.ok (), u) := by
    rw [FileUtils.ensureDirectory, Prog.exec_perform, hu]
  have hfile : (Prog.perform (.replace w.finalPath w.data w.perm) : Op Unit).exec u = (.ok (), t) := by
    rw [Prog.exec_perform, ht]
  exact (Prog.exec_bind_of_ok hdir).trans hfile

/-- Wherever it is, the program is halted there. -/
theorem halted_of_run (hnames : FileUtils.NamesTemp s.nameMax w.pid w.now)
    (h : w.run s os = some m) :
    ∃ left, Prog.Halted FsEffect.Torn
      (FileUtils.writeFileAtomic w.umask w.finalPath w.data w.mode) s left m.2 ∧
        ∀ q ∈ left, q = w.tmpPath := by
  rcases (inv_run h).files with ⟨q, hq, ht⟩ | ⟨part, hp, u, hu, hnew, ht⟩ | hreplaced
  · exact ⟨[], .torn (.ensureDirectory hq ht), by simp⟩
  · exact ⟨[w.tmpPath], .act hu (.torn (.replace w.pid w.now hp hnew ht)), by simp⟩
  · obtain ⟨u, hu, ht⟩ := hreplaced.apply hnames
    exact ⟨[], .act hu (.act ht (.stop _ _)), by simp⟩

end AtomicWrite

end Dpc
