import Dpc.Core.BackupFacts
import Dpc.Core.FailureFacts

namespace Dpc.ObjectStore
open Text FileTree Effects

variable {env : Env} {s t : Fs} {p : Path} {ps : List Path}

/-- The regular files under `objects`. -/
def objectFiles (s : Fs) : List Path := s.leavesBelow objectsDir

def sizeAt (s : Fs) (p : Path) : UInt64 :=
  match s.leaf? p with
  | some f => size f.data
  | none => 0

def bytesAt (s : Fs) : List Path → UInt64
  | [] => 0
  | p :: ps => sizeAt s p + bytesAt s ps

/-- What the statistics have to say of a repository. -/
def tally (s : Fs) : ObjectStoreStats :=
  ⟨UInt64.ofNat (objectFiles s).length, bytesAt s (objectFiles s)⟩

theorem mem_objectFiles : p ∈ objectFiles s ↔ InObjects p ∧ (s.leaf? p).isSome := by
  rw [objectFiles, Tree.mem_leavesBelow]
  refine and_congr_left fun _ => ?_
  cases p with
  | nil => simp [objectsDir, InObjects]
  | cons n rest => simp [objectsDir, InObjects, List.cons_prefix_cons, eq_comm]

theorem bytesAt_perm {qs : List Path} (h : ps.Perm qs) : bytesAt s ps = bytesAt s qs := by
  induction h with
  | nil => rfl
  | cons p _ ih => rw [bytesAt, bytesAt, ih]
  | swap p q ps =>
    simp only [bytesAt]
    rw [← UInt64.add_assoc, ← UInt64.add_assoc, UInt64.add_comm (sizeAt s q)]
  | trans _ _ ih ih' => rw [ih, ih']

theorem bytesAt_congr (h : ∀ p ∈ ps, t.leaf? p = s.leaf? p) : bytesAt t ps = bytesAt s ps := by
  induction ps with
  | nil => rfl
  | cons p ps ih =>
    have hp := h p List.mem_cons_self
    rw [bytesAt, bytesAt, ih fun q hq => h q (List.mem_cons_of_mem _ hq), sizeAt, sizeAt, hp]

/-- The loop over the files adds them up. -/
theorem exec_addFiles {out : ObjectStoreStats} (h : ∀ p ∈ ps, (s.leaf? p).isSome) :
    (addFiles out ps).exec s =
      (.ok ⟨out.objectCount + UInt64.ofNat ps.length, out.storedBytes + bytesAt s ps⟩, s) := by
  induction ps generalizing out with
  | nil => simp [addFiles, bytesAt]
  | cons p ps ih =>
    obtain ⟨f, hf⟩ := Option.isSome_iff_exists.mp (h p List.mem_cons_self)
    have hsize : (FileUtils.fileSize p).exec s = (.ok (sizeAt s p), s) := by
      rw [FileUtils.fileSize, Prog.exec_query, sizeAt, hf]
    simp only [addFiles, Prog.bind_eq]
    rw [Prog.exec_bind_of_ok hsize, ih fun q hq => h q (List.mem_cons_of_mem _ hq), bytesAt,
      List.length_cons, UInt64.ofNat_add, UInt64.add_assoc, UInt64.add_assoc,
      UInt64.add_comm (UInt64.ofNat ps.length)]
    rfl

/-- Where the directory of the objects is or can be made, the statistics are what they should be. -/
theorem exec_stats (h : s.Makeable objectsDir) : stats.exec s = (.ok (tally s), s) := by
  have hname : badName s.nameMax (ascii "objects") = false := h.2 _ (List.mem_singleton_self _)
  have hleaf : s.leaf? objectsDir = none := h.1 _ (List.prefix_refl _)
  have hexists : (FileUtils.pathExists objectsDir).exec s = (.ok (s.get? objectsDir).isSome, s) := by
    rw [FileUtils.pathExists, Prog.exec_query, Tree.status, objectsDir, Tree.blocked_one, hname]
    rfl
  simp only [stats, Prog.bind_eq]
  rw [Prog.exec_bind_of_ok hexists]
  cases hdir : s.get? objectsDir with
  | none =>
    have hnil : objectFiles s = [] := by
      refine List.eq_nil_iff_forall_not_mem.mpr fun p hp => ?_
      obtain ⟨⟨rest, hrest⟩, hp⟩ := Tree.mem_leavesBelow.mp hp
      obtain ⟨f, hf⟩ := Option.isSome_iff_exists.mp hp
      by_cases hr : rest = []
      · rw [← hrest, hr, List.append_nil, hleaf] at hf
        contradiction
      · have hd := s.dir_of_prefix (p := objectsDir) hr (by
          rw [hrest, Tree.leaf?_eq_some.mp hf]
          simp)
        rw [hdir] at hd
        contradiction
    rw [tally, hnil]
    rfl
  | some x =>
    cases x with
    | dir =>
      have hfiles : (FileUtils.regularFilesBelow objectsDir).exec s = (.ok (objectFiles s), s) := by
        rw [FileUtils.regularFilesBelow, Prog.exec_query, hdir]
        rfl
      simp only [Option.isSome_some, if_true]
      rw [Prog.exec_bind_of_ok hfiles,
        exec_addFiles fun p hp => (mem_objectFiles.mp hp).2, UInt64.zero_add, UInt64.zero_add]
      rfl
    | leaf f =>
      rw [Tree.leaf?_eq_some.mpr hdir] at hleaf
      contradiction

/-- Nothing under `objects` has changed. -/
theorem tally_congr (h : ∀ q, InObjects q → t.leaf? q = s.leaf? q) : tally t = tally s := by
  have hbelow : ∀ q, objectsDir <+: q → t.leaf? q = s.leaf? q := by
    intro q ⟨rest, hq⟩
    refine h q ?_
    rw [← hq]
    rfl
  have hperm := Tree.leavesBelow_perm fun q hq => congrArg Option.isSome (hbelow q hq)
  have hbytes : bytesAt t (objectFiles s) = bytesAt s (objectFiles s) :=
    bytesAt_congr fun p hp => h p (mem_objectFiles.mp hp).1
  rw [tally, tally, objectFiles, hperm.length_eq, bytesAt_perm hperm]
  rw [← objectFiles, hbytes]

/-- One file under `objects` is new. -/
theorem tally_add {f : File} (hp : InObjects p) (hs : s.leaf? p = none) (ht : t.leaf? p = some f)
    (h : ∀ q, q ≠ p → InObjects q → t.leaf? q = s.leaf? q) :
    tally t = ⟨(tally s).objectCount + 1, (tally s).storedBytes + size f.data⟩ := by
  have hin : ∀ {q}, objectsDir <+: q → InObjects q := by
    intro q ⟨rest, hq⟩
    rw [← hq]
    rfl
  have hpre : objectsDir <+: p := by
    have hm : p ∈ objectFiles t := mem_objectFiles.mpr ⟨hp, by rw [ht]; rfl⟩
    exact (Tree.mem_leavesBelow.mp hm).1
  have hperm : (objectFiles t).Perm (p :: objectFiles s) :=
    Tree.leavesBelow_cons hpre hs (by rw [ht]; rfl) fun q hq hd => congrArg Option.isSome (h q hq (hin hd))
  have hbytes : bytesAt t (objectFiles s) = bytesAt s (objectFiles s) := by
    refine bytesAt_congr fun q hq => ?_
    obtain ⟨hqo, hsome⟩ := mem_objectFiles.mp hq
    refine h q ?_ hqo
    rintro rfl
    rw [hs] at hsome
    contradiction
  have hsize : sizeAt t p = size f.data := by
    rw [sizeAt, ht]
  rw [tally, tally, hperm.length_eq, bytesAt_perm hperm, List.length_cons, UInt64.ofNat_add, bytesAt,
    hbytes, hsize, UInt64.add_comm (size f.data)]
  rfl

end Dpc.ObjectStore
