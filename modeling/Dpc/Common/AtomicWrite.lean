import Dpc.Common.SystemCalls

namespace Dpc
open Text FileTree Effects

/-- A call of `writeFileAtomic`, the umask it runs under, and what the name of its temporary file
is made of. -/
structure AtomicWrite where
  finalPath : Path
  data : Bytes
  mode : UInt32
  umask : UInt32
  pid : Nat
  now : Nat

namespace AtomicWrite

/-- The system calls that can be seen in the files, or fail. Closing a descriptor does neither. -/
inductive Call where
  | mkdir
  | openTemp
  | write
  | fsync
  | rename
  | remove
  | openDirectory
  | fsyncDirectory
  deriving DecidableEq, Repr

/-- A system call returns a number, or `-1` with `EINTR` or with another error. -/
inductive Answer where
  | ret (n : Nat)
  | interrupted
  | failed
  deriving DecidableEq, Repr

structure Outcome where
  call : Call
  answer : Answer
  deriving DecidableEq, Repr

/-- The system call that is waited for, or how it ended. -/
inductive Point where
  | ensureDirectory (made rest : Path)
  | openTemp
  | writeAll (rest : Bytes)
  | fsyncFd
  | rename
  | remove
  | openDirectory
  | fsyncDirectory
  | returned
  | threw (e : Exn)
  deriving DecidableEq, Repr

def Point.call : Point → Option Call
  | .ensureDirectory _ _ => some .mkdir
  | .openTemp => some .openTemp
  | .writeAll _ => some .write
  | .fsyncFd => some .fsync
  | .rename => some .rename
  | .remove => some .remove
  | .openDirectory => some .openDirectory
  | .fsyncDirectory => some .fsyncDirectory
  | .returned => none
  | .threw _ => none

variable (w : AtomicWrite)

def parent : Path := w.finalPath.dropLast

def tmpPath : Path := FileUtils.makeTempPath w.finalPath w.pid w.now

/-- The umask takes its bits from the mode. -/
def perm : UInt32 := w.mode &&& 0o7777 &&& ~~~w.umask

/-- A call that succeeds does what it is for; where it cannot, the system does not say so. -/
def does (next : Point) (i : FsEffect) (t : Fs) : Option (Point × Fs) :=
  match Effect.apply i t with
  | .ok t' => some (next, t')
  | .error _ => none

/-- `create_directories`: each directory on the way is made, or found. -/
def making (made : Path) : Path → Point
  | [] => .openTemp
  | n :: rest => .ensureDirectory made (n :: rest)

def ensureDirectory (made : Path) (rest : Path) (t : Fs) : Answer → Option (Point × Fs)
  | .ret _ =>
    match rest with
    | [] => none
    | n :: rest => does (making (made ++ [n]) rest) (.ensureDirectory (made ++ [n])) t
  | _ => some (.threw (dpcError "create directory failed: "), t)

/-- `while (offset < size)`: what is left to write. -/
def writing : Bytes → Point
  | [] => .fsyncFd
  | b :: rest => .writeAll (b :: rest)

/-- `O_CREAT | O_EXCL`. -/
def openTemp (t : Fs) : Answer → Option (Point × Fs)
  | .ret _ =>
    if t.get? w.tmpPath = none then
      does (writing w.data) (.append w.tmpPath [] w.perm (dpcError "open temp file failed: ")) t
    else none
  | _ => some (.threw (dpcError "open temp file failed: "), t)

def writeAll (rest : Bytes) (t : Fs) : Answer → Option (Point × Fs)
  | .interrupted => some (.writeAll rest, t)
  | .failed => some (.threw (dpcError "write failed: "), t)
  | .ret 0 => some (.threw (dpcError "write returned zero bytes"), t)
  | .ret (n + 1) =>
    if n < rest.length then
      does (writing (rest.drop (n + 1)))
        (.append w.tmpPath (rest.take (n + 1)) w.perm (dpcError "write failed: ")) t
    else none

/-- The flush of a file or of a directory. -/
def fsyncFd (again next : Point) : Answer → Point
  | .interrupted => again
  | .failed => .threw (dpcError "fsync failed for ")
  | .ret _ => next

def rename (t : Fs) : Answer → Option (Point × Fs)
  | .ret _ => does .openDirectory (.rename w.tmpPath w.finalPath) t
  | _ => some (.remove, t)

/-- What the remove says is ignored. -/
def remove (t : Fs) : Answer → Option (Point × Fs)
  | .ret _ => does (.threw (dpcError "rename failed: ")) (.remove w.tmpPath) t
  | _ => some (.threw (dpcError "rename failed: "), t)

def openDirectory : Answer → Point
  | .ret _ => .fsyncDirectory
  | _ => .threw (dpcError "open directory failed: ")

def answered : Point → Fs → Answer → Option (Point × Fs)
  | .ensureDirectory made rest, t, a => ensureDirectory made rest t a
  | .openTemp, t, a => w.openTemp t a
  | .writeAll rest, t, a => w.writeAll rest t a
  | .fsyncFd, t, a => some (fsyncFd .fsyncFd .rename a, t)
  | .rename, t, a => w.rename t a
  | .remove, t, a => w.remove t a
  | .openDirectory, t, a => some (openDirectory a, t)
  | .fsyncDirectory, t, a => some (fsyncFd .fsyncDirectory .returned a, t)
  | .returned, _, _ => none
  | .threw _, _, _ => none

def step (m : Point × Fs) (o : Outcome) : Option (Point × Fs) :=
  if m.1.call = some o.call then w.answered m.1 m.2 o.answer else none

def runFrom (m : Point × Fs) : List Outcome → Option (Point × Fs)
  | [] => some m
  | o :: os => (w.step m o).bind fun m' => runFrom m' os

/-- Where the call is after such outcomes, and the files then; none where it cannot have them. -/
def run (s : Fs) (os : List Outcome) : Option (Point × Fs) := w.runFrom (making [] w.parent, s) os

/-- The failures after which the temporary file stays. -/
def Outcome.Spoils (o : Outcome) : Prop :=
  o ∈ ([⟨.write, .failed⟩, ⟨.write, .ret 0⟩, ⟨.fsync, .failed⟩, ⟨.remove, .failed⟩,
    ⟨.remove, .interrupted⟩] : List Outcome)

instance (o : Outcome) : Decidable o.Spoils := List.instDecidableMemOfLawfulBEq o _

def Clean (seen : List Outcome) : Prop := ∀ o ∈ seen, ¬o.Spoils

def Renamed (seen : List Outcome) : Prop := ∃ n, ⟨.rename, .ret n⟩ ∈ seen

/-- Nothing has spoilt the call yet, nor has the rename taken effect. -/
structure Quiet (seen : List Outcome) : Prop where
  clean : Clean seen
  early : ¬Renamed seen

/-- Some of the directories were made. -/
def Before (s t : Fs) : Prop :=
  ∃ q, q <+: w.parent ∧ Effect.apply (FsEffect.ensureDirectory q) s = .ok t

/-- The temporary file is there, with a part of the data. -/
def Beside (s : Fs) (part : Bytes) (t : Fs) : Prop :=
  ∃ u, Effect.apply (FsEffect.ensureDirectory w.parent) s = .ok u ∧ u.get? w.tmpPath = none ∧
    u.putLeaf w.tmpPath ⟨part, w.perm⟩ = .ok t

/-- The file holds the data, which were in the temporary file. -/
def Replaced (s t : Fs) : Prop :=
  ∃ v, w.Beside s w.data v ∧ ∃ u, Effect.apply (FsEffect.ensureDirectory w.parent) s = .ok u ∧
    u.putLeaf w.finalPath ⟨w.data, w.perm⟩ = .ok t

/-- What an exception leaves. -/
inductive Left (s : Fs) (seen : List Outcome) (t : Fs) : Prop where
  | before (h : w.Before s t) (hq : Quiet seen)
  | beside (part : Bytes) (hp : part <+: w.data) (h : w.Beside s part t)
      (hs : ∃ o ∈ seen, o.Spoils) (hr : ¬Renamed seen)
  | replaced (h : w.Replaced s t) (hc : Clean seen) (hr : Renamed seen)

/-- The invariant: the files at each point, and what came before it. -/
def Inv (s : Fs) (seen : List Outcome) : Point → Fs → Prop
  | .ensureDirectory made rest, t =>
    made ++ rest = w.parent ∧ Effect.apply (FsEffect.ensureDirectory made) s = .ok t ∧ Quiet seen
  | .openTemp, t => Effect.apply (FsEffect.ensureDirectory w.parent) s = .ok t ∧ Quiet seen
  | .writeAll rest, t => ∃ part, part ++ rest = w.data ∧ w.Beside s part t ∧ Quiet seen
  | .fsyncFd, t => w.Beside s w.data t ∧ Quiet seen
  | .rename, t => w.Beside s w.data t ∧ Quiet seen
  | .remove, t => w.Beside s w.data t ∧ Quiet seen
  | .openDirectory, t => w.Replaced s t ∧ Clean seen ∧ Renamed seen
  | .fsyncDirectory, t => w.Replaced s t ∧ Clean seen ∧ Renamed seen
  | .returned, t => w.Replaced s t ∧ Clean seen ∧ Renamed seen
  | .threw _, t => w.Left s seen t

section Steps

variable {w} {s t t' : Fs} {seen : List Outcome} {o : Outcome} {a : Answer} {p : Point}
variable {m : Point × Fs}

theorem does_ok {i : FsEffect} {next : Point} (h : does next i t = some (p, t')) :
    p = next ∧ Effect.apply i t = .ok t' := by
  unfold does at h
  split at h
  · rename_i u hu
    cases h
    exact ⟨rfl, hu⟩
  · cases h

theorem Clean.snoc (h : Clean seen) (ho : ¬o.Spoils) : Clean (seen ++ [o]) := by
  intro x hx
  rcases List.mem_append.mp hx with hx | hx
  · exact h x hx
  · rw [List.mem_singleton.mp hx]
    exact ho

theorem Renamed.snoc (h : Renamed seen) : Renamed (seen ++ [o]) := by
  obtain ⟨n, hn⟩ := h
  exact ⟨n, List.mem_append_left _ hn⟩

theorem early_snoc (h : ¬Renamed seen) (ho : o.call ≠ .rename ∨ ∀ n, o.answer ≠ .ret n) :
    ¬Renamed (seen ++ [o]) := by
  rintro ⟨n, hn⟩
  rcases List.mem_append.mp hn with hn | hn
  · exact h ⟨n, hn⟩
  · rw [← List.mem_singleton.mp hn] at ho
    exact ho.elim (absurd rfl) fun ho => ho n rfl

theorem Quiet.snoc (h : Quiet seen) (hs : ¬o.Spoils)
    (ho : o.call ≠ .rename ∨ ∀ n, o.answer ≠ .ret n) : Quiet (seen ++ [o]) :=
  ⟨h.clean.snoc hs, early_snoc h.early ho⟩

theorem Beside.leaf? {part : Bytes} (h : w.Beside s part t) (q : Path) :
    t.leaf? q = if q = w.tmpPath then some ⟨part, w.perm⟩ else s.leaf? q := by
  obtain ⟨u, hu, _, ht⟩ := h
  rw [(Tree.Put.of_place ht).leaf?, (FsEffect.ensureDirectory_ok hu).1.leaf?]

theorem Beside.more {part more : Bytes} {e : Exn} (h : w.Beside s part t)
    (ha : Effect.apply (FsEffect.append w.tmpPath more w.perm e) t = .ok t') :
    w.Beside s (part ++ more) t' := by
  obtain ⟨u, hu, hnew, ht⟩ := h
  refine ⟨u, hu, hnew, ?_⟩
  have hleaf : t.leaf? w.tmpPath = some ⟨part, w.perm⟩ := by
    rw [(Tree.Put.of_place ht).leaf?, if_pos rfl]
  have hplace := orThrow_ok ha
  rw [Tree.upsertLeaf, hleaf, Tree.place_place ht] at hplace
  exact hplace

theorem Beside.renamed (h : w.Beside s w.data t)
    (ha : Effect.apply (FsEffect.rename w.tmpPath w.finalPath) t = .ok t') : w.Replaced s t' := by
  obtain ⟨u, hu, hnew, ht⟩ := h
  exact ⟨t, ⟨u, hu, hnew, ht⟩, u, hu, Tree.renameLeaf_place FileUtils.makeTempPath_ne_self hnew ht
    (orThrow_ok ha)⟩

theorem Beside.removed {part : Bytes} (h : w.Beside s part t)
    (ha : Effect.apply (FsEffect.remove w.tmpPath) t = .ok t') : w.Before s t' := by
  obtain ⟨u, hu, hnew, ht⟩ := h
  have hthere : t.get? w.tmpPath ≠ none := by
    rw [(Tree.Put.of_place ht).get?, if_pos rfl]
    simp
  simp only [Effect.apply, FsEffect.apply, hthere, if_false] at ha
  rw [Tree.removeLeaf_place hnew ht (orThrow_ok ha)]
  exact ⟨w.parent, List.prefix_rfl, hu⟩

theorem inv_making {made rest : Path} (hp : made ++ rest = w.parent)
    (ht : Effect.apply (FsEffect.ensureDirectory made) s = .ok t) (hq : Quiet seen) :
    w.Inv s seen (making made rest) t := by
  cases rest with
  | nil =>
    rw [List.append_nil] at hp
    exact ⟨hp ▸ ht, hq⟩
  | cons n rest => exact ⟨hp, ht, hq⟩

theorem inv_writing {part rest : Bytes} (hp : part ++ rest = w.data) (h : w.Beside s part t)
    (hq : Quiet seen) : w.Inv s seen (writing rest) t := by
  cases rest with
  | nil =>
    rw [List.append_nil] at hp
    exact ⟨hp ▸ h, hq⟩
  | cons b rest => exact ⟨part, hp, h, hq⟩

theorem inv_ensureDirectory {made rest : Path}
    (h : w.Inv s seen (.ensureDirectory made rest) t)
    (hs : ensureDirectory made rest t a = some (p, t')) :
    w.Inv s (seen ++ [⟨.mkdir, a⟩]) p t' := by
  obtain ⟨hp, ht, hq⟩ := h
  have hq' : Quiet (seen ++ [⟨.mkdir, a⟩]) := hq.snoc (by simp [Outcome.Spoils]) (.inl (by simp))
  have hthrew : w.Left s (seen ++ [⟨.mkdir, a⟩]) t := .before ⟨made, ⟨rest, hp⟩, ht⟩ hq'
  cases a with
  | ret k =>
    cases rest with
    | nil => cases hs
    | cons n rest =>
      obtain ⟨rfl, ha⟩ := does_ok hs
      refine inv_making (by simpa using hp) ?_ hq'
      simp only [Effect.apply, FsEffect.apply] at ha ⊢
      rwa [← Tree.mkdirs_concat (orThrow_ok ht)]
  | interrupted =>
    cases hs
    exact hthrew
  | failed =>
    cases hs
    exact hthrew

theorem inv_openTemp (h : w.Inv s seen .openTemp t) (hs : w.openTemp t a = some (p, t')) :
    w.Inv s (seen ++ [⟨.openTemp, a⟩]) p t' := by
  obtain ⟨ht, hq⟩ := h
  have hq' : Quiet (seen ++ [⟨.openTemp, a⟩]) := hq.snoc (by simp [Outcome.Spoils]) (.inl (by simp))
  have hthrew : w.Left s (seen ++ [⟨.openTemp, a⟩]) t := .before ⟨w.parent, List.prefix_rfl, ht⟩ hq'
  cases a with
  | ret k =>
    simp only [openTemp] at hs
    split at hs
    · rename_i hnew
      obtain ⟨rfl, ha⟩ := does_ok hs
      have hput := orThrow_ok ha
      rw [Tree.upsertLeaf, Tree.leaf?_eq_none_of_none hnew] at hput
      exact inv_writing (List.nil_append _) ⟨t, ht, hnew, hput⟩ hq'
    · cases hs
  | interrupted =>
    cases hs
    exact hthrew
  | failed =>
    cases hs
    exact hthrew

theorem inv_writeAll {rest : Bytes} (h : w.Inv s seen (.writeAll rest) t)
    (hs : w.writeAll rest t a = some (p, t')) : w.Inv s (seen ++ [⟨.write, a⟩]) p t' := by
  obtain ⟨part, hp, hb, hq⟩ := h
  have hleft (ho : (⟨.write, a⟩ : Outcome).Spoils) : w.Left s (seen ++ [⟨.write, a⟩]) t :=
    .beside part ⟨rest, hp⟩ hb ⟨_, List.mem_concat_self, ho⟩ (early_snoc hq.early (.inl (by simp)))
  have hquiet (ho : ¬(⟨.write, a⟩ : Outcome).Spoils) : Quiet (seen ++ [⟨.write, a⟩]) :=
    hq.snoc ho (.inl (by simp))
  cases a with
  | interrupted =>
    cases hs
    exact ⟨part, hp, hb, hquiet (by simp [Outcome.Spoils])⟩
  | failed =>
    cases hs
    exact hleft (by simp [Outcome.Spoils])
  | ret k =>
    cases k with
    | zero =>
      cases hs
      exact hleft (by simp [Outcome.Spoils])
    | succ n =>
      simp only [writeAll] at hs
      split at hs
      · obtain ⟨rfl, ha⟩ := does_ok hs
        have hp' : part ++ rest.take (n + 1) ++ rest.drop (n + 1) = w.data := by
          rw [List.append_assoc, List.take_append_drop, hp]
        exact inv_writing hp' (hb.more ha) (hquiet (by simp [Outcome.Spoils]))
      · cases hs

theorem inv_fsyncFd (h : w.Inv s seen .fsyncFd t) :
    w.Inv s (seen ++ [⟨.fsync, a⟩]) (fsyncFd .fsyncFd .rename a) t := by
  obtain ⟨hb, hq⟩ := h
  have hquiet (ho : ¬(⟨.fsync, a⟩ : Outcome).Spoils) : Quiet (seen ++ [⟨.fsync, a⟩]) :=
    hq.snoc ho (.inl (by simp))
  cases a with
  | interrupted => exact ⟨hb, hquiet (by simp [Outcome.Spoils])⟩
  | ret k => exact ⟨hb, hquiet (by simp [Outcome.Spoils])⟩
  | failed =>
    exact .beside w.data List.prefix_rfl hb ⟨_, List.mem_concat_self, by simp [Outcome.Spoils]⟩
      (early_snoc hq.early (.inl (by simp)))

theorem inv_rename (h : w.Inv s seen .rename t) (hs : w.rename t a = some (p, t')) :
    w.Inv s (seen ++ [⟨.rename, a⟩]) p t' := by
  obtain ⟨hb, hq⟩ := h
  have hspoils : ¬(⟨.rename, a⟩ : Outcome).Spoils := by simp [Outcome.Spoils]
  cases a with
  | ret k =>
    obtain ⟨rfl, ha⟩ := does_ok hs
    exact ⟨hb.renamed ha, hq.clean.snoc hspoils, k, List.mem_concat_self⟩
  | interrupted =>
    cases hs
    exact ⟨hb, hq.snoc hspoils (.inr (by simp))⟩
  | failed =>
    cases hs
    exact ⟨hb, hq.snoc hspoils (.inr (by simp))⟩

theorem inv_remove (h : w.Inv s seen .remove t) (hs : w.remove t a = some (p, t')) :
    w.Inv s (seen ++ [⟨.remove, a⟩]) p t' := by
  obtain ⟨hb, hq⟩ := h
  have hleft (ho : (⟨.remove, a⟩ : Outcome).Spoils) : w.Left s (seen ++ [⟨.remove, a⟩]) t :=
    .beside w.data List.prefix_rfl hb ⟨_, List.mem_concat_self, ho⟩ (early_snoc hq.early (.inl (by simp)))
  cases a with
  | ret k =>
    obtain ⟨rfl, ha⟩ := does_ok hs
    exact .before (hb.removed ha) (hq.snoc (by simp [Outcome.Spoils]) (.inl (by simp)))
  | interrupted =>
    cases hs
    exact hleft (by simp [Outcome.Spoils])
  | failed =>
    cases hs
    exact hleft (by simp [Outcome.Spoils])

/-- The step lemma. -/
theorem inv_step {m' : Point × Fs} (h : w.Inv s seen m.1 m.2) (hs : w.step m o = some m') :
    w.Inv s (seen ++ [o]) m'.1 m'.2 := by
  obtain ⟨p, t⟩ := m
  obtain ⟨c, a⟩ := o
  simp only [step] at hs
  split at hs
  · rename_i hc
    cases p with
    | ensureDirectory made rest =>
      cases hc
      exact inv_ensureDirectory h hs
    | openTemp =>
      cases hc
      exact inv_openTemp h hs
    | writeAll rest =>
      cases hc
      exact inv_writeAll h hs
    | fsyncFd =>
      cases hc
      cases hs
      exact inv_fsyncFd h
    | rename =>
      cases hc
      exact inv_rename h hs
    | remove =>
      cases hc
      exact inv_remove h hs
    | openDirectory =>
      cases hc
      cases hs
      obtain ⟨hr, hclean, hren⟩ := h
      have hclean' := hclean.snoc (o := ⟨.openDirectory, a⟩) (by simp [Outcome.Spoils])
      cases a with
      | ret k => exact ⟨hr, hclean', hren.snoc⟩
      | interrupted => exact .replaced hr hclean' hren.snoc
      | failed => exact .replaced hr hclean' hren.snoc
    | fsyncDirectory =>
      cases hc
      cases hs
      obtain ⟨hr, hclean, hren⟩ := h
      have hclean' := hclean.snoc (o := ⟨.fsyncDirectory, a⟩) (by simp [Outcome.Spoils])
      cases a with
      | ret k => exact ⟨hr, hclean', hren.snoc⟩
      | interrupted => exact ⟨hr, hclean', hren.snoc⟩
      | failed => exact .replaced hr hclean' hren.snoc
    | returned => cases hc
    | threw e => cases hc
  · cases hs

theorem inv_runFrom {os : List Outcome} {m' : Point × Fs} (h : w.Inv s seen m.1 m.2)
    (hs : w.runFrom m os = some m') : w.Inv s (seen ++ os) m'.1 m'.2 := by
  induction os generalizing m seen with
  | nil =>
    cases hs
    rwa [List.append_nil]
  | cons o os ih =>
    obtain ⟨m₁, hm, hrest⟩ := Option.bind_eq_some_iff.mp hs
    have hend := ih (inv_step h hm) hrest
    rwa [List.append_assoc, List.singleton_append] at hend

/-- The run lemma. -/
theorem inv_run {os : List Outcome} (h : w.run s os = some m) : w.Inv s os m.1 m.2 := by
  have hstart : Quiet [] := ⟨by simp [Clean], by simp [Renamed]⟩
  exact inv_runFrom (inv_making (List.nil_append _) rfl hstart) h

theorem runFrom_append {os rest : List Outcome} :
    w.runFrom m (os ++ rest) = (w.runFrom m os).bind fun m' => w.runFrom m' rest := by
  induction os generalizing m with
  | nil => rfl
  | cons o os ih =>
    simp only [List.cons_append, runFrom, Option.bind_assoc, ih]

theorem run_prefix {os seen : List Outcome} (h : w.run s os = some m) (hp : seen <+: os) :
    ∃ m', w.run s seen = some m' := by
  obtain ⟨rest, rfl⟩ := hp
  rw [run, runFrom_append] at h
  obtain ⟨m', hm, _⟩ := Option.bind_eq_some_iff.mp h
  exact ⟨m', hm⟩

end Steps

end AtomicWrite

end Dpc
