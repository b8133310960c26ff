import Dpc.Lib.FileTree
import Mathlib.Data.List.Infix

/-! A disk that can lose its power: what is left of it depends on what was flushed. -/

namespace FileTree

/-- What a directory has under a name. -/
inductive Entry where
  | dir
  | file (ino : Nat)
  deriving DecidableEq, Repr

/-- What processes see of the disk, and what may be found of it after a power loss: under
each path, and in each file. -/
structure Disk (β : Type) where
  entry : Path → Option Entry
  bytes : Nat → β
  mayEntry : Path → Option Entry → Prop
  mayBytes : Nat → β → Prop
  next : Nat

/-- The system calls that succeed. `fsyncDir` flushes the entries of one directory, `fsync`
the bytes of one file. -/
inductive SysCall (β : Type) where
  | mkdir (p : Path)
  | create (p : Path) (empty : β)
  | write (p : Path) (f : β → β)
  | fsync (p : Path)
  | rename (src dst : Path)
  | unlink (p : Path)
  | fsyncDir (p : Path)

namespace Disk

variable {β : Type} {d : Disk β} {c : SysCall β} {cs : List (SysCall β)} {p q : Path} {x : β}

/-- A new entry; until its directory is flushed it may be lost. -/
def setEntry (d : Disk β) (p : Path) (e : Option Entry) : Disk β where
  entry := Function.update d.entry p e
  bytes := d.bytes
  mayEntry := fun q e' => d.mayEntry q e' ∨ q = p ∧ e' = e
  mayBytes := d.mayBytes
  next := d.next

/-- New bytes; until the file is flushed anything may be found in it. -/
def setBytes (d : Disk β) (n : Nat) (x : β) : Disk β where
  entry := d.entry
  bytes := Function.update d.bytes n x
  mayEntry := d.mayEntry
  mayBytes := Function.update d.mayBytes n fun _ => True
  next := d.next

def run (d : Disk β) : SysCall β → Disk β
  | .mkdir p => if d.entry p = none then d.setEntry p (some .dir) else d
  | .create p empty =>
    if d.entry p = none then
      { (d.setEntry p (some (.file d.next))).setBytes d.next empty with next := d.next + 1 }
    else d
  | .write p f =>
    match d.entry p with
    | some (.file n) => d.setBytes n (f (d.bytes n))
    | _ => d
  | .fsync p =>
    match d.entry p with
    | some (.file n) => { d with mayBytes := Function.update d.mayBytes n (· = d.bytes n) }
    | _ => d
  | .rename src dst => if src = dst then d else (d.setEntry dst (d.entry src)).setEntry src none
  | .unlink p => d.setEntry p none
  | .fsyncDir p =>
    { d with mayEntry := fun q e => if q ≠ [] ∧ q.dropLast = p then e = d.entry q else d.mayEntry q e }

def runs (d : Disk β) (cs : List (SysCall β)) : Disk β := cs.foldl run d

/-- What processes see under a path. -/
def view (d : Disk β) (p : Path) : Option (Node β) :=
  match d.entry p with
  | none => none
  | some .dir => some .dir
  | some (.file n) => some (.leaf (d.bytes n))

/-- No two names have one file, and new files are new. -/
structure Sane (d : Disk β) : Prop where
  inj : ∀ p q n, d.entry p = some (.file n) → d.entry q = some (.file n) → p = q
  lt : ∀ p n, d.entry p = some (.file n) → n < d.next

end Disk

namespace SysCall

variable {β : Type}

/-- The paths whose entry or bytes a call may replace. -/
def changes : SysCall β → List Path
  | .write p _ => [p]
  | .rename src dst => [src, dst]
  | .unlink p => [p]
  | _ => []

/-- The paths under which a call may put a file. -/
def places : SysCall β → List Path
  | .create p _ => [p]
  | .rename _ dst => [dst]
  | _ => []

/-- Either. -/
def concerns (c : SysCall β) : List Path := c.changes ++ c.places

end SysCall

namespace Disk

variable {β : Type} {d d' : Disk β} {c : SysCall β} {cs : List (SysCall β)} {p q : Path} {x : β}

theorem view_eq_none : d.view p = none ↔ d.entry p = none := by
  unfold view
  cases d.entry p with
  | none => simp
  | some e =>
    cases e with
    | dir => simp
    | file n => simp

theorem view_eq_dir : d.view p = some .dir ↔ d.entry p = some .dir := by
  unfold view
  cases d.entry p with
  | none => simp
  | some e =>
    cases e with
    | dir => simp
    | file n => simp

theorem view_eq_leaf : d.view p = some (.leaf x) ↔ ∃ n, d.entry p = some (.file n) ∧ d.bytes n = x := by
  unfold view
  cases d.entry p with
  | none => simp
  | some e =>
    cases e with
    | dir => simp
    | file n => simp

theorem entry_setEntry {e : Option Entry} :
    (d.setEntry p e).entry q = if q = p then e else d.entry q := by
  simp [setEntry, Function.update_apply]

theorem Sane.setEntry_of {e : Option Entry} (h : d.Sane)
    (hnew : ∀ n, e = some (.file n) → n < d.next ∧ ∀ q, d.entry q = some (.file n) → q = p) :
    (d.setEntry p e).Sane := by
  constructor
  · intro a b n ha hb
    rw [entry_setEntry] at ha hb
    split at ha
    · rename_i hap
      split at hb
      · rename_i hbp
        rw [hap, hbp]
      · rw [hap, (hnew n ha).2 b hb]
    · split at hb
      · rename_i hbp
        rw [hbp, (hnew n hb).2 a ha]
      · exact h.inj a b n ha hb
  · intro a n ha
    rw [entry_setEntry] at ha
    split at ha
    · exact (hnew n ha).1
    · exact h.lt a n ha

/-- What a call does, where it does anything. -/
inductive Change (d : Disk β) : SysCall β → Disk β → Prop where
  | idle (c : SysCall β) : Change d c d
  | mkdir {p : Path} (h : d.entry p = none) : Change d (.mkdir p) (d.setEntry p (some .dir))
  | create {p : Path} (h : d.entry p = none) (empty : β) :
      Change d (.create p empty)
        { (d.setEntry p (some (.file d.next))).setBytes d.next empty with next := d.next + 1 }
  | write {p : Path} {n : Nat} (h : d.entry p = some (.file n)) (f : β → β) :
      Change d (.write p f) (d.setBytes n (f (d.bytes n)))
  | fsync {p : Path} {n : Nat} (h : d.entry p = some (.file n)) :
      Change d (.fsync p) { d with mayBytes := Function.update d.mayBytes n (· = d.bytes n) }
  | rename {src dst : Path} (h : src ≠ dst) :
      Change d (.rename src dst) ((d.setEntry dst (d.entry src)).setEntry src none)
  | unlink (p : Path) : Change d (.unlink p) (d.setEntry p none)
  | fsyncDir (p : Path) : Change d (.fsyncDir p) (d.run (.fsyncDir p))

theorem change (d : Disk β) (c : SysCall β) : d.Change c (d.run c) := by
  cases c with
  | mkdir p =>
    simp only [run]
    split
    · rename_i hnone
      exact .mkdir hnone
    · exact .idle _
  | create p empty =>
    simp only [run]
    split
    · rename_i hnone
      exact .create hnone empty
    · exact .idle _
  | write p f =>
    simp only [run]
    split
    · rename_i n hn
      exact .write hn f
    · exact .idle _
  | fsync p =>
    simp only [run]
    split
    · rename_i n hn
      exact .fsync hn
    · exact .idle _
  | rename src dst =>
    simp only [run]
    split
    · exact .idle _
    · rename_i hne
      exact .rename hne
  | unlink p => exact .unlink p
  | fsyncDir p => exact .fsyncDir p

theorem Change.sane (hc : d.Change c d') (h : d.Sane) : d'.Sane := by
  cases hc with
  | idle => exact h
  | mkdir hnone => exact h.setEntry_of (by simp)
  | create hnone empty =>
    constructor
    · intro a b n ha hb
      simp only [setBytes, entry_setEntry] at ha hb
      split at ha
      · rename_i hap
        cases ha
        split at hb
        · rename_i hbp
          rw [hap, hbp]
        · exact absurd (h.lt b _ hb) (Nat.lt_irrefl _)
      · split at hb
        · cases hb
          exact absurd (h.lt a _ ha) (Nat.lt_irrefl _)
        · exact h.inj a b n ha hb
    · intro a n ha
      simp only [setBytes, entry_setEntry] at ha ⊢
      split at ha
      · cases ha
        exact Nat.lt_succ_self _
      · exact Nat.lt_succ_of_lt (h.lt a n ha)
  | write hn f => exact ⟨h.inj, h.lt⟩
  | fsync hn => exact ⟨h.inj, h.lt⟩
  | @rename src dst hne =>
    constructor
    · intro a b n ha hb
      simp only [entry_setEntry] at ha hb
      split at ha
      · contradiction
      rename_i has
      split at hb
      · contradiction
      rename_i hbs
      split at ha
      · rename_i had
        split at hb
        · rename_i hbd
          rw [had, hbd]
        · exact absurd (h.inj b src n hb ha) hbs
      · split at hb
        · exact absurd (h.inj a src n ha hb) has
        · exact h.inj a b n ha hb
    · intro a n ha
      simp only [entry_setEntry] at ha
      split at ha
      · contradiction
      split at ha
      · exact h.lt src n ha
      · exact h.lt a n ha
  | unlink p => exact h.setEntry_of (by simp)
  | fsyncDir p => exact ⟨h.inj, h.lt⟩

theorem Sane.run (h : d.Sane) (c : SysCall β) : (d.run c).Sane := (d.change c).sane h

/-- What each of the calls keeps, all of them keep. -/
theorem runs_keeps {P : Disk β → Prop} (hP : ∀ d, ∀ c ∈ cs, P d → P (d.run c)) (h : P d) :
    P (d.runs cs) := by
  induction cs generalizing d with
  | nil => exact h
  | cons c cs ih =>
    exact ih (fun d c' hc => hP d c' (List.mem_cons_of_mem _ hc)) (hP d c List.mem_cons_self h)

theorem Sane.runs (h : d.Sane) (cs : List (SysCall β)) : (d.runs cs).Sane :=
  runs_keeps (fun _ c _ h => h.run c) h

theorem runs_append (cs cs' : List (SysCall β)) : d.runs (cs ++ cs') = (d.runs cs).runs cs' :=
  List.foldl_append

/-- What is there stays, unless a call changes it. -/
theorem Change.entry (hc : d.Change c d') (he : d.entry q ≠ none) (hq : q ∉ c.changes) :
    d'.entry q = d.entry q := by
  cases hc with
  | idle => rfl
  | @mkdir p hnone =>
    have hne : q ≠ p := fun hqp => he (hqp ▸ hnone)
    exact entry_setEntry.trans (if_neg hne)
  | @create p hnone empty =>
    have hne : q ≠ p := fun hqp => he (hqp ▸ hnone)
    exact (entry_setEntry (d := d)).trans (if_neg hne)
  | write hn f => rfl
  | fsync hn => rfl
  | rename hne =>
    simp only [SysCall.changes, List.mem_cons, List.not_mem_nil, or_false, not_or] at hq
    rw [entry_setEntry, if_neg hq.1, entry_setEntry, if_neg hq.2]
  | unlink p =>
    have hne : q ≠ p := fun hqp => hq (by simp [SysCall.changes, hqp])
    exact entry_setEntry.trans (if_neg hne)
  | fsyncDir p => rfl

/-- A file is where it was, or where a call has put it. -/
theorem Change.entry_of {n : Nat} (hc : d.Change c d') (hq : q ∉ c.places)
    (h : d'.entry q = some (.file n)) : d.entry q = some (.file n) := by
  cases hc with
  | idle => exact h
  | mkdir hnone =>
    rw [entry_setEntry] at h
    split at h
    · cases h
    · exact h
  | @create p hnone empty =>
    have hne : q ≠ p := fun hqp => hq (by simp [SysCall.places, hqp])
    exact ((entry_setEntry (d := d)).trans (if_neg hne)).symm.trans h
  | write hn f => exact h
  | fsync hn => exact h
  | @rename src dst hne =>
    have hqd : q ≠ dst := fun hqd => hq (by simp [SysCall.places, hqd])
    rw [entry_setEntry, entry_setEntry, if_neg hqd] at h
    split at h
    · cases h
    · exact h
  | unlink p =>
    rw [entry_setEntry] at h
    split at h
    · cases h
    · exact h
  | fsyncDir p => exact h

theorem run_create (h : d.entry p = none) (empty : β) :
    d.run (.create p empty) =
      { (d.setEntry p (some (.file d.next))).setBytes d.next empty with next := d.next + 1 } := by
  rw [run, if_pos h]

theorem run_write {n : Nat} (h : d.entry p = some (.file n)) (f : β → β) :
    d.run (.write p f) = d.setBytes n (f (d.bytes n)) := by
  simp only [run, h]

theorem run_fsync {n : Nat} (h : d.entry p = some (.file n)) :
    d.run (.fsync p) = { d with mayBytes := Function.update d.mayBytes n (· = d.bytes n) } := by
  simp only [run, h]

theorem run_rename {src dst : Path} (hne : src ≠ dst) :
    d.run (.rename src dst) = (d.setEntry dst (d.entry src)).setEntry src none := by
  rw [run, if_neg hne]

theorem view_mkdir : (d.run (.mkdir p)).view q =
    if q = p ∧ d.view p = none then some .dir else d.view q := by
  simp only [view_eq_none, run]
  by_cases h : d.entry p = none
  · simp only [if_pos h, view, entry_setEntry]
    by_cases hq : q = p
    · simp [hq, h]
    · simp [hq, setEntry]
  · simp only [h, and_false, if_false]

/-- Making directories makes those that are not there. -/
theorem view_mkdirs (ps : List Path) : (d.runs (ps.map .mkdir)).view q =
    if q ∈ ps ∧ d.view q = none then some .dir else d.view q := by
  induction ps generalizing d with
  | nil => simp [runs]
  | cons p ps ih =>
    have hrest : (d.runs ((p :: ps).map .mkdir)).view q =
        ((d.run (.mkdir p)).runs (ps.map .mkdir)).view q := rfl
    rw [hrest, ih, view_mkdir]
    by_cases hq : q = p
    · subst hq
      by_cases hn : d.view q = none
      · simp [hn]
      · simp [hn]
    · simp [hq]

theorem view_create (hs : d.Sane) (h : d.view p = none) (empty : β) :
    (d.run (.create p empty)).view q = if q = p then some (.leaf empty) else d.view q := by
  rw [run_create (view_eq_none.mp h)]
  by_cases hq : q = p
  · simp [hq, view, setBytes, setEntry]
  · simp only [view, setBytes, entry_setEntry, hq, if_false]
    cases he : d.entry q with
    | none => rfl
    | some e =>
      cases e with
      | dir => rfl
      | file n =>
        simp only [setEntry]
        rw [Function.update_of_ne (Nat.ne_of_lt (hs.lt q n he))]

theorem view_write (hs : d.Sane) (h : d.view p = some (.leaf x)) (f : β → β) :
    (d.run (.write p f)).view q = if q = p then some (.leaf (f x)) else d.view q := by
  obtain ⟨n, hn, rfl⟩ := view_eq_leaf.mp h
  rw [run_write hn]
  by_cases hq : q = p
  · simp [hq, view, setBytes, hn]
  · simp only [view, setBytes, hq, if_false]
    cases he : d.entry q with
    | none => rfl
    | some e =>
      cases e with
      | dir => rfl
      | file m =>
        have hne : m ≠ n := by
          rintro rfl
          exact hq (hs.inj q p m he hn)
        simp only [Function.update_of_ne hne]

theorem view_rename {src dst : Path} (hne : src ≠ dst) : (d.run (.rename src dst)).view q =
    if q = src then none else if q = dst then d.view src else d.view q := by
  rw [run_rename hne]
  simp only [view, entry_setEntry]
  by_cases hs : q = src
  · simp [hs]
  · by_cases hd : q = dst
    · simp [hd, hne.symm, setEntry]
    · simp [hs, hd, setEntry]

theorem view_unlink : (d.run (.unlink p)).view q = if q = p then none else d.view q := by
  simp only [run, view, entry_setEntry]
  by_cases hq : q = p
  · simp [hq]
  · simp [hq, setEntry]

theorem view_fsync : (d.run (.fsync p)).view q = d.view q := by
  simp only [run]
  split
  · rfl
  · rfl

theorem view_fsyncDir : (d.run (.fsyncDir p)).view q = d.view q := rfl

end Disk

end FileTree
