import Dpc.Lib.Disk

/-! What is left of a disk after a power loss, whatever was not flushed. -/

namespace FileTree

namespace Disk

variable {β : Type}

/-- The file under a path, where all directories above it are there. -/
def found (entry : Path → Option Entry) (bytes : Nat → β) (p : Path) : Option β :=
  if ∀ q ∈ p.inits, q ≠ [] → q ≠ p → entry q = some .dir then
    match entry p with
    | some (.file n) => some (bytes n)
    | _ => none
  else none

/-- The files that are found after a power loss: each entry and each file is in one of the
states that it may be in. -/
def Survives (d : Disk β) (w : Path → Option β) : Prop :=
  ∃ entry bytes, (∀ p, d.mayEntry p (entry p)) ∧ (∀ n, d.mayBytes n (bytes n)) ∧
    w = found entry bytes

/-- Only what is seen may be found under the path. -/
def Certain (d : Disk β) (p : Path) : Prop := ∀ e, d.mayEntry p e → e = d.entry p

/-- A directory that is certain. -/
structure IsDir (d : Disk β) (p : Path) : Prop where
  entry : d.entry p = some .dir
  certain : d.Certain p

/-- A file whose bytes were flushed. -/
def Synced (d : Disk β) (p : Path) (x : β) : Prop :=
  ∃ n, d.entry p = some (.file n) ∧ d.bytes n = x ∧ ∀ y, d.mayBytes n y → y = x

/-- A file that is certain, with its bytes. -/
structure Holds (d : Disk β) (p : Path) (x : β) : Prop where
  synced : d.Synced p x
  certain : d.Certain p

/-- Whatever is found under the path is a file with such bytes, and no other path has it. -/
def Firmly (d : Disk β) (p : Path) (X : β → Prop) : Prop :=
  ∀ e, d.mayEntry p e → ∃ n, e = some (.file n) ∧ n < d.next ∧
    (∀ q, d.entry q = some (.file n) → q = p) ∧ ∀ y, d.mayBytes n y → X y

/-- A file that is seen under the path was flushed. -/
def Clean (d : Disk β) (p : Path) : Prop := ∀ x, d.view p = some (.leaf x) → d.Synced p x

/-- No file is there, and none may be found. -/
structure FileFree (d : Disk β) (p : Path) : Prop where
  now : ∀ n, d.entry p ≠ some (.file n)
  later : ∀ n, ¬d.mayEntry p (some (.file n))

/-- What is seen may be what is found. -/
structure Possible (d : Disk β) : Prop where
  entry : ∀ p, d.mayEntry p (d.entry p)
  bytes : ∀ n, d.mayBytes n (d.bytes n)

open Classical in
/-- The bytes that are found under a path, whatever is lost. -/
noncomputable def sure (d : Disk β) (p : Path) : Option β :=
  if h : ∃ x, d.Holds p x ∧ ∀ q ∈ p.inits, q ≠ [] → q ≠ p → d.IsDir q then some h.choose else none

variable {d d' : Disk β} {c : SysCall β} {cs : List (SysCall β)} {p q : Path} {x : β}

theorem Certain.fsyncDir (h : d.Certain q) : (d.run (.fsyncDir p)).Certain q := by
  intro e he
  simp only [run] at he ⊢
  split at he
  · exact he
  · exact h e he

theorem Certain.setEntry {e : Option Entry} (h : d.Certain q) (hne : q ≠ p) :
    (d.setEntry p e).Certain q := by
  intro e' he
  rw [entry_setEntry, if_neg hne]
  rcases he with he | ⟨hq, _⟩
  · exact h e' he
  · exact absurd hq hne

/-- What is certain stays so. -/
theorem Change.certain (hc : d.Change c d') (h : d.Certain q) (he : d.entry q ≠ none)
    (hq : q ∉ c.changes) : d'.Certain q := by
  cases hc with
  | idle => exact h
  | mkdir hnone => exact h.setEntry fun hqp => he (hqp ▸ hnone)
  | create hnone empty => exact h.setEntry fun hqp => he (hqp ▸ hnone)
  | write hn f => exact h
  | fsync hn => exact h
  | rename hne =>
    simp only [SysCall.changes, List.mem_cons, List.not_mem_nil, or_false, not_or] at hq
    exact (h.setEntry hq.2).setEntry hq.1
  | unlink p => exact h.setEntry fun hqp => hq (by simp [SysCall.changes, hqp])
  | fsyncDir p => exact h.fsyncDir

theorem Certain.runs (h : d.Certain q) (he : d.entry q ≠ none) (hq : ∀ c ∈ cs, q ∉ c.changes) :
    (d.runs cs).Certain q :=
  (runs_keeps (P := fun d => d.entry q ≠ none ∧ d.Certain q)
    (fun d c hc h => ⟨by rw [(d.change c).entry h.1 (hq c hc)]; exact h.1,
      (d.change c).certain h.2 h.1 (hq c hc)⟩) ⟨he, h⟩).2

theorem Change.isDir (hc : d.Change c d') (h : d.IsDir q) (hq : q ∉ c.changes) : d'.IsDir q := by
  have hne : d.entry q ≠ none := by
    rw [h.entry]
    simp
  exact ⟨(hc.entry hne hq).trans h.entry, hc.certain h.certain hne hq⟩

theorem IsDir.runs (h : d.IsDir q) (hq : ∀ c ∈ cs, q ∉ c.changes) : (d.runs cs).IsDir q :=
  runs_keeps (P := fun d => d.IsDir q) (fun d c hc h => (d.change c).isDir h (hq c hc)) h

theorem Synced.entry_ne (h : d.Synced q x) : d.entry q ≠ none := by
  obtain ⟨n, hn, _⟩ := h
  rw [hn]
  simp

theorem Synced.view (h : d.Synced q x) : d.view q = some (.leaf x) := by
  obtain ⟨n, hn, hx, _⟩ := h
  exact view_eq_leaf.mpr ⟨n, hn, hx⟩

theorem Change.synced (hc : d.Change c d') (hs : d.Sane) (h : d.Synced q x) (hq : q ∉ c.changes) :
    d'.Synced q x := by
  have hne := h.entry_ne
  obtain ⟨n, hn, hbytes, hmay⟩ := h
  refine ⟨n, (hc.entry hne hq).trans hn, ?_⟩
  have other : ∀ (m : Nat) (y : β) (d' : Disk β), m ≠ n → d'.bytes = d.bytes →
      d'.mayBytes = d.mayBytes →
      (d'.setBytes m y).bytes n = x ∧ ∀ z, (d'.setBytes m y).mayBytes n z → z = x := by
    intro m y d' hne hb hm
    simp only [setBytes, Function.update_of_ne hne.symm, hb, hm]
    exact ⟨hbytes, hmay⟩
  cases hc with
  | idle => exact ⟨hbytes, hmay⟩
  | mkdir hnone => exact ⟨hbytes, hmay⟩
  | create hnone empty =>
    exact other d.next empty (d.setEntry _ (some (.file d.next))) (Nat.ne_of_gt (hs.lt q n hn)) rfl rfl
  | @write p m hm f =>
    have hne : p ≠ q := fun hpq => hq (by simp [SysCall.changes, hpq])
    exact other m _ d (fun he => hne (hs.inj p q n (he ▸ hm) hn)) rfl rfl
  | @fsync p m hm =>
    refine ⟨hbytes, fun y hy => ?_⟩
    by_cases he : n = m
    · subst he
      simp only [Function.update_self] at hy
      rw [hy, hbytes]
    · simp only [Function.update_of_ne he] at hy
      exact hmay y hy
  | rename hne => exact ⟨hbytes, hmay⟩
  | unlink p => exact ⟨hbytes, hmay⟩
  | fsyncDir p => exact ⟨hbytes, hmay⟩

theorem Synced.run (hs : d.Sane) (h : d.Synced q x) (hq : q ∉ c.changes) : (d.run c).Synced q x :=
  (d.change c).synced hs h hq

theorem Synced.runs (hs : d.Sane) (h : d.Synced q x) (hq : ∀ c ∈ cs, q ∉ c.changes) :
    (d.runs cs).Synced q x :=
  (runs_keeps (P := fun d => d.Sane ∧ d.Synced q x)
    (fun _ c hc h => ⟨h.1.run c, h.2.run h.1 (hq c hc)⟩) ⟨hs, h⟩).2

theorem Holds.runs (hs : d.Sane) (h : d.Holds q x) (hq : ∀ c ∈ cs, q ∉ c.changes) :
    (d.runs cs).Holds q x :=
  ⟨h.synced.runs hs hq, h.certain.runs h.synced.entry_ne hq⟩

theorem Clean.run (hs : d.Sane) (h : d.Clean q) (hq : q ∉ c.concerns) : (d.run c).Clean q := by
  rw [SysCall.concerns, List.mem_append, not_or] at hq
  intro x hx
  obtain ⟨n, hn, _⟩ := view_eq_leaf.mp hx
  have hold := view_eq_leaf.mpr ⟨n, (d.change c).entry_of hq.2 hn, rfl⟩
  have hnew := (h _ hold).run hs hq.1
  have he := hnew.view.symm.trans hx
  simp only [Option.some.injEq, Node.leaf.injEq] at he
  rwa [he] at hnew

theorem Clean.runs (hs : d.Sane) (h : d.Clean q) (hq : ∀ c ∈ cs, q ∉ c.concerns) :
    (d.runs cs).Clean q :=
  (runs_keeps (P := fun d => d.Sane ∧ d.Clean q)
    (fun _ c hc h => ⟨h.1.run c, h.2.run h.1 (hq c hc)⟩) ⟨hs, h⟩).2

theorem FileFree.setEntry {e : Option Entry} (h : d.FileFree q)
    (hne : q = p → ∀ n, e ≠ some (.file n)) : (d.setEntry p e).FileFree q := by
  constructor
  · intro n
    rw [entry_setEntry]
    split
    · rename_i hqp
      exact hne hqp n
    · exact h.now n
  · intro n hn
    rcases hn with hn | ⟨hqp, he⟩
    · exact h.later n hn
    · exact hne hqp n he.symm

theorem Change.fileFree (hc : d.Change c d') (h : d.FileFree q) (hq : q ∉ c.places) :
    d'.FileFree q := by
  cases hc with
  | idle => exact h
  | mkdir hnone => exact h.setEntry fun _ n => by simp
  | @create p hnone empty =>
    have hne : q ≠ p := fun hqp => hq (by simp [SysCall.places, hqp])
    have hnew := h.setEntry (e := some (.file d.next)) fun hqp => absurd hqp hne
    exact ⟨hnew.now, hnew.later⟩
  | write hn f => exact ⟨h.now, h.later⟩
  | fsync hn => exact ⟨h.now, h.later⟩
  | @rename src dst hne =>
    have hqd : q ≠ dst := fun hqd => hq (by simp [SysCall.places, hqd])
    exact (h.setEntry fun hqd' => absurd hqd' hqd).setEntry fun _ n => by simp
  | unlink p => exact h.setEntry fun _ n => by simp
  | fsyncDir p =>
    refine ⟨h.now, fun n hn => ?_⟩
    simp only [Disk.run] at hn
    split at hn
    · exact h.now n hn.symm
    · exact h.later n hn

theorem FileFree.runs (h : d.FileFree q) (hq : ∀ c ∈ cs, q ∉ c.places) : (d.runs cs).FileFree q :=
  runs_keeps (P := fun d => d.FileFree q) (fun d c hc h => (d.change c).fileFree h (hq c hc)) h

theorem Possible.setEntry {e : Option Entry} (h : d.Possible) : (d.setEntry p e).Possible := by
  refine ⟨fun q => ?_, h.bytes⟩
  rw [entry_setEntry]
  split
  · rename_i hqp
    exact .inr ⟨hqp, rfl⟩
  · exact .inl (h.entry q)

theorem Possible.setBytes {n : Nat} (h : d.Possible) : (d.setBytes n x).Possible := by
  refine ⟨h.entry, fun m => ?_⟩
  simp only [Disk.setBytes]
  by_cases hm : m = n
  · subst hm
    simp
  · simp only [Function.update_of_ne hm]
    exact h.bytes m

theorem Change.possible (hc : d.Change c d') (h : d.Possible) : d'.Possible := by
  cases hc with
  | idle => exact h
  | mkdir hnone => exact h.setEntry
  | @create p hnone empty =>
    have hnew := (h.setEntry (p := p) (e := some (.file d.next))).setBytes (n := d.next) (x := empty)
    exact ⟨hnew.entry, hnew.bytes⟩
  | write hn f => exact h.setBytes
  | @fsync p n hn =>
    refine ⟨h.entry, fun m => ?_⟩
    by_cases hm : m = n
    · subst hm
      simp
    · simp only [Function.update_of_ne hm]
      exact h.bytes m
  | rename hne => exact h.setEntry.setEntry
  | unlink p => exact h.setEntry
  | fsyncDir p =>
    refine ⟨fun q => ?_, h.bytes⟩
    simp only [Disk.run]
    split
    · trivial
    · exact h.entry q

theorem Possible.run (h : d.Possible) (c : SysCall β) : (d.run c).Possible := (d.change c).possible h

theorem Possible.runs (h : d.Possible) (cs : List (SysCall β)) : (d.runs cs).Possible :=
  runs_keeps (fun _ c _ h => h.run c) h

/-- A new file, written and flushed. -/
theorem synced_new (h : d.entry p = none) (empty : β) :
    (d.runs [.create p empty, .write p fun _ => x, .fsync p]).Synced p x := by
  have hcreate : (d.run (.create p empty)).entry p = some (.file d.next) := by
    rw [run_create h]
    exact entry_setEntry.trans (if_pos rfl)
  have hwrite : ((d.run (.create p empty)).run (.write p fun _ => x)).entry p =
      some (.file d.next) := by
    rw [run_write hcreate]
    exact hcreate
  simp only [runs, List.foldl_cons, List.foldl_nil]
  rw [run_fsync hwrite]
  refine ⟨d.next, hwrite, ?_, fun y hy => ?_⟩
  · rw [run_write hcreate]
    simp [setBytes]
  · simp only [Function.update_self] at hy
    rw [hy, run_write hcreate]
    simp [setBytes]

theorem Holds.firmly {X : β → Prop} (hs : d.Sane) (h : d.Holds p x) (hX : X x) : d.Firmly p X := by
  obtain ⟨⟨n, hn, _, hmay⟩, hcertain⟩ := h
  refine fun e he => ⟨n, (hcertain e he).trans hn, hs.lt p n hn, fun q hq => hs.inj q p n hq hn, ?_⟩
  intro y hy
  rwa [hmay y hy]

theorem Firmly.mono {X Y : β → Prop} (h : d.Firmly p X) (hXY : ∀ y, X y → Y y) : d.Firmly p Y := by
  intro e he
  obtain ⟨n, hn, hlt, hown, hX⟩ := h e he
  exact ⟨n, hn, hlt, hown, fun y hy => hXY y (hX y hy)⟩

/-- No more may be found under the path, its files are no other path's, and no more may be found
in them. -/
theorem Firmly.of {X : β → Prop} {d' : Disk β} (h : d.Firmly p X)
    (hentry : ∀ e, d'.mayEntry p e → d.mayEntry p e) (hnext : d.next ≤ d'.next)
    (howner : ∀ n, n < d.next → (∀ q, d.entry q = some (.file n) → q = p) →
      ∀ q, d'.entry q = some (.file n) → q = p)
    (hbytes : ∀ n, n < d.next → (∀ q, d.entry q = some (.file n) → q = p) →
      (∀ y, d.mayBytes n y → X y) → ∀ y, d'.mayBytes n y → X y) : d'.Firmly p X := by
  intro e he
  obtain ⟨n, hn, hlt, hown, hX⟩ := h e (hentry e he)
  exact ⟨n, hn, Nat.lt_of_lt_of_le hlt hnext, howner n hlt hown, hbytes n hlt hown hX⟩

theorem Change.firmly {X : β → Prop} (hc : d.Change c d') (hd : d.Possible) (h : d.Firmly q X)
    (hq : q ∉ c.changes) : d'.Firmly q X := by
  obtain ⟨n, hn, _⟩ := h _ (hd.entry q)
  have hne : d.entry q ≠ none := by
    rw [hn]
    simp
  cases hc with
  | idle => exact h
  | @mkdir p hnone =>
    have hqp : q ≠ p := fun hqp => hne (hqp ▸ hnone)
    refine h.of ?_ (Nat.le_refl _) ?_ fun _ _ _ hX => hX
    · exact fun e he => he.resolve_right fun hc => hqp hc.1
    · intro m _ hown r hr
      rw [entry_setEntry] at hr
      split at hr
      · cases hr
      · exact hown r hr
  | @create p hnone empty =>
    have hqp : q ≠ p := fun hqp => hne (hqp ▸ hnone)
    refine h.of ?_ (Nat.le_succ _) ?_ ?_
    · exact fun e he => he.resolve_right fun hc => hqp hc.1
    · intro m hm hown r hr
      have hr' : (if r = p then some (Entry.file d.next) else d.entry r) = some (.file m) :=
        (entry_setEntry (d := d)).symm.trans hr
      split at hr'
      · cases hr'
        exact absurd hm (Nat.lt_irrefl _)
      · exact hown r hr'
    · intro m hm _ hX y hy
      simp only [setBytes, Function.update_of_ne (Nat.ne_of_lt hm)] at hy
      exact hX y hy
  | @write p m hm f =>
    have hpq : p ≠ q := fun hpq => hq (by simp [SysCall.changes, hpq])
    refine h.of (fun e he => he) (Nat.le_refl _) (fun _ _ hown => hown) ?_
    intro m' _ hown hX y hy
    have hmm : m' ≠ m := by
      rintro rfl
      exact hpq (hown p hm)
    simp only [setBytes, Function.update_of_ne hmm] at hy
    exact hX y hy
  | @fsync p m hm =>
    refine h.of (fun e he => he) (Nat.le_refl _) (fun _ _ hown => hown) ?_
    intro m' _ _ hX y hy
    by_cases hmm : m' = m
    · subst hmm
      simp only [Function.update_self] at hy
      rw [hy]
      exact hX _ (hd.bytes _)
    · simp only [Function.update_of_ne hmm] at hy
      exact hX y hy
  | @rename src dst hne =>
    simp only [SysCall.changes, List.mem_cons, List.not_mem_nil, or_false, not_or] at hq
    refine h.of ?_ (Nat.le_refl _) ?_ fun _ _ _ hX => hX
    · exact fun e he => (he.resolve_right fun hc => hq.1 hc.1).resolve_right fun hc => hq.2 hc.1
    · intro m _ hown r hr
      rw [entry_setEntry, entry_setEntry] at hr
      split at hr
      · cases hr
      · split at hr
        · exact absurd (hown src hr).symm hq.1
        · exact hown r hr
  | unlink p =>
    have hqp : q ≠ p := fun hqp => hq (by simp [SysCall.changes, hqp])
    refine h.of ?_ (Nat.le_refl _) ?_ fun _ _ _ hX => hX
    · exact fun e he => he.resolve_right fun hc => hqp hc.1
    · intro m _ hown r hr
      rw [entry_setEntry] at hr
      split at hr
      · cases hr
      · exact hown r hr
  | fsyncDir p =>
    refine h.of (fun e he => ?_) (Nat.le_refl _) (fun _ _ hown => hown) fun _ _ _ hX => hX
    simp only [Disk.run] at he
    split at he
    · rw [he]
      exact hd.entry q
    · exact he

theorem Firmly.run {X : β → Prop} (hd : d.Possible) (h : d.Firmly q X) (hq : q ∉ c.changes) :
    (d.run c).Firmly q X := (d.change c).firmly hd h hq

theorem Firmly.runs {X : β → Prop} (hd : d.Possible) (h : d.Firmly q X)
    (hq : ∀ c ∈ cs, q ∉ c.changes) : (d.runs cs).Firmly q X :=
  (runs_keeps (P := fun d => d.Possible ∧ d.Firmly q X)
    (fun _ c hc h => ⟨h.1.run c, h.2.run h.1 (hq c hc)⟩) ⟨hd, h⟩).2

/-- While a flushed file is moved over another one, one of the two is found. -/
theorem Firmly.rename {X : β → Prop} {src dst : Path} (hs : d.Sane) (h : d.Firmly dst X)
    (hsrc : d.Synced src x) (hX : X x) (hne : src ≠ dst) : (d.run (.rename src dst)).Firmly dst X := by
  obtain ⟨n, hn, _, hmay⟩ := hsrc
  have hafter : ∀ q m, (d.run (.rename src dst)).entry q = some (.file m) →
      q = dst ∧ m = n ∨ q ≠ src ∧ d.entry q = some (.file m) := by
    intro q m hq
    rw [run_rename hne, entry_setEntry, entry_setEntry] at hq
    split at hq
    · cases hq
    · rename_i hqs
      split at hq
      · rename_i hqd
        rw [hn] at hq
        cases hq
        exact .inl ⟨hqd, rfl⟩
      · exact .inr ⟨hqs, hq⟩
  intro e he
  rw [run_rename hne] at he
  rcases he with (he | ⟨_, rfl⟩) | ⟨hds, _⟩
  · obtain ⟨m, hm, hlt, hown, hXm⟩ := h e he
    refine ⟨m, hm, ?_, fun q hq => ?_, fun y hy => hXm y ?_⟩
    · rwa [run_rename hne]
    · exact (hafter q m hq).elim (fun hc => hc.1) fun hc => hown q hc.2
    · rwa [run_rename hne] at hy
  · refine ⟨n, hn, ?_, fun q hq => ?_, fun y hy => ?_⟩
    · rw [run_rename hne]
      exact hs.lt src n hn
    · exact (hafter q n hq).elim (fun hc => hc.1) fun hc => absurd (hs.inj q src n hc.2 hn) hc.1
    · rw [run_rename hne] at hy
      rw [hmay y hy]
      exact hX
  · exact absurd hds.symm hne

theorem synced_rename {src dst : Path} (h : d.Synced src x) (hne : src ≠ dst) :
    (d.run (.rename src dst)).Synced dst x := by
  obtain ⟨n, hn, hrest⟩ := h
  refine ⟨n, ?_, ?_⟩
  · rw [run_rename hne, entry_setEntry, if_neg hne.symm, entry_setEntry, if_pos rfl, hn]
  · rw [run_rename hne]
    exact hrest

/-- What is moved to the path was flushed. -/
theorem Synced.clean (h : d.Synced p x) : d.Clean p := by
  intro y hy
  rw [h.view] at hy
  cases hy
  exact h

theorem certain_fsyncDir (hp : p ≠ []) : (d.run (.fsyncDir p.dropLast)).Certain p := by
  intro e he
  simp only [run] at he ⊢
  rwa [if_pos ⟨hp, trivial⟩] at he

variable {w : Path → Option β}

/-- What is firm is found, if the directories above it are. -/
theorem Survives.firmly {X : β → Prop} (h : d.Survives w)
    (hdirs : ∀ q ∈ p.inits, q ≠ [] → q ≠ p → d.IsDir q) (hp : d.Firmly p X) :
    ∃ x, w p = some x ∧ X x := by
  obtain ⟨entry, bytes, hentry, hbytes, rfl⟩ := h
  obtain ⟨n, hn, _, _, hX⟩ := hp _ (hentry p)
  refine ⟨bytes n, ?_, hX _ (hbytes n)⟩
  have hall : ∀ q ∈ p.inits, q ≠ [] → q ≠ p → entry q = some .dir := by
    intro q hq hne hqp
    obtain ⟨hdir, hcertain⟩ := hdirs q hq hne hqp
    rw [hcertain _ (hentry q), hdir]
  rw [found, if_pos hall, hn]

theorem sure_eq_some : d.sure p = some x ↔
    d.Holds p x ∧ ∀ q ∈ p.inits, q ≠ [] → q ≠ p → d.IsDir q := by
  unfold sure
  constructor
  · intro h
    split at h
    · rename_i hex
      cases h
      exact hex.choose_spec
    · cases h
  · intro h
    have hex : ∃ x, d.Holds p x ∧ ∀ q ∈ p.inits, q ≠ [] → q ≠ p → d.IsDir q := ⟨x, h⟩
    rw [dif_pos hex, Option.some.injEq]
    have hview := hex.choose_spec.1.synced.view.symm.trans h.1.synced.view
    simpa using hview

theorem Survives.sure (hs : d.Sane) (h : d.Survives w) (hp : d.sure p = some x) : w p = some x := by
  obtain ⟨hholds, hdirs⟩ := sure_eq_some.mp hp
  obtain ⟨y, hy, rfl⟩ := h.firmly hdirs (hholds.firmly (X := (· = x)) hs rfl)
  exact hy

theorem sure_runs (hs : d.Sane) (h : d.sure p = some x) (hp : ∀ c ∈ cs, p ∉ c.changes)
    (hdirs : ∀ c ∈ cs, ∀ q, d.IsDir q → q ∉ c.changes) : (d.runs cs).sure p = some x := by
  obtain ⟨hholds, habove⟩ := sure_eq_some.mp h
  refine sure_eq_some.mpr ⟨hholds.runs hs hp, fun q hq hne hself => ?_⟩
  have hdir := habove q hq hne hself
  exact hdir.runs fun c hc => hdirs c hc q hdir

theorem Survives.fileFree (h : d.Survives w) (hp : d.FileFree p) : w p = none := by
  obtain ⟨entry, bytes, hentry, _, rfl⟩ := h
  unfold found
  split
  · split
    · rename_i n hn
      exact absurd (hn ▸ hentry p) (hp.later n)
    · rfl
  · rfl

theorem Possible.survives (h : d.Possible) : d.Survives (found d.entry d.bytes) :=
  ⟨d.entry, d.bytes, h.entry, h.bytes, rfl⟩

/-- An entry that was not there is not certain until its directory is flushed. -/
theorem Change.mayEntry_none (hc : d.Change c d') (h : d.mayEntry q none)
    (hq : c ≠ .fsyncDir q.dropLast) : d'.mayEntry q none := by
  cases hc with
  | idle => exact h
  | mkdir hnone => exact .inl h
  | create hnone empty => exact .inl h
  | write hn f => exact h
  | fsync hn => exact h
  | rename hne => exact .inl (.inl h)
  | unlink p => exact .inl h
  | fsyncDir p =>
    have hne : ¬(q ≠ [] ∧ q.dropLast = p) := fun hqp => hq (by rw [hqp.2])
    simp only [run, if_neg hne]
    exact h

theorem mayEntry_none_runs (h : d.mayEntry q none) (hc : .fsyncDir q.dropLast ∉ cs) :
    (d.runs cs).mayEntry q none := by
  induction cs generalizing d with
  | nil => exact h
  | cons c cs ih =>
    refine ih ((d.change c).mayEntry_none h ?_) fun hm => hc (List.mem_cons_of_mem _ hm)
    rintro rfl
    exact hc List.mem_cons_self

/-- All below a directory may be lost with its entry, and nothing else. -/
theorem Possible.survives_without (h : d.Possible) (hq : d.mayEntry q none) (hne : q ≠ []) :
    ∃ w, d.Survives w ∧ ∀ p, w p = if q <+: p then none else found d.entry d.bytes p := by
  refine ⟨_, ⟨Function.update d.entry q none, d.bytes, fun p => ?_, h.bytes, rfl⟩, fun p => ?_⟩
  · by_cases hp : p = q
    · rw [hp, Function.update_self]
      exact hq
    · rw [Function.update_of_ne hp]
      exact h.entry p
  · split
    · rename_i hpre
      unfold found
      split
      · rename_i hall
        by_cases hp : q = p
        · rw [← hp, Function.update_self]
        · have hdir := hall q ((List.mem_inits q p).mpr hpre) hne hp
          rw [Function.update_self] at hdir
          contradiction
      · rfl
    · rename_i hpre
      have hentry : ∀ r, r <+: p → Function.update d.entry q none r = d.entry r := by
        intro r hr
        rw [Function.update_of_ne]
        rintro rfl
        exact hpre hr
      have hall : (∀ r ∈ p.inits, r ≠ [] → r ≠ p → Function.update d.entry q none r = some .dir) ↔
          ∀ r ∈ p.inits, r ≠ [] → r ≠ p → d.entry r = some .dir := by
        refine forall₂_congr fun r hr => ?_
        rw [hentry r ((List.mem_inits r p).mp hr)]
      simp only [found, hall, hentry p (List.prefix_refl p)]

end Disk

end FileTree
