import Dpc.Common.EffectFacts
import Dpc.Lib.PowerLoss
import Dpc.Metadata.WalLog
import Mathlib.Data.Set.Finite.Basic

namespace Dpc
open Text FileTree Effects

/-- `<name>.tmp.<pid>.<now>` beside the file. -/
def FileUtils.makeTempPath (finalPath : Path) (pid now : Nat) : Path :=
  finalPath.dropLast ++
    [finalPath.getLast?.getD [] ++ ascii ".tmp." ++ decimal pid ++ ascii "." ++ decimal now]

/-- The file system counts on the names of this process at this time. -/
def FileUtils.NamesTemp (nameMax : NameMax) (pid now : Nat) : Prop :=
  nameMax.temp = (ascii ".tmp." ++ decimal pid ++ ascii "." ++ decimal now).length

namespace FsEffect

/-- The system calls of an effect that succeeds. `renameTmpToManifest` is the one that renames,
and the log the one append that is flushed. -/
def calls (pid now : Nat) : FsEffect → List (SysCall Bytes)
  | .ensureDirectory p => (p.inits.drop 1).map .mkdir
  | .replace p data _ =>
    let tmp := FileUtils.makeTempPath p pid now
    [.create tmp [], .write tmp fun _ => data, .fsync tmp] ++ [.rename tmp p, .fsyncDir p.dropLast]
  | .rename src dst => [.rename src dst, .fsyncDir dst.dropLast]
  | .append p data _ _ =>
    [.create p [], .write p (· ++ data)] ++ if p = WalLog.walPath then [.fsync p] else []
  | .remove p => [.unlink p]
  | .chmod _ _ => []

/-- The temporary files of an effect. -/
def temps (pid now : Nat) : FsEffect → List Path
  | .replace p _ _ => [FileUtils.makeTempPath p pid now]
  | _ => []

/-- `O_EXCL`: a temporary file is new. -/
def Fresh (pid now : Nat) (d : Disk Bytes) (i : FsEffect) : Prop :=
  ∀ q ∈ i.temps pid now, d.entry q = none

end FsEffect

/-- The file without its mode. -/
def bytesOf : Node File → Node Bytes
  | .dir => .dir
  | .leaf f => .leaf f.data

/-- What processes see of the disk is the tree. -/
def Shows (s : Fs) (d : Disk Bytes) : Prop := ∀ q, q ≠ [] → d.view q = (s.get? q).map bytesOf

namespace FsEffect

/-- An effect that takes place makes all its calls. -/
def Done (i : FsEffect) (d d' : Disk Bytes) : Prop :=
  ∃ pid now, i.Fresh pid now d ∧ d' = d.runs (i.calls pid now)

/-- The calls that an effect has made when it is stopped inside, or when its next call fails. The
data may be written in part; a rename that fails is followed by the removal of the temporary
file. -/
inductive Part (pid now : Nat) (s : Fs) : FsEffect → List (SysCall Bytes) → Prop where
  | directories (p : Path) (k : Nat) :
      Part pid now s (.ensureDirectory p) (((FsEffect.ensureDirectory p).calls pid now).take k)
  | temporary {p : Path} {data written : Bytes} {mode : UInt32} (k : Nat) (hw : written <+: data)
      (hk : 2 < k → written = data) :
      Part pid now s (.replace p data mode)
        ([.create (FileUtils.makeTempPath p pid now) [],
          .write (FileUtils.makeTempPath p pid now) fun _ => written,
          .fsync (FileUtils.makeTempPath p pid now)].take k)
  | refused {p : Path} {data : Bytes} {mode : UInt32} :
      Part pid now s (.replace p data mode)
        [.create (FileUtils.makeTempPath p pid now) [],
          .write (FileUtils.makeTempPath p pid now) fun _ => data,
          .fsync (FileUtils.makeTempPath p pid now), .unlink (FileUtils.makeTempPath p pid now)]
  | named {p : Path} {data : Bytes} {mode : UInt32} {t : Fs}
      (ha : Effect.apply (FsEffect.replace p data mode) s = .ok t) :
      Part pid now s (.replace p data mode)
        [.create (FileUtils.makeTempPath p pid now) [],
          .write (FileUtils.makeTempPath p pid now) fun _ => data,
          .fsync (FileUtils.makeTempPath p pid now), .rename (FileUtils.makeTempPath p pid now) p]
  | renamed {src dst : Path} {t : Fs} (ha : Effect.apply (FsEffect.rename src dst) s = .ok t) :
      Part pid now s (.rename src dst) [.rename src dst]
  | appended {p : Path} {data written : Bytes} {mode : UInt32} {failure : Exn} {t : Fs} (k : Nat)
      (hw : written <+: data) (ha : Effect.apply (FsEffect.append p data mode failure) s = .ok t) :
      Part pid now s (.append p data mode failure)
        ([.create p [], .write p (· ++ written)].take k)
  | whole {i : FsEffect} {t : Fs} (ha : Effect.apply i s = .ok t) : Part pid now s i (i.calls pid now)

/-- An effect that is stopped inside, and what processes then see. -/
def Stopped (i : FsEffect) (s : Fs) (d : Disk Bytes) (t : Fs) (d' : Disk Bytes) : Prop :=
  ∃ pid now cs, i.Fresh pid now d ∧ Part pid now s i cs ∧ d' = d.runs cs ∧ Shows t d' ∧
    t.nameMax = s.nameMax

/-- An effect has made these calls, or so many of its calls, on a disk that shows the tree. -/
structure Making (i : FsEffect) (s : Fs) (d : Disk Bytes) (cs : List (SysCall Bytes)) : Prop where
  shows : Shows s d
  sane : d.Sane
  part : ∃ pid now, i.Fresh pid now d ∧ Part pid now s i cs

/-- The effect can take place and touches the path. -/
def Reaches (i : FsEffect) (s : Fs) (q : Path) : Prop := q ∈ i.touches ∧ ∃ t, Effect.apply i s = .ok t

end FsEffect

/-- Not the name of a temporary file: these end in a time. -/
def Undated (q : Path) : Prop :=
  ∃ n b, q.getLast? = some n ∧ n.getLast? = some b ∧ isDigit b = false

namespace FileUtils

variable {p q : Path} {pid now now' : Nat}

theorem makeTempPath_ne_nil : makeTempPath p pid now ≠ [] := by
  simp [makeTempPath]

/-- A temporary name ends in a digit. -/
theorem last_makeTempPath {n : Name} (h : (makeTempPath p pid now).getLast? = some n) :
    ∃ b ∈ n.getLast?, isDigit b = true := by
  simp only [makeTempPath, List.getLast?_append, List.getLast?_singleton, Option.some_or,
    Option.some.injEq] at h
  subst h
  obtain ⟨b, hb⟩ : ∃ b, (decimal now).getLast? = some b :=
    Option.isSome_iff_exists.mp (by simp [decimal_ne_nil now])
  refine ⟨b, ?_, isDigit_of_mem_decimal (List.mem_of_getLast? hb)⟩
  rw [List.getLast?_append, hb]
  rfl

theorem makeTempPath_ne_self : makeTempPath p pid now ≠ p := by
  intro he
  have hlast := congrArg List.getLast? he
  cases hp : p.getLast? with
  | none => simp [makeTempPath, hp] at hlast
  | some n =>
    have hlen : n.length < (n ++ ascii ".tmp." ++ decimal pid ++ ascii "." ++ decimal now).length := by
      have hdot : (ascii ".tmp.").length = 5 := by decide
      simp only [List.length_append, hdot]
      omega
    simp only [makeTempPath, hp, Option.getD_some, List.getLast?_append, List.getLast?_singleton,
      Option.some_or, Option.some.injEq] at hlast
    rw [hlast] at hlen
    exact Nat.lt_irrefl _ hlen

theorem makeTempPath_ne {n : Name} {b : UInt8} (hq : q.getLast? = some n) (hn : n.getLast? = some b)
    (hb : isDigit b = false) : makeTempPath p pid now ≠ q := by
  rintro rfl
  obtain ⟨b', hb', hdigit⟩ := last_makeTempPath hq
  rw [hn, Option.mem_some_iff] at hb'
  subst hb'
  rw [hb] at hdigit
  contradiction

end FileUtils

namespace Shows

variable {s t : Fs} {d : Disk Bytes} {i : FsEffect} {p q : Path} {pid now : Nat}

theorem none_iff (h : Shows s d) (hq : q ≠ []) : d.view q = none ↔ s.get? q = none := by
  rw [h q hq]
  cases s.get? q with
  | none => simp
  | some x => simp

theorem dir (h : Shows s d) (hq : q ≠ []) (hd : s.get? q = some .dir) : d.view q = some .dir := by
  rw [h q hq, hd]
  rfl

theorem leaf {f : File} (h : Shows s d) (hf : s.leaf? q = some f) :
    d.view q = some (.leaf f.data) := by
  have hget := Tree.leaf?_eq_some.mp hf
  have hq : q ≠ [] := by
    rintro rfl
    simp at hget
  rw [h q hq, hget]
  rfl

theorem leaf?_of_view {x : Bytes} (h : Shows s d) (hq : q ≠ []) (hx : d.view q = some (.leaf x)) :
    ∃ f, s.leaf? q = some f ∧ f.data = x := by
  rw [h q hq, Option.map_eq_some_iff] at hx
  obtain ⟨node, hnode, hleaf⟩ := hx
  cases node with
  | dir => cases hleaf
  | leaf f =>
    cases hleaf
    exact ⟨f, Tree.leaf?_eq_some.mpr hnode, rfl⟩

theorem isDir (h : Shows s d) (hq : d.IsDir q) : s.get? q = some .dir := by
  by_cases hne : q = []
  · subst hne
    rfl
  · have hview := h q hne
    rw [Disk.view_eq_dir.mpr hq.entry] at hview
    obtain ⟨node, hnode, hdir⟩ := Option.map_eq_some_iff.mp hview.symm
    cases node with
    | dir => exact hnode
    | leaf f => cases hdir

/-- Without a loss, what is found is what is seen. -/
theorem found {f : File} (h : Shows s d) (hf : s.leaf? q = some f) :
    Disk.found d.entry d.bytes q = some f.data := by
  have habove : ∀ r ∈ q.inits, r ≠ [] → r ≠ q → d.entry r = some .dir := by
    intro r hr hne hself
    obtain ⟨rest, rfl⟩ := (List.mem_inits r q).mp hr
    have hrest : rest ≠ [] := by
      rintro rfl
      exact hself (List.append_nil r).symm
    refine Disk.view_eq_dir.mp (h.dir hne (s.dir_of_prefix hrest ?_))
    rw [Tree.leaf?_eq_some.mp hf]
    simp
  obtain ⟨n, hn, hx⟩ := Disk.view_eq_leaf.mp (h.leaf hf)
  rw [Disk.found, if_pos habove, hn, ← hx]

/-- The calls of `ensureDirectory` make the directories. -/
theorem ensureDirectory (h : Shows s d) (ha : Effect.apply (FsEffect.ensureDirectory p) s = .ok t) :
    Shows t (d.runs ((FsEffect.ensureDirectory p).calls pid now)) := by
  have hmk := orThrow_ok ha
  have hfree : ∀ q, q <+: p → s.leaf? q = none := (Tree.mkdirs_iff.mp ⟨t, hmk⟩).1
  intro q hq
  have hmem : q ∈ p.inits.drop 1 ↔ q <+: p := by
    cases p with
    | nil => simp [hq]
    | cons n rest =>
      rw [List.inits_cons, List.drop_one, List.tail_cons, ← List.mem_inits, List.inits_cons]
      simp [hq]
  rw [FsEffect.calls, Disk.view_mkdirs, Tree.mkdirs_get? hmk]
  simp only [hmem, h.none_iff hq]
  by_cases hp : q <+: p
  · rw [if_pos hp]
    cases hs : s.get? q with
    | none => simp [hp, bytesOf]
    | some x =>
      cases x with
      | dir => simp [h.dir hq hs, bytesOf]
      | leaf f =>
        have := hfree q hp
        rw [Tree.leaf?_eq_some.mpr hs] at this
        contradiction
  · rw [if_neg hp, if_neg fun hc => hp hc.1, h q hq]

/-- What the tree puts under a path, the disk shows there. -/
theorem of_put {d' : Disk Bytes} {f : File} (h : Shows s d) (hput : Tree.Put s t p f)
    (hview : ∀ q, q ≠ [] → d'.view q = if q = p then some (.leaf f.data) else d.view q) :
    Shows t d' := by
  intro q hq
  rw [hview q hq, hput.get?]
  by_cases hp : q = p
  · rw [if_pos hp, if_pos hp]
    rfl
  · rw [if_neg hp, if_neg hp, h q hq]

theorem view_written {data : Bytes} (hs : d.Sane) (hn : d.view p = none) :
    (d.runs [.create p [], .write p fun _ => data]).view q =
      if q = p then some (.leaf data) else d.view q := by
  have hcreate : (d.run (.create p [])).view p = some (.leaf []) := by
    rw [Disk.view_create hs hn, if_pos rfl]
  simp only [Disk.runs, List.foldl_cons, List.foldl_nil]
  rw [Disk.view_write (hs.run _) hcreate, Disk.view_create hs hn]
  by_cases hq : q = p
  · rw [if_pos hq, if_pos hq]
  · rw [if_neg hq, if_neg hq, if_neg hq]

theorem view_new {data : Bytes} (hs : d.Sane) (hn : d.view p = none) :
    (d.runs [.create p [], .write p fun _ => data, .fsync p]).view q =
      if q = p then some (.leaf data) else d.view q := by
  have hflush : d.runs [.create p [], .write p fun _ => data, .fsync p] =
      (d.runs [.create p [], .write p fun _ => data]).run (.fsync p) := rfl
  rw [hflush, Disk.view_fsync, view_written hs hn]

/-- The calls of `writeFileAtomic` replace the file. -/
theorem replace {data : Bytes} {mode : UInt32} (hs : d.Sane) (h : Shows s d)
    (ha : Effect.apply (FsEffect.replace p data mode) s = .ok t)
    (hf : (FsEffect.replace p data mode).Fresh pid now d) :
    Shows t (d.runs ((FsEffect.replace p data mode).calls pid now)) := by
  have hnone : d.view (FileUtils.makeTempPath p pid now) = none :=
    Disk.view_eq_none.mpr (hf _ (List.mem_singleton_self _))
  have hne : FileUtils.makeTempPath p pid now ≠ p := FileUtils.makeTempPath_ne_self
  refine h.of_put (FsEffect.replace_ok ha) fun q _ => ?_
  rw [FsEffect.calls, Disk.runs_append]
  simp only [Disk.runs, List.foldl_cons, List.foldl_nil, Disk.view_fsyncDir]
  rw [Disk.view_rename hne]
  have hnew : ∀ q, (d.runs [.create (FileUtils.makeTempPath p pid now) [],
      .write (FileUtils.makeTempPath p pid now) fun _ => data,
      .fsync (FileUtils.makeTempPath p pid now)]).view q =
      if q = FileUtils.makeTempPath p pid now then some (.leaf data) else d.view q :=
    fun q => view_new hs hnone
  simp only [Disk.runs, List.foldl_cons, List.foldl_nil] at hnew
  rw [hnew, hnew, if_pos rfl]
  by_cases hq : q = FileUtils.makeTempPath p pid now
  · rw [if_pos hq, hq, if_neg hne, hnone]
  · rw [if_neg hq, if_neg hq]

/-- The calls of an append create the file or extend it. -/
theorem append {data : Bytes} {mode : UInt32} {failure : Exn} (hs : d.Sane) (h : Shows s d)
    (ha : Effect.apply (FsEffect.append p data mode failure) s = .ok t) :
    Shows t (d.runs ((FsEffect.append p data mode failure).calls pid now)) := by
  have hput := FsEffect.append_ok ha
  have hp : p ≠ [] := by
    rintro rfl
    exact hput.notDir rfl
  refine h.of_put hput fun q _ => ?_
  have hflush : ∀ d' : Disk Bytes, (d'.runs (if p = WalLog.walPath then [.fsync p] else [])).view q =
      d'.view q := by
    intro d'
    split
    · exact Disk.view_fsync
    · rfl
  rw [FsEffect.calls, Disk.runs_append, hflush]
  simp only [Disk.runs, List.foldl_cons, List.foldl_nil]
  cases hget : s.get? p with
  | none =>
    have hnone := (h.none_iff hp).mpr hget
    have hcreate : (d.run (.create p [])).view p = some (.leaf []) := by
      rw [Disk.view_create hs hnone, if_pos rfl]
    rw [Disk.view_write (hs.run _) hcreate, Disk.view_create hs hnone, Tree.leaf?_eq_none_of_none hget]
    by_cases hq : q = p
    · rw [if_pos hq, if_pos hq]
      rfl
    · rw [if_neg hq, if_neg hq, if_neg hq]
  | some x =>
    cases x with
    | dir => exact absurd hget hput.notDir
    | leaf f =>
      have hleaf := Tree.leaf?_eq_some.mpr hget
      have hview := h.leaf hleaf
      have hopen : d.run (.create p []) = d := by
        have hne : d.entry p ≠ none := fun hn => by simp [Disk.view_eq_none.mpr hn] at hview
        rw [Disk.run, if_neg hne]
      rw [hopen, Disk.view_write hs hview, hleaf]
      rfl

theorem rename {src dst : Path} (h : Shows s d)
    (ha : Effect.apply (FsEffect.rename src dst) s = .ok t) :
    Shows t (d.runs ((FsEffect.rename src dst).calls pid now)) := by
  intro q hq
  simp only [FsEffect.calls, Disk.runs, List.foldl_cons, List.foldl_nil, Disk.view_fsyncDir]
  by_cases hne : src = dst
  · subst hne
    rw [FsEffect.rename_self ha, Disk.run, if_pos rfl, h q hq]
  · obtain ⟨f, hf, _, _, hget⟩ := FsEffect.rename_ok hne ha
    rw [Disk.view_rename hne, hget]
    by_cases hs : q = src
    · rw [if_pos hs, if_pos hs]
      rfl
    · by_cases hd : q = dst
      · rw [if_neg hs, if_neg hs, if_pos hd, if_pos hd, h.leaf hf]
        rfl
      · rw [if_neg hs, if_neg hs, if_neg hd, if_neg hd, h q hq]

theorem remove (h : Shows s d) (ha : Effect.apply (FsEffect.remove p) s = .ok t) :
    Shows t (d.runs ((FsEffect.remove p).calls pid now)) := by
  obtain ⟨_, _, hget⟩ := FsEffect.remove_ok ha
  intro q hq
  simp only [FsEffect.calls, Disk.runs, List.foldl_cons, List.foldl_nil]
  rw [Disk.view_unlink, hget]
  by_cases hp : q = p
  · rw [if_pos hp, if_pos hp]
    rfl
  · rw [if_neg hp, if_neg hp, h q hq]

theorem chmod {mode : UInt32} (h : Shows s d) (ha : Effect.apply (FsEffect.chmod p mode) s = .ok t) :
    Shows t (d.runs ((FsEffect.chmod p mode).calls pid now)) := by
  obtain ⟨f, hf, hput⟩ := FsEffect.chmod_ok ha
  refine h.of_put hput fun q _ => ?_
  by_cases hq : q = p
  · rw [if_pos hq, hq]
    have hview := h.leaf hf
    exact hview
  · rw [if_neg hq]
    rfl

/-- The system calls of an effect do to the disk what the effect does to the tree. -/
theorem calls (hs : d.Sane) (h : Shows s d) (ha : Effect.apply i s = .ok t) (hf : i.Fresh pid now d) :
    Shows t (d.runs (i.calls pid now)) := by
  cases i with
  | ensureDirectory p => exact h.ensureDirectory ha
  | replace p data mode => exact h.replace hs ha hf
  | rename src dst => exact h.rename ha
  | append p data mode failure => exact h.append hs ha
  | remove p => exact h.remove ha
  | chmod p mode => exact h.chmod ha

end Shows

namespace FsEffect

variable {s t : Fs} {d : Disk Bytes} {i : FsEffect} {p q : Path} {pid now : Nat}
  {c : SysCall Bytes} {cs : List (SysCall Bytes)}

/-- The calls of an effect concern the files that it touches, and its temporary file. -/
theorem concerns_calls (hc : c ∈ i.calls pid now) (hq : q ∈ c.concerns) :
    q ∈ i.touches ∨ q ∈ i.temps pid now := by
  cases i with
  | ensureDirectory p =>
    obtain ⟨r, _, rfl⟩ := List.mem_map.mp hc
    exact absurd hq List.not_mem_nil
  | replace p data mode =>
    simp only [calls, List.mem_append, List.mem_cons, List.not_mem_nil, or_false] at hc
    rcases hc with (rfl | rfl | rfl) | rfl | rfl
    · exact .inr hq
    · exact .inr hq
    · exact absurd hq List.not_mem_nil
    · simp only [SysCall.concerns, SysCall.changes, SysCall.places, List.mem_append, List.mem_cons,
        List.not_mem_nil, or_false] at hq
      rcases hq with (rfl | rfl) | rfl
      · exact .inr (List.mem_singleton_self _)
      · exact .inl (List.mem_singleton_self _)
      · exact .inl (List.mem_singleton_self _)
    · exact absurd hq List.not_mem_nil
  | rename src dst =>
    simp only [calls, List.mem_cons, List.not_mem_nil, or_false] at hc
    rcases hc with rfl | rfl
    · simp only [SysCall.concerns, SysCall.changes, SysCall.places, List.mem_append,
        List.mem_singleton] at hq
      rcases hq with hq | rfl
      · exact .inl hq
      · exact .inl (List.mem_cons_of_mem _ (List.mem_singleton_self _))
    · exact absurd hq List.not_mem_nil
  | append p data mode failure =>
    simp only [calls, List.mem_append, List.mem_cons, List.not_mem_nil, or_false] at hc
    rcases hc with (rfl | rfl) | hc
    · exact .inl hq
    · exact .inl hq
    · split at hc
      · rw [List.mem_singleton.mp hc] at hq
        exact absurd hq List.not_mem_nil
      · exact absurd hc List.not_mem_nil
  | remove p =>
    rw [List.mem_singleton.mp hc] at hq
    exact .inl hq
  | chmod p mode => exact absurd hc List.not_mem_nil

/-- So do the calls that it has made when it is stopped. -/
theorem Part.concerns (h : Part pid now s i cs) (hc : c ∈ cs) (hq : q ∈ c.concerns) :
    i.Reaches s q ∨ q ∈ i.temps pid now := by
  have hall : ∀ {j : FsEffect} {t : Fs}, Effect.apply j s = .ok t → c ∈ j.calls pid now →
      j.Reaches s q ∨ q ∈ j.temps pid now :=
    fun ha hc => (concerns_calls hc hq).imp_left fun ht => ⟨ht, _, ha⟩
  cases h with
  | directories p k => 
    obtain ⟨r, _, rfl⟩ := List.mem_map.mp (List.mem_of_mem_take hc)
    exact absurd hq List.not_mem_nil
  | temporary k hw hk =>
    have hc := List.mem_of_mem_take hc
    simp only [List.mem_cons, List.not_mem_nil, or_false] at hc
    rcases hc with rfl | rfl | rfl
    · exact .inr hq
    · exact .inr hq
    · exact absurd hq List.not_mem_nil
  | refused =>
    simp only [List.mem_cons, List.not_mem_nil, or_false] at hc
    rcases hc with rfl | rfl | rfl | rfl
    · exact .inr hq
    · exact .inr hq
    · exact absurd hq List.not_mem_nil
    · exact .inr hq
  | named ha => exact hall ha (List.mem_of_mem_take (i := 4) hc)
  | renamed ha => exact hall ha (List.mem_of_mem_take (i := 1) hc)
  | appended k hw ha =>
    have hc := List.mem_of_mem_take hc
    simp only [List.mem_cons, List.not_mem_nil, or_false] at hc
    rcases hc with rfl | rfl
    · exact .inl ⟨hq, _, ha⟩
    · exact .inl ⟨hq, _, ha⟩
  | whole ha => exact hall ha hc

theorem not_mem_temps (h : Undated q) : q ∉ i.temps pid now := by
  obtain ⟨n, b, hn, hb, hdigit⟩ := h
  cases i with
  | replace p data mode =>
    intro hq
    exact FileUtils.makeTempPath_ne hn hb hdigit (List.mem_singleton.mp hq).symm
  | _ => exact List.not_mem_nil

/-- What is there, or has no temporary name, stays out of the calls of an effect that does not
touch it. -/
theorem Making.not_concerns (h : Making i s d cs) (hq : d.entry q ≠ none ∨ Undated q)
    (hr : ¬i.Reaches s q) : ∀ c ∈ cs, q ∉ c.concerns := by
  obtain ⟨pid, now, hf, hpart⟩ := h.part
  intro c hc hm
  rcases hpart.concerns hc hm with hreach | htemp
  · exact hr hreach
  · rcases hq with hq | hq
    · exact hq (hf q htemp)
    · exact not_mem_temps hq htemp

theorem renamed_leaf {p : Path} (ha : Effect.apply (FsEffect.rename p p) s = .ok t) :
    ∃ f, s.leaf? p = some f := by
  have h := orThrow_ok ha
  unfold Tree.renameLeaf at h
  split at h
  · rename_i f hf
    exact ⟨f, Tree.leaf?_eq_some.mpr hf⟩
  · contradiction
  · contradiction

/-- An effect touches no directory. -/
theorem not_touches_dir (ha : Effect.apply i s = .ok t) (hq : s.get? q = some .dir) :
    q ∉ i.touches := by
  cases i with
  | ensureDirectory p => exact List.not_mem_nil
  | replace p data mode =>
    intro hm
    rw [List.mem_singleton.mp hm] at hq
    exact (replace_ok ha).notDir hq
  | rename src dst =>
    have hfile : ∃ f, s.leaf? src = some f ∧ (src ≠ dst → s.get? dst ≠ some .dir) := by
      by_cases hne : src = dst
      · subst hne
        obtain ⟨f, hf⟩ := renamed_leaf ha
        exact ⟨f, hf, fun h => absurd rfl h⟩
      · obtain ⟨f, hf, _, hd, _⟩ := rename_ok hne ha
        exact ⟨f, hf, fun _ => hd⟩
    obtain ⟨f, hf, hd⟩ := hfile
    intro hm
    rcases List.mem_cons.mp hm with rfl | hm
    · rw [Tree.leaf?_eq_none_of_dir hq] at hf
      contradiction
    · rw [List.mem_singleton.mp hm] at hq
      refine hd ?_ hq
      rintro rfl
      rw [Tree.leaf?_eq_none_of_dir hq] at hf
      contradiction
  | append p data mode failure =>
    intro hm
    rw [List.mem_singleton.mp hm] at hq
    exact (append_ok ha).notDir hq
  | remove p =>
    intro hm
    rw [List.mem_singleton.mp hm] at hq
    exact (remove_ok ha).2.1 hq
  | chmod p mode =>
    intro hm
    rw [List.mem_singleton.mp hm] at hq
    obtain ⟨f, _, hput⟩ := chmod_ok ha
    exact hput.notDir hq

theorem not_changes (h : ∀ c ∈ cs, q ∉ c.concerns) : ∀ c ∈ cs, q ∉ c.changes :=
  fun c hc hq => h c hc (List.mem_append_left _ hq)

theorem not_places (h : ∀ c ∈ cs, q ∉ c.concerns) : ∀ c ∈ cs, q ∉ c.places :=
  fun c hc hq => h c hc (List.mem_append_right _ hq)

namespace Making

/-- Directories stay out of it. -/
theorem not_changes_dir (h : Making i s d cs) (hq : d.IsDir q) : ∀ c ∈ cs, q ∉ c.changes := by
  have hne : d.entry q ≠ none := by
    rw [hq.entry]
    simp
  refine not_changes (h.not_concerns (.inl hne) ?_)
  rintro ⟨ht, t, ha⟩
  exact not_touches_dir ha (h.shows.isDir hq) ht

theorem isDir (h : Making i s d cs) (hq : d.IsDir q) : (d.runs cs).IsDir q :=
  hq.runs (h.not_changes_dir hq)

theorem sure {x : Bytes} (h : Making i s d cs) (hq : d.sure q = some x) (hr : ¬i.Reaches s q) :
    (d.runs cs).sure q = some x := by
  have hne := (Disk.sure_eq_some.mp hq).1.synced.entry_ne
  refine Disk.sure_runs h.sane hq (not_changes (h.not_concerns (.inl hne) hr)) fun c hc r hdir => ?_
  exact h.not_changes_dir hdir c hc

/-- A file that is replaced is flushed before and after. -/
theorem clean {data : Bytes} {mode : UInt32} (h : Making (.replace p data mode) s d cs)
    (hp : d.Clean p) : (d.runs cs).Clean p := by
  obtain ⟨pid, now, hf, hpart⟩ := h.part
  have hne : FileUtils.makeTempPath p pid now ≠ p := FileUtils.makeTempPath_ne_self
  have hnew := Disk.synced_new (x := data) (hf _ (List.mem_singleton_self _)) []
  have hput := (Disk.synced_rename hnew hne).clean
  have hsane := (h.sane.runs [.create (FileUtils.makeTempPath p pid now) [],
    .write (FileUtils.makeTempPath p pid now) fun _ => data,
    .fsync (FileUtils.makeTempPath p pid now)]).run (.rename (FileUtils.makeTempPath p pid now) p)
  cases hpart with
  | temporary k hw hk =>
    refine hp.runs h.sane fun c hc hm => ?_
    have hc := List.mem_of_mem_take hc
    simp only [List.mem_cons, List.not_mem_nil, or_false] at hc
    rcases hc with rfl | rfl | rfl
    · exact hne (List.mem_singleton.mp hm).symm
    · exact hne (List.mem_singleton.mp hm).symm
    · exact absurd hm List.not_mem_nil
  | refused =>
    refine hp.runs h.sane fun c hc hm => ?_
    simp only [List.mem_cons, List.not_mem_nil, or_false] at hc
    rcases hc with rfl | rfl | rfl | rfl
    · exact hne (List.mem_singleton.mp hm).symm
    · exact hne (List.mem_singleton.mp hm).symm
    · exact absurd hm List.not_mem_nil
    · exact hne (List.mem_singleton.mp hm).symm
  | named ha => exact hput
  | whole ha =>
    have hflush := hput.run (c := .fsyncDir p.dropLast) hsane List.not_mem_nil
    exact hflush

theorem of_done {d' : Disk Bytes} (h : Shows s d) (hs : d.Sane) (ha : Effect.apply i s = .ok t)
    (hd : i.Done d d') : ∃ cs, Making i s d cs ∧ d' = d.runs cs := by
  obtain ⟨pid, now, hf, rfl⟩ := hd
  exact ⟨_, ⟨h, hs, pid, now, hf, .whole ha⟩, rfl⟩

theorem of_stopped {d' : Disk Bytes} (h : Shows s d) (hs : d.Sane) (hd : i.Stopped s d t d') :
    ∃ cs, Making i s d cs ∧ d' = d.runs cs := by
  obtain ⟨pid, now, cs, hf, hpart, rfl, _⟩ := hd
  exact ⟨cs, ⟨h, hs, pid, now, hf, hpart⟩, rfl⟩

end Making

/-- When a file is replaced, its directory is flushed. -/
theorem Done.certain {data : Bytes} {mode : UInt32} {d' : Disk Bytes}
    (h : (FsEffect.replace p data mode).Done d d') (hne : q ≠ []) (hq : q.dropLast = p.dropLast) :
    d'.Certain q := by
  obtain ⟨pid, now, _, rfl⟩ := h
  simp only [calls, Disk.runs, List.foldl_append, List.foldl_cons, List.foldl_nil]
  rw [← hq]
  exact Disk.certain_fsyncDir hne

/-- A directory is flushed when a file was renamed into it. -/
theorem flushes_calls {r : Path} (hc : SysCall.fsyncDir r ∈ i.calls pid now) :
    (∃ p data mode, i = .replace p data mode ∧ r = p.dropLast) ∨
      ∃ src dst, i = .rename src dst ∧ r = dst.dropLast := by
  cases i with
  | ensureDirectory p =>
    obtain ⟨_, _, he⟩ := List.mem_map.mp hc
    cases he
  | replace p data mode =>
    simp only [calls, List.mem_append, List.mem_cons, reduceCtorEq, List.not_mem_nil, or_false,
      false_or, SysCall.fsyncDir.injEq] at hc
    exact .inl ⟨p, data, mode, rfl, hc⟩
  | rename src dst =>
    simp only [calls, List.mem_cons, reduceCtorEq, List.not_mem_nil, or_false, false_or,
      SysCall.fsyncDir.injEq] at hc
    exact .inr ⟨src, dst, rfl, hc⟩
  | append p data mode failure =>
    simp only [calls, List.mem_append, List.mem_cons, reduceCtorEq, List.not_mem_nil, or_false,
      false_or] at hc
    split at hc
    · simp at hc
    · exact absurd hc List.not_mem_nil
  | remove p => simp [calls] at hc
  | chmod p mode => exact absurd hc List.not_mem_nil

/-- Some time of day gives a temporary name that is free. -/
theorem exists_fresh (h : Shows s d) (i : FsEffect) (pid : Nat) : ∃ now, i.Fresh pid now d := by
  cases i with
  | replace p data mode =>
    have hinj : Function.Injective fun now => FileUtils.makeTempPath p pid now := by
      intro a b hab
      simp only [FileUtils.makeTempPath, List.append_cancel_left_eq, List.cons.injEq, and_true] at hab
      exact decimal_injective hab
    obtain ⟨_, ⟨now, rfl⟩, hfree⟩ :=
      (Set.infinite_range_of_injective hinj).exists_notMem_finset s.nodes.keys.toFinset
    refine ⟨now, fun q hq => ?_⟩
    rw [List.mem_singleton.mp hq, ← Disk.view_eq_none, h.none_iff FileUtils.makeTempPath_ne_nil,
      ← Tree.lookup_of_get? FileUtils.makeTempPath_ne_nil, AList.lookup_eq_none]
    exact fun hm => hfree (List.mem_toFinset.mpr (AList.mem_keys.mp hm))
  | _ => exact ⟨0, fun q hq => absurd hq List.not_mem_nil⟩

/-- Whatever takes place on the tree can take place on a disk that shows it. -/
theorem exists_done (i : FsEffect) (s t : Fs) (d : Disk Bytes) (ha : Effect.apply i s = .ok t)
    (h : Shows s d ∧ d.Sane) : ∃ d', i.Done d d' ∧ Shows t d' ∧ d'.Sane := by
  obtain ⟨now, hf⟩ := exists_fresh h.1 i 1
  exact ⟨_, ⟨1, now, hf, rfl⟩, h.1.calls h.2 ha hf, h.2.runs _⟩

end FsEffect

/-- A disk that shows a tree, with everything flushed. -/
def quiet (s : Fs) : Disk Bytes where
  entry q :=
    match s.get? q with
    | none => none
    | some .dir => some .dir
    | some (.leaf _) => some (.file (s.nodes.keys.idxOf q))
  bytes n := ((s.nodes.keys[n]?.bind s.leaf?).map File.data).getD []
  mayEntry q e := e =
    match s.get? q with
    | none => none
    | some .dir => some .dir
    | some (.leaf _) => some (.file (s.nodes.keys.idxOf q))
  mayBytes n x := x = ((s.nodes.keys[n]?.bind s.leaf?).map File.data).getD []
  next := s.nodes.keys.length

theorem mem_keys_of_leaf {s : Fs} {q : Path} {f : File} (h : s.get? q = some (.leaf f)) :
    q ∈ s.nodes.keys := by
  have hq : q ≠ [] := by
    rintro rfl
    simp at h
  rw [← AList.mem_keys, ← AList.lookup_isSome, Tree.lookup_of_get? hq, h]
  rfl

theorem entry_quiet {s : Fs} {q : Path} {n : Nat} (h : (quiet s).entry q = some (.file n)) :
    n < s.nodes.keys.length ∧ s.nodes.keys[n]? = some q := by
  simp only [quiet] at h
  split at h
  · cases h
  · cases h
  · rename_i f hf
    cases h
    have hm := mem_keys_of_leaf hf
    have hlt := List.idxOf_lt_length_iff.mpr hm
    exact ⟨hlt, by rw [List.getElem?_eq_getElem hlt, List.getElem_idxOf hlt]⟩

theorem sane_quiet (s : Fs) : (quiet s).Sane where
  inj p q n hp hq := by
    have h1 := (entry_quiet hp).2
    rw [(entry_quiet hq).2] at h1
    exact (Option.some.inj h1).symm
  lt p n hp := (entry_quiet hp).1

theorem shows_quiet (s : Fs) : Shows s (quiet s) := by
  intro q _
  cases hget : s.get? q with
  | none => simp [Disk.view, quiet, hget]
  | some x =>
    cases x with
    | dir => simp [Disk.view, quiet, hget, bytesOf]
    | leaf f =>
      have hentry : (quiet s).entry q = some (.file (s.nodes.keys.idxOf q)) := by
        simp only [quiet, hget]
      have hkey := (entry_quiet hentry).2
      simp only [Disk.view, hentry, Option.map_some, bytesOf]
      simp [quiet, hkey, Tree.leaf?_eq_some.mpr hget]

theorem certain_quiet (s : Fs) (q : Path) : (quiet s).Certain q := fun _ he => he

theorem possible_quiet (s : Fs) : (quiet s).Possible := ⟨fun _ => rfl, fun _ => rfl⟩

end Dpc
