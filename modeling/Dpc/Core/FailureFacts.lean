import Dpc.Core.PublishFacts
import Dpc.Lib.Failure

namespace Dpc
open Text FileTree Effects ManifestStore

/-- An exception that no `catch (const DpcError&)` takes. -/
def Exn.Uncaught (e : Exn) : Prop := ¬e.IsDpc

instance : DecidablePred Exn.Uncaught := fun _ => inferInstanceAs (Decidable (¬_))

@[simp] theorem not_uncaught_dpc (message : Bytes) : ¬(Exn.dpc message).Uncaught := by
  simp [Exn.Uncaught, Exn.IsDpc]

@[simp] theorem not_uncaught_dpcError (text : String) : ¬(dpcError text).Uncaught :=
  not_uncaught_dpc _

@[simp] theorem not_uncaught_dpcErrorWith (text : String) (value : Bytes) :
    ¬(dpcErrorWith text value).Uncaught := not_uncaught_dpc _

variable {s t : Fs}

/-- A program runs on one file system. -/
theorem exec_nameMax {α : Type} (p : Op α) (s : Fs) : (p.exec s).2.nameMax = s.nameMax := by
  induction p generalizing s with
  | pure a => rfl
  | throw e => rfl
  | look k ih => exact ih s s
  | act i k ih =>
    simp only [Prog.exec]
    cases ha : Effect.apply i s with
    | ok u => exact (ih _ u).trans (FsEffect.apply_nameMax ha)
    | error e => exact ih _ s

/-- A program takes no directory away. -/
theorem exec_dir {α : Type} (p : Op α) {s : Fs} {q : Path} (h : s.get? q = some .dir) :
    (p.exec s).2.get? q = some .dir := by
  induction p generalizing s with
  | pure a => exact h
  | throw e => exact h
  | look k ih => exact ih s h
  | act i k ih =>
    simp only [Prog.exec]
    cases ha : Effect.apply i s with
    | ok u => exact ih _ (FsEffect.apply_dir ha h)
    | error e => exact ih _ h

namespace FileUtils

theorem ensureDirectory_iff {p : Path} {u : Unit} :
    (ensureDirectory p).exec s = (.ok u, t) ↔ s.mkdirs p = .ok t := by
  rw [ensureDirectory, Prog.exec_perform]
  simp only [Effect.apply, FsEffect.apply]
  cases s.mkdirs p with
  | ok v => simp [orThrow]
  | error e => simp [orThrow]

theorem exec_pathExists {p : Path} (h : s.blocked p = false) :
    (pathExists p).exec s = (.ok (s.get? p).isSome, s) := by
  simp [pathExists, Tree.status, h]

end FileUtils

namespace Compressor

variable {env : Env} {input : Bytes} {expected : UInt64}

/-- A vector of so many bytes can be had. -/
def Allocates (env : Env) (n : UInt64) : Prop := n.toNat < 2 ^ 63 ∧ n.toNat ≤ env.allocMax

end Compressor

/-- Making the directory of a file and putting the file takes place together or not at all;
nothing else changes. -/
theorem put_iff {d : Path} {n : Name} {f : Option File → File} :
    (∃ u t, s.mkdirs d = .ok u ∧ u.upsertLeaf (d ++ [n]) f = .ok t) ↔ s.Writable d n := by
  have hnot : ¬(d ++ [n]) <+: d := by
    intro h
    have := h.length_le
    rw [List.length_append, List.length_singleton] at this
    omega
  constructor
  · intro ⟨u, t, hu, ht⟩
    obtain ⟨_, hn, hx⟩ := Tree.place_iff.mp ⟨t, ht⟩
    obtain ⟨hgrown, _⟩ := Tree.mkdirs_ok hu
    rw [hgrown.nameMax] at hn
    rw [Tree.mkdirs_get? hu, if_neg hnot] at hx
    exact ⟨Tree.mkdirs_iff.mp ⟨u, hu⟩, hn, hx⟩
  · intro ⟨hm, hn, hx⟩
    obtain ⟨u, hu⟩ := Tree.mkdirs_iff.mpr hm
    obtain ⟨hgrown, hd⟩ := Tree.mkdirs_ok hu
    obtain ⟨t, ht⟩ := Tree.place_iff.mpr ⟨hd, by rwa [hgrown.nameMax], by
      rwa [Tree.mkdirs_get? hu, if_neg hnot]⟩
    exact ⟨u, t, hu, ht⟩

namespace FileUtils

theorem writeFileAtomic_iff {umask mode : UInt32} {d : Path} {n : Name} {data : Bytes} :
    (∃ u t, (writeFileAtomic umask (d ++ [n]) data mode).exec s = (.ok u, t)) ↔ s.Replaceable d n := by
  rw [Tree.Replaceable, ← put_iff (f := fun _ => ⟨data, mode &&& 0o7777 &&& ~~~umask⟩)]
  simp only [writeFileAtomic, Prog.bind_eq, List.dropLast_concat]
  constructor
  · intro h
    obtain ⟨_, t, h⟩ := h
    obtain ⟨_, u, hu, h⟩ := Prog.exec_bind_ok h
    have hmk := ensureDirectory_iff.mp hu
    obtain ⟨hroom, hput⟩ := Tree.replaceLeaf_iff.mp (orThrow_ok (Prog.exec_perform_ok h))
    rw [List.getLast?_concat, Option.getD_some, (Tree.mkdirs_ok hmk).1.nameMax] at hroom
    exact ⟨⟨u, t, hmk, hput⟩, hroom⟩
  · intro h
    obtain ⟨⟨u, t, hu, ht⟩, hroom⟩ := h
    refine ⟨(), t, ?_⟩
    have hdir : (ensureDirectory d).exec s = (.ok (), u) := ensureDirectory_iff.mpr hu
    have hput : u.replaceLeaf (d ++ [n]) ⟨data, mode &&& 0o7777 &&& ~~~umask⟩ = .ok t := by
      rw [Tree.replaceLeaf_iff, List.getLast?_concat, Option.getD_some, (Tree.mkdirs_ok hu).1.nameMax]
      exact ⟨hroom, ht⟩
    rw [Prog.exec_bind_of_ok hdir, Prog.exec_perform]
    simp only [Effect.apply, FsEffect.apply, hput, orThrow]

end FileUtils

namespace WalLog

variable {env : Env} {type : WalRecordType} {payload : Bytes}

end WalLog

namespace ManifestStore

end ManifestStore

namespace BackupEngine

/-- The marker stands in the directory that the list is made of. -/
theorem create_dir {env : Env} {v : UInt64} {u : Unit} {a b : Fs}
    (h : (CommitMarker.create env v).exec a = (.ok u, b)) : b.get? manifestsDir = some .dir := by
  simp only [CommitMarker.create, FileUtils.writeTextAtomic, FileUtils.writeFileAtomic,
    Prog.bind_eq] at h
  obtain ⟨_, c, hc, h⟩ := Prog.exec_bind_ok h
  exact FsEffect.apply_dir (Prog.exec_perform_ok h)
    (Tree.mkdirs_ok (FileUtils.ensureDirectory_iff.mp hc)).2

/-- No program takes the directory away. -/
theorem exec_manifestsDir {α : Type} {p : Op α} {a c : Fs} {x : Except Exn α}
    (ha : a.get? manifestsDir = some .dir) (hx : p.exec a = (x, c)) :
    c.get? manifestsDir = some .dir := by
  have hdir := exec_dir p ha
  rwa [hx] at hdir

end BackupEngine

namespace ObjectStore

variable {env : Env} {sha compressed : Bytes} {rawSize : UInt64} {memory : Option Nat}

def layoutDirs : List Path :=
  [objectsDir, [ascii "manifests"], [ascii "metadata", ascii "sessions"], [ascii "tmp"]]

/-- The directories of a repository can be made. -/
def Laid (s : Fs) : Prop := ∀ d ∈ layoutDirs, s.Makeable d

theorem ensureLayout_ok {u : Unit} (h : ensureLayout.exec s = (.ok u, t)) :
    Laid s ∧ Tree.Grown s t ∧ t.get? [ascii "metadata", ascii "sessions"] = some .dir ∧
      ∀ q, (∀ d ∈ layoutDirs, ¬q <+: d) → t.get? q = s.get? q := by
  simp only [ensureLayout, Prog.bind_eq] at h
  obtain ⟨_, a, ha, h⟩ := Prog.exec_bind_ok h
  obtain ⟨_, b, hb, h⟩ := Prog.exec_bind_ok h
  obtain ⟨_, c, hc, h⟩ := Prog.exec_bind_ok h
  rw [FileUtils.ensureDirectory_iff] at ha hb hc h
  have g1 := (Tree.mkdirs_ok ha).1
  have g2 := g1.trans (Tree.mkdirs_ok hb).1
  have g3 := g2.trans (Tree.mkdirs_ok hc).1
  have gt := (Tree.mkdirs_ok h).1
  refine ⟨?_, g3.trans gt, gt.dir (Tree.mkdirs_ok hc).2, fun q hq => ?_⟩
  · simp only [Laid, layoutDirs, List.forall_mem_cons, List.not_mem_nil, false_imp_iff, implies_true,
      and_true]
    exact ⟨Tree.mkdirs_iff.mp ⟨_, ha⟩, g1.makeable.mp (Tree.mkdirs_iff.mp ⟨_, hb⟩),
      g2.makeable.mp (Tree.mkdirs_iff.mp ⟨_, hc⟩), g3.makeable.mp (Tree.mkdirs_iff.mp ⟨_, h⟩)⟩
  · simp only [layoutDirs, List.forall_mem_cons] at hq
    rw [Tree.mkdirs_get? h, if_neg hq.2.2.2.1, Tree.mkdirs_get? hc, if_neg hq.2.2.1,
      Tree.mkdirs_get? hb, if_neg hq.2.1, Tree.mkdirs_get? ha, if_neg hq.1]

theorem ensureLayout_succeeds (h : Laid s) : ∃ t, ensureLayout.exec s = (.ok (), t) := by
  simp only [Laid, layoutDirs, List.forall_mem_cons] at h
  obtain ⟨h1, h2, h3, h4, _⟩ := h
  obtain ⟨a, ha⟩ := Tree.mkdirs_iff.mpr h1
  have g1 := (Tree.mkdirs_ok ha).1
  obtain ⟨b, hb⟩ := Tree.mkdirs_iff.mpr (g1.makeable.mpr h2)
  have g2 := g1.trans (Tree.mkdirs_ok hb).1
  obtain ⟨c, hc⟩ := Tree.mkdirs_iff.mpr (g2.makeable.mpr h3)
  have g3 := g2.trans (Tree.mkdirs_ok hc).1
  obtain ⟨t, ht⟩ := Tree.mkdirs_iff.mpr (g3.makeable.mpr h4)
  refine ⟨t, ?_⟩
  have dir : ∀ {p : Path} {a b : Fs}, a.mkdirs p = .ok b →
      (FileUtils.ensureDirectory p).exec a = (.ok (), b) :=
    fun h => FileUtils.ensureDirectory_iff.mpr h
  simp only [ensureLayout, Prog.bind_eq]
  rw [Prog.exec_bind_of_ok (dir ha), Prog.exec_bind_of_ok (dir hb), Prog.exec_bind_of_ok (dir hc)]
  exact dir ht

theorem pathOf_not_above (sha : Bytes) : ∀ d ∈ layoutDirs, ¬pathOf sha <+: d := by
  intro d hd hp
  have hlen := hp.length_le
  have hshort : d.length ≤ 2 := by
    simp only [layoutDirs, List.mem_cons, List.not_mem_nil, or_false] at hd
    rcases hd with rfl | rfl | rfl | rfl <;> decide
  have hthree : (pathOf sha).length = 3 := rfl
  omega

/-- A directory of objects is no directory of the layout. -/
theorem bucket_not_above (sha : Bytes) :
    ∀ d ∈ layoutDirs, ¬[ascii "objects", sha.take 2] <+: d := by
  intro d hd hp
  simp only [layoutDirs, List.mem_cons, List.not_mem_nil, or_false] at hd
  rcases hd with rfl | rfl | rfl | rfl
  · have := hp.length_le
    simp [objectsDir] at this
  · have := hp.length_le
    simp at this
  · have := (List.cons_prefix_cons.mp hp).1
    exact absurd this (by decide)
  · have := hp.length_le
    simp at this

/-- The object of a hash is there with the right contents, or can be written. -/
def Storable (env : Env) (s : Fs) (sha : Bytes) (rawSize : UInt64) : Prop :=
  match s.get? (pathOf sha) with
  | none => s.Replaceable [ascii "objects", sha.take 2] (sha ++ ascii ".zst")
  | some .dir => False
  | some (.leaf _) => ∃ raw, Stored env s sha raw ∧ size raw = rawSize

/-- Where the layout has been made, nothing keeps the object from being looked up but its
own name. -/
theorem blocked_pathOf (hsha : Hash.isSha256Hex sha = true) {u : Unit}
    (h : ensureLayout.exec s = (.ok u, t)) :
    t.blocked (pathOf sha) = true ↔ s.get? [ascii "objects", sha.take 2] = some .dir ∧
      badName s.nameMax (sha ++ ascii ".zst") = true := by
  obtain ⟨hl, hgrown, _, hget⟩ := ensureLayout_ok h
  have hobjects : badName s.nameMax (ascii "objects") = false :=
    (hl objectsDir (by simp [layoutDirs])).2 _ (by simp [objectsDir])
  have hbucket : badName s.nameMax (sha.take 2) = false := by
    simp only [Hash.isSha256Hex, Bool.and_eq_true, beq_iff_eq] at hsha
    refine badName_of_shorter hobjects ?_ ?_
    · intro he
      have := congrArg List.length he
      rw [List.length_take, List.length_nil] at this
      omega
    · rw [List.length_take]
      exact Nat.le_trans (Nat.min_le_left _ _) (by decide)
  rw [pathOf, Tree.blocked_three, hgrown.nameMax, hobjects, hbucket,
    hget _ (bucket_not_above sha)]
  simp

/-- What a put that succeeds did after the layout: it found its object, or wrote it. -/
theorem putCompressed_cases (hsha : Hash.isSha256Hex sha = true) {r : PutObjectResult}
    (h : (putCompressed env sha compressed rawSize).exec s = (.ok r, t)) :
    ∃ a u, ensureLayout.exec s = (.ok u, a) ∧
      ((∃ raw, Stored env a sha raw ∧ size raw = rawSize ∧ t = a) ∨
        (a.get? (pathOf sha) = none ∧ ∃ v,
          (FileUtils.writeFileAtomic env.umask (pathOf sha) compressed 0o644).exec a = (.ok v, t))) := by
  simp only [putCompressed, Prog.bind_eq, objectPathForHash_of hsha, Hash.requireSha256Hex_of hsha] at h
  obtain ⟨u, a, ha, h⟩ := Prog.exec_bind_ok h
  refine ⟨a, u, ha, ?_⟩
  rw [Prog.exec_bind_of_ok (Prog.exec_ofExcept _ _),
    Prog.exec_bind_of_ok (Prog.exec_ofExcept _ _), absoluteObjectPath_textOf hsha,
    Prog.exec_bind_of_ok (Prog.exec_ofExcept _ _)] at h
  obtain ⟨b, a', hb, h⟩ := Prog.exec_bind_ok h
  obtain ⟨rfl, rfl⟩ := FileUtils.exec_pathExists_ok hb
  split at h
  · obtain ⟨raw, c, hraw, hrest⟩ := Prog.exec_bind_ok h
    obtain ⟨he, _, _, hstored⟩ := readRaw_ok hraw
    split at hrest
    · simp at hrest
    · rename_i hsize
      obtain ⟨n, d, hn, hrest⟩ := Prog.exec_bind_ok hrest
      simp only [FileUtils.fileSize, Prog.exec_query, Prod.mk.injEq] at hn
      simp only [Prog.pure_eq, Prog.exec_pure, Prod.mk.injEq] at hrest
      exact .inl ⟨raw, hstored, not_not.mp hsize, by rw [← hrest.2, ← hn.2, he]⟩
  · rename_i hnone
    obtain ⟨v, c, hv, h⟩ := Prog.exec_bind_ok h
    simp only [Prog.pure_eq, Prog.exec_pure, Prod.mk.injEq] at h
    obtain ⟨_, rfl⟩ := h
    exact .inr ⟨by simpa using hnone, v, hv⟩

/-- Where the layout has been made, the object can be put exactly where it could before. -/
theorem storable_layout {u : Unit} (h : ensureLayout.exec s = (.ok u, t)) :
    Storable env t sha rawSize ↔ Storable env s sha rawSize := by
  obtain ⟨_, hgrown, _, hget⟩ := ensureLayout_ok h
  have hobj := hget (pathOf sha) (pathOf_not_above sha)
  have hobj' : t.get? ([ascii "objects", sha.take 2] ++ [sha ++ ascii ".zst"]) =
      s.get? ([ascii "objects", sha.take 2] ++ [sha ++ ascii ".zst"]) := hobj
  simp only [Storable, hobj, Stored, FsEffect.leaf?_of_get? hobj, Tree.Replaceable, Tree.Writable,
    hgrown.makeable, hgrown.nameMax, hobj']

theorem putCompressed_iff (hsha : Hash.isSha256Hex sha = true) :
    (∃ r t, (putCompressed env sha compressed rawSize).exec s = (.ok r, t)) ↔
      Laid s ∧ Storable env s sha rawSize := by
  constructor
  · intro ⟨r, t, h⟩
    obtain ⟨a, u, ha, h⟩ := putCompressed_cases hsha h
    refine ⟨(ensureLayout_ok ha).1, (storable_layout ha).mp ?_⟩
    rcases h with ⟨raw, hstored, hsize, _⟩ | ⟨hnone, v, hv⟩
    · have ⟨f, hf, _⟩ := hstored
      simp only [Storable, Tree.leaf?_eq_some.mp hf]
      exact ⟨raw, hstored, hsize⟩
    · simp only [Storable, hnone]
      exact FileUtils.writeFileAtomic_iff.mp ⟨v, t, hv⟩
  · intro ⟨hl, hs⟩
    obtain ⟨a, ha⟩ := ensureLayout_succeeds hl
    have hs := (storable_layout ha).mpr hs
    simp only [putCompressed, Prog.bind_eq, objectPathForHash_of hsha,
      Hash.requireSha256Hex_of hsha]
    rw [Prog.exec_bind_of_ok ha, Prog.exec_bind_of_ok (Prog.exec_ofExcept _ _),
      Prog.exec_bind_of_ok (Prog.exec_ofExcept _ _), absoluteObjectPath_textOf hsha,
      Prog.exec_bind_of_ok (Prog.exec_ofExcept _ _)]
    unfold Storable at hs
    split at hs
    · rename_i hnone
      have hwrite : ∃ v t, (FileUtils.writeFileAtomic env.umask (pathOf sha) compressed 0o644).exec a =
          (.ok v, t) := FileUtils.writeFileAtomic_iff.mpr hs
      obtain ⟨v, t, ht⟩ := hwrite
      have hb : a.blocked (pathOf sha) = false := by
        rw [← Bool.not_eq_true, blocked_pathOf hsha ha, ← (ensureLayout_ok ha).2.1.nameMax, hs.1.2.1]
        simp
      rw [Prog.exec_bind_of_ok (FileUtils.exec_pathExists hb), hnone]
      simp only [Option.isSome_none, Bool.false_eq_true, if_false]
      rw [Prog.exec_bind_of_ok ht]
      exact ⟨_, t, rfl⟩
    · contradiction
    · rename_i f hf
      obtain ⟨raw, hstored, hsize⟩ := hs
      have hleaf := Tree.leaf?_eq_some.mpr hf
      rw [Prog.exec_bind_of_ok (FileUtils.exec_pathExists_some hleaf)]
      simp only [if_true]
      rw [Prog.exec_bind_of_ok (exec_readRaw hsha hstored)]
      have hn : (FileUtils.fileSize (pathOf sha)).exec a = (.ok (size f.data), a) := by
        simp [FileUtils.fileSize, hleaf]
      simp only [hsize, ne_eq, not_true_eq_false, if_false]
      rw [Prog.exec_bind_of_ok hn]
      exact ⟨_, a, rfl⟩

end ObjectStore

end Dpc
