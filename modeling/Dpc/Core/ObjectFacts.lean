import Dpc.Common.EffectFacts
import Dpc.Core.ObjectStore

namespace Dpc.ObjectStore
open Text FileTree Effects

/-- Where the object of a hash lies. -/
def pathOf (sha : Bytes) : Path := [ascii "objects", sha.take 2, sha ++ ascii ".zst"]

/-- The same path as manifests and sessions write it. -/
def textOf (sha : Bytes) : Bytes := joinWith LexPath.slash (pathOf sha)

theorem isName_pathOf {sha : Bytes} (h : Hash.isSha256Hex sha = true) :
    ∀ n ∈ pathOf sha, LexPath.IsName n := by
  simp only [Hash.isSha256Hex, Bool.and_eq_true, beq_iff_eq, List.all_eq_true] at h
  obtain ⟨hlen, hall⟩ := h
  have hhex : ∀ b, isXdigit b = true → b ≠ LexPath.slash ∧ b ≠ 0 ∧ b ≠ 46 := by
    intro b hb
    refine ⟨?_, ?_, ?_⟩ <;> (rintro rfl; revert hb; decide)
  have hname : ∀ n : Bytes, n.length ≠ 0 → (∀ b ∈ n, b ≠ LexPath.slash ∧ b ≠ 0) →
      n ≠ LexPath.dot → n ≠ LexPath.dotdot → LexPath.IsName n := by
    intro n h0 hb h1 h2
    exact ⟨by rintro rfl; exact h0 rfl, fun hm => (hb _ hm).1 rfl, fun hm => (hb _ hm).2 rfl, h1,
      h2⟩
  intro n hn
  simp only [pathOf, List.mem_cons, List.not_mem_nil, or_false] at hn
  rcases hn with rfl | rfl | rfl
  · exact ⟨by decide, by decide, by decide, by decide, by decide⟩
  · have htake : (sha.take 2).length = 2 := by
      rw [List.length_take]
      omega
    refine hname _ (by omega) (fun b hb => ?_) ?_ ?_
    · exact ⟨(hhex b (hall b (List.mem_of_mem_take hb))).1,
        (hhex b (hall b (List.mem_of_mem_take hb))).2.1⟩
    · intro he
      rw [he] at htake
      exact absurd htake (by decide)
    · intro he
      have hm : (46 : UInt8) ∈ sha.take 2 := by rw [he]; decide
      exact (hhex 46 (hall 46 (List.mem_of_mem_take hm))).2.2 rfl
  · have hl : (sha ++ ascii ".zst").length = 68 := by
      rw [List.length_append, hlen]
      decide
    refine hname _ (by omega) (fun b hb => ?_) ?_ ?_
    · have hzst : ∀ c ∈ ascii ".zst", c ≠ LexPath.slash ∧ c ≠ 0 := by
        have hall : (ascii ".zst").all (fun c => c != LexPath.slash && c != 0) = true := by decide
        intro c hc
        simpa using List.all_eq_true.mp hall c hc
      rcases List.mem_append.mp hb with hb | hb
      · exact ⟨(hhex b (hall b hb)).1, (hhex b (hall b hb)).2.1⟩
      · exact hzst b hb
    · intro he
      rw [he] at hl
      exact absurd hl (by decide)
    · intro he
      rw [he] at hl
      exact absurd hl (by decide)

theorem objectPathForHash_eq (sha : Bytes) :
    objectPathForHash sha = (Hash.requireSha256Hex sha "sha256").map fun _ => textOf sha := by
  have h1 : ascii "objects/" = ascii "objects" ++ [LexPath.slash] := by decide
  have h2 : ascii "/" = [LexPath.slash] := by decide
  simp only [objectPathForHash, bind, Except.bind, pure, Except.pure]
  cases Hash.requireSha256Hex sha "sha256" with
  | error e => rfl
  | ok u => simp [Except.map, textOf, pathOf, joinWith, h1, h2]

theorem objectPathForHash_of {sha : Bytes} (h : Hash.isSha256Hex sha = true) :
    objectPathForHash sha = .ok (textOf sha) := by
  rw [objectPathForHash_eq, Hash.requireSha256Hex_of h]
  rfl

theorem objectPathForHash_ok {sha p : Bytes} (h : objectPathForHash sha = .ok p) :
    Hash.isSha256Hex sha = true ∧ p = textOf sha := by
  rw [objectPathForHash_eq] at h
  cases hs : Hash.requireSha256Hex sha "sha256" with
  | error e => rw [hs] at h; contradiction
  | ok u =>
    rw [hs] at h
    exact ⟨Hash.requireSha256Hex_ok hs, (Except.ok.inj h).symm⟩

theorem safeRelativePath_textOf {sha : Bytes} (h : Hash.isSha256Hex sha = true) (field : String) :
    FileUtils.safeRelativePath (textOf sha) field = .ok (pathOf sha) :=
  FileUtils.safeRelativePath_names field (by simp [pathOf]) (isName_pathOf h)

theorem textOf_ne_nil {sha : Bytes} (h : Hash.isSha256Hex sha = true) : textOf sha ≠ [] := by
  intro he
  have := safeRelativePath_textOf h ""
  simp [he, FileUtils.safeRelativePath] at this

theorem absoluteObjectPath_textOf {sha : Bytes} (h : Hash.isSha256Hex sha = true) :
    absoluteObjectPath (textOf sha) = .ok (pathOf sha) := by
  simp [absoluteObjectPath, safeRelativePath_textOf h, pathOf, bind, Except.bind, pure,
    Except.pure]

theorem pathOf_injective {sha sha' : Bytes} (h : pathOf sha = pathOf sha') : sha = sha' := by
  simp only [pathOf, List.cons.injEq, and_true] at h
  exact List.append_cancel_right h.2.2

/-- A path below `objects/`. -/
def InObjects (q : Path) : Prop := q.head? = some (ascii "objects")

instance : DecidablePred InObjects := fun _ => inferInstanceAs (Decidable (_ = _))

theorem inObjects_pathOf (sha : Bytes) : InObjects (pathOf sha) := rfl

/-- The file of a hash unpacks to bytes with that hash. -/
def Stored (env : Env) (t : Fs) (sha raw : Bytes) : Prop :=
  ∃ f, t.leaf? (pathOf sha) = some f ∧ Compressor.decompress env f.data 0 = .ok raw ∧
    Hash.sha256Hex env.evp raw = sha

/-- Objects that are there stay as they are. -/
def Kept (s t : Fs) : Prop := ∀ q f, InObjects q → s.leaf? q = some f → t.leaf? q = some f

theorem Kept.refl (s : Fs) : Kept s s := fun _ _ _ h => h

theorem Kept.trans {s t u : Fs} (h : Kept s t) (h' : Kept t u) : Kept s u :=
  fun q f hq hf => h' q f hq (h q f hq hf)

theorem Kept.of_frame {P : Path → Prop} {s t : Fs} (h : Frame P s t)
    (hp : ∀ q, InObjects q → ¬P q) : Kept s t :=
  fun q f hq hf => by rw [h q (hp q hq), hf]

theorem Stored.kept {env : Env} {s t : Fs} {sha raw : Bytes} (h : Stored env s sha raw)
    (hk : Kept s t) : Stored env t sha raw := by
  obtain ⟨f, hf, hd, hs⟩ := h
  exact ⟨f, hk _ f (inObjects_pathOf sha) hf, hd, hs⟩

theorem Stored.unique {env : Env} {s : Fs} {sha raw raw' : Bytes} (h : Stored env s sha raw)
    (h' : Stored env s sha raw') : raw = raw' := by
  obtain ⟨f, hf, hd, _⟩ := h
  obtain ⟨f', hf', hd', _⟩ := h'
  rw [hf] at hf'
  cases hf'
  rw [hd] at hd'
  exact Except.ok.inj hd'

variable {G : FsEffect → Fs → Fs → Prop} {env : Env} {s t : Fs}

theorem readRaw_keeps (sha objectPath : Bytes) :
    Keeps G (fun raw t => t = s ∧ Hash.isSha256Hex sha = true ∧ objectPath = textOf sha ∧
      Stored env s sha raw) (readRaw env sha objectPath) s := by
  simp only [readRaw, Prog.bind_eq]
  refine Keeps.bind_ofExcept fun expected he => ?_
  obtain ⟨hsha, rfl⟩ := objectPathForHash_ok he
  split
  · exact Keeps.throw
  · rename_i hp
    rw [not_not] at hp
    subst hp
    rw [absoluteObjectPath_textOf hsha]
    refine Keeps.bind_ofExcept fun abs ha => ?_
    cases ha
    refine Keeps.bind_query fun b _ => ?_
    split
    · refine Keeps.bind_query fun compressed hc => ?_
      refine Keeps.bind_ofExcept fun raw hd => ?_
      split
      · exact Keeps.throw
      · rename_i heq
        refine Keeps.pure ⟨rfl, hsha, rfl, ?_⟩
        split at hc
        · rename_i f hf
          cases hc
          exact ⟨f, Tree.leaf?_eq_some.mpr hf, hd, not_not.mp heq⟩
        · contradiction
        · contradiction
    · exact Keeps.throw

theorem readRaw_ok {sha objectPath raw : Bytes}
    (h : (readRaw env sha objectPath).exec s = (.ok raw, t)) :
    t = s ∧ Hash.isSha256Hex sha = true ∧ objectPath = textOf sha ∧ Stored env s sha raw := by
  have hk : Keeps (fun _ _ _ => True) _ (readRaw env sha objectPath) s :=
    readRaw_keeps sha objectPath
  have hq := Keeps.ok hk h
  exact hq

/-- A stored object is read back. -/
theorem exec_readRaw {sha raw : Bytes} (hsha : Hash.isSha256Hex sha = true)
    (h : Stored env s sha raw) : (readRaw env sha (textOf sha)).exec s = (.ok raw, s) := by
  obtain ⟨f, hf, hd, hs⟩ := h
  simp only [readRaw, Prog.bind_eq, objectPathForHash_of hsha, absoluteObjectPath_textOf hsha]
  rw [Prog.exec_bind_of_ok (Prog.exec_ofExcept _ _)]
  simp only [ne_eq, not_true_eq_false, if_false]
  rw [Prog.exec_bind_of_ok (Prog.exec_ofExcept _ _),
    Prog.exec_bind_of_ok (FileUtils.exec_pathExists_some hf)]
  simp only [if_true]
  rw [Prog.exec_bind_of_ok (FileUtils.exec_readFile_some hf), hd,
    Prog.exec_bind_of_ok (Prog.exec_ofExcept _ _)]
  simp [hs]

/-- What a put leaves: the object's file, new or as it was. -/
structure Put (env : Env) (sha compressed : Bytes) (rawSize : UInt64) (s t : Fs)
    (r : PutObjectResult) : Prop where
  sha_eq : r.sha256 = sha
  path_eq : r.objectPath = textOf sha
  rawSize_eq : r.rawSize = rawSize
  frame : Frame (· = pathOf sha) s t
  file : ∃ f, t.leaf? (pathOf sha) = some f ∧ r.compressedSize = size f.data ∧
    ((s.leaf? (pathOf sha) = none ∧ r.inserted = true ∧ f.data = compressed) ∨
      (s.leaf? (pathOf sha) = some f ∧ r.inserted = false ∧
        ∃ raw, Stored env s sha raw ∧ size raw = rawSize))

theorem Put.kept {sha compressed : Bytes} {rawSize : UInt64} {r : PutObjectResult}
    (h : Put env sha compressed rawSize s t r) : Kept s t := by
  intro q f hq hf
  by_cases he : q = pathOf sha
  · subst he
    obtain ⟨f', hf', _, hc | ⟨hs, _⟩⟩ := h.file
    · rw [hc.1] at hf
      contradiction
    · rw [hs] at hf
      cases hf
      exact hf'
  · rw [h.frame q he, hf]

theorem ensureLayout_keeps (hdir : ∀ p a b, G (.ensureDirectory p) a b) :
    Keeps G (fun _ t => ∀ q, t.leaf? q = s.leaf? q) ensureLayout s := by
  have step : ∀ (p : Path) (a : Fs), (∀ q, a.leaf? q = s.leaf? q) →
      Keeps G (fun _ t => ∀ q, t.leaf? q = s.leaf? q) (FileUtils.ensureDirectory p) a := by
    intro p a ha
    refine Keeps.perform fun t ht => ⟨hdir p a t, fun q => ?_⟩
    rw [(FsEffect.ensureDirectory_ok ht).1.leaf?, ha]
  simp only [ensureLayout, Prog.bind_eq]
  refine Keeps.bind (step _ s fun _ => rfl) fun _ a ha => ?_
  refine Keeps.bind (step _ a ha) fun _ b hb => ?_
  exact Keeps.bind (step _ b hb) fun _ c hc => step _ c hc

theorem putCompressed_keeps {sha compressed : Bytes} {rawSize : UInt64}
    (hdir : ∀ p a b, G (.ensureDirectory p) a b)
    (hput : ∀ m a b, Hash.isSha256Hex sha = true → (∀ q, a.leaf? q = s.leaf? q) →
      s.leaf? (pathOf sha) = none → G (.replace (pathOf sha) compressed m) a b) :
    Keeps G (fun r t => Hash.isSha256Hex sha = true ∧ Put env sha compressed rawSize s t r)
      (putCompressed env sha compressed rawSize) s := by
  simp only [putCompressed, Prog.bind_eq]
  refine Keeps.bind (ensureLayout_keeps hdir) fun _ a ha => ?_
  refine Keeps.bind_ofExcept fun _ hs => ?_
  have hsha := Hash.requireSha256Hex_ok hs
  rw [objectPathForHash_of hsha]
  refine Keeps.bind_ofExcept fun rel hrel => ?_
  cases hrel
  rw [absoluteObjectPath_textOf hsha]
  refine Keeps.bind_ofExcept fun abs habs => ?_
  cases habs
  refine Keeps.bind (FileUtils.pathExists_keeps _) fun b a' ⟨he, hb⟩ => ?_
  subst he hb
  split
  · refine Keeps.bind (readRaw_keeps sha (textOf sha)) fun raw a' ⟨he, _, _, hst⟩ => ?_
    subst he
    split
    · exact Keeps.throw
    · rename_i hsize
      refine Keeps.bind_query fun n hn => ?_
      obtain ⟨f, hf, hd, hr⟩ := hst
      rw [hf] at hn
      cases hn
      refine Keeps.pure ⟨hsha, rfl, rfl, rfl, fun q _ => ha q, f, hf, rfl, .inr ⟨?_, rfl, raw, ?_, ?_⟩⟩
      · rw [← ha, hf]
      · exact ⟨f, by rw [← ha, hf], hd, hr⟩
      · exact not_not.mp hsize
  · rename_i hnone
    have hleaf : a'.leaf? (pathOf sha) = none :=
      Tree.leaf?_eq_none_of_none (by simpa using hnone)
    have hleaf' : s.leaf? (pathOf sha) = none := by rw [← ha, hleaf]
    refine Keeps.bind (FileUtils.writeFileAtomic_keeps _ _ _ hdir fun m c d hc =>
      hput m c d hsha (fun q => by rw [hc, ha]) hleaf') fun _ t ⟨hframe, f, hf, hd⟩ => ?_
    refine Keeps.pure ⟨hsha, rfl, rfl, rfl, fun q hq => by rw [hframe q hq, ha], f, hf, ?_, .inl ⟨hleaf', rfl, hd⟩⟩
    rw [hd]

end Dpc.ObjectStore
