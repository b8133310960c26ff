import Dpc.Guarantees.Agreement
import Dpc.Lib.Footprint

namespace Dpc
open Text FileTree Effects ManifestStore ObjectStore

variable {env : Env} {repo target s : Fs} {version : UInt64}

/-- The same answers for some paths. -/
def Sees (P : Path → Prop) (s s' : Fs) : Prop :=
  ∀ q, P q → s'.status q = s.status q ∧ s'.get? q = s.get? q

theorem Sees.mono {P Q : Path → Prop} (h : ∀ q, P q → Q q) {s s' : Fs} (hs : Sees Q s s') :
    Sees P s s' :=
  fun q hq => hs q (h q hq)

/-- The path of the object that a reference names, if it names one. -/
def NamedBy (ref : ChunkRef) (q : Path) : Prop :=
  Hash.isSha256Hex ref.sha256 = true ∧ ref.objectPath = textOf ref.sha256 ∧ q = pathOf ref.sha256

/-- What the readers of a version look at: its marker, its manifest, and the objects that the
chunks of the manifest name. -/
def Readable (repo : Fs) (version : UInt64) (q : Path) : Prop :=
  q = commitPath version ∨ q = manifestPath version ∨
    ∃ m, (load version).exec repo = (.ok m, repo) ∧ ∃ file ∈ m.files, ∃ ref ∈ file.chunks,
      NamedBy ref q

theorem within_pathExists {P : Path → Prop} {p : Path} (hp : P p) :
    (FileUtils.pathExists p).Within (Sees P) s :=
  Prog.within_query fun s' hs => by rw [(hs p hp).1]

theorem within_readFile {P : Path → Prop} {p : Path} (hp : P p) :
    (FileUtils.readFile p).Within (Sees P) s :=
  Prog.within_query fun s' hs => by rw [(hs p hp).2]

theorem within_readRaw {ref : ChunkRef} :
    (readRaw env ref.sha256 ref.objectPath).Within (Sees (NamedBy ref)) s := by
  simp only [readRaw, Prog.bind_eq]
  refine Prog.Within.bind_ofExcept fun expected he => ?_
  obtain ⟨hsha, rfl⟩ := objectPathForHash_ok he
  split
  · trivial
  · rename_i hp
    rw [not_not] at hp
    rw [hp, absoluteObjectPath_textOf hsha]
    refine Prog.Within.bind_ofExcept fun abs ha => ?_
    cases ha
    have hnamed : NamedBy ref (pathOf ref.sha256) := ⟨hsha, hp, rfl⟩
    refine (within_pathExists hnamed).bind fun b t _ => ?_
    split
    · refine (within_readFile hnamed).bind fun compressed u _ => ?_
      refine Prog.Within.bind_ofExcept fun raw _ => ?_
      split
      · trivial
      · trivial
    · trivial

theorem within_load {P : Path → Prop} (hc : P (commitPath version)) (hm : P (manifestPath version)) :
    (load version).Within (Sees P) s := by
  simp only [load, isCommitted, FileUtils.readTextFile, Prog.bind_eq]
  refine (within_pathExists hc).bind fun b t _ => ?_
  split
  · exact (within_readFile hm).bind fun text u _ => Prog.within_ofExcept
  · trivial

section Files

variable {P : Path → Prop}

theorem within_verifyChunks {path : Bytes} {refs : List ChunkRef} {hash : env.evp.Ctx} {n : UInt64}
    (h : ∀ ref ∈ refs, ∀ q, NamedBy ref q → P q) :
    (VerifyEngine.verifyChunks env path hash n refs).Within (Sees P) s := by
  induction refs generalizing hash n s with
  | nil => trivial
  | cons ref refs ih =>
    simp only [VerifyEngine.verifyChunks, Prog.bind_eq]
    have hraw : (readRaw env ref.sha256 ref.objectPath).Within (Sees (NamedBy ref)) s := within_readRaw
    refine (hraw.mono fun _ _ => Sees.mono (h ref List.mem_cons_self)).bind fun raw t _ => ?_
    split
    · trivial
    split
    · trivial
    · exact ih fun r hr => h r (List.mem_cons_of_mem _ hr)

theorem within_verifyFile {file : FileManifest} (h : ∀ ref ∈ file.chunks, ∀ q, NamedBy ref q → P q) :
    (VerifyEngine.verifyFile env file).Within (Sees P) s := by
  simp only [VerifyEngine.verifyFile, Prog.bind_eq]
  refine (within_verifyChunks h).bind fun _ t _ => ?_
  split
  · trivial
  split
  · trivial
  · trivial

theorem within_verifyFiles {files : List FileManifest}
    (h : ∀ file ∈ files, ∀ ref ∈ file.chunks, ∀ q, NamedBy ref q → P q) :
    (VerifyEngine.verifyFiles env files).Within (Sees P) s := by
  induction files generalizing s with
  | nil => trivial
  | cons file files ih =>
    simp only [VerifyEngine.verifyFiles, Prog.bind_eq]
    refine (within_verifyFile (h file List.mem_cons_self)).bind fun _ t _ => ?_
    exact ih fun f hf => h f (List.mem_cons_of_mem _ hf)

theorem within_assemble {path acc : Bytes} {refs : List ChunkRef}
    (h : ∀ ref ∈ refs, ∀ q, NamedBy ref q → P q) :
    (RestoreEngine.assemble env path acc refs).Within (Sees P) s := by
  induction refs generalizing acc s with
  | nil => trivial
  | cons ref refs ih =>
    simp only [RestoreEngine.assemble, Prog.bind_eq]
    have hraw : (readRaw env ref.sha256 ref.objectPath).Within (Sees (NamedBy ref)) s := within_readRaw
    refine (hraw.mono fun _ _ => Sees.mono (h ref List.mem_cons_self)).bind fun raw t _ => ?_
    split
    · trivial
    · exact ih fun r hr => h r (List.mem_cons_of_mem _ hr)

theorem RestoreEngine.within_readFile {file : FileManifest}
    (h : ∀ ref ∈ file.chunks, ∀ q, NamedBy ref q → P q) :
    (readFile env file).Within (Sees P) s := by
  simp only [readFile, Prog.bind_eq]
  refine Prog.Within.bind_ofExcept fun _ _ => ?_
  refine (within_assemble h).bind fun assembled t _ => ?_
  split
  · trivial
  split
  · trivial
  · trivial

end Files

theorem readable_of_loaded {m : Manifest} (h : (load version).exec repo = (.ok m, repo))
    {file : FileManifest} (hf : file ∈ m.files) :
    ∀ ref ∈ file.chunks, ∀ q, NamedBy ref q → Readable repo version q :=
  fun ref hr _ hq => .inr (.inr ⟨m, h, file, hf, ref, hr, hq⟩)

/-- An effect below the root: a directory there is made, or a file is written or changed under
one or more names. -/
def Below : FsEffect → Prop
  | .ensureDirectory d => FileUtils.Descends d
  | .replace p _ _ => p ≠ [] ∧ FileUtils.Descends p
  | .chmod p _ => p ≠ [] ∧ FileUtils.Descends p
  | _ => False

theorem below_of_wrote {i : FsEffect} {s t : Fs}
    (h : RestoreEngine.Wrote (fun p _ => p ≠ [] ∧ FileUtils.Descends p) i s t) : Below i := by
  cases i with
  | ensureDirectory d =>
    obtain ⟨p, _, ⟨_, hp⟩, rfl⟩ := h
    exact hp.dropLast
  | replace p data mode => exact h
  | chmod p mode =>
    obtain ⟨_, _, hp⟩ := h
    exact hp
  | rename src dst => contradiction
  | append p data mode failure => contradiction
  | remove p => contradiction

/-- Whatever stands in the manifest, a restore writes below its target only, and nothing is
read but the marker, the manifest and the objects of its chunks, each under its own hash. -/
theorem manifests_confined (env : Env) (repo target : Fs) (version : UInt64) :
    (∀ is t, Prog.Cut (RestoreEngine.restore env repo version) target is t → ∀ i ∈ is, Below i) ∧
    (VerifyEngine.verify env version).Within (Sees (Readable repo version)) repo ∧
    (load version).Within (Sees (Readable repo version)) repo ∧
    ∀ m, (load version).exec repo = (.ok m, repo) → ∀ file ∈ m.files,
      (RestoreEngine.readFile env file).Within (Sees (Readable repo version)) repo := by
  have hload : (load version).Within (Sees (Readable repo version)) repo :=
    within_load (.inl rfl) (.inr (.inl rfl))
  refine ⟨fun is t hcut => ?_, ?_, hload, fun m hm file hf => ?_⟩
  · have hkeeps : Keeps (RestoreEngine.Wrote fun p _ => p ≠ [] ∧ FileUtils.Descends p)
        (fun _ _ => True) (RestoreEngine.restore env repo version) target := by
      simp only [RestoreEngine.restore, RestoreEngine.fromRepo, Prog.bind_eq]
      refine Keeps.bind_ofExcept fun m _ => ?_
      exact RestoreEngine.restoreFiles_keeps fun file _ data p _ hp =>
        FileUtils.safeRelativePath_descends hp
    refine SafeAlone.cut (I := fun is _ _ => ∀ i ∈ is, Below i) hkeeps hcut (fun _ => by simp) ?_
    intro i is s m t _ hg ih
    rw [List.forall_mem_cons]
    exact ⟨below_of_wrote hg, ih⟩
  · simp only [VerifyEngine.verify, Prog.bind_eq]
    refine hload.bind fun m t hm => ?_
    obtain ⟨rfl, _⟩ := load_wellFormed hm
    exact within_verifyFiles fun file hf => readable_of_loaded hm hf
  · exact RestoreEngine.within_readFile (readable_of_loaded hm hf)

theorem letters_confined : ∃ is t,
    Prog.Cut (RestoreEngine.restore (lettersEnv (2 ^ 32)) lettersRepo 1) emptyRepo is t ∧
      t.leaf? [ascii "a"] = some ⟨ascii "aa", 0o644⟩ ∧ ∀ i ∈ is, Below i := by
  have hrestore : RestoreEngine.restore (lettersEnv (2 ^ 32)) lettersRepo 1 =
      RestoreEngine.restoreFiles (lettersEnv (2 ^ 32)) lettersRepo lettersManifest.files :=
    RestoreEngine.restore_eq load_lettersRepo
  obtain ⟨is, hcut⟩ := Prog.cut_exec (RestoreEngine.restore (lettersEnv (2 ^ 32)) lettersRepo 1)
    emptyRepo
  refine ⟨is, _, hcut, ?_, (manifests_confined _ lettersRepo emptyRepo 1).1 is _ hcut⟩
  rw [hrestore]
  decide +kernel

end Dpc
