import Dpc.Core.FailureFacts
import Dpc.Core.ManifestFormat
import Dpc.Core.ReadFacts

namespace Dpc
open Text FileTree Effects ManifestStore

variable {env : Env} {repo s t : Fs} {version : UInt64}

/-- Every path and every hash of a manifest that was loaded has been checked. -/
theorem load_wellFormed {m : Manifest} (h : (load version).exec repo = (.ok m, t)) :
    t = repo ∧ WellFormed m := by
  obtain ⟨ht, _, _, _, hp⟩ := load_ok h
  exact ⟨ht, parse_ok hp⟩

namespace VerifyEngine

/-- A version verifies if and only if its manifest is loaded and every entry is right. -/
theorem verify_iff : ((verify env version).exec repo).1 = .ok () ↔
    ∃ m, (load version).exec repo = (.ok m, repo) ∧ ∀ file ∈ m.files, Whole env repo file := by
  simp only [verify, Prog.bind_eq]
  constructor
  · intro h
    obtain ⟨m, u, hload, hfiles⟩ := Prog.exec_bind_ok (Prog.exec_of_fst h)
    obtain ⟨rfl, _⟩ := load_wellFormed hload
    refine ⟨m, hload, verifyFiles_iff.mp ?_⟩
    rw [hfiles]
    rw [verifyFiles_state hfiles]
  · intro ⟨m, hload, hwhole⟩
    rw [Prog.exec_bind_of_ok hload, verifyFiles_iff.mpr hwhole]

theorem exec_verify {m : Manifest} (h : (load version).exec repo = (.ok m, repo)) :
    (verify env version).exec repo = (verifyFiles env m.files).exec repo := by
  rw [verify, Prog.bind_eq, Prog.exec_bind_of_ok h]

end VerifyEngine

namespace RestoreEngine

@[simp] theorem exec_fromRepo {α : Type} {op : Op α} :
    (fromRepo repo op).exec t = ((op.exec repo).1, t) := by
  simp [fromRepo]

theorem restore_eq {m : Manifest} (h : (load version).exec repo = (.ok m, repo)) :
    restore env repo version = restoreFiles env repo m.files := by
  simp [restore, fromRepo, h, Prog.ofExcept]

/-- What is written below the target: whatever is put there is allowed, and so is whatever
the mode is changed of. -/
def Wrote (Allowed : Path → Bytes → Prop) : FsEffect → Fs → Fs → Prop
  | .ensureDirectory d, _, _ => ∃ p data, Allowed p data ∧ d = p.dropLast
  | .replace p data _, _, _ => Allowed p data
  | .chmod p _, s, _ => ∃ f, s.leaf? p = some f ∧ Allowed p f.data
  | _, _, _ => False

theorem restoreFile_keeps {Allowed : Path → Bytes → Prop} {file : FileManifest}
    (h : ∀ data p, ((readFile env file).exec repo).1 = .ok data →
      FileUtils.safeRelativePath file.relativePath "manifest relative_path" = .ok p →
      Allowed p data) :
    Keeps (Wrote Allowed) (fun _ _ => True) (restoreFile env repo file) s := by
  simp only [restoreFile, fromRepo, FileUtils.writeFileAtomic, FileUtils.ensureDirectory,
    FileUtils.setFileMode, Prog.bind_eq]
  refine Keeps.bind_ofExcept fun data hdata => ?_
  refine Keeps.bind_ofExcept fun p hp => ?_
  have hok := h data p hdata hp
  have hdir : Keeps (Wrote Allowed) (fun _ _ => True)
      (Prog.perform (.ensureDirectory p.dropLast)) s :=
    Keeps.perform fun _ _ => ⟨⟨p, data, hok, rfl⟩, trivial⟩
  have hput : ∀ m t, Keeps (Wrote Allowed) (fun _ t => ∃ f, t.leaf? p = some f ∧ f.data = data)
      (Prog.perform (.replace p data m)) t := by
    intro m t
    refine Keeps.perform fun u hu => ⟨hok, ?_⟩
    exact ⟨_, by rw [(FsEffect.replace_ok hu).leaf?, if_pos rfl], rfl⟩
  refine Keeps.bind (Keeps.bind hdir fun _ t _ => hput _ t) ?_
  rintro _ t ⟨f, hf, hfd⟩
  exact Keeps.perform fun u _ => ⟨⟨f, hf, hfd ▸ hok⟩, trivial⟩

theorem restoreFiles_keeps {Allowed : Path → Bytes → Prop} {files : List FileManifest}
    (h : ∀ file ∈ files, ∀ data p, ((readFile env file).exec repo).1 = .ok data →
      FileUtils.safeRelativePath file.relativePath "manifest relative_path" = .ok p →
      Allowed p data) :
    Keeps (Wrote Allowed) (fun _ _ => True) (restoreFiles env repo files) s := by
  induction files generalizing s with
  | nil => exact Keeps.pure trivial
  | cons file files ih =>
    simp only [restoreFiles, Prog.bind_eq]
    refine Keeps.bind (restoreFile_keeps (h file List.mem_cons_self)) fun _ t _ => ?_
    exact ih fun f hf => h f (List.mem_cons_of_mem _ hf)

/-- Wherever a restore was stopped, what is new below the target was allowed. -/
theorem Wrote.new {Allowed : Path → Bytes → Prop} {i : FsEffect} {q : Path} {f : File}
    (h : Wrote Allowed i s t) (ha : Effect.apply i s = .ok t) (hf : t.leaf? q = some f) :
    s.leaf? q = some f ∨ Allowed q f.data := by
  cases i with
  | ensureDirectory d =>
    rw [(FsEffect.ensureDirectory_ok ha).1.leaf?] at hf
    exact .inl hf
  | replace p data mode =>
    rw [(FsEffect.replace_ok ha).leaf?] at hf
    split at hf
    · rename_i hq
      cases hf
      exact .inr (hq ▸ h)
    · exact .inl hf
  | chmod p mode =>
    obtain ⟨f₀, hf₀, hok⟩ := h
    obtain ⟨f₁, hf₁, hput⟩ := FsEffect.chmod_ok ha
    cases hf₀.symm.trans hf₁
    rw [hput.leaf?] at hf
    split at hf
    · rename_i hq
      cases hf
      exact .inr (hq ▸ hok)
    · exact .inl hf
  | rename src dst => contradiction
  | append p data mode failure => contradiction
  | remove p => contradiction

end RestoreEngine

end Dpc
