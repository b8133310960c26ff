import Dpc.Core.RawFrames
import Dpc.Core.RestoreFacts

namespace Dpc
open Text FileTree Effects ManifestStore RestoreEngine

variable {env : Env} {repo target : Fs} {version : UInt64}

/-- The chunks of no file hold more bytes than 64 bits count. -/
def Counted (env : Env) (repo : Fs) (version : UInt64) : Prop :=
  ∀ m, (load version).exec repo = (.ok m, repo) → ∀ file ∈ m.files,
    ∀ datas, List.Forall₂ (Held env repo) datas file.chunks → datas.flatten.length < 2 ^ 64

theorem loaded_of_fst {m : Manifest} (h : ((load version).exec repo).1 = .ok m) :
    (load version).exec repo = (.ok m, repo) := by
  have hx := Prog.exec_of_fst h
  rwa [(load_wellFormed hx).1] at hx

def lettersAA : Bytes × Digest :=
  (ascii "aa", ⟨(hexDecode
    (ascii "961b6dd3ede3cb8ecbaacbd68de040cd78eb2ed5889130cceb4c49268ea4d506")).getD [], by decide⟩)

/-- A machine whose vectors hold so many bytes. -/
def lettersEnv (allocMax : Nat) : Env := { rawEnv [letterA, lettersAA] with allocMax := allocMax }

def shaA : Bytes := Hash.bytesToHex letterA.2.val

/-- One file of two letters, in two chunks. -/
def lettersManifest : Manifest :=
  ⟨1, 1700000000, .fixed, ascii "/data", 2, 10,
    [⟨ascii "a", 2, 0o644, Hash.bytesToHex lettersAA.2.val,
      [⟨0, 1, 10, shaA, ObjectStore.textOf shaA⟩, ⟨1, 1, 10, shaA, ObjectStore.textOf shaA⟩]⟩]⟩

def writeLetters : Op Unit := do
  let _ ← ObjectStore.putRaw letterEnv (ascii "a")
  writeTmp letterEnv 1 lettersManifest
  renameTmpToManifest 1
  FileUtils.writeTextAtomic letterEnv.umask (commitPath 1) (ascii "committed") 0o644

def lettersRepo : Fs := (writeLetters.exec emptyRepo).2

theorem load_lettersRepo : (load 1).exec lettersRepo = (.ok lettersManifest, lettersRepo) :=
  loaded_of_fst (by decide +kernel)

theorem verify_letters {allocMax : Nat}
    (h : ((VerifyEngine.verifyFiles (lettersEnv allocMax) lettersManifest.files).exec
      lettersRepo).1 = .ok ()) :
    ((VerifyEngine.verify (lettersEnv allocMax) 1).exec lettersRepo).1 = .ok () := by
  rwa [VerifyEngine.exec_verify load_lettersRepo]

end Dpc
