import Dpc.Common.Types
import Dpc.Lib.FileTree
import Dpc.Lib.LexPath
import Dpc.Lib.Safe

namespace Dpc
open Text FileTree Effects

structure File where
  data : Bytes
  mode : UInt32
  deriving DecidableEq, Repr

/-- A directory tree of files: the repository, or the target of a restore. -/
abbrev Fs := FileTree.Tree File

/-- Names of 255 bytes, of which the name of a temporary file may take 24: `.tmp.`, a process id
of four digits, a dot and a time of fourteen. -/
def nameMax255 : NameMax := ⟨some 255, 24⟩

/-- The effects on a directory tree. `replace` is `writeFileAtomic` from its
temporary file, which has the longer name, to the rename; the flushes change
nothing that is read. An `append` that cannot open its file fails as its caller
says. -/
inductive FsEffect where
  | ensureDirectory (path : Path)
  | replace (path : Path) (data : Bytes) (mode : UInt32)
  | rename (src dst : Path)
  | append (path : Path) (data : Bytes) (mode : UInt32) (failure : Exn)
  | remove (path : Path)
  | chmod (path : Path) (mode : UInt32)
  deriving DecidableEq, Repr

def appended (data : Bytes) (mode : UInt32) : Option File → File
  | some f => { f with data := f.data ++ data }
  | none => ⟨data, mode⟩

def orThrow {α : Type} (e : Exn) : Except Fault α → Except Exn α
  | .ok a => .ok a
  | .error _ => .error e

def FsEffect.apply : FsEffect → Fs → Except Exn Fs
  | .ensureDirectory p, t => orThrow (dpcError "create directory failed: ") (t.mkdirs p)
  | .replace p data mode, t =>
    orThrow (dpcError "open temp file failed: ") (t.replaceLeaf p ⟨data, mode⟩)
  | .rename src dst, t => orThrow (dpcError "rename manifest failed") (t.renameLeaf src dst)
  | .append p data mode failure, t => orThrow failure (t.upsertLeaf p (appended data mode))
  | .remove p, t =>
    if t.get? p = none then .ok t else orThrow .filesystemError (t.removeLeaf p)
  | .chmod p mode, t =>
    orThrow (dpcError "chmod failed: ") (t.modifyLeaf p fun f => { f with mode := mode })

instance : Effect FsEffect Fs Exn := ⟨FsEffect.apply⟩

abbrev Op := Prog Fs FsEffect Exn

namespace FileUtils

def ensureDirectory (path : Path) : Op Unit := .perform (.ensureDirectory path)

/-- `parent_path()` and the file below it; the umask takes its bits from the mode. -/
def writeFileAtomic (umask : UInt32) (finalPath : Path) (data : Bytes) (mode : UInt32) : Op Unit :=
  do
    ensureDirectory finalPath.dropLast
    .perform (.replace finalPath data (mode &&& 0o7777 &&& ~~~umask))

def writeTextAtomic (umask : UInt32) (finalPath : Path) (text : Bytes) (mode : UInt32) : Op Unit :=
  writeFileAtomic umask finalPath text mode

/-- `std::filesystem::exists`: no answer from the system is an exception. -/
def pathExists (path : Path) : Op Bool :=
  .query fun t =>
    match t.status path with
    | .ok node => .ok node.isSome
    | .error _ => .error .filesystemError

/-- A vector for the bytes of a file, where `memory` is the most that one can hold. -/
def fitted (memory : Option Nat) (data : Bytes) : Except Exn Bytes :=
  match memory with
  | none => .ok data
  | some most => if most < data.length then .error .badAlloc else .ok data

@[simp] theorem fitted_none (data : Bytes) : fitted none data = .ok data := rfl

/-- Opening a directory succeeds; reading from it does not. Without `memory` there is room for
every file. -/
def readFile (path : Path) (memory : Option Nat := none) : Op Bytes :=
  .query fun t =>
    match t.get? path with
    | some (.leaf f) => fitted memory f.data
    | some .dir => .error .iosFailure
    | none => .error (dpcError "open file failed: ")

/-- `directory_iterator`: the names of the regular files in a directory. -/
def regularFiles (dir : Path) : Op (List Name) :=
  .query fun t =>
    match t.get? dir with
    | some .dir => .ok (t.leafNames dir)
    | _ => .error .filesystemError

/-- `recursive_directory_iterator`: the regular files at any depth below a directory. -/
def regularFilesBelow (dir : Path) : Op (List Path) :=
  .query fun t =>
    match t.get? dir with
    | some .dir => .ok (t.leavesBelow dir)
    | _ => .error .filesystemError

def readTextFile (path : Path) (memory : Option Nat := none) : Op Bytes := readFile path memory

def fileSize (path : Path) : Op UInt64 :=
  .query fun t =>
    match t.leaf? path with
    | some f => .ok (size f.data)
    | none => .error (dpcError "file_size failed: ")

/-- `chmod` looks at the permission bits only. -/
def setFileMode (path : Path) (mode : UInt32) : Op Unit := .perform (.chmod path (mode &&& 0o7777))

def safeRelativePath (value : Bytes) (fieldName : String) : Except Exn (List Bytes) :=
  if 0 ∈ value then .error (dpcError (fieldName ++ " must not contain null bytes"))
  else if value = [] ∨ LexPath.isAbsolute value then
    .error (dpcError (fieldName ++ " must be a non-empty relative path"))
  else
    let normalized := LexPath.lexicallyNormal false (LexPath.elements value)
    if normalized = [] ∨ normalized = [LexPath.dot] then
      .error (dpcError (fieldName ++ " must not resolve to current directory"))
    else if LexPath.dotdot ∈ normalized then
      .error (dpcError (fieldName ++ " must not contain parent directory traversal"))
    else .ok normalized

/-- A path that `safeRelativePath` takes, whatever the field is called. -/
def SafePath (value : Bytes) : Prop := ∃ p, safeRelativePath value "" = .ok p

theorem safeRelativePath_field {value : Bytes} {p : List Bytes} {f g : String}
    (h : safeRelativePath value f = .ok p) : safeRelativePath value g = .ok p := by
  unfold safeRelativePath at h ⊢
  split at h
  · contradiction
  split at h
  · contradiction
  dsimp only at h ⊢
  split at h
  · contradiction
  split at h
  · contradiction
  simp_all

theorem safePath_iff {value : Bytes} (f : String) :
    SafePath value ↔ ∃ p, safeRelativePath value f = .ok p :=
  ⟨fun ⟨p, h⟩ => ⟨p, safeRelativePath_field h⟩, fun ⟨p, h⟩ => ⟨p, safeRelativePath_field h⟩⟩

/-- Names below each other, none of which leads out. -/
def Descends (p : Path) : Prop := ∀ n ∈ p, LexPath.slash ∉ n ∧ 0 ∉ n ∧ n ≠ LexPath.dotdot

theorem Descends.dropLast {p : Path} (h : Descends p) : Descends p.dropLast :=
  fun n hn => h n (List.dropLast_subset p hn)

theorem safeRelativePath_descends {value : Bytes} {p : List Bytes} {f : String}
    (h : safeRelativePath value f = .ok p) : p ≠ [] ∧ Descends p := by
  unfold safeRelativePath at h
  split at h
  · contradiction
  rename_i h0
  split at h
  · contradiction
  dsimp only at h
  split at h
  · contradiction
  rename_i hne
  split at h
  · contradiction
  rename_i hup
  cases h
  refine ⟨fun he => hne (.inl he), fun n hn => ?_⟩
  have hname : LexPath.slash ∉ n ∧ 0 ∉ n := by
    rcases LexPath.mem_lexicallyNormal hn with hm | rfl | rfl | rfl
    · obtain ⟨hslash, hbytes⟩ := LexPath.mem_elements hm
      exact ⟨hslash, fun hz => h0 (hbytes 0 hz)⟩
    · simp
    · decide
    · decide
  exact ⟨hname.1, hname.2, fun he => hup (he ▸ hn)⟩

/-- A path of proper names is taken as it is. -/
theorem safeRelativePath_names {ns : List Bytes} (f : String) (hn : ns ≠ [])
    (h : ∀ n ∈ ns, LexPath.IsName n) :
    safeRelativePath (joinWith LexPath.slash ns) f = .ok ns := by
  have h0 : 0 ∉ joinWith LexPath.slash ns := by
    intro hm
    rcases mem_joinWith hm with he | ⟨n, hn, hb⟩
    · exact absurd he (by decide)
    · exact (h n hn).nonul hb
  have habs := LexPath.isAbsolute_joinWith hn h
  have hne : joinWith LexPath.slash ns ≠ [] := by
    intro he
    have := LexPath.elements_joinWith hn h
    rw [he] at this
    exact hn this.symm
  have hnorm := LexPath.lexicallyNormal_names hn h
  have hdot : ns ≠ [LexPath.dot] := by
    rintro rfl
    exact (h _ (by simp)).ne_dot rfl
  have hdotdot : LexPath.dotdot ∉ ns := fun hm => (h _ hm).ne_dotdot rfl
  simp only [safeRelativePath, h0, if_false, hne, habs, Bool.false_eq_true, or_self,
    LexPath.elements_joinWith hn h, hnorm, hn, hdot, hdotdot]

end FileUtils

end Dpc
