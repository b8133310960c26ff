import Dpc.Lib.Text

namespace Dpc
open Text

/-- What the program's functions throw. `dpc` is `DpcError` with its text, up to
where an operating system message or an absolute path would be filled in. -/
inductive Exn where
  | dpc (message : Bytes)
  | invalidArgument
  | outOfRange
  | lengthError
  | badAlloc
  | filesystemError
  | iosFailure
  deriving DecidableEq, Repr

/-- The exceptions that a `catch (const DpcError&)` takes. -/
def Exn.IsDpc : Exn → Prop
  | .dpc _ => True
  | _ => False

instance : DecidablePred Exn.IsDpc := fun e =>
  match e with
  | .dpc _ => isTrue trivial
  | .invalidArgument | .outOfRange | .lengthError | .badAlloc | .filesystemError
  | .iosFailure => isFalse nofun

def dpcError (text : String) : Exn := .dpc (ascii text)

/-- A `DpcError` whose text ends in a value. -/
def dpcErrorWith (text : String) (value : Bytes) : Exn := .dpc (ascii text ++ value)

/-- `size()` of a vector or string, a `size_t`. -/
def size (data : Bytes) : UInt64 := UInt64.ofNat data.length

theorem toNat_size {data : Bytes} (h : data.length < 2 ^ 64) : (size data).toNat = data.length := by
  rw [size, UInt64.toNat_ofNat_of_lt' h]

inductive ChunkingMode where
  | fixed
  | contentDefined
  deriving DecidableEq, Repr

def ChunkingMode.toString : ChunkingMode → Bytes
  | .fixed => ascii "fixed"
  | .contentDefined => ascii "cdc"

def chunkingModeFromString (value : Bytes) : ChunkingMode :=
  if value = ascii "cdc" then .contentDefined else .fixed

@[simp] theorem chunkingModeFromString_toString (mode : ChunkingMode) :
    chunkingModeFromString mode.toString = mode := by
  cases mode <;> decide

structure Chunk where
  index : UInt64
  data : Bytes
  deriving DecidableEq, Repr

structure ChunkRef where
  chunkIndex : UInt64
  rawSize : UInt64
  compressedSize : UInt64
  sha256 : Bytes
  objectPath : Bytes
  deriving DecidableEq, Repr

/-- A sort by the index of the chunks. Which of two chunks of one index comes first is left open. -/
structure ChunkOrder where
  sort : List ChunkRef → List ChunkRef
  perm : ∀ chunks, (sort chunks).Perm chunks
  sorted : ∀ chunks, (sort chunks).Pairwise fun a b => a.chunkIndex ≤ b.chunkIndex

structure FileManifest where
  relativePath : Bytes
  fileSize : UInt64
  fileMode : UInt32
  fileSha256 : Bytes
  chunks : List ChunkRef
  deriving DecidableEq, Repr

structure Manifest where
  version : UInt64
  createdAt : UInt64
  chunkingMode : ChunkingMode
  sourceRoot : Bytes
  totalInputBytes : UInt64
  totalStoredBytes : UInt64
  files : List FileManifest
  deriving DecidableEq, Repr

structure BackupResult where
  version : UInt64
  fileCount : UInt64
  totalInputBytes : UInt64
  totalStoredBytes : UInt64
  totalChunks : UInt64
  uniqueChunks : UInt64
  duplicateChunks : UInt64
  deriving DecidableEq, Repr

end Dpc
