import Dpc.Core.ManifestStore
import Dpc.Core.ObjectStore

namespace Dpc
open Text FileTree Effects

namespace VerifyEngine

def verifyChunks (env : Env) (relativePath : Bytes) :
    env.evp.Ctx → UInt64 → List ChunkRef → Op (env.evp.Ctx × UInt64)
  | hash, actualSize, [] => return (hash, actualSize)
  | hash, actualSize, chunk :: chunks => do
    let raw ← ObjectStore.readRaw env chunk.sha256 chunk.objectPath
    if size raw ≠ chunk.rawSize then
      .throw (dpcErrorWith "chunk raw size mismatch: " relativePath)
    else if Hash.sha256Hex env.evp raw ≠ chunk.sha256 then
      .throw (dpcErrorWith "chunk checksum mismatch: " relativePath)
    else
      verifyChunks env relativePath (Hash.update env.evp hash raw) (actualSize + size raw) chunks

def verifyFile (env : Env) (file : FileManifest) : Op Unit := do
  let (hash, actualSize) ← verifyChunks env file.relativePath env.evp.init 0 file.chunks
  if actualSize ≠ file.fileSize then
    .throw (dpcErrorWith "file size mismatch: " file.relativePath)
  else if Hash.finalHex env.evp hash ≠ file.fileSha256 then
    .throw (dpcErrorWith "file checksum mismatch: " file.relativePath)
  else return ()

def verifyFiles (env : Env) : List FileManifest → Op Unit
  | [] => return ()
  | file :: files => do
    verifyFile env file
    verifyFiles env files

def verify (env : Env) (version : UInt64) : Op Unit := do
  let manifest ← ManifestStore.load version
  verifyFiles env manifest.files

end VerifyEngine

namespace RestoreEngine

def assemble (env : Env) (relativePath : Bytes) : Bytes → List ChunkRef → Op Bytes
  | assembled, [] => return assembled
  | assembled, chunk :: chunks => do
    let raw ← ObjectStore.readRaw env chunk.sha256 chunk.objectPath
    if size raw ≠ chunk.rawSize then
      .throw (dpcErrorWith "chunk raw size mismatch during restore: " relativePath)
    else assemble env relativePath (assembled ++ raw) chunks

/-- The bytes of one file, read from the repository and checked. -/
def readFile (env : Env) (file : FileManifest) : Op Bytes := do
  .ofExcept (Compressor.allocate env file.fileSize.toNat)
  let assembled ← assemble env file.relativePath [] file.chunks
  if size assembled ≠ file.fileSize then
    .throw (dpcErrorWith "file size mismatch during restore: " file.relativePath)
  else if Hash.sha256Hex env.evp assembled ≠ file.fileSha256 then
    .throw (dpcErrorWith "file checksum mismatch during restore: " file.relativePath)
  else return assembled

/-- The effects of a restore fall on the target, which is apart from the repository; the repository is
only read. -/
def fromRepo {α : Type} (repo : Fs) (op : Op α) : Op α := .ofExcept (op.exec repo).1

def restoreFile (env : Env) (repo : Fs) (file : FileManifest) : Op Unit := do
  let assembled ← fromRepo repo (readFile env file)
  let path ← .ofExcept (FileUtils.safeRelativePath file.relativePath "manifest relative_path")
  FileUtils.writeFileAtomic env.umask path assembled file.fileMode
  FileUtils.setFileMode path file.fileMode

def restoreFiles (env : Env) (repo : Fs) : List FileManifest → Op Unit
  | [] => return ()
  | file :: files => do
    restoreFile env repo file
    restoreFiles env repo files

def restore (env : Env) (repo : Fs) (version : UInt64) : Op Unit := do
  let manifest ← fromRepo repo (ManifestStore.load version)
  restoreFiles env repo manifest.files

end RestoreEngine

end Dpc
