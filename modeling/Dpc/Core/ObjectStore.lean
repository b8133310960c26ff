import Dpc.Common.FileUtils
import Dpc.Common.Hash
import Dpc.Core.Compressor

namespace Dpc
open Text FileTree Effects

structure PutObjectResult where
  sha256 : Bytes
  objectPath : Bytes
  rawSize : UInt64
  compressedSize : UInt64
  inserted : Bool
  deriving DecidableEq, Repr

structure ObjectStoreStats where
  objectCount : UInt64
  storedBytes : UInt64
  deriving DecidableEq, Repr

namespace ObjectStore

def objectsDir : Path := [ascii "objects"]

def ensureLayout : Op Unit := do
  FileUtils.ensureDirectory objectsDir
  FileUtils.ensureDirectory [ascii "manifests"]
  FileUtils.ensureDirectory [ascii "metadata", ascii "sessions"]
  FileUtils.ensureDirectory [ascii "tmp"]

def objectPathForHash (sha256 : Bytes) : Except Exn Bytes := do
  Hash.requireSha256Hex sha256 "sha256"
  return ascii "objects/" ++ sha256.take 2 ++ ascii "/" ++ sha256 ++ ascii ".zst"

def absoluteObjectPath (objectPath : Bytes) : Except Exn Path := do
  let safe ← FileUtils.safeRelativePath objectPath "object_path"
  if safe.head? ≠ some (ascii "objects") then
    throw (dpcError "object_path must stay under objects/")
  return safe

def readRaw (env : Env) (sha256 objectPath : Bytes) (memory : Option Nat := none) : Op Bytes := do
  let expectedPath ← .ofExcept (objectPathForHash sha256)
  if objectPath ≠ expectedPath then
    .throw (dpcErrorWith "object path does not match chunk hash: " objectPath)
  else
    let abs ← .ofExcept (absoluteObjectPath objectPath)
    if ← FileUtils.pathExists abs then
      let compressed ← FileUtils.readFile abs memory
      let raw ← .ofExcept (Compressor.decompress env compressed 0)
      if Hash.sha256Hex env.evp raw ≠ sha256 then
        .throw (dpcErrorWith "object checksum mismatch: " objectPath)
      else return raw
    else .throw (dpcErrorWith "object missing: " objectPath)

def putCompressed (env : Env) (sha256 compressed : Bytes) (rawSize : UInt64)
    (memory : Option Nat := none) : Op PutObjectResult := do
  ensureLayout
  .ofExcept (Hash.requireSha256Hex sha256 "sha256")
  let rel ← .ofExcept (objectPathForHash sha256)
  let abs ← .ofExcept (absoluteObjectPath rel)
  if ← FileUtils.pathExists abs then
    let raw ← readRaw env sha256 rel memory
    if size raw ≠ rawSize then
      .throw (dpcErrorWith "existing object raw size mismatch: " sha256)
    else
      let compressedSize ← FileUtils.fileSize abs
      return ⟨sha256, rel, rawSize, compressedSize, false⟩
  else
    FileUtils.writeFileAtomic env.umask abs compressed 0o644
    return ⟨sha256, rel, rawSize, size compressed, true⟩

def putRaw (env : Env) (raw : Bytes) : Op PutObjectResult := do
  let sha := Hash.sha256Hex env.evp raw
  let compressed ← .ofExcept (Compressor.compress env raw)
  putCompressed env sha compressed (size raw)

def addFiles : ObjectStoreStats → List Path → Op ObjectStoreStats
  | out, [] => return out
  | out, path :: paths => do
    let bytes ← FileUtils.fileSize path
    addFiles ⟨out.objectCount + 1, out.storedBytes + bytes⟩ paths

def stats : Op ObjectStoreStats := do
  if ← FileUtils.pathExists objectsDir then
    let paths ← FileUtils.regularFilesBelow objectsDir
    addFiles ⟨0, 0⟩ paths
  else return ⟨0, 0⟩

end ObjectStore

end Dpc
