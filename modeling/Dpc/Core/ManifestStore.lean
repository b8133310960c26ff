import Dpc.Core.ManifestCodec
import Dpc.Core.Compressor
import Mathlib.Data.List.Sort

namespace Dpc
open Text FileTree Effects

namespace ManifestStore

def manifestsDir : Path := [ascii "manifests"]
def tmpDir : Path := [ascii "tmp"]

/-- Padded with zeros to six digits, and longer from a million on. -/
def zeroPadVersion (version : UInt64) : Bytes := (number version).leftpad 6 48

def versionFileName (version : UInt64) (suffix : String) : Name :=
  ascii "version-" ++ zeroPadVersion version ++ ascii suffix

def manifestPath (version : UInt64) : Path :=
  manifestsDir ++ [versionFileName version ".manifest"]

def tmpManifestPath (version : UInt64) : Path :=
  tmpDir ++ [versionFileName version ".manifest.tmp"]

def commitPath (version : UInt64) : Path := manifestsDir ++ [versionFileName version ".commit"]

/-- A name of the length of `version-000001.commit` that begins and ends like it. -/
def isMarkerName (name : Name) : Bool :=
  (ascii "version-").isPrefixOf name && name.length == 21 && name.drop 14 == ascii ".commit"

def markerNumber (name : Name) : Except Exn UInt64 := parseU64 ((name.drop 8).take 6) "version"

def markerNumbers : List Name → Except Exn (List UInt64)
  | [] => .ok []
  | name :: names =>
    if isMarkerName name then do
      let version ← markerNumber name
      let versions ← markerNumbers names
      return version :: versions
    else markerNumbers names

def listCommittedVersions : Op (List UInt64) := do
  if ← FileUtils.pathExists manifestsDir then
    let names ← FileUtils.regularFiles manifestsDir
    let versions ← .ofExcept (markerNumbers names)
    return versions.insertionSort (· ≤ ·)
  else return []

def nextVersion : Op UInt64 := do
  let versions ← listCommittedVersions
  match versions.getLast? with
  | none => return 1
  | some last => return last + 1

def isCommitted (version : UInt64) : Op Bool := FileUtils.pathExists (commitPath version)

def load (version : UInt64) : Op Manifest := do
  if ← isCommitted version then
    let text ← FileUtils.readTextFile (manifestPath version)
    .ofExcept (parse text)
  else .throw (dpcErrorWith "version is not committed: " (number version))

def writeTmp (env : Env) (version : UInt64) (manifest : Manifest) : Op Unit :=
  FileUtils.writeTextAtomic env.umask (tmpManifestPath version) (serialize manifest) 0o644

def renameTmpToManifest (version : UInt64) : Op Unit := do
  FileUtils.ensureDirectory manifestsDir
  .perform (.rename (tmpManifestPath version) (manifestPath version))

end ManifestStore

end Dpc
