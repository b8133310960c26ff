import Dpc.Core.BackupEngine

namespace Dpc
open Text FileTree Effects

/-- What a directory entry of the machine can be, besides a directory: a file, or a
symbolic link with the path it names. -/
inductive Entry where
  | file (f : File)
  | link (absolute : Bool) (target : List Bytes)
  deriving DecidableEq, Repr

/-- The file tree of the machine on which a backup is made. -/
structure World where
  tree : FileTree.Tree Entry
  names : ∀ p, tree.get? p ≠ none → ∀ n ∈ p, LexPath.IsName n
  count : tree.nodes.keys.length < 2 ^ 64

/-- The machine with some files and links, all of whose names are proper ones. -/
def World.ofNodes (nodes : AList (fun _ : Path => Node Entry))
    (h : ∀ p ∈ nodes.keys, p ≠ [] ∧ rawGet nodes p.dropLast = some .dir ∧
      ∀ n ∈ p.getLast?, badName nameMax255 n = false)
    (names : ∀ p ∈ nodes.keys, ∀ n ∈ p, LexPath.IsName n) (count : nodes.keys.length < 2 ^ 64) :
    World where
  tree := .ofNodes nameMax255 nodes h
  names p hp n hn := by
    by_cases he : p = []
    · rw [he] at hn
      contradiction
    · rw [← Tree.lookup_of_get? he] at hp
      exact names p (AList.mem_keys.mp (AList.lookup_isSome.mp
        (Option.isSome_iff_ne_none.mpr hp))) n hn
  count := count

inductive LinkFault where
  | notFound
  | loop
  deriving DecidableEq, Repr

namespace World

/-- Walk down a path from a directory. At a link, `follow` takes over with the directory
that the link starts from and all that is still to walk. -/
def walk (w : World) (follow : Path → List Bytes → Except LinkFault Path) :
    Path → List Bytes → Except LinkFault Path
  | cur, [] => .ok cur
  | cur, n :: rest =>
    if n = [] ∨ n = LexPath.dot then w.walk follow cur rest
    else if n = LexPath.dotdot then w.walk follow cur.dropLast rest
    else match w.tree.get? (cur ++ [n]) with
      | none => .error .notFound
      | some .dir => w.walk follow (cur ++ [n]) rest
      | some (.leaf (.file _)) => if rest = [] then .ok (cur ++ [n]) else .error .notFound
      | some (.leaf (.link absolute target)) =>
        follow (if absolute then [] else cur) (target ++ rest)

/-- Walk through no more than so many links. -/
def walkLinks (w : World) : Nat → Path → List Bytes → Except LinkFault Path
  | 0 => w.walk fun _ _ => .error .loop
  | n + 1 => w.walk (w.walkLinks n)

def kMaxLinks : Nat := 40

/-- `weakly_canonical`, of a path that exists. -/
def canonical (w : World) (p : Path) : Except LinkFault Path := w.walkLinks kMaxLinks [] p

end World

namespace FileScanner

/-- The entries below a directory, as `recursive_directory_iterator` finds them. -/
def entries (w : World) (base : Path) : List Path :=
  w.tree.nodes.keys.filter fun p => base.isPrefixOf p && p != base

def relativePath (base p : Path) : Bytes :=
  joinWith LexPath.slash (LexPath.lexicallyRelative p base)

/-- A file as the scan reports it, with the answers of a source that does not change. -/
def scanned (base : Path) (p : Path) (f : File) : Option ScannedFile :=
  if h : relativePath base p ≠ [] then
    some ⟨relativePath base p, h, .ok (size f.data), .ok (f.mode &&& 0o777), .ok f.data⟩
  else none

/-- An entry that is a regular file, links followed. -/
def scanEntry (w : World) (base : Path) (p : Path) : Except Exn (Option ScannedFile) :=
  match w.canonical p with
  | .ok q =>
    match w.tree.get? q with
    | some (.leaf (.file f)) => .ok (scanned base q f)
    | _ => .ok none
  | .error .notFound => .ok none
  | .error .loop => .error .filesystemError

def scanEntries (w : World) (base : Path) : List Path → Except Exn (List ScannedFile)
  | [] => .ok []
  | p :: ps => do
    let first ← scanEntry w base p
    let rest ← scanEntries w base ps
    return first.toList ++ rest

def byPath (a b : ScannedFile) : Prop := (compare a.relativePath b.relativePath).isLE = true

instance (a b : ScannedFile) : Decidable (byPath a b) := inferInstanceAs (Decidable (_ = _))

def scanRegularFiles (w : World) (root : Path) : Except Exn (List ScannedFile) :=
  match w.canonical root with
  | .ok base =>
    if w.tree.get? base = some .dir then do
      let files ← scanEntries w base (entries w base)
      return files.insertionSort byPath
    else .error (dpcError "source path is not a directory: ")
  | .error _ => .error (dpcError "source path is not a directory: ")

theorem length_scanEntries {w : World} {base : Path} {ps : List Path} {files : List ScannedFile}
    (h : scanEntries w base ps = .ok files) : files.length ≤ ps.length := by
  induction ps generalizing files with
  | nil =>
    cases h
    simp
  | cons p ps ih =>
    simp only [scanEntries, bind, Except.bind, pure, Except.pure] at h
    split at h
    · contradiction
    rename_i first _
    split at h
    · contradiction
    rename_i rest hrest
    cases h
    have := ih hrest
    have hf : first.toList.length ≤ 1 := by cases first <;> simp
    simp only [List.length_append, List.length_cons]
    omega

theorem length_scanRegularFiles {w : World} {root : Path} {files : List ScannedFile}
    (h : scanRegularFiles w root = .ok files) : files.length < 2 ^ 64 := by
  unfold scanRegularFiles at h
  split at h
  · rename_i base _
    split at h
    · simp only [bind, Except.bind, pure, Except.pure] at h
      split at h
      · contradiction
      rename_i found hfound
      cases h
      rw [List.length_insertionSort]
      have h1 := length_scanEntries hfound
      have h2 : (entries w base).length ≤ w.tree.nodes.keys.length := List.length_filter_le _ _
      have h3 := w.count
      omega
    · contradiction
  · contradiction

end FileScanner

/-- A source that does not change while it is read. -/
def Source.ofWorld (w : World) (root : Path) : Source where
  root := LexPath.slash :: joinWith LexPath.slash root
  root_ne := by simp
  scan := FileScanner.scanRegularFiles w root
  count _ h := FileScanner.length_scanRegularFiles h

end Dpc
