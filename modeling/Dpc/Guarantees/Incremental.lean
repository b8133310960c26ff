import Dpc.Guarantees.Chunked
import Dpc.Guarantees.Immutable
import Dpc.Guarantees.Tallied

/-! What a later backup adds to the store, after whatever has happened since an earlier one. -/

namespace Dpc
open Text FileTree Effects Greedy ManifestStore ObjectStore BackupEngine

variable {env : Env} {s t u : Fs} {mode mode' : ChunkingMode} {files files' : List ScannedFile}
  {entries : List FileManifest} {hashes old new : List Bytes} {now now' : UInt64}
  {fault fault' : FaultStage} {source source' : Source} {r r' : BackupResult}
  {b : Pool Fs FsEffect Exn}

/-- The different hashes whose objects are not there. -/
def fresh (s : Fs) (hashes : List Bytes) : List Bytes :=
  hashes.dedup.filter fun sha => (s.leaf? (pathOf sha)).isNone

theorem mem_fresh {sha : Bytes} :
    sha ∈ fresh s hashes ↔ sha ∈ hashes ∧ (s.leaf? (pathOf sha)).isNone := by
  rw [fresh, List.mem_filter, List.mem_dedup]

theorem nodup_fresh : (fresh s hashes).Nodup := (List.nodup_dedup hashes).filter _

theorem length_objectFiles (h : ∀ q, InObjects q → ((t.leaf? q).isSome ↔
      (s.leaf? q).isSome ∨ ∃ sha ∈ hashes, q = pathOf sha)) :
    (objectFiles t).length = (objectFiles s).length + (fresh s hashes).length := by
  have hinjective : Function.Injective pathOf := fun _ _ => pathOf_injective
  have hdisjoint : List.Disjoint (objectFiles s) ((fresh s hashes).map pathOf) := by
    intro q hq hin
    obtain ⟨sha, hsha, rfl⟩ := List.mem_map.mp hin
    have hsome := (mem_objectFiles.mp hq).2
    have hnone := (mem_fresh.mp hsha).2
    rw [Option.isNone_iff_eq_none] at hnone
    rw [hnone] at hsome
    contradiction
  have hperm : (objectFiles t).Perm (objectFiles s ++ (fresh s hashes).map pathOf) := by
    refine (List.perm_ext_iff_of_nodup (t.nodup_leavesBelow _) (List.nodup_append'.mpr
      ⟨s.nodup_leavesBelow _, nodup_fresh.map hinjective, hdisjoint⟩)).mpr fun q => ?_
    rw [List.mem_append, List.mem_map]
    constructor
    · intro hq
      obtain ⟨hin, hsome⟩ := mem_objectFiles.mp hq
      by_cases hs : (s.leaf? q).isSome
      · exact .inl (mem_objectFiles.mpr ⟨hin, hs⟩)
      · rcases (h q hin).mp hsome with hs' | ⟨sha, hsha, rfl⟩
        · exact absurd hs' hs
        · exact .inr ⟨sha, mem_fresh.mpr ⟨hsha, by simpa using hs⟩, rfl⟩
    · rintro (hq | ⟨sha, hsha, rfl⟩)
      · obtain ⟨hin, hsome⟩ := mem_objectFiles.mp hq
        exact mem_objectFiles.mpr ⟨hin, (h q hin).mpr (.inl hsome)⟩
      · have hin := inObjects_pathOf sha
        exact mem_objectFiles.mpr ⟨hin, (h _ hin).mpr (.inr ⟨sha, (mem_fresh.mp hsha).1, rfl⟩)⟩
  rw [hperm.length_eq, List.length_append, List.length_map]

/-- The pieces into which a backup cuts a file, if it can read it. -/
def filePieces (mode : ChunkingMode) (file : ScannedFile) : List Bytes :=
  file.readFile.toOption.elim [] (pieces mode)

def piecesOf (mode : ChunkingMode) (files : List ScannedFile) : List Bytes :=
  files.flatMap (filePieces mode)

theorem filePieces_of_read {file : ScannedFile} (h : file.readFile = .ok d) :
    filePieces mode file = pieces mode d := by
  rw [filePieces, h]
  rfl

/-- The manifest names the hashes of the pieces, in their order. -/
theorem hashes_of_described
    (h : List.Forall₂ (fun scanned file => ∃ data, FileDescribes env t mode data scanned file)
      files entries) :
    (entries.flatMap FileManifest.chunks).map ChunkRef.sha256 =
      (piecesOf mode files).map (Hash.sha256Hex env.evp) := by
  induction h with
  | nil => rfl
  | @cons scanned file files entries hd _ ih =>
    obtain ⟨data, hd⟩ := hd
    have hchunks : file.chunks.map ChunkRef.sha256 =
        (pieces mode data).map (Hash.sha256Hex env.evp) := by
      have hrefs : List.Forall₂ (· = ·) ((chunkFile mode data).map fun chunk =>
          Hash.sha256Hex env.evp chunk.data) (file.chunks.map ChunkRef.sha256) :=
        List.forall₂_map_left_iff.mpr (List.forall₂_map_right_iff.mpr
          (hd.chunks.imp fun _ _ h => h.2.sha.symm))
      rw [List.forall₂_eq_eq_eq] at hrefs
      rw [pieces, List.map_map]
      exact hrefs.symm
    rw [List.flatMap_cons, List.map_append, hchunks, ih, piecesOf, piecesOf, List.flatMap_cons,
      filePieces_of_read hd.read_eq, List.map_append]

/-- The name of the object that holds a piece. -/
def pieceObject (env : Env) (piece : Bytes) : Path := pathOf (Hash.sha256Hex env.evp piece)

/-- What a backup that succeeds has done to the objects, and what it says of that. -/
structure StoresPieces (env : Env) (mode : ChunkingMode) (files : List ScannedFile) (s t : Fs)
    (r : BackupResult) : Prop where
  count : (objectFiles t).length = (objectFiles s).length +
    (fresh s ((piecesOf mode files).map (Hash.sha256Hex env.evp))).length
  unique : (tally t).objectCount = (tally s).objectCount + r.uniqueChunks
  bytes : (tally t).storedBytes = (tally s).storedBytes + r.totalStoredBytes
  kept : Kept s t
  objects : ∀ q, InObjects q → ((t.leaf? q).isSome ↔
    (s.leaf? q).isSome ∨ ∃ piece ∈ piecesOf mode files, q = pieceObject env piece)
  short : ∀ file ∈ files, ∀ data, file.readFile = .ok data → data.length < 2 ^ 63

theorem create_adds (hscan : source.scan = .ok files)
    (h : (create env now fault source mode).exec s = (.ok r, t)) :
    StoresPieces env mode files s t r := by
  obtain ⟨m, hcreated, hb⟩ := create_booked h
  obtain ⟨found, hfound, hd⟩ := hcreated.described
  cases hscan.symm.trans hfound
  have hhashes := hashes_of_described hd.files
  have hobjects : ∀ q, InObjects q → ((t.leaf? q).isSome ↔ (s.leaf? q).isSome ∨
      ∃ sha ∈ (piecesOf mode files).map (Hash.sha256Hex env.evp), q = pathOf sha) := by
    intro q hq
    rw [hb.objects q hq, ← hhashes, Manifest.refs]
    simp only [List.mem_map, exists_exists_and_eq_and]
  refine ⟨length_objectFiles hobjects, by rw [hb.store], by rw [hb.store], hd.added.kept,
    fun q hq => ?_, fun file hfile data hread => ?_⟩
  · rw [hobjects q hq]
    simp only [List.mem_map, exists_exists_and_eq_and, pieceObject]
  · obtain ⟨_, _, data', hdesc⟩ := hd.files.exists_right hfile
    cases hread.symm.trans hdesc.read_eq
    exact (Compressor.allocate_ok.mp hdesc.fits).1

/-- The different pieces that are not among the old ones. -/
def missing (old new : List Bytes) : List Bytes := new.dedup.filter fun piece => piece ∉ old

theorem length_fresh_le (h : ∀ piece ∈ old, (s.leaf? (pieceObject env piece)).isSome) :
    (fresh s (new.map (Hash.sha256Hex env.evp))).length ≤ (missing old new).length := by
  have hsub : fresh s (new.map (Hash.sha256Hex env.evp)) ⊆
      (missing old new).map (Hash.sha256Hex env.evp) := by
    intro sha hsha
    obtain ⟨hin, hnone⟩ := mem_fresh.mp hsha
    obtain ⟨piece, hpiece, rfl⟩ := List.mem_map.mp hin
    have hnew : piece ∉ old := by
      intro hold
      have hsome := h piece hold
      rw [pieceObject, Option.isNone_iff_eq_none.mp hnone] at hsome
      contradiction
    exact List.mem_map_of_mem (List.mem_filter.mpr ⟨List.mem_dedup.mpr hpiece, by simpa using hnew⟩)
  have hle := (nodup_fresh.subperm hsub).length_le
  rwa [List.length_map] at hle

/-- A backup has written no more objects than that, and says how many; if none, nothing is written
under `objects`. -/
structure StoresAtMost (bound : Nat) (s t : Fs) (r : BackupResult) : Prop where
  written : ∃ n ≤ bound, (objectFiles t).length = (objectFiles s).length + n ∧
    r.uniqueChunks = UInt64.ofNat n ∧
    (n = 0 → r.totalStoredBytes = 0 ∧ ∀ q, InObjects q → t.leaf? q = s.leaf? q)
  kept : Kept s t

theorem StoresAtMost.mono {m n : Nat} (h : StoresAtMost m s t r) (hle : m ≤ n) :
    StoresAtMost n s t r := by
  obtain ⟨k, hk, hwritten⟩ := h.written
  exact ⟨⟨k, hk.trans hle, hwritten⟩, h.kept⟩

theorem StoresPieces.only (h : StoresPieces env mode files s t r)
    (hold : ∀ piece ∈ old, (s.leaf? (pieceObject env piece)).isSome) :
    StoresAtMost (missing old (piecesOf mode files)).length s t r := by
  have hunique := h.unique
  rw [tally, tally, h.count, UInt64.ofNat_add] at hunique
  refine ⟨⟨_, length_fresh_le hold, h.count, (add_left_cancel hunique).symm, fun hnone => ?_⟩,
    h.kept⟩
  have hsame : ∀ q, InObjects q → t.leaf? q = s.leaf? q := by
    intro q hq
    cases hs : s.leaf? q with
    | some f => exact h.kept q f hq hs
    | none =>
      refine Option.not_isSome_iff_eq_none.mp fun ht => ?_
      rcases (h.objects q hq).mp ht with hsome | ⟨piece, hpiece, rfl⟩
      · rw [hs] at hsome
        contradiction
      · have hin : Hash.sha256Hex env.evp piece ∈
            fresh s ((piecesOf mode files).map (Hash.sha256Hex env.evp)) :=
          mem_fresh.mpr ⟨List.mem_map_of_mem hpiece, Option.isNone_iff_eq_none.mpr hs⟩
        rw [List.length_eq_zero_iff.mp hnone] at hin
        contradiction
  refine ⟨?_, hsame⟩
  have hbytes := h.bytes
  rw [tally_congr hsame] at hbytes
  exact left_eq_add.mp hbytes

/-- What a backup has stored is there, whoever has worked on the repository since. -/
theorem StoresPieces.since (h : StoresPieces env mode files s t r)
    (hwork : Pool.Reaches (Works env) ⟨[], t⟩ b) :
    ∀ piece ∈ piecesOf mode files, (b.state.leaf? (pieceObject env piece)).isSome := by
  have hnobody : Pool.Kept (Preserves t) (⟨[], t⟩ : Pool Fs FsEffect Exn) :=
    ⟨.refl t, fun p hp => absurd hp List.not_mem_nil⟩
  have hkept := (hnobody.run (fun p a hp => hp.steady) hwork).holds
  intro piece hpiece
  have hin : InObjects (pieceObject env piece) := inObjects_pathOf _
  have hthere := (h.objects _ hin).mpr (.inr ⟨piece, hpiece, rfl⟩)
  rw [hkept.leaf? _ (.inl ⟨hin, hthere⟩)]
  exact hthere

/-- Whatever has been going on since a backup, in any interleaving and stopped anywhere, a later
backup writes no more objects than there are different pieces in its source that the earlier source
did not have, whichever files they were in; and where it counts none, it writes none. -/
theorem later_backup_adds_what_is_missing (hscan : source.scan = .ok files)
    (hscan' : source'.scan = .ok files')
    (hfirst : (create env now fault source mode).exec s = (.ok r, t))
    (hwork : Pool.Reaches (Works env) ⟨[], t⟩ b)
    (hnext : (create env now' fault' source' mode').exec b.state = (.ok r', u)) :
    StoresAtMost (missing (piecesOf mode files) (piecesOf mode' files')).length b.state u r' :=
  (create_adds hscan' hnext).only ((create_adds hscan hfirst).since hwork)

theorem letterName_ne : ascii "a.txt" ≠ [] := by decide

/-- What the scan of the letter finds. -/
def letterFiles : List ScannedFile :=
  [⟨ascii "a.txt", letterName_ne, .ok 1, .ok 0o644, .ok (ascii "a")⟩]

/-- The letter, and the same again. -/
def LettersInTurn (t u : Fs) : Prop :=
  (create letterEnv 1700000000 .none (letterSource 1) .fixed).exec emptyRepo =
      (.ok ⟨1, 1, 1, 10, 1, 1, 0⟩, t) ∧
    (create letterEnv 1700000000 .none (letterSource 1) .fixed).exec t =
      (.ok ⟨2, 1, 1, 0, 1, 0, 1⟩, u)

theorem exists_lettersInTurn : ∃ t u, LettersInTurn t u := by
  have hfirst : ((create letterEnv 1700000000 .none (letterSource 1) .fixed).exec emptyRepo).1 =
      .ok ⟨1, 1, 1, 10, 1, 1, 0⟩ := by decide +kernel
  have hsecond : ((create letterEnv 1700000000 .none (letterSource 1) .fixed).exec firstLetter).1 =
      .ok ⟨2, 1, 1, 0, 1, 0, 1⟩ := by decide +kernel
  exact ⟨_, _, Prog.exec_of_fst hfirst, Prog.exec_of_fst hsecond⟩

/-- Between the two, a third backup starts and is stopped. -/
theorem letter_again_adds_nothing :
    ∃ t u, LettersInTurn t u ∧ StoresAtMost 0 t u ⟨2, 1, 1, 0, 1, 0, 1⟩ := by
  obtain ⟨t, u, hfirst, hsecond⟩ := exists_lettersInTurn
  let again : Op Unit := Operation.prog letterEnv (.create 1700000001 .none (letterSource 1) .fixed)
  have hwork : Pool.Reaches (Works letterEnv) ⟨[], t⟩ ⟨[], t⟩ :=
    .head (.start [] t again (.inl ⟨_, rfl⟩)) <| .head (.stop [] [] t again) .refl
  have honly := later_backup_adds_what_is_missing rfl rfl hfirst hwork hsecond
  have hnone : (missing (piecesOf .fixed letterFiles) (piecesOf .fixed letterFiles)).length = 0 :=
    by decide +kernel
  exact ⟨t, u, ⟨hfirst, hsecond⟩, hnone ▸ honly⟩

/-- No piece but the last of a file is shorter. -/
def leastPiece : ChunkingMode → Nat
  | .fixed => FixedChunker.default.chunkSize.toNat
  | .contentDefined => ContentDefinedChunker.default.minSize.toNat

/-- No piece is longer. -/
def mostPiece : ChunkingMode → Nat
  | .fixed => FixedChunker.default.chunkSize.toNat
  | .contentDefined => ContentDefinedChunker.default.maxSize.toNat

theorem leastPiece_pos (mode : ChunkingMode) : 0 < leastPiece mode := by
  cases mode with
  | fixed => decide
  | contentDefined => decide

/-- How a mode cuts. -/
structure CutsFor (mode : ChunkingMode) (cut : Bytes → Prop) : Prop where
  cuts : ∀ data, data.length < 2 ^ 63 → data ≠ [] → Cuts cut data (pieces mode data)
  least : ∀ w, Closes cut w → leastPiece mode ≤ w.length
  most : ∀ w, w ≠ [] → Closes cut w ∨ Greedy.Whole cut w → w.length ≤ mostPiece mode

theorem exists_cutsFor (mode : ChunkingMode) : ∃ cut, CutsFor mode cut := by
  cases mode with
  | fixed =>
    refine ⟨FixedChunker.default.EndsAt, ?_, ?_, ?_⟩
    · exact fun data hlen hd => (FixedChunker.default.chunkBytes_cuts hlen hd).2
    · exact fun w hw => Nat.le_of_eq (FixedChunker.length_closed hw).symm
    · rintro w hne (hclosed | hwhole)
      · exact Nat.le_of_eq (FixedChunker.length_closed hclosed)
      · exact FixedChunker.length_whole hne hwhole
  | contentDefined =>
    refine ⟨ContentDefinedChunker.default.EndsAt, ?_, ?_, ?_⟩
    · exact fun data hlen hd => (ContentDefinedChunker.default.chunkBytes_cuts hlen hd).2
    · exact fun w hw => (ContentDefinedChunker.length_closed hw).1
    · rintro w _ (hclosed | hwhole)
      · exact (ContentDefinedChunker.length_closed hclosed).2
      · exact ContentDefinedChunker.length_whole hwhole

theorem pieces_nil (mode : ChunkingMode) : pieces mode [] = [[]] := by
  rw [pieces, chunkFile_nil]
  rfl

/-- How many pieces there can be in what was appended to a file, with its last piece. -/
def tailCost (mode : ChunkingMode) (tail : Bytes) : Nat :=
  (mostPiece mode + tail.length) / leastPiece mode + 1

/-- Whatever is appended, the pieces of a file stay but the last. -/
theorem pieces_append (mode : ChunkingMode) (hlen : (d ++ e).length < 2 ^ 63) :
    ∃ rest, pieces mode (d ++ e) = (pieces mode d).dropLast ++ rest ∧
      rest.length ≤ tailCost mode e := by
  obtain ⟨cut, hcut⟩ := exists_cutsFor mode
  have hcost : ∀ {n m : Nat}, leastPiece mode * (n - 1) ≤ m → m ≤ mostPiece mode + e.length →
      n ≤ tailCost mode e := by
    intro n m hn hm
    have hquot := (Nat.le_div_iff_mul_le (leastPiece_pos mode)).mpr
      (Nat.mul_comm _ _ ▸ hn.trans hm)
    exact Nat.le_add_of_sub_le hquot
  by_cases hde : d ++ e = []
  · obtain ⟨rfl, rfl⟩ := List.append_eq_nil_iff.mp hde
    refine ⟨[[]], ?_, Nat.le_add_left 1 _⟩
    rw [List.append_nil, pieces_nil]
    rfl
  have hall := hcut.cuts _ hlen hde
  by_cases hd : d = []
  · refine ⟨pieces mode (d ++ e), ?_, hcost (hall.count_le hcut.least) ?_⟩
    · rw [hd, pieces_nil]
      rfl
    · rw [hd, List.nil_append]
      exact Nat.le_add_left _ _
  · have hold := hcut.cuts d (front_short hlen) hd
    have hmost : ∀ w ∈ pieces mode d, w.length ≤ mostPiece mode :=
      fun w hw => hcut.most w (hold.ne_nil w hw) (hold.closes_or_whole w hw)
    obtain ⟨rest, hrest, hcount⟩ := hold.grown hcut.least hmost hall
    exact ⟨rest, hrest, hcost hcount (Nat.le_refl _)⟩

/-- What became of a file: some earlier file had the same bytes, or these without a tail. -/
inductive Change where
  | same
  | grown (tail : Bytes)

inductive Changed (earlier : List ScannedFile) (file : ScannedFile) : Change → Prop where
  | same {old : ScannedFile} (hold : old ∈ earlier) (hread : file.readFile = old.readFile) :
      Changed earlier file .same
  | grown {old : ScannedFile} {data tail : Bytes} (hold : old ∈ earlier)
      (hdata : old.readFile = .ok data) (hread : file.readFile = .ok (data ++ tail)) :
      Changed earlier file (.grown tail)
  | new {data : Bytes} (hread : file.readFile = .ok data) : Changed earlier file (.grown data)

def Change.cost (mode : ChunkingMode) : Change → Nat
  | .same => 0
  | .grown tail => tailCost mode tail

def totalCost (mode : ChunkingMode) : List Change → Nat
  | [] => 0
  | change :: changes => change.cost mode + totalCost mode changes

theorem mem_piecesOf {file : ScannedFile} {piece : Bytes} (hfile : file ∈ files)
    (hpiece : piece ∈ filePieces mode file) : piece ∈ piecesOf mode files :=
  List.mem_flatMap.mpr ⟨file, hfile, hpiece⟩

/-- The pieces that are not among the old ones, with those that come twice. -/
def others (old new : List Bytes) : List Bytes := new.filter fun piece => piece ∉ old

theorem others_append {front : List Bytes} :
    others old (front ++ new) = others old front ++ others old new := List.filter_append ..

theorem others_eq_nil (h : ∀ piece ∈ new, piece ∈ old) : others old new = [] :=
  List.filter_eq_nil_iff.mpr fun piece hp => by simpa using h piece hp

theorem Changed.others_le {file : ScannedFile} {change : Change} (mode : ChunkingMode)
    (h : Changed files file change)
    (hshort : ∀ data, file.readFile = .ok data → data.length < 2 ^ 63) :
    (others (piecesOf mode files) (filePieces mode file)).length ≤ change.cost mode := by
  cases h with
  | @same old hold hread =>
    rw [others_eq_nil fun piece hpiece => mem_piecesOf hold ?_]
    · exact Nat.le_refl 0
    · rwa [filePieces, ← hread]
  | @grown old data tail hold hdata hread =>
    obtain ⟨rest, hrest, hcost⟩ := pieces_append mode (hshort _ hread)
    have hkept : ∀ piece ∈ (pieces mode data).dropLast, piece ∈ piecesOf mode files := by
      intro piece hpiece
      refine mem_piecesOf hold ?_
      rw [filePieces_of_read hdata]
      exact List.mem_of_mem_dropLast hpiece
    rw [filePieces_of_read hread, hrest, others_append, others_eq_nil hkept, List.nil_append]
    exact (List.length_filter_le _ _).trans hcost
  | @new data hread =>
    obtain ⟨rest, hrest, hcost⟩ := pieces_append (d := []) mode (hshort _ hread)
    rw [pieces_nil, List.nil_append] at hrest
    rw [filePieces_of_read hread, hrest]
    exact (List.length_filter_le _ _).trans hcost

theorem missing_le_cost {changes : List Change}
    (h : List.Forall₂ (Changed files) files' changes)
    (hshort : ∀ file ∈ files', ∀ data, file.readFile = .ok data → data.length < 2 ^ 63) :
    (missing (piecesOf mode files) (piecesOf mode files')).length ≤
      totalCost mode changes := by
  have hothers : (others (piecesOf mode files) (piecesOf mode files')).length ≤
      totalCost mode changes := by
    induction h with
    | nil => exact Nat.le_refl 0
    | @cons file change files' changes hfirst _ ih =>
      have hhead := hfirst.others_le mode (hshort file List.mem_cons_self)
      have htail := ih fun file hf => hshort file (List.mem_cons_of_mem _ hf)
      have hcons : piecesOf mode (file :: files') = filePieces mode file ++ piecesOf mode files' :=
        List.flatMap_cons
      rw [hcons, others_append, List.length_append, totalCost]
      exact Nat.add_le_add hhead htail
  exact ((List.dedup_sublist _).filter _).length_le.trans hothers

/-- Where the files of a source are as before, or renamed, copied, deleted or appended to, or new,
the later backup writes no more objects than there can be pieces in the tails. -/
theorem grown_source_adds_its_tails {changes : List Change} (hscan : source.scan = .ok files)
    (hscan' : source'.scan = .ok files')
    (hchanges : List.Forall₂ (Changed files) files' changes)
    (hfirst : (create env now fault source mode).exec s = (.ok r, t))
    (hwork : Pool.Reaches (Works env) ⟨[], t⟩ b)
    (hnext : (create env now' fault' source' mode).exec b.state = (.ok r', u)) :
    StoresAtMost (totalCost mode changes) b.state u r' := by
  have hadds := create_adds hscan' hnext
  exact (hadds.only ((create_adds hscan hfirst).since hwork)).mono
    (missing_le_cost hchanges hadds.short)

def grownEnv : Env := rawEnv [letterA, lettersAA]

/-- The file has grown by a letter, and what it was is there under another name. -/
def grownFiles : List ScannedFile :=
  [⟨ascii "a.txt", letterName_ne, .ok 2, .ok 0o644, .ok (ascii "aa")⟩,
    ⟨ascii "b.txt", by simp [ascii], .ok 1, .ok 0o644, .ok (ascii "a")⟩]

def grownSource : Source where
  root := ascii "/data"
  root_ne := (letterSource 1).root_ne
  scan := .ok grownFiles
  count := by
    intro files h
    cases h
    exact show 2 < 2 ^ 64 by decide

/-- Between the two backups a third one starts and is stopped. -/
theorem grown_letter_adds_its_tail : ∃ t u,
    (create grownEnv 1700000000 .none (letterSource 1) .fixed).exec emptyRepo =
        (.ok ⟨1, 1, 1, 10, 1, 1, 0⟩, t) ∧
      (create grownEnv 1700000001 .none grownSource .fixed).exec t = (.ok ⟨2, 2, 3, 11, 2, 1, 1⟩, u) ∧
      StoresAtMost 2 t u ⟨2, 2, 3, 11, 2, 1, 1⟩ := by
  obtain ⟨t, ht⟩ : ∃ t, t = ((create grownEnv 1700000000 .none (letterSource 1) .fixed).exec
    emptyRepo).2 := ⟨_, rfl⟩
  have hfirst : ((create grownEnv 1700000000 .none (letterSource 1) .fixed).exec emptyRepo).1 =
      .ok ⟨1, 1, 1, 10, 1, 1, 0⟩ := by decide +kernel
  have hnext : ((create grownEnv 1700000001 .none grownSource .fixed).exec t).1 =
      .ok ⟨2, 2, 3, 11, 2, 1, 1⟩ := by
    rw [ht]
    decide +kernel
  have hchanges : List.Forall₂ (Changed letterFiles) grownFiles [.grown (ascii "a"), .same] :=
    .cons (.grown List.mem_cons_self rfl rfl) (.cons (.same List.mem_cons_self rfl) .nil)
  let again : Op Unit := Operation.prog grownEnv (.create 1700000001 .none (letterSource 1) .fixed)
  have hwork : Pool.Reaches (Works grownEnv) ⟨[], t⟩ ⟨[], t⟩ :=
    .head (.start [] t again (.inl ⟨_, rfl⟩)) <| .head (.stop [] [] t again) .refl
  have hexec : (create grownEnv 1700000000 .none (letterSource 1) .fixed).exec emptyRepo =
      (.ok ⟨1, 1, 1, 10, 1, 1, 0⟩, t) := ht ▸ Prog.exec_of_fst hfirst
  exact ⟨t, _, hexec, Prog.exec_of_fst hnext,
    grown_source_adds_its_tails rfl rfl hchanges hexec hwork (Prog.exec_of_fst hnext)⟩

end Dpc
