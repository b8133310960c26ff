import Dpc.Guarantees.Progress
import Dpc.Network.PieceFacts

/-! An upload of one directory, after one of another under the same session id. -/

namespace Dpc
open Text FileTree Effects ManifestStore BackupServer BackupClient TransferSession
open FileScanner

variable {env : Env} {s t u : Fs} {sessionId text : Bytes} {now now' exitAfter exitAfter' : UInt64}
  {w w' : World} {root root' : Path} {source : Source} {is : List FsEffect}
  {cs chunks : List PreparedChunk} {rs : List ReceivedChunkRecord} {files : List ScannedFile}

/-- What is prepared of a file is its pieces from chunk zero on. -/
theorem TransferSession.FileSent.oneFile {file : ScannedFile} {data : Bytes}
    (h : FileSent env file cs data) : Piece.OneFile (cs.map PreparedChunk.piece) := by
  have hlen := (Compressor.allocate_ok.mp h.fits).1
  have hcount := length_chunkFile .fixed hlen
  obtain ⟨_, hindexed⟩ := chunkFile_spec .fixed hlen
  refine ⟨?_, List.pairwise_map.mpr ?_⟩
  · have hne : chunkFile .fixed data ≠ [] := chunkFile_ne_nil hlen
    obtain ⟨chunk, rest, hchunks⟩ := List.exists_cons_of_ne_nil hne
    have hsent := h.chunks
    rw [hchunks] at hsent hindexed
    cases hsent with
    | cons hfirst _ => exact ⟨_, _, rfl, hfirst.index.trans hindexed.1⟩
  · have hincreasing := hindexed.increasing (by simp; omega)
    refine h.chunks.pairwise hincreasing fun {a a' b b'} hb hb' hlt => ⟨?_, ?_⟩
    · have hsize := Except.ok.inj (hb.size.symm.trans hb'.size)
      have hmode := Except.ok.inj (hb.mode.symm.trans hb'.mode)
      simp only [PreparedChunk.piece, hb.path, hb'.path, hsize, hmode, hb.fileSha, hb'.fileSha]
    · exact (hb.index.trans_lt hlt).trans_eq hb'.index.symm

theorem oneFile_of_sent {groups : List (List PreparedChunk)}
    (hall : List.Forall₂ (fun file group => ∃ data, FileSent env file group data) files groups) :
    ∀ g ∈ groups.map (List.map PreparedChunk.piece), Piece.OneFile g := by
  intro g hg
  obtain ⟨cs, hcs, rfl⟩ := List.mem_map.mp hg
  obtain ⟨file, _, data, hsent⟩ := hall.exists_left hcs
  exact hsent.oneFile

/-- What is prepared of a directory comes file by file. -/
theorem byFile_of_prepared (hprepared : prepareChunks env source = .ok chunks) :
    ∀ g ∈ Piece.byFile (chunks.map PreparedChunk.piece), Piece.OneFile g := by
  obtain ⟨files, groups, _, _, rfl, hall⟩ := prepareChunks_ok hprepared
  have hone := oneFile_of_sent hall
  rwa [List.map_flatten, Piece.byFile_of_groups hone]

theorem inOrder_of_prepared (hprepared : prepareChunks env (.ofWorld w root) = .ok chunks) :
    Piece.InOrder (chunks.map PreparedChunk.piece) := by
  obtain ⟨files, groups, hscan, _, rfl, hall⟩ := prepareChunks_ok hprepared
  rw [List.map_flatten]
  refine Piece.inOrder_of_groups (oneFile_of_sent hall) (List.pairwise_map.mpr ?_)
  refine hall.pairwise (scan_sorted hscan) fun {file file' g g'} hg hg' hle p hp q hq => ?_
  obtain ⟨data, hg⟩ := hg
  obtain ⟨data', hg'⟩ := hg'
  obtain ⟨c, hc, rfl⟩ := List.mem_map.mp hp
  obtain ⟨d, hd, rfl⟩ := List.mem_map.mp hq
  obtain ⟨_, _, hc⟩ := hg.chunks.exists_left hc
  obtain ⟨_, _, hd⟩ := hg'.chunks.exists_left hd
  have hle' : (compare file.relativePath file'.relativePath).isLE := hle
  simpa only [PreparedChunk.piece, hc.path, hd.path] using hle'

theorem pieces_of_tells (h : List.Forall₂ (Tells env t) cs rs) :
    rs.map ReceivedChunkRecord.piece = cs.map PreparedChunk.piece := by
  induction h with
  | nil => rfl
  | cons hr _ ih =>
    obtain ⟨⟨_, rfl⟩, _⟩ := hr
    rw [List.map_cons, List.map_cons, ih]
    rfl

theorem path_ne_of_prepared (hprepared : prepareChunks env source = .ok chunks) :
    ∀ c ∈ chunks, c.relativePath ≠ [] := fun c hc => ((sendable_of_prepared hprepared).2 c hc).path

/-- Wherever the upload of a directory under a new session id is stopped, the session has the first
of its chunks. -/
theorem left_of_cut (hsession : sessionId ≠ []) (hfresh : SessionIndex.textOf s sessionId = [])
    (hcount : ∀ before, prepareChunks env (.ofWorld w root) = .ok before → before.length < 2 ^ 64)
    (hcut : Prog.Cut (upload env now (.ofWorld w root) sessionId exitAfter) s is t) :
    ∃ cs rs, Records env t sessionId cs rs ∧ Piece.InOrder (cs.map PreparedChunk.piece) ∧
      ∀ c ∈ cs, c.relativePath ≠ [] := by
  cases hprepared : prepareChunks env (.ofWorld w root) with
  | error e =>
    simp only [upload, hprepared, Prog.bind_eq] at hcut
    have hsame : t = s := by
      rcases hcut.of_bind with hcut | ⟨_, _, _, _, hx, _⟩
      · exact Prog.cut_ofExcept hcut
      · rw [Prog.exec_ofExcept] at hx
        cases hx
    subst hsame
    exact ⟨[], [], .empty hfresh, ⟨by simp, by simp⟩, by simp⟩
  | ok before =>
    have hcontinued := upload_cut hsession hprepared (hcount before hprepared) (.empty hfresh) hcut
    obtain ⟨first, rs, hfirst, hrs⟩ := hcontinued.records
    rw [List.nil_append] at hrs
    have hfront : first <+: before := hfirst
    refine ⟨first, rs, hrs, (inOrder_of_prepared hprepared).initial (hfront.map _), fun c hc => ?_⟩
    exact path_ne_of_prepared hprepared c (hfront.subset hc)

/-- A query with an empty session id is refused, so no upload with it is acknowledged. -/
theorem session_of_acked (hx : (upload env now source sessionId exitAfter).exec s = (.ok (some text), t)) :
    sessionId ≠ [] := by
  rintro rfl
  simp only [upload, Prog.bind_eq] at hx
  obtain ⟨chunks, m, _, hx⟩ := Prog.exec_bind_ok hx
  obtain ⟨hello, m', _, hx⟩ := Prog.exec_bind_ok hx
  obtain ⟨_, m'', _, hx⟩ := Prog.exec_bind_ok hx
  obtain ⟨status, a, hquery, hx⟩ := Prog.exec_bind_ok hx
  obtain ⟨received, b, hparsed, _⟩ := Prog.exec_bind_ok hx
  rw [Prog.exec_ofExcept, Prod.mk.injEq] at hparsed
  obtain ⟨_, hnot, _⟩ := bind_ok hparsed.1
  obtain ⟨reply, hreply, _⟩ := exchange_ok hquery hnot
  have hfields : parseTextFields (queryPacket []).payload "DPC_QUERY_SESSION_V1" = .ok [] := by
    decide +kernel
  change (querySession (queryPacket [])).exec m'' = (.ok reply, a) at hreply
  simp only [querySession, Prog.bind_eq] at hreply
  rw [hfields, Prog.exec_bind_of_ok (Prog.exec_ofExcept _ _)] at hreply
  obtain ⟨_, _, hfield, _⟩ := Prog.exec_bind_ok hreply
  rw [Prog.exec_ofExcept, Prod.mk.injEq] at hfield
  exact absurd hfield.1 (by simp [field])

/-- The upload of a directory is stopped anywhere, and one of another under the same session id is
acknowledged. Its version has just the files that were prepared for it, with their paths, sizes,
modes, hashes and chunks, if and only if each record that the first has left tells what the chunk in
its place tells, and no path is that of two files. -/
theorem continued_upload_is_source_iff (hfresh : SessionIndex.textOf s sessionId = [])
    (hcount : ∀ before, prepareChunks env (.ofWorld w root) = .ok before → before.length < 2 ^ 64)
    (hcut : Prog.Cut (upload env now (.ofWorld w root) sessionId exitAfter) s is t)
    (hprepared : prepareChunks env (.ofWorld w' root') = .ok chunks) (hcount' : chunks.length < 2 ^ 64)
    (hx : (upload env now' (.ofWorld w' root') sessionId exitAfter').exec t = (.ok (some text), u)) :
    ∃ rs m f, SessionIndex.Recorded t sessionId rs ∧ text = commitText m.version ∧
      u.leaf? (manifestPath m.version) = some f ∧ f.data = serialize m ∧
      (m.files.map FileManifest.pieces = Piece.byFile (chunks.map PreparedChunk.piece) ↔
        rs.map ReceivedChunkRecord.piece <+: chunks.map PreparedChunk.piece ∧
          (chunks.map fun c => c.piece.place).Nodup) := by
  have hsession := session_of_acked hx
  obtain ⟨cs, rs, hrs, horder, hpaths⟩ := left_of_cut hsession hfresh hcount hcut
  obtain ⟨_, m, v, rs', hrs', _, htext, hcommitted⟩ := upload_acked hsession hprepared hcount' hrs hx
  have hversioned := hcommitted.versioned hrs'
  obtain ⟨f, hf, hdata⟩ := hversioned.manifest
  refine ⟨rs, m, f, hrs.carries.recorded, htext, hf, hdata, ?_⟩
  -- the records of the version are those that were left, and behind them what was sent
  have hleft := pieces_of_tells hrs.tells
  have hlength : cs.length = (rs.map ReceivedChunkRecord.piece).length := by
    rw [hleft, List.length_map]
  have htold : rs'.map ReceivedChunkRecord.piece = rs.map ReceivedChunkRecord.piece ++
      (chunks.map PreparedChunk.piece).drop (rs.map ReceivedChunkRecord.piece).length := by
    rw [pieces_of_tells hversioned.tells, List.map_append, List.map_drop, hleft, hlength, hleft]
  have hpath : ∀ r ∈ rs', r.relativePath ≠ [] := by
    intro r hr
    obtain ⟨c, hc, ⟨_, rfl⟩, _⟩ := hversioned.tells.exists_left hr
    rcases List.mem_append.mp hc with hc | hc
    · exact hpaths c hc
    · exact path_ne_of_prepared hprepared c (List.mem_of_mem_drop hc)
  have hone := byFile_of_prepared hprepared
  have hsent := inOrder_of_prepared hprepared
  have hplaces : (chunks.map fun c => c.piece.place) =
      (chunks.map PreparedChunk.piece).map Piece.place := by
    rw [List.map_map]
    rfl
  rw [hplaces, hversioned.made]
  constructor
  · intro hfiles
    exact SessionIndex.told_of_files hpath hversioned.increasing htold (hleft ▸ horder) hsent hone hfiles
  · intro h
    obtain ⟨hfront, hnodup⟩ := h
    rw [List.prefix_iff_eq_append.mp hfront] at htold
    exact SessionIndex.files_of_told hpath hversioned.increasing htold hsent hone hnodup

/-- What the first upload of the directory with one file has left. -/
def leftRecords : List ReceivedChunkRecord := plainChunks.map (recordFor · 10)

theorem left_by_first_try : SessionIndex.Recorded firstTry (ascii "s") leftRecords := by decide +kernel

/-- The directory with one file, and another beside it, is uploaded after that. -/
theorem grown_directory_continues : ∃ m u f,
    (upload letterEnv 1700000001 pairSource (ascii "s") 0).exec firstTry =
      (.ok (some (commitText m.version)), u) ∧
    u.leaf? (manifestPath m.version) = some f ∧ f.data = serialize m ∧
    m.files.map FileManifest.pieces = Piece.byFile (pairChunks.map PreparedChunk.piece) := by
  have hprepared : prepareChunks letterEnv pairSource = .ok pairChunks := by decide +kernel
  have hcount : pairChunks.length < 2 ^ 64 := by decide +kernel
  have hx : ((upload letterEnv 1700000001 pairSource (ascii "s") 0).exec firstTry).1 =
      .ok (some (commitText 1)) := by decide +kernel
  have hleft : leftRecords.map ReceivedChunkRecord.piece <+: pairChunks.map PreparedChunk.piece ∧
      (pairChunks.map fun c => c.piece.place).Nodup := by decide +kernel
  obtain ⟨is, hcut⟩ := Prog.cut_exec (upload letterEnv 1700000000 plainSource (ascii "s") 1) emptyRepo
  obtain ⟨rs, m, f, hrs, htext, hf, hdata, hiff⟩ := continued_upload_is_source_iff (by decide)
    (fun before h => by
      cases h.symm.trans prepared_plain
      exact count_plain) hcut hprepared hcount (Prog.exec_of_fst hx)
  have hsame : leftRecords = rs := left_by_first_try.unique hrs
  exact ⟨m, _, f, htext ▸ Prog.exec_of_fst hx, hf, hdata, hiff.mpr (hsame ▸ hleft)⟩

/-- The directory of the first upload, whose file has another name by now. -/
def renamedSource : Source :=
  .ofWorld (.ofNodes (⟨[ascii "data"], .dir⟩ ::
      ⟨[ascii "data", ascii "b.txt"], .leaf (.file ⟨ascii "a", 0o644⟩)⟩ :: []).toAList
    (by decide +kernel) (by decide +kernel) (by decide +kernel)) [ascii "data"]

def renamedChunks : List PreparedChunk := (prepareChunks letterEnv renamedSource).toOption.getD []

theorem renamed_file_keeps_its_name : ∃ is m u f,
    Prog.Cut (upload letterEnv 1700000000 plainSource (ascii "s") 1) emptyRepo is firstTry ∧
    prepareChunks letterEnv renamedSource = .ok renamedChunks ∧
    (upload letterEnv 1700000001 renamedSource (ascii "s") 0).exec firstTry =
      (.ok (some (commitText m.version)), u) ∧
    u.leaf? (manifestPath m.version) = some f ∧ f.data = serialize m ∧
    m.files.map FileManifest.relativePath = [ascii "a.txt"] ∧
    renamedChunks.map PreparedChunk.relativePath = [ascii "b.txt"] ∧
    m.files.map FileManifest.pieces ≠ Piece.byFile (renamedChunks.map PreparedChunk.piece) := by
  have hrun : ((upload letterEnv 1700000001 renamedSource (ascii "s") 0).exec firstTry).1 =
      .ok (some (commitText 1)) ∧
      (((upload letterEnv 1700000001 renamedSource (ascii "s") 0).exec firstTry).2.leaf?
        (manifestPath 1)).map File.data =
          some (serialize (SessionIndex.manifestOf letterEnv (ascii "s") 1 1700000001 leftRecords)) := by
    decide +kernel
  obtain ⟨hx, hdata⟩ := hrun
  obtain ⟨is, hcut⟩ := Prog.cut_exec (upload letterEnv 1700000000 plainSource (ascii "s") 1) emptyRepo
  obtain ⟨f, hf, hdata⟩ := Option.map_eq_some_iff.mp hdata
  refine ⟨is, SessionIndex.manifestOf letterEnv (ascii "s") 1 1700000001 leftRecords, _, f, hcut, ?_,
    Prog.exec_of_fst hx, hf, hdata, ?_, ?_, ?_⟩
  · decide +kernel
  · decide +kernel
  · decide +kernel
  · decide +kernel

end Dpc
