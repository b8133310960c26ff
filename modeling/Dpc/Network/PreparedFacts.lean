import Dpc.Core.ReadFacts
import Dpc.Network.BackupClient
import Dpc.Network.ServerFacts

/-! What the client prepares of a source. -/

namespace Dpc
open Text FileTree Effects ManifestStore BackupServer

variable {env : Env}

namespace TransferSession

/-- What is sent of a chunk is about the bytes that were read. -/
structure Sendable (env : Env) (chunk : PreparedChunk) : Prop where
  sha : chunk.chunkSha256 = Hash.sha256Hex env.evp chunk.raw
  compressed : Compressor.compress env chunk.raw = .ok chunk.compressed
  path : chunk.relativePath ≠ []
  fileSha : Hash.isSha256Hex chunk.fileSha256 = true

/-- Chunks numbered one after another. -/
def Numbered : UInt64 → List PreparedChunk → Prop
  | _, [] => True
  | i, c :: cs => c.globalIndex = i ∧ Numbered (i + 1) cs

/-- A chunk as it is sent for a file. -/
structure SentFor (env : Env) (file : ScannedFile) (data : Bytes) (chunk : Chunk)
    (sent : PreparedChunk) : Prop where
  path : sent.relativePath = file.relativePath
  size : file.fileSize = .ok sent.fileSize
  mode : file.fileMode = .ok sent.fileMode
  fileSha : sent.fileSha256 = Hash.sha256File env.evp data
  index : sent.chunkIndex = chunk.index
  raw : sent.raw = chunk.data
  sendable : Sendable env sent

/-- The chunks of a file that was read. -/
structure FileSent (env : Env) (file : ScannedFile) (sents : List PreparedChunk) (data : Bytes) :
    Prop where
  read : file.readFile = .ok data
  fits : Compressor.allocate env data.length = .ok ()
  chunks : List.Forall₂ (SentFor env file data) (chunkFile .fixed data) sents

theorem prepareFileChunks_ok {file : ScannedFile} {data : Bytes} {fileSize : UInt64}
    {fileMode : UInt32} (hsize : file.fileSize = .ok fileSize) (hmode : file.fileMode = .ok fileMode)
    {i : UInt64} {chunks : List Chunk} {sents : List PreparedChunk}
    (h : prepareFileChunks env file.relativePath fileSize fileMode (Hash.sha256File env.evp data) i
      chunks = .ok sents) :
    List.Forall₂ (SentFor env file data) chunks sents ∧ Numbered i sents := by
  induction chunks generalizing i sents with
  | nil =>
    cases h
    exact ⟨.nil, trivial⟩
  | cons chunk chunks ih =>
    obtain ⟨compressed, hc, h⟩ := bind_ok h
    obtain ⟨rest, hrest, h⟩ := bind_ok h
    cases h
    obtain ⟨hall, hnumbered⟩ := ih hrest
    refine ⟨.cons ⟨rfl, hsize, hmode, rfl, rfl, rfl, rfl, hc, file.path_ne, ?_⟩ hall, rfl, hnumbered⟩
    exact BackupEngine.isSha256Hex_finalHex env.evp _

theorem Numbered.append {i : UInt64} {cs ds : List PreparedChunk} (h : Numbered i cs)
    (h' : Numbered (i + UInt64.ofNat cs.length) ds) : Numbered i (cs ++ ds) := by
  induction cs generalizing i with
  | nil => simpa using h'
  | cons c cs ih =>
    refine ⟨h.1, ih h.2 ?_⟩
    have hnext : i + UInt64.ofNat (c :: cs).length = i + 1 + UInt64.ofNat cs.length := by
      rw [List.length_cons, UInt64.ofNat_add, UInt64.add_assoc]
      exact congrArg (i + ·) (UInt64.add_comm _ _)
    rwa [hnext] at h'

theorem prepareFiles_ok {i : UInt64} {files : List ScannedFile} {sents : List PreparedChunk}
    (h : prepareFiles env i files = .ok sents) :
    Numbered i sents ∧ ∃ groups, sents = groups.flatten ∧
      List.Forall₂ (fun file group => ∃ data, FileSent env file group data) files groups := by
  induction files generalizing i sents with
  | nil =>
    cases h
    exact ⟨trivial, [], rfl, .nil⟩
  | cons file files ih =>
    obtain ⟨group, hgroup, h⟩ := bind_ok h
    obtain ⟨rest, hrest, h⟩ := bind_ok h
    cases h
    obtain ⟨hnumbered, groups, rfl, hall⟩ := ih hrest
    obtain ⟨data, hread, hgroup⟩ := bind_ok hgroup
    obtain ⟨fileSize, hsize, hgroup⟩ := bind_ok hgroup
    obtain ⟨fileMode, hmode, hgroup⟩ := bind_ok hgroup
    obtain ⟨chunks, hchunks, hgroup⟩ := bind_ok hgroup
    obtain ⟨data', hread', hchunks⟩ := bind_ok hchunks
    obtain ⟨_, hfits, hchunks⟩ := bind_ok hchunks
    cases hread.symm.trans hread'
    cases hchunks
    obtain ⟨hsent, hfirst⟩ := prepareFileChunks_ok hsize hmode hgroup
    exact ⟨hfirst.append hnumbered, group :: groups, rfl, .cons ⟨data, hread, hfits, hsent⟩ hall⟩

theorem prepareChunks_ok {source : Source} {sents : List PreparedChunk}
    (h : prepareChunks env source = .ok sents) :
    ∃ files groups, source.scan = .ok files ∧ Numbered 0 sents ∧ sents = groups.flatten ∧
      List.Forall₂ (fun file group => ∃ data, FileSent env file group data) files groups := by
  obtain ⟨files, hscan, h⟩ := bind_ok h
  obtain ⟨hnumbered, groups, hgroups, hall⟩ := prepareFiles_ok h
  exact ⟨files, groups, hscan, hnumbered, hgroups, hall⟩

end TransferSession

end Dpc
