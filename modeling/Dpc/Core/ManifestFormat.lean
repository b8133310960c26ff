import Dpc.Core.ManifestRoundTrip
import Dpc.Lib.Failure

namespace Dpc.ManifestStore
open Text Effects

/-- A manifest that the format can hold. The counts are sizes of vectors. -/
structure WellFormed (manifest : Manifest) : Prop where
  root : manifest.sourceRoot ≠ []
  files : ∀ file ∈ manifest.files, WellFormedFile file ∧ file.chunks.length < 2 ^ 64
  count : manifest.files.length < 2 ^ 64

theorem safePath_ne_nil {value : Bytes} (h : FileUtils.SafePath value) : value ≠ [] := by
  intro he
  obtain ⟨p, hp⟩ := h
  simp [he, FileUtils.safeRelativePath] at hp

theorem WellFormedChunk.printable {chunk : ChunkRef} (h : WellFormedChunk chunk) :
    PrintableChunk chunk :=
  ⟨Hash.isWord_of_isSha256Hex h.sha, safePath_ne_nil h.path⟩

theorem WellFormed.printable {manifest : Manifest} (h : WellFormed manifest) :
    Printable manifest := by
  refine ⟨h.root, fun file hf => ?_, h.count⟩
  obtain ⟨hfile, hcount⟩ := h.files file hf
  exact ⟨safePath_ne_nil hfile.path, Hash.isWord_of_isSha256Hex hfile.sha,
    fun chunk hc => (hfile.chunks chunk hc).printable, hcount⟩

theorem hexDecodeString_ok {value bytes : Bytes} (h : hexDecodeString value = .ok bytes) :
    hexDecode value = some bytes := by
  unfold hexDecodeString at h
  split at h
  · contradiction
  split at h
  · rename_i decoded hd
    cases h
    exact hd
  · contradiction

theorem hexDecodeString_ne_nil {value bytes : Bytes} (hv : value ≠ [])
    (h : hexDecodeString value = .ok bytes) : bytes ≠ [] := by
  have hd := hexDecodeString_ok h
  intro he
  subst he
  obtain ⟨a, rest, rfl⟩ := List.exists_cons_of_ne_nil hv
  cases rest with
  | nil => contradiction
  | cons b rest =>
    simp only [hexDecode, Option.bind_eq_bind, Option.bind_eq_some_iff] at hd
    obtain ⟨_, _, _, _, _, _, hd⟩ := hd
    simp at hd

theorem consume_ok {key : String} {lines rest : List Bytes} {value : Bytes}
    (h : consume key lines = .ok (value, rest)) : IsWord value ∧ ∃ line, lines = line :: rest := by
  unfold consume at h
  split at h
  · contradiction
  · rename_i line lines
    split at h
    · rename_i actual value' more hw
      split at h
      · contradiction
      · obtain ⟨_, _, h⟩ := bind_eq_ok.mp h
        cases h
        refine ⟨@isWord_of_mem_words line _ ?_, line, rfl⟩
        rw [hw]
        simp
    · contradiction

theorem parseChunk_ok {line : Bytes} {chunk : ChunkRef} (h : parseChunk line = .ok chunk) :
    WellFormedChunk chunk := by
  unfold parseChunk at h
  split at h
  · split at h
    · contradiction
    · obtain ⟨_, _, h⟩ := bind_eq_ok.mp h
      obtain ⟨_, _, h⟩ := bind_eq_ok.mp h
      obtain ⟨_, _, h⟩ := bind_eq_ok.mp h
      obtain ⟨objectPath, _, h⟩ := bind_eq_ok.mp h
      obtain ⟨_, hsha, h⟩ := bind_eq_ok.mp h
      obtain ⟨p, hsafe, h⟩ := bind_eq_ok.mp h
      obtain ⟨_, _, h⟩ := bind_eq_ok.mp h
      cases h
      exact ⟨Hash.requireSha256Hex_ok hsha, (FileUtils.safePath_iff _).mpr ⟨p, hsafe⟩⟩
  · contradiction

/-- The loop over the chunks: as many as were asked for, each of them well formed. -/
theorem parseChunks_ok {n : Nat} {lines rest : List Bytes} {chunks : List ChunkRef}
    (h : parseChunks n lines = .ok (chunks, rest)) :
    chunks.length = n ∧ ∀ chunk ∈ chunks, WellFormedChunk chunk := by
  induction n generalizing lines chunks with
  | zero =>
    cases h
    simp
  | succ n ih =>
    cases lines with
    | nil => contradiction
    | cons line lines =>
      rw [parseChunks] at h
      obtain ⟨chunk, hchunk, h⟩ := bind_eq_ok.mp h
      obtain ⟨⟨chunks', rest'⟩, hrest, h⟩ := bind_eq_ok.mp h
      cases h
      obtain ⟨hlen, hall⟩ := ih hrest
      refine ⟨by simp [hlen], ?_⟩
      rw [List.forall_mem_cons]
      exact ⟨parseChunk_ok hchunk, hall⟩

theorem parseFileLine_ok {line : Bytes} {file : FileManifest} {count : UInt64}
    (h : parseFileLine line = .ok (file, count)) :
    FileUtils.SafePath file.relativePath ∧ Hash.isSha256Hex file.fileSha256 = true := by
  unfold parseFileLine at h
  split at h
  · split at h
    · contradiction
    · obtain ⟨_, _, h⟩ := bind_eq_ok.mp h
      obtain ⟨_, _, h⟩ := bind_eq_ok.mp h
      obtain ⟨_, _, h⟩ := bind_eq_ok.mp h
      obtain ⟨relativePath, _, h⟩ := bind_eq_ok.mp h
      obtain ⟨p, hsafe, h⟩ := bind_eq_ok.mp h
      obtain ⟨_, hsha, h⟩ := bind_eq_ok.mp h
      obtain ⟨_, _, h⟩ := bind_eq_ok.mp h
      cases h
      exact ⟨(FileUtils.safePath_iff _).mpr ⟨p, hsafe⟩, Hash.requireSha256Hex_ok hsha⟩
  · contradiction

/-- The loop over the files. -/
theorem parseFiles_ok {n : Nat} {lines rest : List Bytes} {files : List FileManifest}
    (h : parseFiles n lines = .ok (files, rest)) :
    ∀ file ∈ files, WellFormedFile file ∧ file.chunks.length < 2 ^ 64 := by
  induction n generalizing lines files with
  | zero =>
    cases h
    simp
  | succ n ih =>
    cases lines with
    | nil =>
      cases h
      simp
    | cons line lines =>
      rw [parseFiles] at h
      split at h
      · cases h
        simp
      · obtain ⟨⟨file, count⟩, hfile, h⟩ := bind_eq_ok.mp h
        obtain ⟨⟨chunks, after⟩, hchunks, h⟩ := bind_eq_ok.mp h
        obtain ⟨hpath, hsha⟩ := parseFileLine_ok hfile
        obtain ⟨hlen, hall⟩ := parseChunks_ok hchunks
        dsimp only at h
        split at h
        · split at h
          · contradiction
          · obtain ⟨⟨files', rest'⟩, hrest, h⟩ := bind_eq_ok.mp h
            cases h
            rw [List.forall_mem_cons]
            refine ⟨⟨⟨hpath, hsha, hall⟩, ?_⟩, ih hrest⟩
            rw [hlen]
            exact count.toNat_lt
        · contradiction

theorem parseHeader_ok {lines rest : List Bytes} {manifest : Manifest} {count : UInt64}
    (h : parseHeader lines = .ok (manifest, count, rest)) : manifest.sourceRoot ≠ [] := by
  unfold parseHeader at h
  obtain ⟨_, _, h⟩ := bind_eq_ok.mp h
  obtain ⟨_, _, h⟩ := bind_eq_ok.mp h
  obtain ⟨_, _, h⟩ := bind_eq_ok.mp h
  obtain ⟨_, _, h⟩ := bind_eq_ok.mp h
  obtain ⟨_, _, h⟩ := bind_eq_ok.mp h
  obtain ⟨_, _, h⟩ := bind_eq_ok.mp h
  obtain ⟨⟨root, _⟩, hroot, h⟩ := bind_eq_ok.mp h
  obtain ⟨sourceRoot, hdecode, h⟩ := bind_eq_ok.mp h
  obtain ⟨_, _, h⟩ := bind_eq_ok.mp h
  obtain ⟨_, _, h⟩ := bind_eq_ok.mp h
  obtain ⟨_, _, h⟩ := bind_eq_ok.mp h
  obtain ⟨_, _, h⟩ := bind_eq_ok.mp h
  obtain ⟨_, _, h⟩ := bind_eq_ok.mp h
  obtain ⟨_, _, h⟩ := bind_eq_ok.mp h
  cases h
  exact hexDecodeString_ne_nil (consume_ok hroot).1.ne_nil hdecode

theorem parse_ok {text : Bytes} {manifest : Manifest} (h : parse text = .ok manifest) :
    WellFormed manifest := by
  unfold parse at h
  split at h
  · contradiction
  split at h
  · contradiction
  obtain ⟨⟨header, expected, lines⟩, hheader, h⟩ := bind_eq_ok.mp h
  obtain ⟨⟨files, rest⟩, hfiles, h⟩ := bind_eq_ok.mp h
  dsimp only at h
  split at h
  · contradiction
  split at h
  · contradiction
  split at h
  · contradiction
  rename_i hcount
  split at h
  · contradiction
  cases h
  have hroot : header.sourceRoot ≠ [] := parseHeader_ok hheader
  refine ⟨hroot, parseFiles_ok hfiles, ?_⟩
  rw [not_not.mp hcount]
  exact expected.toNat_lt

/-- A well-formed manifest is read as it was written. -/
theorem parse_of_wellFormed {manifest : Manifest} (h : WellFormed manifest) :
    parse (serialize manifest) = .ok manifest :=
  (parse_serialize_iff h.printable).mpr ⟨rfl, fun file hf => (h.files file hf).1⟩

/-- The reader takes back whatever the writer makes of a well-formed manifest, and returns
well-formed manifests only, which it would read again as they are. -/
theorem parse_serialize_fit :
    (∀ manifest, WellFormed manifest → parse (serialize manifest) = .ok manifest) ∧
      ∀ text manifest, parse text = .ok manifest →
        WellFormed manifest ∧ parse (serialize manifest) = .ok manifest :=
  ⟨fun _ h => parse_of_wellFormed h, fun _ _ h => ⟨parse_ok h, parse_of_wellFormed (parse_ok h)⟩⟩

/-- The hash of the letter `a`. -/
def letterHash : Bytes := ascii "ca978112ca1bbdcafac231b39a23dc4da786eff8147c4e72b9807785afee48bb"

def chunkOfLetter (index : UInt64) : ChunkRef :=
  ⟨index, 1, 10, letterHash, ascii "objects/ca/" ++ letterHash ++ ascii ".zst"⟩

/-- One file of two letters, in two chunks. -/
def chunkedManifest : Manifest :=
  ⟨1, 1700000000, .contentDefined, ascii "/data", 2, 10,
    [⟨ascii "a b", 2, 0o644, ascii "961b6dd3ede3cb8ecbaacbd68de040cd78eb2ed5889130cceb4c49268ea4d506",
      [chunkOfLetter 0, chunkOfLetter 1]⟩]⟩

theorem wellFormed_chunked : WellFormed chunkedManifest := by
  have hsha : Hash.isSha256Hex letterHash = true := by decide
  have hpath : FileUtils.SafePath (ascii "objects/ca/" ++ letterHash ++ ascii ".zst") :=
    ⟨[ascii "objects", ascii "ca", letterHash ++ ascii ".zst"], by decide +kernel⟩
  refine ⟨by decide, ?_, by decide⟩
  intro file hf
  rw [chunkedManifest, List.mem_singleton] at hf
  subst hf
  refine ⟨⟨⟨[ascii "a b"], by decide⟩, by decide, ?_⟩, by decide⟩
  intro chunk hc
  simp only [List.mem_cons, List.not_mem_nil, or_false] at hc
  rcases hc with rfl | rfl
  · exact ⟨hsha, hpath⟩
  · exact ⟨hsha, hpath⟩

theorem parse_serialize_fit_chunked :
    parse (serialize chunkedManifest) = .ok chunkedManifest :=
  parse_serialize_fit.1 _ wellFormed_chunked

end Dpc.ManifestStore
