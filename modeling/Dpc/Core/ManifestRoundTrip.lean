import Dpc.Core.ManifestCodec

namespace Dpc.ManifestStore
open Text

theorem parseNumber_decimal {bound n : Nat} (h : n < bound) (field : String) :
    parseNumber bound (decimal n) field = .ok n := by
  have hall : (decimal n).all isDigit = true :=
    List.all_eq_true.mpr fun _ hb => isDigit_of_mem_decimal hb
  have hb : ¬bound ≤ n := Nat.not_le.mpr h
  simp [parseNumber, decimal_ne_nil, hall, hb]

@[simp] theorem parseU64_number (n : UInt64) (field : String) :
    parseU64 (number n) field = .ok n := by
  simp [parseU64, number, parseNumber_decimal n.toNat_lt, Except.map]

@[simp] theorem parseU32_number32 (n : UInt32) (field : String) :
    parseU32 (number32 n) field = .ok n := by
  simp [parseU32, number32, parseNumber_decimal n.toNat_lt, Except.map]

@[simp] theorem hexDecodeString_hexEncodeString (value : Bytes) :
    hexDecodeString (hexEncodeString value) = .ok value := by
  simp [hexDecodeString, hexEncodeString]

theorem isWord_number (n : UInt64) : IsWord (number n) := isWord_decimal _

theorem isWord_number32 (n : UInt32) : IsWord (number32 n) := isWord_decimal _

theorem isWord_hexEncodeString {value : Bytes} (h : value ≠ []) :
    IsWord (hexEncodeString value) := isWord_hexEncode h

theorem isWord_mode (mode : ChunkingMode) : IsWord mode.toString := by
  cases mode <;> exact .of_test (by decide)

@[simp] theorem parseMode_toString (mode : ChunkingMode) :
    parseMode mode.toString = .ok mode := by
  cases mode <;> decide

structure PrintableChunk (chunk : ChunkRef) : Prop where
  sha : IsWord chunk.sha256
  path : chunk.objectPath ≠ []

structure PrintableFile (file : FileManifest) : Prop where
  path : file.relativePath ≠ []
  sha : IsWord file.fileSha256
  chunks : ∀ chunk ∈ file.chunks, PrintableChunk chunk
  count : file.chunks.length < 2 ^ 64

/-- No field that the text format writes as a word is empty or has a space in it. -/
structure Printable (manifest : Manifest) : Prop where
  root : manifest.sourceRoot ≠ []
  files : ∀ file ∈ manifest.files, PrintableFile file
  count : manifest.files.length < 2 ^ 64

theorem isWord_chunkWords {chunk : ChunkRef} (h : PrintableChunk chunk) :
    ∀ w ∈ chunkWords chunk, IsWord w := by
  intro w hw
  simp only [chunkWords, List.mem_cons, List.not_mem_nil, or_false] at hw
  rcases hw with rfl | rfl | rfl | rfl | rfl | rfl
  · exact .of_test (by decide)
  · exact isWord_number _
  · exact isWord_number _
  · exact isWord_number _
  · exact h.sha
  · exact isWord_hexEncodeString h.path

theorem isWord_fileWords {file : FileManifest} (h : PrintableFile file) :
    ∀ w ∈ fileWords file, IsWord w := by
  intro w hw
  simp only [fileWords, List.mem_cons, List.not_mem_nil, or_false] at hw
  rcases hw with rfl | rfl | rfl | rfl | rfl | rfl
  · exact .of_test (by decide)
  · exact isWord_hexEncodeString h.path
  · exact isWord_number _
  · exact isWord_number32 _
  · exact h.sha
  · exact isWord_number _

/-- A line that comes back as it was written. -/
structure PlainLine (line : Bytes) : Prop where
  noNewline : newline ∉ line
  noCr : 13 ∉ line

theorem PlainLine.join {ws : List Bytes} (h : ∀ w ∈ ws, IsWord w) :
    PlainLine (joinWith space ws) := by
  have key : ∀ b, isSpace b = true → b ≠ space → b ∉ joinWith space ws := by
    intro b hb hne hm
    rcases mem_joinWith hm with he | ⟨w, hw, hbw⟩
    · exact hne he
    · have := (h w hw).nospace b hbw
      rw [hb] at this
      contradiction
  exact ⟨key _ (by decide) (by decide), key _ (by decide) (by decide)⟩

theorem stripCr_plain {line : Bytes} (h : PlainLine line) : stripCr line = line := by
  unfold stripCr
  split
  · rename_i he
    exact absurd (List.mem_of_getLast? he) h.noCr
  · rfl

theorem splitLines_plain {lines : List Bytes} (h : ∀ l ∈ lines, PlainLine l) :
    splitLines (lines.flatMap (· ++ [newline])) = lines := by
  rw [splitLines, getlines_unlines fun l hl => (h l hl).noNewline]
  have : lines.map stripCr = lines.map id := List.map_congr_left fun l hl => stripCr_plain (h l hl)
  simpa using this

theorem plain_tag {line : Bytes} (h : newline ∉ line) (h' : 13 ∉ line) : PlainLine line := ⟨h, h'⟩

theorem plain_pair {key value : Bytes} (hk : IsWord key) (hv : IsWord value) :
    PlainLine (joinWith space [key, value]) := by
  refine PlainLine.join ?_
  intro w hw
  simp only [List.mem_cons, List.not_mem_nil, or_false] at hw
  rcases hw with rfl | rfl
  · exact hk
  · exact hv

theorem plain_fileLines {file : FileManifest} (h : PrintableFile file) :
    ∀ l ∈ fileLines file, PlainLine l := by
  intro l hl
  simp only [fileLines, List.mem_append, List.mem_cons, List.mem_map, List.not_mem_nil,
    or_false] at hl
  rcases hl with (rfl | ⟨chunk, hc, rfl⟩) | rfl
  · exact PlainLine.join (isWord_fileWords h)
  · exact PlainLine.join (isWord_chunkWords (h.chunks chunk hc))
  · exact plain_tag (by decide) (by decide)

theorem plain_manifestLines {manifest : Manifest} (h : Printable manifest) :
    ∀ l ∈ manifestLines manifest, PlainLine l := by
  have key : ∀ w ∈ [ascii "version", ascii "created_at", ascii "chunking_mode",
      ascii "source_root_hex", ascii "file_count", ascii "total_input_bytes",
      ascii "total_stored_bytes"], IsWord w := by
    have hall : [ascii "version", ascii "created_at", ascii "chunking_mode",
        ascii "source_root_hex", ascii "file_count", ascii "total_input_bytes",
        ascii "total_stored_bytes"].all wordTest = true := by decide
    exact fun w hw => .of_test (List.all_eq_true.mp hall w hw)
  intro l hl
  simp only [manifestLines, headerLines, List.mem_append, List.mem_cons, List.not_mem_nil,
    or_false, List.mem_flatMap] at hl
  rcases hl with ((rfl | rfl | rfl | rfl | rfl | rfl | rfl | rfl) | ⟨file, hf, hl⟩) | rfl
  · exact plain_tag (by decide) (by decide)
  · exact plain_pair (key _ (by simp)) (isWord_number _)
  · exact plain_pair (key _ (by simp)) (isWord_number _)
  · exact plain_pair (key _ (by simp)) (isWord_mode _)
  · exact plain_pair (key _ (by simp)) (isWord_hexEncodeString h.root)
  · exact plain_pair (key _ (by simp)) (isWord_number _)
  · exact plain_pair (key _ (by simp)) (isWord_number _)
  · exact plain_pair (key _ (by simp)) (isWord_number _)
  · exact plain_fileLines (h.files file hf) l hl
  · exact plain_tag (by decide) (by decide)

/-- The checks that the reader makes on a chunk that was written. -/
def checkChunk (chunk : ChunkRef) : Except Exn Unit := do
  Hash.requireSha256Hex chunk.sha256 "manifest chunk sha256"
  let _ ← FileUtils.safeRelativePath chunk.objectPath "manifest object_path"

def checkChunks : List ChunkRef → Except Exn Unit
  | [] => .ok ()
  | chunk :: chunks => do
    checkChunk chunk
    checkChunks chunks

def checkFile (file : FileManifest) : Except Exn Unit := do
  let _ ← FileUtils.safeRelativePath file.relativePath "manifest relative_path"
  Hash.requireSha256Hex file.fileSha256 "manifest file_sha256"
  checkChunks file.chunks

/-- The checks that the reader makes on the files, one after another. -/
def checkFiles : List FileManifest → Except Exn Unit
  | [] => .ok ()
  | file :: files => do
    checkFile file
    checkFiles files

theorem parseChunk_line {chunk : ChunkRef} (h : PrintableChunk chunk) :
    parseChunk (joinWith space (chunkWords chunk)) = (checkChunk chunk).map fun _ => chunk := by
  have hw := words_joinWith (isWord_chunkWords h)
  simp only [chunkWords] at hw
  simp only [parseChunk, chunkWords, hw, checkChunk, ne_eq, not_true_eq_false, if_false,
    parseU64_number, hexDecodeString_hexEncodeString, rejectExtraTokens, bind, Except.bind,
    pure, Except.pure]
  cases Hash.requireSha256Hex chunk.sha256 "manifest chunk sha256" with
  | error e => rfl
  | ok u =>
    cases FileUtils.safeRelativePath chunk.objectPath "manifest object_path" with
    | error e => rfl
    | ok p => rfl

theorem parseChunks_lines {chunks : List ChunkRef} (h : ∀ chunk ∈ chunks, PrintableChunk chunk)
    (rest : List Bytes) :
    parseChunks chunks.length
        ((chunks.map fun chunk => joinWith space (chunkWords chunk)) ++ rest) =
      (checkChunks chunks).map fun _ => (chunks, rest) := by
  induction chunks with
  | nil => rfl
  | cons chunk chunks ih =>
    have ih := ih fun c hc => h c (by simp [hc])
    simp only [List.length_cons, List.map_cons, List.cons_append, parseChunks, checkChunks,
      parseChunk_line (h chunk (by simp)), ih, bind, Except.bind, pure, Except.pure]
    cases checkChunk chunk with
    | error e => rfl
    | ok u =>
      cases checkChunks chunks with
      | error e => rfl
      | ok u => rfl

theorem parseFileLine_line {file : FileManifest} (h : PrintableFile file) :
    parseFileLine (joinWith space (fileWords file)) = (do
      let _ ← FileUtils.safeRelativePath file.relativePath "manifest relative_path"
      Hash.requireSha256Hex file.fileSha256 "manifest file_sha256"
      return ({ file with chunks := [] }, UInt64.ofNat file.chunks.length)) := by
  have hw := words_joinWith (isWord_fileWords h)
  simp only [fileWords] at hw
  simp only [parseFileLine, fileWords, hw, ne_eq, not_true_eq_false, if_false, parseU64_number,
    parseU32_number32, hexDecodeString_hexEncodeString, rejectExtraTokens, bind, Except.bind,
    pure, Except.pure]

theorem fileLine_ne_end (file : FileManifest) : joinWith space (fileWords file) ≠ ascii "END" := by
  intro he
  have := congrArg List.head? he
  simp [fileWords, joinWith, ascii] at this

theorem parseFiles_lines {files : List FileManifest} (h : ∀ file ∈ files, PrintableFile file)
    {n : Nat} (hn : (files.flatMap fileLines ++ [ascii "END"]).length ≤ n) :
    parseFiles n (files.flatMap fileLines ++ [ascii "END"]) =
      (checkFiles files).map fun _ => (files, [ascii "END"]) := by
  induction files generalizing n with
  | nil =>
    cases n with
    | zero => simp at hn
    | succ n => simp [parseFiles, checkFiles, Except.map]
  | cons file files ih =>
    cases n with
    | zero => simp at hn
    | succ n =>
      have hfile := h file (by simp)
      have hlen : (files.flatMap fileLines ++ [ascii "END"]).length ≤ n := by
        simp only [List.flatMap_cons, fileLines, List.append_assoc, List.cons_append,
          List.length_cons, List.length_append, List.length_map, List.length_nil] at hn ⊢
        omega
      have ih := ih (fun f hf => h f (by simp [hf])) hlen
      have hcount : (UInt64.ofNat file.chunks.length).toNat = file.chunks.length := by
        rw [UInt64.toNat_ofNat_of_lt' hfile.count]
      simp only [List.flatMap_cons, fileLines, List.append_assoc, List.cons_append,
        List.nil_append, parseFiles, fileLine_ne_end, if_false, parseFileLine_line hfile,
        checkFiles, checkFile, bind, Except.bind, pure, Except.pure]
      cases FileUtils.safeRelativePath file.relativePath "manifest relative_path" with
      | error e => rfl
      | ok p =>
        cases Hash.requireSha256Hex file.fileSha256 "manifest file_sha256" with
        | error e => rfl
        | ok u =>
          simp only [hcount, parseChunks_lines hfile.chunks]
          cases checkChunks file.chunks with
          | error e => rfl
          | ok u =>
            simp only [Except.map, ne_eq, not_true_eq_false, if_false, ih]
            cases checkFiles files with
            | error e => rfl
            | ok u => rfl

theorem consume_line {key : String} {value : Bytes} (hk : IsWord (ascii key)) (hv : IsWord value)
    (lines : List Bytes) :
    consume key (joinWith space [ascii key, value] :: lines) = .ok (value, lines) := by
  have hw : words (joinWith space [ascii key, value]) = [ascii key, value] := by
    refine words_joinWith ?_
    intro w hw
    simp only [List.mem_cons, List.not_mem_nil, or_false] at hw
    rcases hw with rfl | rfl
    · exact hk
    · exact hv
  simp [consume, hw, rejectExtraTokens, bind, Except.bind, pure, Except.pure]

theorem parseHeader_lines {manifest : Manifest} (h : manifest.sourceRoot ≠ [])
    (lines : List Bytes) :
    parseHeader ((headerLines manifest).tail ++ lines) =
      .ok ({ manifest with files := [] }, UInt64.ofNat manifest.files.length, lines) := by
  have k1 : IsWord (ascii "version") := .of_test (by decide)
  have k2 : IsWord (ascii "created_at") := .of_test (by decide)
  have k3 : IsWord (ascii "chunking_mode") := .of_test (by decide)
  have k4 : IsWord (ascii "source_root_hex") := .of_test (by decide)
  have k5 : IsWord (ascii "file_count") := .of_test (by decide)
  have k6 : IsWord (ascii "total_input_bytes") := .of_test (by decide)
  have k7 : IsWord (ascii "total_stored_bytes") := .of_test (by decide)
  simp only [parseHeader, headerLines, List.tail_cons, List.cons_append, List.nil_append,
    consume_line k1 (isWord_number _), consume_line k2 (isWord_number _),
    consume_line k3 (isWord_mode _), consume_line k4 (isWord_hexEncodeString h),
    consume_line k5 (isWord_number _), consume_line k6 (isWord_number _),
    consume_line k7 (isWord_number _), parseU64_number, parseMode_toString,
    hexDecodeString_hexEncodeString, bind, Except.bind, pure, Except.pure]

/-- What was written is read back, up to the checks that the reader makes. -/
theorem parse_serialize {manifest : Manifest} (h : Printable manifest) :
    parse (serialize manifest) = (checkFiles manifest.files).map fun _ => manifest := by
  have hlines := splitLines_plain (plain_manifestLines h)
  have hcount : (UInt64.ofNat manifest.files.length).toNat = manifest.files.length := by
    rw [UInt64.toNat_ofNat_of_lt' h.count]
  have hheader : manifestLines manifest = ascii "DPC_MANIFEST_V1" ::
      ((headerLines manifest).tail ++ (manifest.files.flatMap fileLines ++ [ascii "END"])) := by
    simp [manifestLines, headerLines]
  simp only [parse, serialize, hlines]
  rw [hheader]
  simp only [ne_eq, not_true_eq_false, if_false, parseHeader_lines h.root, bind, Except.bind,
    parseFiles_lines h.files (Nat.le_refl _)]
  cases checkFiles manifest.files with
  | error e => rfl
  | ok u => simp [Except.map, hcount, pure, Except.pure]

structure WellFormedChunk (chunk : ChunkRef) : Prop where
  sha : Hash.isSha256Hex chunk.sha256 = true
  path : FileUtils.SafePath chunk.objectPath

structure WellFormedFile (file : FileManifest) : Prop where
  path : FileUtils.SafePath file.relativePath
  sha : Hash.isSha256Hex file.fileSha256 = true
  chunks : ∀ chunk ∈ file.chunks, WellFormedChunk chunk

theorem checkChunk_ok {chunk : ChunkRef} :
    checkChunk chunk = .ok () ↔ WellFormedChunk chunk := by
  unfold checkChunk
  constructor
  · intro h
    cases hs : Hash.requireSha256Hex chunk.sha256 "manifest chunk sha256" with
    | error e => rw [hs] at h; contradiction
    | ok u =>
      cases hp : FileUtils.safeRelativePath chunk.objectPath "manifest object_path" with
      | error e => rw [hs, hp] at h; contradiction
      | ok p => exact ⟨Hash.requireSha256Hex_ok hs, (FileUtils.safePath_iff _).mpr ⟨p, hp⟩⟩
  · intro h
    obtain ⟨p, hp⟩ := (FileUtils.safePath_iff "manifest object_path").mp h.path
    simp [Hash.requireSha256Hex_of h.sha, hp, bind, Except.bind, pure, Except.pure]

theorem checkChunks_ok {chunks : List ChunkRef} :
    checkChunks chunks = .ok () ↔ ∀ chunk ∈ chunks, WellFormedChunk chunk := by
  induction chunks with
  | nil => simp [checkChunks]
  | cons chunk chunks ih =>
    rw [List.forall_mem_cons, ← checkChunk_ok, ← ih]
    simp only [checkChunks, bind, Except.bind]
    cases checkChunk chunk with
    | error e => simp
    | ok u => simp

theorem checkFile_ok {file : FileManifest} : checkFile file = .ok () ↔ WellFormedFile file := by
  unfold checkFile
  constructor
  · intro h
    cases hp : FileUtils.safeRelativePath file.relativePath "manifest relative_path" with
    | error e => rw [hp] at h; contradiction
    | ok p =>
      cases hs : Hash.requireSha256Hex file.fileSha256 "manifest file_sha256" with
      | error e => rw [hp, hs] at h; contradiction
      | ok u =>
        rw [hp, hs] at h
        exact ⟨(FileUtils.safePath_iff _).mpr ⟨p, hp⟩, Hash.requireSha256Hex_ok hs,
          checkChunks_ok.mp h⟩
  · intro h
    obtain ⟨p, hp⟩ := (FileUtils.safePath_iff "manifest relative_path").mp h.path
    simp [Hash.requireSha256Hex_of h.sha, hp, checkChunks_ok.mpr h.chunks, bind, Except.bind]

theorem checkFiles_ok {files : List FileManifest} :
    checkFiles files = .ok () ↔ ∀ file ∈ files, WellFormedFile file := by
  induction files with
  | nil => simp [checkFiles]
  | cons file files ih =>
    rw [List.forall_mem_cons, ← checkFile_ok, ← ih]
    simp only [checkFiles, bind, Except.bind]
    cases checkFile file with
    | error e => simp
    | ok u => simp

/-- A manifest that was written is read back if and only if all its files pass the
checks, and then it is the same manifest. -/
theorem parse_serialize_iff {manifest m : Manifest} (h : Printable manifest) :
    parse (serialize manifest) = .ok m ↔
      m = manifest ∧ ∀ file ∈ manifest.files, WellFormedFile file := by
  rw [parse_serialize h, ← checkFiles_ok]
  cases checkFiles manifest.files with
  | error e => simp [Except.map]
  | ok u => simp [Except.map, eq_comm]

end Dpc.ManifestStore
