import Dpc.Network.PayloadFacts

namespace Dpc
open Text BackupServer BackupClient
open ManifestStore (number number32 hexEncodeString hexDecodeString_hexEncodeString)

def putKeys : List Bytes :=
  [ascii "session_hex", ascii "relative_path_hex", ascii "file_size", ascii "file_mode",
    ascii "file_sha256", ascii "chunk_index", ascii "raw_size", ascii "compressed_size"]

theorem putHeader_keys (sessionId : Bytes) (chunk : PreparedChunk) :
    (putHeader sessionId chunk).map Prod.fst = putKeys := rfl

theorem putHeader_nodup (sessionId : Bytes) (chunk : PreparedChunk) :
    ((putHeader sessionId chunk).map Prod.fst).Nodup := by
  rw [putHeader_keys]
  decide

theorem putHeader_words {sessionId : Bytes} {chunk : PreparedChunk} (hsession : sessionId ≠ [])
    (hpath : chunk.relativePath ≠ []) (hsha : IsWord chunk.fileSha256) :
    ∀ f ∈ putHeader sessionId chunk, IsWord f.1 ∧ IsWord f.2 := by
  intro f hf
  have hkeys : ∀ key ∈ putKeys, wordTest key = true := by decide
  refine ⟨.of_test (hkeys f.1 (putHeader_keys sessionId chunk ▸ List.mem_map_of_mem hf)), ?_⟩
  simp only [putHeader, List.mem_cons, List.not_mem_nil, or_false] at hf
  rcases hf with rfl | rfl | rfl | rfl | rfl | rfl | rfl | rfl
  · exact isWord_hexEncode hsession
  · exact isWord_hexEncode hpath
  · exact isWord_decimal _
  · exact isWord_decimal _
  · exact hsha
  · exact isWord_decimal _
  · exact isWord_decimal _
  · exact isWord_decimal _

/-- A mode is printed as the number of 64 bits that is read back and cut. -/
theorem number32_eq (mode : UInt32) :
    number32 mode = number mode.toUInt64 ∧ mode.toUInt64.toUInt32 = mode := by
  refine ⟨?_, by simp⟩
  rw [number, number32, UInt32.toNat_toUInt64]

theorem putHeader_fields (sessionId : Bytes) (chunk : PreparedChunk) :
    field (putHeader sessionId chunk) "session_hex" = .ok (hexEncodeString sessionId) ∧
      field (putHeader sessionId chunk) "relative_path_hex" =
        .ok (hexEncodeString chunk.relativePath) ∧
      parseU64 (putHeader sessionId chunk) "file_size" = .ok chunk.fileSize ∧
      parseU64 (putHeader sessionId chunk) "file_mode" = .ok chunk.fileMode.toUInt64 ∧
      field (putHeader sessionId chunk) "file_sha256" = .ok chunk.fileSha256 ∧
      parseU64 (putHeader sessionId chunk) "chunk_index" = .ok chunk.chunkIndex ∧
      parseU64 (putHeader sessionId chunk) "raw_size" = .ok (size chunk.raw) ∧
      parseU64 (putHeader sessionId chunk) "compressed_size" = .ok (size chunk.compressed) := by
  have hkeys := putHeader_nodup sessionId chunk
  refine ⟨field_of_mem hkeys ?_, field_of_mem hkeys ?_, parseU64_of_mem hkeys ?_,
    parseU64_of_mem hkeys ?_, field_of_mem hkeys ?_, parseU64_of_mem hkeys ?_,
    parseU64_of_mem hkeys ?_, parseU64_of_mem hkeys ?_⟩
  all_goals simp [putHeader, number32_eq]

theorem ne_nil_and_newline_of_words {f : Bytes × Bytes} (h : IsWord f.1 ∧ IsWord f.2) :
    fieldLine f ≠ [] ∧ newline ∉ fieldLine f := by
  have hspace : ∀ w, IsWord w → newline ∉ w := by
    intro w hw hmem
    exact absurd (hw.nospace newline hmem) (by decide)
  refine ⟨by simp [fieldLine], ?_⟩
  rw [fieldLine, List.mem_append, List.mem_cons]
  intro hmem
  rcases hmem with hmem | hmem | hmem
  · exact hspace _ h.1 hmem
  · exact absurd hmem (by decide)
  · exact hspace _ h.2 hmem

/-- The server takes out of a chunk's payload what the client put into it, whatever the
bytes of the names and of the chunk. -/
theorem put_payload_round_trip {sessionId : Bytes} {chunk : PreparedChunk}
    (hsession : sessionId ≠ []) (hpath : chunk.relativePath ≠ []) (hsha : chunk.fileSha256 ≠ [])
    (hhex : ∀ b ∈ chunk.fileSha256, isXdigit b = true) :
    parsePutPayload (makePutPayload sessionId chunk) = .ok {
      sessionId := sessionId
      relativePath := chunk.relativePath
      fileSize := chunk.fileSize
      fileMode := chunk.fileMode
      fileSha256 := chunk.fileSha256
      chunkIndex := chunk.chunkIndex
      rawSize := size chunk.raw
      compressedSize := size chunk.compressed
      compressed := chunk.compressed } := by
  have hwords := putHeader_words hsession hpath (.of_hex hsha hhex)
  have hheader : IsWord (ascii "DPC_PUT_V1") := .of_test (by decide)
  have hlines : ∀ l ∈ ascii "DPC_PUT_V1" :: (putHeader sessionId chunk).map fieldLine,
      l ≠ [] ∧ newline ∉ l := by
    intro l hl
    rcases List.mem_cons.mp hl with rfl | hl
    · exact ⟨hheader.ne_nil, by decide⟩
    · obtain ⟨f, hf, rfl⟩ := List.mem_map.mp hl
      exact ne_nil_and_newline_of_words (hwords f hf)
  have hsplit : splitBlankLine (makePutPayload sessionId chunk) =
      some (joinWith newline (ascii "DPC_PUT_V1" :: (putHeader sessionId chunk).map fieldLine),
        chunk.compressed) := by
    rw [makePutPayload, textFields_lines, List.append_assoc, List.append_assoc]
    exact splitBlankLine_lines (by simp) hlines
  obtain ⟨h1, h2, h3, h4, h5, h6, h7, h8⟩ := putHeader_fields sessionId chunk
  rw [parsePutPayload, hsplit]
  dsimp only
  rw [parseTextFields_lines hheader hwords]
  simp only [bind, Except.bind, pure, Except.pure, h1, h2, h3, h4, h5, h6, h7, h8,
    hexDecodeString_hexEncodeString, number32_eq, ne_eq, not_true_eq_false, if_false]

/-- A chunk whose bytes hold a blank line and a field. -/
def fieldChunk : PreparedChunk where
  globalIndex := 0
  relativePath := [10, 10, 0, 255]
  fileSize := 3
  fileMode := 0o644
  fileSha256 := ascii "ab"
  chunkIndex := 1
  chunkSha256 := ascii "cd"
  raw := [1, 2, 3]
  compressed := [10, 10] ++ ascii "file_size 7" ++ [10, 10]

theorem field_chunk_round_trip :
    parsePutPayload (makePutPayload [10] fieldChunk) = .ok ⟨[10], [10, 10, 0, 255], 3, 0o644,
      ascii "ab", 1, 3, 15, [10, 10] ++ ascii "file_size 7" ++ [10, 10]⟩ :=
  @put_payload_round_trip [10] fieldChunk (by decide) (by decide) (by decide) (by decide +kernel)

/-- The fields of a chunk's payload. -/
def headerFields (payload : Bytes) : Fields :=
  pairUp (words (((splitBlankLine payload).map Prod.fst).getD [])).tail

/-- The stored number is the one that the field's digits spell, and nothing else stands there. -/
def ReadStrictly (fields : Fields) (key : String) (bound n : Nat) : Prop :=
  ∃ text, field fields key = .ok text ∧ text ≠ [] ∧ (∀ b ∈ text, isDigit b = true) ∧
    digitsValue text < bound ∧ n = digitsValue text

/-- Every number of a chunk's header is read strictly. -/
structure StrictNumbers (fields : Fields) (put : PutPayload) : Prop where
  fileSize : ReadStrictly fields "file_size" (2 ^ 64) put.fileSize.toNat
  fileMode : ReadStrictly fields "file_mode" (2 ^ 32) put.fileMode.toNat
  chunkIndex : ReadStrictly fields "chunk_index" (2 ^ 64) put.chunkIndex.toNat
  rawSize : ReadStrictly fields "raw_size" (2 ^ 64) put.rawSize.toNat
  compressedSize : ReadStrictly fields "compressed_size" (2 ^ 64) put.compressedSize.toNat

def numberKeys : List String :=
  ["file_size", "file_mode", "chunk_index", "raw_size", "compressed_size"]

/-- No sign stands in front of the digits, and nothing after them. -/
def Bare (text : Bytes) : Prop :=
  text.head? ≠ some 45 ∧ text.head? ≠ some 43 ∧ text.dropWhile isDigit = []

/-- What the header must be for its numbers to be taken as they stand. -/
structure BareNumbers (fields : Fields) : Prop where
  bare : ∀ key ∈ numberKeys, ∀ text, field fields key = .ok text → Bare text
  mode : ∀ text, field fields "file_mode" = .ok text → digitsValue text < 2 ^ 32

variable {fields : Fields} {key : String} {text payload : Bytes} {put : PutPayload} {n : UInt64}

theorem bare_iff (hw : IsWord text) :
    Bare text ↔ ∀ b ∈ text, isDigit b = true := by
  obtain ⟨b, rest, rfl⟩ := List.exists_cons_of_ne_nil hw.ne_nil
  constructor
  · exact fun h => List.dropWhile_eq_nil_iff.mp h.2.2
  · intro h
    obtain ⟨_, hminus, hplus⟩ := isDigit_bounds (h b List.mem_cons_self)
    exact ⟨by simpa using hminus, by simpa using hplus, List.dropWhile_eq_nil_iff.mpr h⟩

/-- Where the text is digits alone, the number is their value. -/
theorem stoull_digits (hw : IsWord text) (hdigits : ∀ b ∈ text, isDigit b = true)
    (h : stoull text = .ok n) : digitsValue text < 2 ^ 64 ∧ n.toNat = digitsValue text := by
  have hnil : ∀ b ∈ ([] : Bytes).head?, isDigit b = false := by simp
  have hscan := scanNumber_digits hw.ne_nil hdigits hnil
  rw [List.append_nil] at hscan
  simp only [stoull, hscan, hw.ne_nil, if_false, signed, Bool.false_eq_true] at h
  split at h
  · cases h
  rename_i hlt
  rw [Nat.not_le] at hlt
  cases h
  exact ⟨hlt, UInt64.toNat_ofNat_of_lt' hlt⟩

/-- A number is read strictly if it is bare, and its value is one of the type that it is cut to. -/
theorem readStrictly_cut {bound : Nat} (hw : ∀ text, field fields key = .ok text → IsWord text)
    (h : parseU64 fields key = .ok n) :
    ReadStrictly fields key bound (n.toNat % bound) ↔
      (∀ text, field fields key = .ok text → Bare text) ∧
        ∀ text, field fields key = .ok text → digitsValue text < bound := by
  obtain ⟨text, htext, hn⟩ := bind_ok h
  have hword := hw text htext
  have honly : ∀ other, field fields key = .ok other → other = text := by
    intro other hother
    rw [htext] at hother
    exact (Except.ok.inj hother).symm
  constructor
  · intro hstrict
    obtain ⟨other, hother, _, hdigits, hlt, _⟩ := hstrict
    obtain rfl := honly other hother
    refine ⟨fun a ha => ?_, fun a ha => ?_⟩
    · exact honly a ha ▸ (bare_iff hword).mpr hdigits
    · exact honly a ha ▸ hlt
  · intro hboth
    have hdigits := (bare_iff hword).mp (hboth.1 text htext)
    have hlt := hboth.2 text htext
    refine ⟨text, htext, hword.ne_nil, hdigits, hlt, ?_⟩
    rw [(stoull_digits hword hdigits hn).2, Nat.mod_eq_of_lt hlt]

/-- For a number of 64 bits the range was checked. -/
theorem readStrictly_whole (hw : ∀ text, field fields key = .ok text → IsWord text)
    (h : parseU64 fields key = .ok n) :
    ReadStrictly fields key (2 ^ 64) n.toNat ↔
      ∀ text, field fields key = .ok text → Bare text := by
  have hcut := @readStrictly_cut fields key n (2 ^ 64) hw h
  rw [Nat.mod_eq_of_lt n.toNat_lt] at hcut
  rw [hcut]
  refine ⟨fun hboth => hboth.1, fun hbare => ⟨hbare, fun text htext => ?_⟩⟩
  obtain ⟨other, hother, hn⟩ := bind_ok h
  rw [htext] at hother
  cases hother
  exact (stoull_digits (hw text htext) ((bare_iff (hw text htext)).mp (hbare text htext)) hn).1

/-- Where a payload's numbers come from. -/
theorem parsePutPayload_numbers (h : parsePutPayload payload = .ok put) :
    (∀ key text, field (headerFields payload) key = .ok text → IsWord text) ∧
      parseU64 (headerFields payload) "file_size" = .ok put.fileSize ∧
      (∃ mode, parseU64 (headerFields payload) "file_mode" = .ok mode ∧
        put.fileMode = mode.toUInt32) ∧
      parseU64 (headerFields payload) "chunk_index" = .ok put.chunkIndex ∧
      parseU64 (headerFields payload) "raw_size" = .ok put.rawSize ∧
      parseU64 (headerFields payload) "compressed_size" = .ok put.compressedSize := by
  unfold parsePutPayload at h
  split at h
  · contradiction
  rename_i header body hsplit
  obtain ⟨fields, hfields, h⟩ := bind_ok h
  have hheader : headerFields payload = fields := by
    unfold parseTextFields at hfields
    dsimp only at hfields
    split at hfields
    · contradiction
    cases hfields
    rw [headerFields, hsplit]
    rfl
  rw [hheader]
  obtain ⟨_, _, h⟩ := bind_ok h
  obtain ⟨_, _, h⟩ := bind_ok h
  obtain ⟨_, _, h⟩ := bind_ok h
  obtain ⟨_, _, h⟩ := bind_ok h
  obtain ⟨fileSize, hsize, h⟩ := bind_ok h
  obtain ⟨mode, hmode, h⟩ := bind_ok h
  obtain ⟨_, _, h⟩ := bind_ok h
  obtain ⟨chunkIndex, hindex, h⟩ := bind_ok h
  obtain ⟨rawSize, hraw, h⟩ := bind_ok h
  obtain ⟨compressedSize, hcompressed, h⟩ := bind_ok h
  split at h
  · contradiction
  cases h
  exact ⟨fun key text => isWord_field hfields, hsize, ⟨mode, hmode, rfl⟩, hindex, hraw, hcompressed⟩

/-- The numbers of a payload that was taken are those of its header exactly where no sign
stands in front of one and nothing behind it, and the mode is of 32 bits. -/
theorem numbers_strict_iff_bare (h : parsePutPayload payload = .ok put) :
    StrictNumbers (headerFields payload) put ↔ BareNumbers (headerFields payload) := by
  obtain ⟨hw, hsize, ⟨mode, hmode, hcast⟩, hindex, hraw, hcompressed⟩ := parsePutPayload_numbers h
  have hmode32 := @readStrictly_cut _ _ _ (2 ^ 32) (hw "file_mode") hmode
  rw [← UInt64.toNat_toUInt32, ← hcast] at hmode32
  have hsize64 := readStrictly_whole (hw "file_size") hsize
  have hindex64 := readStrictly_whole (hw "chunk_index") hindex
  have hraw64 := readStrictly_whole (hw "raw_size") hraw
  have hcompressed64 := readStrictly_whole (hw "compressed_size") hcompressed
  constructor
  · intro hs
    refine ⟨fun key hkey => ?_, (hmode32.mp hs.fileMode).2⟩
    simp only [numberKeys, List.mem_cons, List.not_mem_nil, or_false] at hkey
    rcases hkey with rfl | rfl | rfl | rfl | rfl
    · exact hsize64.mp hs.fileSize
    · exact (hmode32.mp hs.fileMode).1
    · exact hindex64.mp hs.chunkIndex
    · exact hraw64.mp hs.rawSize
    · exact hcompressed64.mp hs.compressedSize
  · intro hb
    exact ⟨hsize64.mpr (hb.bare "file_size" (by decide)),
      hmode32.mpr ⟨hb.bare "file_mode" (by decide), hb.mode⟩,
      hindex64.mpr (hb.bare "chunk_index" (by decide)),
      hraw64.mpr (hb.bare "raw_size" (by decide)),
      hcompressed64.mpr (hb.bare "compressed_size" (by decide))⟩

/-- A header with the numbers as they are given. -/
def numbersPut (fileSize fileMode rawSize : String) : Bytes :=
  textFields "DPC_PUT_V1" [(ascii "session_hex", ascii "73"), (ascii "relative_path_hex", ascii "61"),
    (ascii "file_size", ascii fileSize), (ascii "file_mode", ascii fileMode),
    (ascii "file_sha256", ascii "ab"), (ascii "chunk_index", ascii "0"),
    (ascii "raw_size", ascii rawSize), (ascii "compressed_size", ascii "0")] ++ [newline]

theorem of_field {P : Bytes → Prop} (h : field fields key = .ok text) (hp : P text) :
    ∀ other, field fields key = .ok other → P other := by
  intro other hother
  rw [h] at hother
  exact Except.ok.inj hother ▸ hp

/-- Digits alone are read strictly. -/
theorem bare_numbers_are_strict :
    StrictNumbers (headerFields (numbersPut "1" "420" "2"))
      ⟨ascii "s", ascii "a", 1, 420, ascii "ab", 0, 2, 0, []⟩ := by
  have hfield : ∀ e ∈ [("file_size", "1"), ("file_mode", "420"), ("chunk_index", "0"),
      ("raw_size", "2"), ("compressed_size", "0")],
      field (headerFields (numbersPut "1" "420" "2")) e.1 = .ok (ascii e.2) := by
    decide +kernel
  refine (numbers_strict_iff_bare (by decide +kernel)).mpr ⟨?_, ?_⟩
  · intro key hkey
    simp only [numberKeys, List.mem_cons, List.not_mem_nil, or_false] at hkey
    rcases hkey with rfl | rfl | rfl | rfl | rfl
    · exact of_field (hfield ("file_size", "1") (by decide)) ⟨by decide, by decide, by decide⟩
    · exact of_field (hfield ("file_mode", "420") (by decide)) ⟨by decide, by decide, by decide⟩
    · exact of_field (hfield ("chunk_index", "0") (by decide)) ⟨by decide, by decide, by decide⟩
    · exact of_field (hfield ("raw_size", "2") (by decide)) ⟨by decide, by decide, by decide⟩
    · exact of_field (hfield ("compressed_size", "0") (by decide)) ⟨by decide, by decide, by decide⟩
  · exact of_field (hfield ("file_mode", "420") (by decide)) (by decide)

/-- A size that is negative, a mode of 33 bits and a size with a tail are stored as other numbers. -/
theorem loose_numbers_are_stored :
    ¬∀ payload put, parsePutPayload payload = .ok put → StrictNumbers (headerFields payload) put := by
  intro h
  have hopen : parsePutPayload (numbersPut "-1" "4294967716" "1x") =
      .ok ⟨ascii "s", ascii "a", 0xffffffffffffffff, 420, ascii "ab", 0, 1, 0, []⟩ := by
    decide +kernel
  obtain ⟨text, htext, _, hdigits, _⟩ := (h _ _ hopen).fileSize
  have hminus : field (headerFields (numbersPut "-1" "4294967716" "1x")) "file_size" =
      .ok (ascii "-1") := by decide +kernel
  rw [hminus] at htext
  cases htext
  exact absurd (hdigits 45 (by decide)) (by decide)

end Dpc
