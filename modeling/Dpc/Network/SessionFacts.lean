import Dpc.Core.BackupFacts
import Dpc.Network.SessionIndex

namespace Dpc
open Text FileTree Effects ManifestStore

theorem getU64_number {n : UInt64} {rest : Bytes} (hr : ∀ b ∈ rest.head?, isSpace b = true) :
    SessionIndex.getU64 (space :: (number n ++ rest)) = some (n, rest) := by
  have hd : ∀ b ∈ rest.head?, isDigit b = false := fun b hb => not_isDigit_of_isSpace (hr b hb)
  rw [SessionIndex.getU64, getNumber_space (by decide), number, getNumber_decimal n.toNat_lt hd]
  simp

theorem getU32_number {n : UInt32} {rest : Bytes} (hr : ∀ b ∈ rest.head?, isSpace b = true) :
    SessionIndex.getU32 (space :: (number32 n ++ rest)) = some (n, rest) := by
  have hd : ∀ b ∈ rest.head?, isDigit b = false := fun b hb => not_isDigit_of_isSpace (hr b hb)
  rw [SessionIndex.getU32, getNumber_space (by decide), number32, getNumber_decimal n.toNat_lt hd]
  simp

theorem getWord_field {w rest : Bytes} (h : IsWord w) (hr : ∀ b ∈ rest.head?, isSpace b = true) :
    getWord (space :: (w ++ rest)) = some (w, rest) := by
  rw [getWord_space (by decide), getWord_word h hr]

theorem hexDecodeString_hexEncodeString (bs : Bytes) :
    hexDecodeString (hexEncodeString bs) = .ok bs := by
  simp [hexDecodeString, hexEncodeString]

namespace SessionIndex

/-- The lines of a session file. -/
inductive Line where
  | chunk (r : ReceivedChunkRecord)
  | committed (version : UInt64)
  deriving DecidableEq, Repr

def Line.text : Line → Bytes
  | .chunk r => recordLine r
  | .committed version => committedLine version

def Line.record? : Line → Option ReceivedChunkRecord
  | .chunk r => some r
  | .committed _ => none

/-- What is written as it is has to be a word, and what is written in hex not empty. -/
structure Writable (r : ReceivedChunkRecord) : Prop where
  sha : IsWord r.sha256
  fileSha : IsWord r.fileSha256
  path : r.relativePath ≠ []
  object : r.objectPath ≠ []

theorem head?_space (b : UInt8) (bs : Bytes) (h : isSpace b = true) :
    ∀ c ∈ (b :: bs).head?, isSpace c = true := by
  intro c hc
  cases hc
  exact h

theorem getRecord_line {r : ReceivedChunkRecord} (h : Writable r) {rest : Bytes}
    (hr : ∀ c ∈ rest.head?, isSpace c = true) :
    getRecord (space :: (joinWith space (recordWords r).tail ++ rest)) =
      some ({ r with
        relativePath := hexEncodeString r.relativePath
        objectPath := hexEncodeString r.objectPath }, rest) := by
  have hs : ∀ bs, ∀ c ∈ (space :: bs).head?, isSpace c = true :=
    fun bs => head?_space space bs (by decide)
  have hrel : IsWord (hexEncodeString r.relativePath) := isWord_hexEncode h.path
  have hobj : IsWord (hexEncodeString r.objectPath) := isWord_hexEncode h.object
  simp only [recordWords, List.tail_cons, joinWith_cons_cons, joinWith, List.append_assoc,
    List.cons_append, getRecord, getU64_number (hs _), getU32_number (hs _), getWord_field h.sha (hs _),
    getWord_field h.fileSha (hs _), getWord_field hrel (hs _), getWord_field hobj hr,
    Option.bind_eq_bind, Option.bind_some, Option.pure_def]

theorem parseRecords_newline (fuel : Nat) (rest : Bytes) :
    parseRecords fuel (newline :: rest) = parseRecords fuel rest := by
  cases fuel with
  | zero => rfl
  | succ fuel => rw [parseRecords, parseRecords, getWord_space (by decide)]

theorem parseRecords_chunk {r : ReceivedChunkRecord} (h : Writable r) (fuel : Nat) (rest : Bytes) :
    parseRecords (fuel + 1) (recordLine r ++ rest) =
      (do let records ← parseRecords fuel rest; return r :: records) := by
  have htag : IsWord (ascii "CHUNK") := .of_test (by decide)
  have hline : recordLine r ++ rest =
      ascii "CHUNK" ++ space :: (joinWith space (recordWords r).tail ++ newline :: rest) := by
    simp [recordLine, recordWords, joinWith_cons_cons]
  have hs : ∀ bs, ∀ c ∈ (space :: bs).head?, isSpace c = true :=
    fun bs => head?_space space bs (by decide)
  rw [parseRecords, hline, getWord_word htag (hs _)]
  have hn : ∀ c ∈ (newline :: rest).head?, isSpace c = true := head?_space newline rest (by decide)
  simp only [if_true, getRecord_line h hn, hexDecodeString_hexEncodeString, parseRecords_newline, bind,
    Except.bind]

theorem parseRecords_committed (version : UInt64) (fuel : Nat) (rest : Bytes) :
    parseRecords (fuel + 1) (committedLine version ++ rest) = parseRecords fuel rest := by
  have htag : IsWord (ascii "COMMITTED") := .of_test (by decide)
  have hline : committedLine version ++ rest =
      ascii "COMMITTED" ++ space :: (number version ++ newline :: rest) := by
    simp [committedLine, joinWith]
  have hnl : newline ∉ space :: number version := by
    intro hm
    rcases List.mem_cons.mp hm with he | hm
    · exact absurd he (by decide)
    · exact absurd (isDigit_of_mem_decimal hm) (by decide)
  have hskip : skipLine (space :: (number version ++ newline :: rest)) = rest :=
    skipLine_line (l := space :: number version) hnl
  have hne : ascii "COMMITTED" ≠ ascii "CHUNK" := by decide
  rw [parseRecords, hline, getWord_word htag (head?_space space _ (by decide))]
  simp only [hne, if_false, if_true, hskip]

/-- A session file is read as the records that were written to it. -/
theorem parseRecords_lines {lines : List Line} {fuel : Nat}
    (h : ∀ r ∈ lines.filterMap Line.record?, Writable r) (hf : lines.length ≤ fuel) :
    parseRecords fuel (lines.flatMap Line.text) = .ok (lines.filterMap Line.record?) := by
  induction lines generalizing fuel with
  | nil =>
    cases fuel with
    | zero => rfl
    | succ fuel => rfl
  | cons line lines ih =>
    obtain ⟨fuel, rfl⟩ := Nat.exists_eq_succ_of_ne_zero (Nat.ne_of_gt (Nat.lt_of_lt_of_le
      (Nat.succ_pos lines.length) hf))
    have hlen : lines.length ≤ fuel := by simpa using hf
    cases line with
    | chunk r =>
      have ih := ih (fun r' hr => h r' (by simp [Line.record?, hr])) hlen
      simp only [List.flatMap_cons, Line.text]
      rw [parseRecords_chunk (h r (by simp [Line.record?])), ih]
      rfl
    | committed version =>
      have ih := ih (fun r' hr => h r' (by simpa [Line.record?] using hr)) hlen
      simp only [List.flatMap_cons, Line.text]
      rw [parseRecords_committed, ih]
      rfl

theorem length_lines_le (lines : List Line) : lines.length ≤ (lines.flatMap Line.text).length := by
  induction lines with
  | nil => simp
  | cons line lines ih =>
    have hpos : 0 < line.text.length := by
      cases line with
      | chunk r => simp [Line.text, recordLine]
      | committed version => simp [Line.text, committedLine]
    simp only [List.flatMap_cons, List.length_append, List.length_cons]
    omega

/-- The text of a session file; there is none before the first record. -/
def textOf (s : Fs) (sessionId : Bytes) : Bytes :=
  ((s.leaf? (path sessionId)).map File.data).getD []

/-- The session file has the records. -/
def Recorded (s : Fs) (sessionId : Bytes) (rs : List ReceivedChunkRecord) : Prop :=
  parseRecords (textOf s sessionId).length (textOf s sessionId) = .ok rs

instance (s : Fs) (sessionId : Bytes) (rs : List ReceivedChunkRecord) :
    Decidable (Recorded s sessionId rs) := inferInstanceAs (Decidable (_ = _))

theorem Recorded.unique {s : Fs} {sessionId : Bytes} {rs rs' : List ReceivedChunkRecord}
    (h : Recorded s sessionId rs) (h' : Recorded s sessionId rs') : rs = rs' :=
  Except.ok.inj (h.symm.trans h')

/-- The session file has the lines. -/
structure Lines (s : Fs) (sessionId : Bytes) (lines : List Line) : Prop where
  text : textOf s sessionId = lines.flatMap Line.text
  writable : ∀ r ∈ lines.filterMap Line.record?, Writable r

theorem Lines.recorded {s : Fs} {sessionId : Bytes} {lines : List Line}
    (h : Lines s sessionId lines) : Recorded s sessionId (lines.filterMap Line.record?) := by
  rw [Recorded, h.text]
  exact parseRecords_lines h.writable (length_lines_le lines)

theorem textOf_congr {s t : Fs} {sessionId : Bytes}
    (h : t.leaf? (path sessionId) = s.leaf? (path sessionId)) :
    textOf t sessionId = textOf s sessionId := by
  rw [textOf, textOf, h]

theorem Lines.congr {s t : Fs} {sessionId : Bytes} {lines : List Line}
    (h : Lines s sessionId lines) (he : t.leaf? (path sessionId) = s.leaf? (path sessionId)) :
    Lines t sessionId lines :=
  ⟨by rw [textOf_congr he, h.text], h.writable⟩

theorem path_injective {a b : Bytes} (h : path a = path b) : a = b := by
  simp only [path, List.append_cancel_left_eq, List.cons.injEq, and_true] at h
  exact hexEncode_injective (List.append_cancel_right h)

variable {G : FsEffect → Fs → Fs → Prop} {env : Env} {s t : Fs} {sessionId : Bytes}

theorem records_keeps :
    Keeps G (fun rs t => t = s ∧ Recorded s sessionId rs) (records sessionId) s := by
  simp only [records, Prog.bind_eq]
  refine Keeps.bind (FileUtils.pathExists_keeps _) fun b a ⟨he, hb⟩ => ?_
  subst he hb
  split
  · refine Keeps.bind_query fun text ht => ?_
    refine Keeps.ofExcept fun rs hrs => ⟨rfl, ?_⟩
    split at ht
    · rename_i f hf
      cases ht
      have htext : textOf a sessionId = f.data := by
        rw [textOf, Tree.leaf?_eq_some.mpr hf]
        rfl
      rw [Recorded, htext, hrs]
    · contradiction
    · contradiction
  · rename_i hnone
    have htext : textOf a sessionId = [] := by
      rw [textOf, Tree.leaf?_eq_none_of_none (by simpa using hnone)]
      rfl
    refine Keeps.pure ⟨rfl, ?_⟩
    rw [Recorded, htext]
    rfl

theorem textOf_append {line : Bytes} {mode : UInt32} {e : Exn}
    (h : Effect.apply (FsEffect.append (path sessionId) line mode e) s = .ok t) :
    textOf t sessionId = textOf s sessionId ++ line := by
  rw [textOf, (FsEffect.append_ok h).leaf?, if_pos rfl, textOf]
  cases s.leaf? (path sessionId) with
  | none => rfl
  | some f => rfl

theorem appendLine_keeps {line : Bytes} (hdir : ∀ p a b, G (.ensureDirectory p) a b)
    (happend : ∀ mode e a b, (∀ q, a.leaf? q = s.leaf? q) →
      G (.append (path sessionId) line mode e) a b) :
    Keeps G (fun _ t => Frame (· = path sessionId) s t ∧
      textOf t sessionId = textOf s sessionId ++ line) (appendLine env sessionId line) s := by
  simp only [appendLine, FileUtils.ensureDirectory, Prog.bind_eq]
  have hd : Keeps G (fun _ t => ∀ q, t.leaf? q = s.leaf? q)
      (Prog.perform (.ensureDirectory sessionsDir)) s :=
    Keeps.perform fun t ht => ⟨hdir _ s t, (FsEffect.ensureDirectory_ok ht).1.leaf?⟩
  refine Keeps.bind hd fun _ a ha => ?_
  refine Keeps.perform fun t ht => ⟨happend _ _ a t ha, fun q hq => ?_, ?_⟩
  · rw [(FsEffect.append_ok ht).leaf?, if_neg hq, ha]
  · rw [textOf_append ht, textOf_congr (ha _)]

theorem find?_received (map : Std.TreeMap UInt64 ReceivedChunkRecord) (i : UInt64) :
    ((map.toList.map fun e => (e.1, e.2.sha256)).find? (·.1 == i)) =
      (map[i]?).map fun r => (i, r.sha256) := by
  have hp : ((·.1 == i) ∘ fun e : UInt64 × ReceivedChunkRecord => (e.1, e.2.sha256)) =
      fun e => compare e.1 i == .eq := by
    funext e
    rw [Function.comp_apply, Bool.eq_iff_iff, beq_iff_eq, beq_iff_eq, Std.compare_eq_iff_eq]
  rw [List.find?_map, hp]
  cases hm : map[i]? with
  | none =>
    have hc : map.contains i = false := by
      rw [← Bool.not_eq_true, Std.TreeMap.contains_iff_mem]
      intro hin
      rw [Std.TreeMap.getElem?_eq_some_getElem hin] at hm
      contradiction
    rw [Std.TreeMap.find?_toList_eq_none_iff_contains_eq_false.mpr hc]
    rfl
  | some r =>
    have hk : map.getKey? i = some i := by
      have hin : i ∈ map := by
        rw [Std.TreeMap.mem_iff_isSome_getElem?, hm]
        rfl
      rw [Std.TreeMap.getKey?_eq_some hin]
    rw [Std.TreeMap.find?_toList_eq_some_iff_getKey?_eq_some_and_getElem?_eq_some.mpr ⟨hk, hm⟩]
    rfl

theorem received_keeps :
    Keeps G (fun list t => t = s ∧ ∃ rs, Recorded s sessionId rs ∧
      list = (byGlobal rs).toList.map fun e => (e.1, e.2.sha256)) (received sessionId) s := by
  simp only [received, Prog.bind_eq]
  exact Keeps.bind records_keeps fun rs a ⟨he, hr⟩ => Keeps.pure ⟨he, rs, hr, rfl⟩

/-- A record that is received twice is left as it was received first. -/
theorem appendChunk_keeps {record : ReceivedChunkRecord}
    (hdir : ∀ p a b, G (.ensureDirectory p) a b)
    (happend : ∀ mode e a b, (∀ q, a.leaf? q = s.leaf? q) →
      G (.append (path sessionId) (recordLine record) mode e) a b) :
    Keeps G (fun _ t => Frame (· = path sessionId) s t ∧ ∃ rs, Recorded s sessionId rs ∧
      match (byGlobal rs)[record.globalIndex]? with
      | some r => r.sha256 = record.sha256 ∧ textOf t sessionId = textOf s sessionId
      | none => textOf t sessionId = textOf s sessionId ++ recordLine record)
      (appendChunk env sessionId record) s := by
  simp only [appendChunk, Prog.bind_eq]
  refine Keeps.bind received_keeps fun list a ⟨he, rs, hr, hlist⟩ => ?_
  subst he hlist
  rw [find?_received]
  cases hfound : (byGlobal rs)[record.globalIndex]? with
  | none =>
    simp only [Option.map_none]
    refine (appendLine_keeps hdir happend).post fun _ t ⟨hf, ht⟩ => ⟨hf, rs, hr, ?_⟩
    rw [hfound]
    exact ht
  | some r =>
    simp only [Option.map_some]
    split
    · exact Keeps.throw
    · rename_i hsha
      refine Keeps.pure ⟨.refl _ a, rs, hr, ?_⟩
      rw [hfound]
      exact ⟨not_not.mp hsha, rfl⟩

end SessionIndex

end Dpc
