import Dpc.Core.RawFrames
import Dpc.Network.TornSession

namespace Dpc
open Text FileTree Effects SessionIndex

variable {env : Env} {s t u : Fs} {sessionId : Bytes} {rs : List ReceivedChunkRecord}
  {cut : Bytes} {mode : UInt32}

/-- The session file is read as the first of the records, and whatever is appended later
comes behind them. -/
def Continues (env : Env) (u : Fs) (sessionId : Bytes) (rs : List ReceivedChunkRecord) : Prop :=
  ∃ k, (records sessionId).exec u = (.ok (rs.take k), u) ∧
    ∀ more v, (∀ r ∈ more, Writable r) →
      (appendChunks env sessionId more).exec u = (.ok (), v) →
      (records sessionId).exec v = (.ok (rs.take k ++ news (rs.take k) more), v)

theorem continues_of_line_end (hrs : ∀ r ∈ rs, Writable r)
    (hu : u.leaf? (path sessionId) = some ⟨cut, mode⟩) {k : Nat}
    (hk : cut = (rs.take k).flatMap recordLine) : Continues env u sessionId rs := by
  have htext : textOf u sessionId = (rs.take k).flatMap recordLine := by
    rw [textOf, hu, ← hk]
    rfl
  have hold : ∀ r ∈ rs.take k, Writable r := fun r hr => hrs r (List.mem_of_mem_take hr)
  refine ⟨k, exec_records hu (recorded_lines hold htext), fun more v hmore hx => ?_⟩
  obtain ⟨hv, hne⟩ := appendChunks_ok hold hmore htext hx
  have hall : ∀ r ∈ rs.take k ++ news (rs.take k) more, Writable r := by
    intro r hr
    rcases List.mem_append.mp hr with hr | hr
    · exact hold r hr
    · exact hmore r (mem_news hr)
  by_cases he : more = []
  · subst he
    cases hx
    exact exec_records hu (recorded_lines hall hv)
  · obtain ⟨f, hf⟩ := leaf_of_textOf (hne he)
    exact exec_records hf (recorded_lines hall hv)

/-- The text of some lines without the last newline. -/
theorem unended_cases {k : Nat} (hk : cut ++ [newline] = (rs.take k).flatMap recordLine) :
    ∃ xs r q, rs.take k = xs ++ [r] ∧ cut = xs.flatMap recordLine ++ q ∧
      q ++ [newline] = recordLine r := by
  rcases List.eq_nil_or_concat (rs.take k) with hnil | ⟨xs, r, hxs⟩
  · rw [hnil] at hk
    simp at hk
  · rw [List.concat_eq_append] at hxs
    rw [hxs, List.flatMap_append, List.flatMap_singleton, recordLine, ← List.append_assoc] at hk
    exact ⟨xs, r, _, hxs, List.append_cancel_right hk, rfl⟩

theorem continues_of_full (hrs : ∀ r ∈ rs, Writable r)
    (hu : u.leaf? (path sessionId) = some ⟨cut, mode⟩) {k : Nat}
    (hk : cut ++ [newline] = (rs.take k).flatMap recordLine)
    (hall : ∀ i, ∃ r ∈ rs.take k, r.globalIndex = i) : Continues env u sessionId rs := by
  obtain ⟨xs, r, q, hxs, hcut, hq⟩ := unended_cases hk
  have hold : ∀ p ∈ xs ++ [r], Writable p := fun p hp => hrs p (List.mem_of_mem_take (hxs ▸ hp))
  have hlen := length_le_lines xs
  have hqpos : 0 < q.length := by
    have hl := congrArg List.length hq
    have htag : 2 ≤ (recordLine r).length := by
      rw [recordLine_eq]
      simp only [List.length_append, List.length_cons]
      omega
    rw [List.length_append, List.length_singleton] at hl
    omega
  have hrec : Recorded u sessionId (rs.take k) := by
    have htext : textOf u sessionId = cut := by
      rw [textOf, hu]
      rfl
    obtain ⟨fuel, hfuel⟩ : ∃ fuel, cut.length = xs.length + (fuel + 1) := by
      refine ⟨cut.length - xs.length - 1, ?_⟩
      rw [hcut, List.length_append]
      omega
    rw [Recorded, htext, hfuel, hcut, parseRecords_lines_append fun p hp =>
      hold p (List.mem_append_left _ hp), parseRecords_unended (hold r (by simp)) hq, hxs]
    rfl
  refine ⟨k, exec_records hu hrec, fun more v _ hx => ?_⟩
  rw [appendChunks_full hrec hall hx, news_full hall, List.append_nil]
  exact exec_records hu hrec

/-- With the newline gone, the next new record makes the file unreadable. -/
theorem not_continues_of_unended (hrs : ∀ r ∈ rs, Writable r)
    (hu : u.leaf? (path sessionId) = some ⟨cut, mode⟩) {k : Nat}
    (hk : cut ++ [newline] = (rs.take k).flatMap recordLine) {i : UInt64}
    (hi : ∀ r ∈ rs.take k, r.globalIndex ≠ i)
    (hread : (records sessionId).exec u = (.ok (rs.take k), u))
    (hmore : ∀ more v, (∀ r ∈ more, Writable r) →
      (appendChunks env sessionId more).exec u = (.ok (), v) →
      (records sessionId).exec v = (.ok (rs.take k ++ news (rs.take k) more), v)) : False := by
  obtain ⟨xs, r, q, hxs, hcut, hq⟩ := unended_cases hk
  have hmem : r ∈ rs.take k := by
    rw [hxs]
    simp
  have hr : Writable r := hrs r (List.mem_of_mem_take hmem)
  have hold : ∀ p ∈ xs, Writable p :=
    fun p hp => hrs p (List.mem_of_mem_take (hxs ▸ List.mem_append_left _ hp))
  have hnext : Writable { r with globalIndex := i } := ⟨hr.sha, hr.fileSha, hr.path, hr.object⟩
  obtain ⟨v, hv, htext⟩ : ∃ v, (appendChunk env sessionId { r with globalIndex := i }).exec u = (.ok (), v) ∧
      textOf v sessionId = textOf u sessionId ++ recordLine { r with globalIndex := i } :=
    appendChunk_new hu (records_ok hread).2 hi
  have hrun : (appendChunks env sessionId [{ r with globalIndex := i }]).exec u = (.ok (), v) := by
    simp only [appendChunks, Prog.bind_eq]
    rw [Prog.exec_bind_of_ok hv]
    rfl
  have hx := hmore _ v (by simpa using hnext) hrun
  have hrec := (records_ok hx).2
  have hcuttext : textOf u sessionId = cut := by
    rw [textOf, hu]
    rfl
  rw [Recorded, htext, hcuttext, hcut, List.append_assoc] at hrec
  have hlen := length_le_lines xs
  obtain ⟨fuel, hfuel⟩ : ∃ fuel, (xs.flatMap recordLine ++
      (q ++ recordLine { r with globalIndex := i })).length = xs.length + (fuel + 1) := by
    refine ⟨(xs.flatMap recordLine ++
      (q ++ recordLine { r with globalIndex := i })).length - xs.length - 1, ?_⟩
    have hpos : 1 ≤ (recordLine { r with globalIndex := i }).length := by simp [recordLine]
    simp only [List.length_append]
    omega
  obtain ⟨e, he⟩ := parseRecords_joined (q := { r with globalIndex := i }) hr hq fuel
  rw [hfuel, parseRecords_lines_append hold, he] at hrec
  contradiction

/-- A session file that was cut reads on if and only if it was cut between two records, or
has lost its last newline only and has every index there is. -/
theorem torn_session_continues_iff (hempty : textOf s sessionId = [])
    (hrs : ∀ r ∈ rs, Writable r) (hx : (appendChunks env sessionId rs).exec s = (.ok (), t))
    (hcut : cut <+: textOf t sessionId) (hu : u.leaf? (path sessionId) = some ⟨cut, mode⟩) :
    Continues env u sessionId (news [] rs) ↔
      ∃ k, cut = ((news [] rs).take k).flatMap recordLine ∨
        cut ++ [newline] = ((news [] rs).take k).flatMap recordLine ∧
          ∀ i, ∃ r ∈ (news [] rs).take k, r.globalIndex = i := by
  have hnews : ∀ r ∈ news [] rs, Writable r := fun r hr => hrs r (mem_news hr)
  have hold : ∀ r ∈ ([] : List ReceivedChunkRecord), Writable r := by simp
  have htext := (appendChunks_ok hold hrs (by rw [hempty]; rfl) hx).1
  rw [List.nil_append] at htext
  rw [htext] at hcut
  constructor
  · intro ⟨k, hread, hmore⟩
    have hparse := (records_ok hread).2
    have hcuttext : textOf u sessionId = cut := by
      rw [textOf, hu]
      rfl
    rw [Recorded, hcuttext] at hparse
    rcases parseRecords_prefix hnews hcut hparse with ⟨j, hj, _⟩ | ⟨xs, r, ys, r', hnew, hout, hlast⟩
    · exact ⟨j, .inl hj⟩
    · have htake : xs ++ [r] = (news [] rs).take (xs.length + 1) := by
        rw [hnew, List.take_append, List.take_of_length_le (by omega)]
        simp
      have hk : xs ++ [r'] = xs ++ [r] := by
        have hlen := congrArg List.length hout
        have htwo : (xs.length + 1) ≤ (news [] rs).length := by
          rw [hnew]
          simp
        rw [List.length_take, List.length_append, List.length_singleton] at hlen
        rw [← hout, htake]
        by_cases hle : k ≤ (news [] rs).length
        · rw [show k = xs.length + 1 by omega]
        · rw [List.take_of_length_le (by omega), List.take_of_length_le (by omega)]
      have hrr := (List.singleton_inj.mp (List.append_cancel_left hk))
      rcases hlast with ⟨hended, _⟩ | hshort
      · rw [htake] at hended
        refine ⟨xs.length + 1, .inr ⟨hended, ?_⟩⟩
        by_contra hfree
        rw [not_forall] at hfree
        obtain ⟨i, hi⟩ := hfree
        have hi : ∀ r ∈ (news [] rs).take (xs.length + 1), r.globalIndex ≠ i :=
          fun r hr he => hi ⟨r, hr, he⟩
        rw [hout, hk, htake] at hread
        simp only [hout, hk, htake] at hmore
        exact not_continues_of_unended hnews hu hended hi hread hmore
      · rw [hrr] at hshort
        exact absurd hshort (Nat.lt_irrefl _)
  · rintro ⟨k, hk | ⟨hk, hall⟩⟩
    · exact continues_of_line_end hnews hu hk
    · exact continues_of_full hnews hu hk hall

def plainRecord : ReceivedChunkRecord :=
  ⟨0, Hash.bytesToHex letterA.2.val, ascii "a.txt", 1, 0o644, Hash.bytesToHex letterA.2.val, 0, 1, 10,
    ObjectStore.textOf (Hash.bytesToHex letterA.2.val)⟩

theorem writable_at (i : UInt64) : Writable { plainRecord with globalIndex := i, chunkIndex := i } := by
  have hsha : Hash.isSha256Hex plainRecord.sha256 = true := by decide
  have hpath : plainRecord.relativePath ≠ [] := by decide
  exact ⟨Hash.isWord_of_isSha256Hex hsha, Hash.isWord_of_isSha256Hex hsha, hpath,
    ObjectStore.textOf_ne_nil hsha⟩

/-- The repository after one call, which has written the whole line. -/
def plainSession : Fs := ((appendChunks letterEnv (ascii "s") [plainRecord]).exec emptyRepo).2

theorem exec_plainSession :
    (appendChunks letterEnv (ascii "s") [plainRecord]).exec emptyRepo = (.ok (), plainSession) :=
  Prog.exec_of_fst (by decide +kernel)

theorem leaf?_plainSession :
    plainSession.leaf? (path (ascii "s")) = some ⟨recordLine plainRecord, 0o644⟩ := by
  decide +kernel

theorem textOf_plainSession : textOf plainSession (ascii "s") = recordLine plainRecord := by
  rw [textOf, leaf?_plainSession]
  rfl

/-- The same chunk as the next one of the session. -/
def secondRecord : ReceivedChunkRecord := { plainRecord with globalIndex := 1, chunkIndex := 1 }

def twoLineSession : Fs := ((appendChunks letterEnv (ascii "s") [plainRecord, secondRecord]).exec emptyRepo).2

/-- Of the two records the second is cut off. -/
def halfSession : Fs :=
  ((FileUtils.writeFileAtomic letterEnv.umask (path (ascii "s")) (recordLine plainRecord) 0o644).exec
    emptyRepo).2

theorem half_session_continues :
    (appendChunks letterEnv (ascii "s") [plainRecord, secondRecord]).exec emptyRepo =
        (.ok (), twoLineSession) ∧
      textOf twoLineSession (ascii "s") = recordLine plainRecord ++ recordLine secondRecord ∧
      Continues letterEnv halfSession (ascii "s") (news [] [plainRecord, secondRecord]) := by
  have hx : (appendChunks letterEnv (ascii "s") [plainRecord, secondRecord]).exec emptyRepo =
      (.ok (), twoLineSession) := Prog.exec_of_fst (by decide +kernel)
  have htext : textOf twoLineSession (ascii "s") = recordLine plainRecord ++ recordLine secondRecord := by
    decide +kernel
  have hempty : textOf emptyRepo (ascii "s") = [] := by simp [textOf]
  have hwrite : ∀ r ∈ [plainRecord, secondRecord], Writable r := by
    intro r hr
    simp only [List.mem_cons, List.not_mem_nil, or_false] at hr
    rcases hr with rfl | rfl
    · exact writable_at 0
    · exact writable_at 1
  have hcut : recordLine plainRecord <+: textOf twoLineSession (ascii "s") := by
    rw [htext]
    exact List.prefix_append _ _
  have hleaf : halfSession.leaf? (path (ascii "s")) = some ⟨recordLine plainRecord, 0o644⟩ := by
    decide +kernel
  have hnews : news [] [plainRecord, secondRecord] = [plainRecord, secondRecord] := by decide +kernel
  refine ⟨hx, htext, (torn_session_continues_iff hempty hwrite hx hcut hleaf).mpr ⟨1, .inl ?_⟩⟩
  simp [hnews]

/-- The line of the record without its last three bytes: two digits and the newline. -/
def cutLine : Bytes := (recordLine plainRecord).take ((recordLine plainRecord).length - 3)

def cutSession : Fs :=
  ((FileUtils.writeFileAtomic letterEnv.umask (path (ascii "s")) cutLine 0o644).exec emptyRepo).2

/-- The record that is read has lost the last letter of its object's path. -/
theorem cut_session_does_not_continue :
    (appendChunks letterEnv (ascii "s") [plainRecord]).exec emptyRepo = (.ok (), plainSession) ∧
      cutLine <+: textOf plainSession (ascii "s") ∧
      cutSession.leaf? (path (ascii "s")) = some ⟨cutLine, 0o644⟩ ∧
      ¬Continues letterEnv cutSession (ascii "s") (news [] [plainRecord]) := by
  refine ⟨exec_plainSession, ?_, by decide +kernel, fun ⟨k, hread, _⟩ => ?_⟩
  · rw [textOf_plainSession]
    exact List.take_prefix _ _
  · have hwrong : ((records (ascii "s")).exec cutSession).1 =
        .ok [{ plainRecord with objectPath := plainRecord.objectPath.dropLast }] := by
      decide +kernel
    have he := Except.ok.inj ((congrArg Prod.fst hread).symm.trans hwrong)
    have hmem : { plainRecord with objectPath := plainRecord.objectPath.dropLast } ∈
        news [] [plainRecord] := List.mem_of_mem_take (i := k) (by rw [he]; simp)
    have hone := mem_news hmem
    rw [List.mem_singleton] at hone
    exact absurd hone (by decide +kernel)

end Dpc
