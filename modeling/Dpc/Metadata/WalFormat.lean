import Dpc.Common.EffectFacts
import Dpc.Lib.Framing
import Dpc.Metadata.WalLog

namespace Dpc.WalLog
open Text FileTree Effects Endian Framing

theorem ofCode_code (type : WalRecordType) : WalRecordType.ofCode type.code = some type := by
  cases type <;> rfl

theorem code_ofCode {n : Nat} {type : WalRecordType} (h : WalRecordType.ofCode n = some type) :
    type.code = n := by
  unfold WalRecordType.ofCode at h
  split at h
  all_goals cases h
  all_goals rfl

theorem code_lt (type : WalRecordType) : type.code < 256 ^ 2 := by
  cases type <;> decide

/-- The header of a record. -/
def header (type : WalRecordType) (payload : Bytes) : Bytes :=
  leBytes 4 kWalMagic ++ leBytes 2 kWalVersion ++ leBytes 2 type.code ++
    leBytes 4 payload.length ++ leBytes 4 (crc32 payload).toNat

theorem length_header (type : WalRecordType) (payload : Bytes) :
    (header type payload).length = kHeaderSize := by
  simp [header, kHeaderSize]

theorem encodeRecord_iff {type : WalRecordType} {payload frame : Bytes} :
    encodeRecord type payload = .ok frame ↔
      payload.length ≤ kMaxPayloadSize ∧ frame = header type payload ++ payload := by
  unfold encodeRecord
  split
  · rename_i h
    simp only [reduceCtorEq, false_iff, not_and]
    exact fun hle => absurd h (Nat.not_lt.mpr hle)
  · rename_i h
    simp only [Except.ok.injEq, header]
    constructor
    · exact fun he => ⟨Nat.not_lt.mp h, he.symm⟩
    · exact fun he => he.2.symm

/-- The header is read as it was written, whatever follows it. -/
theorem get_header {type : WalRecordType} {payload rest : Bytes}
    (hlen : payload.length ≤ kMaxPayloadSize) :
    get32 (header type payload ++ rest) 0 = kWalMagic ∧
      get16 (header type payload ++ rest) 4 = kWalVersion ∧
      get16 (header type payload ++ rest) 6 = type.code ∧
      get32 (header type payload ++ rest) 8 = payload.length ∧
      get32 (header type payload ++ rest) 12 = (crc32 payload).toNat := by
  have hsize : payload.length < 256 ^ 4 := by
    simp only [kMaxPayloadSize] at hlen
    omega
  have hcrc : (crc32 payload).toNat < 256 ^ 4 := (crc32 payload).toNat_lt
  simp only [header, List.append_assoc, get32, get16]
  refine ⟨?_, ?_, ?_, ?_, ?_⟩
  · rw [List.drop_zero, take_leBytes, leValue_leBytes (by decide)]
  · rw [drop_leBytes (by decide), List.drop_zero, take_leBytes, leValue_leBytes (by decide)]
  · iterate 2 rw [drop_leBytes (by decide)]
    rw [List.drop_zero, take_leBytes, leValue_leBytes (code_lt type)]
  · iterate 3 rw [drop_leBytes (by decide)]
    rw [List.drop_zero, take_leBytes, leValue_leBytes hsize]
  · iterate 4 rw [drop_leBytes (by decide)]
    rw [List.drop_zero, take_leBytes, leValue_leBytes hcrc]

/-- The reader of one record takes exactly what the writer makes. -/
theorem decodeRecord_iff {record : WalRecord} {frame : Bytes} :
    decodeRecord frame = .ok record ↔ encodeRecord record.type record.payload = .ok frame := by
  rw [encodeRecord_iff]
  constructor
  · intro h
    unfold decodeRecord at h
    split at h
    · contradiction
    rename_i hsize
    split at h
    · contradiction
    rename_i hmagic
    split at h
    · contradiction
    rename_i hversion
    split at h
    · contradiction
    rename_i type htype
    split at h
    · contradiction
    rename_i hmax
    split at h
    · contradiction
    rename_i hlen
    dsimp only at h
    split at h
    · contradiction
    rename_i hcrc
    cases h
    rw [not_not] at hmagic hversion hlen hcrc
    have hpayload : (frame.drop kHeaderSize).length = get32 frame 8 := by
      rw [List.length_drop, hlen]
      omega
    have h16 : 16 ≤ frame.length := Nat.not_lt.mp hsize
    have h0 : frame = leBytes 4 kWalMagic ++ frame.drop 4 :=
      @drop_field 4 kWalMagic 0 frame (by omega) hmagic
    have h4 : frame.drop 4 = leBytes 2 kWalVersion ++ frame.drop 6 := drop_field (by omega) hversion
    have h6 : frame.drop 6 = leBytes 2 type.code ++ frame.drop 8 :=
      drop_field (by omega) (code_ofCode htype).symm
    have h8 : frame.drop 8 = leBytes 4 (frame.drop kHeaderSize).length ++ frame.drop 12 :=
      drop_field (by omega) hpayload.symm
    have h12 : frame.drop 12 = leBytes 4 (crc32 (frame.drop kHeaderSize)).toNat ++
        frame.drop kHeaderSize := drop_field (by omega) hcrc.symm
    refine ⟨by dsimp only; omega, ?_⟩
    dsimp only
    rw [header, List.append_assoc, List.append_assoc, List.append_assoc, List.append_assoc, ← h12,
      ← h8, ← h6, ← h4, ← h0]
  · intro ⟨hlen, hframe⟩
    obtain ⟨h0, h4, h6, h8, h12⟩ := @get_header record.type record.payload record.payload hlen
    have hsize : frame.length = kHeaderSize + record.payload.length := by
      rw [hframe, List.length_append, length_header]
    have hdrop : frame.drop kHeaderSize = record.payload := by
      rw [hframe, List.drop_left' (length_header _ _)]
    rw [← hframe] at h0 h4 h6 h8 h12
    unfold decodeRecord
    rw [if_neg (by omega), h0, h4, h6, h8, h12, ofCode_code, hdrop]
    simp only [ne_eq, not_true_eq_false, if_false, hsize]
    rw [if_neg (by omega)]

/-- The records as a code of frames. -/
def code : Code WalRecord UInt8 Exn where
  headerSize := kHeaderSize
  frameSize head := kHeaderSize + get32 head 8
  encode record := encodeRecord record.type record.payload
  decode := decodeRecord
  exact := decodeRecord_iff
  header_pos := by decide
  sized := by
    intro record frame h
    obtain ⟨hlen, rfl⟩ := encodeRecord_iff.mp h
    have htake : (header record.type record.payload ++ record.payload).take kHeaderSize =
        header record.type record.payload := List.take_left' (length_header _ _)
    have hget := (@get_header record.type record.payload [] hlen).2.2.2.1
    rw [List.append_nil] at hget
    rw [htake, hget, List.length_append, length_header]
    exact ⟨Nat.le_add_right _ _, rfl⟩

theorem encodeRecords_iff {records : List WalRecord} {data : Bytes} :
    encodeRecords records = .ok data ↔ Written code records data := by
  induction records generalizing data with
  | nil =>
    rw [written_nil, encodeRecords, Except.ok.injEq, eq_comm]
  | cons record records ih =>
    rw [written_cons, encodeRecords, bind_eq_ok]
    constructor
    · intro ⟨frame, hframe, h⟩
      obtain ⟨rest, hrest, h⟩ := bind_eq_ok.mp h
      cases h
      exact ⟨frame, rest, hframe, ih.mp hrest, rfl⟩
    · intro ⟨frame, rest, hframe, hrest, hdata⟩
      refine ⟨frame, hframe, bind_eq_ok.mpr ⟨rest, ih.mpr hrest, ?_⟩⟩
      rw [hdata]
      rfl

/-- What the loop takes is a written log. -/
theorem written_of_readRecords {fuel : Nat} {data : Bytes} {records : List WalRecord}
    (hf : data.length ≤ fuel) (h : readRecords fuel data = .ok records) :
    Written code records data := by
  induction fuel generalizing data records with
  | zero =>
    cases h
    exact written_nil.mpr (List.length_eq_zero_iff.mp (by omega))
  | succ fuel ih =>
    rw [readRecords] at h
    split at h
    · rename_i hnil
      cases h
      exact written_nil.mpr hnil
    split at h
    · contradiction
    dsimp only at h
    split at h
    · contradiction
    split at h
    · contradiction
    rename_i hsize
    obtain ⟨record, hrecord, h⟩ := bind_eq_ok.mp h
    obtain ⟨rest, hrest, h⟩ := bind_eq_ok.mp h
    cases h
    have hlen : (data.drop (kHeaderSize + get32 data 8)).length ≤ fuel := by
      rw [List.length_drop, kHeaderSize]
      omega
    exact written_cons.mpr ⟨_, _, decodeRecord_iff.mp hrecord, ih hlen hrest,
      (List.take_append_drop _ data).symm⟩

/-- A written log is taken, as it was written. -/
theorem readRecords_of_written {fuel : Nat} {data : Bytes} {records : List WalRecord}
    (hf : data.length ≤ fuel) (h : Written code records data) :
    readRecords fuel data = .ok records := by
  induction records generalizing fuel data with
  | nil =>
    rw [written_nil] at h
    subst h
    cases fuel with
    | zero => rfl
    | succ fuel => rfl
  | cons record records ih =>
    obtain ⟨frame, rest, hframe, hrest, rfl⟩ := written_cons.mp h
    have hdecode := decodeRecord_iff.mpr hframe
    obtain ⟨hlen, hform⟩ := encodeRecord_iff.mp hframe
    have hsize : frame.length = kHeaderSize + record.payload.length := by
      rw [hform, List.length_append, length_header]
    have hget : get32 (frame ++ rest) 8 = record.payload.length := by
      rw [hform, List.append_assoc]
      exact (get_header hlen).2.2.2.1
    have htake : (frame ++ rest).take (kHeaderSize + record.payload.length) = frame :=
      List.take_left' hsize
    have hdrop : (frame ++ rest).drop (kHeaderSize + record.payload.length) = rest :=
      List.drop_left' hsize
    have hne : frame ++ rest ≠ [] := by
      intro he
      have := congrArg List.length he
      rw [List.length_append, hsize, List.length_nil, kHeaderSize] at this
      omega
    rw [List.length_append, hsize, kHeaderSize] at hf
    cases fuel with
    | zero => omega
    | succ fuel =>
      rw [readRecords, if_neg hne]
      dsimp only
      rw [hget, htake, hdrop, hdecode, if_neg, if_neg, if_neg]
      · rw [bind_eq_ok]
        exact ⟨record, rfl, bind_eq_ok.mpr ⟨records, ih (by omega) hrest, rfl⟩⟩
      · rw [List.length_append, hsize]
        omega
      · omega
      · rw [List.length_append, hsize]
        omega

theorem readRecords_iff {data : Bytes} {records : List WalRecord} :
    readRecords data.length data = .ok records ↔ Written code records data :=
  ⟨written_of_readRecords (Nat.le_refl _), readRecords_of_written (Nat.le_refl _)⟩

variable {s t : Fs} {env : Env}

/-- The bytes of the log; there are none before the first record. -/
def logOf (s : Fs) : Bytes := ((s.leaf? walPath).map File.data).getD []

theorem logOf_some {f : File} (h : s.leaf? walPath = some f) : logOf s = f.data := by
  rw [logOf, h]
  rfl

theorem exec_readAll {f : File} (h : s.leaf? walPath = some f) :
    readAll.exec s = (readRecords f.data.length f.data, s) := by
  simp only [readAll, Prog.bind_eq]
  rw [Prog.exec_bind_of_ok (FileUtils.exec_pathExists_some h)]
  simp only [if_true]
  rw [Prog.exec_bind_of_ok (FileUtils.exec_readFile_some h), Prog.exec_ofExcept]

/-- The reader returns the records that are written in the file. -/
theorem readAll_iff {f : File} {records : List WalRecord} (h : s.leaf? walPath = some f) :
    readAll.exec s = (.ok records, s) ↔ Written code records f.data := by
  rw [exec_readAll h, Prod.mk.injEq, and_iff_left rfl, readRecords_iff]

theorem written_of_readAll {records : List WalRecord} (h : readAll.exec s = (.ok records, t)) :
    Written code records (logOf s) := by
  cases hf : s.leaf? walPath with
  | some f =>
    rw [exec_readAll hf, Prod.mk.injEq] at h
    rw [logOf_some hf]
    exact readRecords_iff.mp h.1
  | none =>
    simp only [readAll, Prog.bind_eq] at h
    obtain ⟨b, a, hb, h⟩ := Prog.exec_bind_ok h
    obtain ⟨rfl, rfl⟩ := FileUtils.exec_pathExists_ok hb
    split at h
    · obtain ⟨data, c, hd, _⟩ := Prog.exec_bind_ok h
      obtain ⟨_, f, hf', _⟩ := FileUtils.exec_readFile_ok hd
      rw [hf] at hf'
      contradiction
    · simp only [Prog.pure_eq, Prog.exec_pure, Prod.mk.injEq, Except.ok.injEq] at h
      rw [← h.1, logOf, hf, written_nil]
      rfl

/-- The step lemma: an append adds its record. -/
theorem append_ok {type : WalRecordType} {payload : Bytes} {u : Unit}
    (h : (append env type payload).exec s = (.ok u, t)) :
    (t.leaf? walPath).isSome ∧
      ∃ frame, encodeRecord type payload = .ok frame ∧ logOf t = logOf s ++ frame := by
  simp only [append, FileUtils.ensureDirectory, Prog.bind_eq] at h
  obtain ⟨_, a, ha, h⟩ := Prog.exec_bind_ok h
  obtain ⟨frame, b, hb, h⟩ := Prog.exec_bind_ok h
  simp only [Prog.exec_ofExcept, Prod.mk.injEq] at hb
  obtain ⟨hframe, rfl⟩ := hb
  have hput := FsEffect.append_ok (Prog.exec_perform_ok h)
  have hleaf := (FsEffect.ensureDirectory_ok (Prog.exec_perform_ok ha)).1.leaf? walPath
  have hnew : t.leaf? walPath = some (appended frame (0o644 &&& ~~~env.umask) (a.leaf? walPath)) := by
    rw [hput.leaf?, if_pos rfl]
  refine ⟨by rw [hnew, Option.isSome_some], frame, hframe, ?_⟩
  rw [logOf_some hnew, logOf, ← hleaf]
  cases a.leaf? walPath with
  | none => rfl
  | some f => rfl

/-- Any number of appends, one after another. -/
def appends (env : Env) : List WalRecord → Op Unit
  | [] => return ()
  | record :: records => do
    append env record.type record.payload
    appends env records

/-- The run lemma. -/
theorem appends_ok {old new : List WalRecord} {u : Unit} (hold : Written code old (logOf s))
    (h : (appends env new).exec s = (.ok u, t)) :
    Written code (old ++ new) (logOf t) ∧ (new ≠ [] → (t.leaf? walPath).isSome) := by
  induction new generalizing s old with
  | nil =>
    simp only [appends, Prog.pure_eq, Prog.exec_pure, Prod.mk.injEq] at h
    rw [← h.2, List.append_nil]
    exact ⟨hold, fun hne => absurd rfl hne⟩
  | cons record new ih =>
    simp only [appends, Prog.bind_eq] at h
    obtain ⟨_, a, ha, h⟩ := Prog.exec_bind_ok h
    obtain ⟨hfile, frame, hframe, hlog⟩ := append_ok ha
    have hone : Written code [record] frame :=
      written_cons.mpr ⟨frame, [], hframe, written_nil.mpr rfl, by rw [List.append_nil]⟩
    have hnext : Written code (old ++ [record]) (logOf a) := by
      rw [hlog]
      exact hold.append hone
    obtain ⟨hall, hsome⟩ := ih hnext h
    rw [List.append_assoc, List.singleton_append] at hall
    refine ⟨hall, fun _ => ?_⟩
    by_cases hn : new = []
    · subst hn
      simp only [appends, Prog.pure_eq, Prog.exec_pure, Prod.mk.injEq] at h
      rw [← h.2]
      exact hfile
    · exact hsome hn

theorem readAll_of_written {records : List WalRecord} (hf : (s.leaf? walPath).isSome)
    (h : Written code records (logOf s)) : readAll.exec s = (.ok records, s) := by
  obtain ⟨f, hf⟩ := Option.isSome_iff_exists.mp hf
  rw [logOf_some hf] at h
  exact (readAll_iff hf).mpr h

theorem replaceWith_ok {records : List WalRecord} {u : Unit}
    (h : (replaceWith env records).exec s = (.ok u, t)) :
    (t.leaf? walPath).isSome ∧ Written code records (logOf t) := by
  simp only [replaceWith, Prog.bind_eq] at h
  obtain ⟨data, a, ha, h⟩ := Prog.exec_bind_ok h
  simp only [Prog.exec_ofExcept, Prod.mk.injEq] at ha
  obtain ⟨hdata, rfl⟩ := ha
  have hk : Keeps (fun _ _ _ => True) (fun _ t => Frame (· = walPath) s t ∧
      ∃ f, t.leaf? walPath = some f ∧ f.data = data)
      (FileUtils.writeFileAtomic env.umask walPath data 0o644) s :=
    FileUtils.writeFileAtomic_keeps _ _ _ (fun _ _ _ => trivial) fun _ _ _ _ => trivial
  obtain ⟨_, f, hf, hd⟩ := Keeps.ok hk h
  refine ⟨by rw [hf, Option.isSome_some], ?_⟩
  rw [logOf_some hf, hd]
  exact encodeRecords_iff.mp hdata

end Dpc.WalLog
