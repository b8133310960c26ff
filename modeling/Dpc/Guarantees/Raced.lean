import Dpc.Guarantees.Torn
import Dpc.Network.BackupClient
import Dpc.Network.ServerFacts

namespace Dpc
open Text FileTree Effects SessionIndex BackupServer

/-- What `appendChunk` does after it has read which chunks the session has. -/
def SessionIndex.afterRead (env : Env) (sessionId : Bytes) (record : ReceivedChunkRecord)
    (existing : List (UInt64 × Bytes)) : Op Unit :=
  match existing.find? (·.1 == record.globalIndex) with
  | some found =>
    if found.2 ≠ record.sha256 then
      .throw (dpcError "session index checksum mismatch for duplicate chunk index")
    else return ()
  | none => appendLine env sessionId (recordLine record)

theorem SessionIndex.appendChunk_eq (env : Env) (sessionId : Bytes) (record : ReceivedChunkRecord) :
    appendChunk env sessionId record = (received sessionId).bind (afterRead env sessionId record) :=
  rfl

/-- How far the handling of a `PUT_CHUNK` packet has come. -/
inductive Stage where
  | arrived
  | stored (put : PutPayload) (object : PutObjectResult)
  | read (put : PutPayload) (object : PutObjectResult) (existing : List (UInt64 × Bytes))
  | acked (put : PutPayload) (object : PutObjectResult)

structure Upload where
  packet : Packet
  stage : Stage

/-- The packets that the workers have in hand or have acknowledged, and the repository. -/
structure Racing where
  uploads : List Upload
  state : Fs

/-- One worker takes one step, or anything else happens that leaves the session files alone.
An upload appends only where the guard lets it. -/
inductive Racing.Step (env : Env)
    (Guard : Fs → Packet → PutPayload → List (UInt64 × Bytes) → Prop) : Racing → Racing → Prop where
  | arrive (us : List Upload) (s : Fs) (packet : Packet) :
      Step env Guard ⟨us, s⟩ ⟨⟨packet, .arrived⟩ :: us, s⟩
  | store (before after : List Upload) {s t : Fs} {packet : Packet} {put : PutPayload} {sha : Bytes}
      {object : PutObjectResult} (hopen : openPut env packet = .ok (put, sha))
      (hx : (ObjectStore.putCompressed env sha put.compressed put.rawSize).exec s = (.ok object, t)) :
      Step env Guard ⟨before ++ ⟨packet, .arrived⟩ :: after, s⟩
        ⟨before ++ ⟨packet, .stored put object⟩ :: after, t⟩
  | read (before after : List Upload) {s t : Fs} {packet : Packet} {put : PutPayload}
      {object : PutObjectResult} {existing : List (UInt64 × Bytes)}
      (hx : (received put.sessionId).exec s = (.ok existing, t)) :
      Step env Guard ⟨before ++ ⟨packet, .stored put object⟩ :: after, s⟩
        ⟨before ++ ⟨packet, .read put object existing⟩ :: after, t⟩
  | append (before after : List Upload) {s t : Fs} {packet : Packet} {put : PutPayload}
      {object : PutObjectResult} {existing : List (UInt64 × Bytes)} (hg : Guard s packet put existing)
      (hx : (afterRead env put.sessionId (recordOf packet put object) existing).exec s = (.ok (), t)) :
      Step env Guard ⟨before ++ ⟨packet, .read put object existing⟩ :: after, s⟩
        ⟨before ++ ⟨packet, .acked put object⟩ :: after, t⟩
  | stop (before after : List Upload) (s : Fs) (u : Upload)
      (h : ∀ put object, u.stage ≠ .acked put object) :
      Step env Guard ⟨before ++ u :: after, s⟩ ⟨before ++ after, s⟩
  | mark (us : List Upload) {s t : Fs} {sessionId : Bytes} {v : UInt64}
      (hx : (markCommitted env sessionId v).exec s = (.ok (), t)) : Step env Guard ⟨us, s⟩ ⟨us, t⟩
  | other (us : List Upload) (s t : Fs)
      (h : ∀ sessionId, t.leaf? (path sessionId) = s.leaf? (path sessionId)) :
      Step env Guard ⟨us, s⟩ ⟨us, t⟩

/-- The steps of an upload are those of the program that handles its packet. -/
theorem putChunk_steps (env : Env) (packet : Packet) :
    putChunk env packet = (Prog.ofExcept (openPut env packet)).bind fun opened =>
      (ObjectStore.putCompressed env opened.2 opened.1.compressed opened.1.rawSize).bind fun object =>
        (received opened.1.sessionId).bind fun existing =>
          (afterRead env opened.1.sessionId (recordOf packet opened.1 object) existing).bind fun _ =>
            .ofExcept (sendText .putChunkAck packet.sessionIdHash (ascii "ok" ++ [newline])) := by
  simp only [putChunk, Prog.bind_eq, appendChunk_eq, Prog.bind_assoc']

inductive Racing.Run (env : Env)
    (Guard : Fs → Packet → PutPayload → List (UInt64 × Bytes) → Prop) (a : Racing) :
    Racing → Prop where
  | refl : Run env Guard a a
  | tail {b c : Racing} (h : Run env Guard a b) (hs : Step env Guard b c) : Run env Guard a c

/-- Any interleaving. -/
def Anyhow (_ : Fs) (_ : Packet) (_ : PutPayload) (_ : List (UInt64 × Bytes)) : Prop :=
  True

/-- Where an upload found no record of its chunk, there is still none. -/
def UpToDate (s : Fs) (packet : Packet) (put : PutPayload) (existing : List (UInt64 × Bytes)) : Prop :=
  existing.find? (·.1 == packet.chunkIndex) = none →
    ∀ rs, Recorded s put.sessionId rs → ∀ r ∈ rs, r.globalIndex ≠ packet.chunkIndex

/-- No session holds two records with one index. -/
def Racing.OneRecord (c : Racing) : Prop :=
  ∀ sessionId rs, Recorded c.state sessionId rs → (rs.map (·.globalIndex)).Nodup

/-- Of two packets for one chunk of a session that are acknowledged, the hashes agree. -/
def Racing.OneHash (c : Racing) : Prop :=
  ∀ u ∈ c.uploads, ∀ u' ∈ c.uploads, ∀ put object put' object', u.stage = .acked put object →
    u'.stage = .acked put' object' → put.sessionId = put'.sessionId →
      u.packet.chunkIndex = u'.packet.chunkIndex → u.packet.chunkSha256 = u'.packet.chunkSha256

variable {env : Env} {s t : Fs} {sessionId : Bytes} {i : UInt64} {sha : Bytes} {u : Upload}
  {a b c : Racing} {packet : Packet} {put : PutPayload} {object : PutObjectResult}

def Has (s : Fs) (sessionId : Bytes) (i : UInt64) (sha : Bytes) : Prop :=
  ∃ rs, Recorded s sessionId rs ∧ ∃ r ∈ rs, r.globalIndex = i ∧ r.sha256 = sha

/-- Every session file is made of lines, and no index is there twice. -/
def Clean (s : Fs) : Prop :=
  ∀ sessionId, ∃ lines, Lines s sessionId lines ∧
    ((lines.filterMap Line.record?).map (·.globalIndex)).Nodup

theorem recorded_congr {rs : List ReceivedChunkRecord} (h : textOf t sessionId = textOf s sessionId) :
    Recorded t sessionId rs ↔ Recorded s sessionId rs := by
  rw [Recorded, Recorded, h]

/-- Nothing is lost from any session. -/
structure Grows (s t : Fs) : Prop where
  clean : Clean t
  has : ∀ sessionId i sha, Has s sessionId i sha → Has t sessionId i sha

theorem Grows.of_text (h : Clean s) (he : ∀ sessionId, textOf t sessionId = textOf s sessionId) :
    Grows s t where
  clean sessionId := by
    obtain ⟨lines, hl, hn⟩ := h sessionId
    exact ⟨lines, ⟨(he sessionId).trans hl.text, hl.writable⟩, hn⟩
  has sessionId i sha hh := by
    obtain ⟨rs, hrs, hr⟩ := hh
    exact ⟨rs, (recorded_congr (he sessionId)).mpr hrs, hr⟩

/-- A line more in one session, the others as they were. -/
structure Adds (s t : Fs) (sessionId : Bytes) (line : Line) : Prop where
  here : textOf t sessionId = textOf s sessionId ++ line.text
  there : ∀ other, other ≠ sessionId → textOf t other = textOf s other

theorem Adds.of_appendLine {line : Line}
    (hx : (appendLine env sessionId line.text).exec s = (.ok (), t)) : Adds s t sessionId line := by
  have hk : Keeps (fun _ _ _ => True) _ (appendLine env sessionId line.text) s :=
    appendLine_keeps (fun _ _ _ => trivial) fun _ _ _ _ _ => trivial
  obtain ⟨hframe, htext⟩ := Keeps.ok hk hx
  refine ⟨htext, fun other hne => textOf_congr (hframe _ ?_)⟩
  intro he
  exact hne (path_injective he)

theorem Adds.lines {line : Line} {lines : List Line} (h : Adds s t sessionId line)
    (hl : Lines s sessionId lines) (hw : ∀ r ∈ line.record?, Writable r) :
    Lines t sessionId (lines ++ [line]) where
  text := by
    rw [h.here, hl.text]
    simp
  writable r hr := by
    rw [List.filterMap_append, List.mem_append] at hr
    rcases hr with hr | hr
    · exact hl.writable r hr
    · obtain ⟨x, hx, he⟩ := List.mem_filterMap.mp hr
      rw [List.mem_singleton.mp hx] at he
      exact hw r he

/-- A line that is added keeps the sessions in order, if the chunk that it records is new. -/
theorem Adds.grows {line : Line} (h : Adds s t sessionId line) (hs : Clean s)
    (hw : ∀ r ∈ line.record?, Writable r)
    (hnew : ∀ r ∈ line.record?, ∀ rs, Recorded s sessionId rs →
      ∀ q ∈ rs, q.globalIndex ≠ r.globalIndex) : Grows s t := by
  have hrecords : ∀ {rs}, Recorded s sessionId rs → Recorded t sessionId (rs ++ line.record?.toList) := by
    intro rs hrs
    obtain ⟨lines, hl, _⟩ := hs sessionId
    cases hrs.unique hl.recorded
    have hall := (h.lines hl hw).recorded
    have hone : [line].filterMap Line.record? = line.record?.toList := by
      cases line <;> rfl
    rwa [List.filterMap_append, hone] at hall
  constructor
  · intro other
    by_cases hother : other = sessionId
    · subst hother
      obtain ⟨lines, hl, hn⟩ := hs other
      refine ⟨lines ++ [line], h.lines hl hw, ?_⟩
      rw [List.filterMap_append, List.map_append]
      cases line with
      | committed v =>
        have hnone : [Line.committed v].filterMap Line.record? = [] := rfl
        rwa [hnone, List.map_nil, List.append_nil]
      | chunk r =>
        have hlacks := hnew r rfl _ hl.recorded
        refine List.Nodup.append hn (List.nodup_singleton _) ?_
        intro i hi hi'
        obtain ⟨x, hx, rfl⟩ := List.mem_map.mp hi
        exact hlacks x hx (List.mem_singleton.mp hi')
    · obtain ⟨lines, hl, hn⟩ := hs other
      exact ⟨lines, ⟨(h.there other hother).trans hl.text, hl.writable⟩, hn⟩
  · intro other i sha hh
    obtain ⟨rs, hrs, r, hr, hi, hsha⟩ := hh
    by_cases hother : other = sessionId
    · subst hother
      exact ⟨_, hrecords hrs, r, List.mem_append_left _ hr, hi, hsha⟩
    · exact ⟨rs, (recorded_congr (h.there other hother)).mpr hrs, r, hr, hi, hsha⟩

/-- An upload is of the chunk that its packet carries. -/
structure Proper (env : Env) (packet : Packet) (put : PutPayload) (object : PutObjectResult) : Prop where
  opened : openPut env packet = .ok (put, object.sha256)
  writable : Writable (recordOf packet put object)

/-- What an upload knows of its session. -/
def Upload.Knows (env : Env) (s : Fs) (u : Upload) : Prop :=
  match u.stage with
  | .arrived => True
  | .stored put object => Proper env u.packet put object
  | .read put object existing => Proper env u.packet put object ∧
      ∀ found ∈ existing.find? (·.1 == u.packet.chunkIndex),
        Has s put.sessionId u.packet.chunkIndex found.2
  | .acked put object => Proper env u.packet put object ∧
      Has s put.sessionId u.packet.chunkIndex object.sha256

structure Racing.Ordered (env : Env) (c : Racing) : Prop where
  clean : Clean c.state
  knows : ∀ u ∈ c.uploads, u.Knows env c.state

/-- What an upload knows stays true while nothing is lost. -/
theorem Upload.Knows.mono (h : u.Knows env s) (hg : Grows s t) : u.Knows env t := by
  obtain ⟨packet, stage⟩ := u
  cases stage with
  | arrived => trivial
  | stored put object => exact h
  | read put object existing => exact ⟨h.1, fun found hf => hg.has _ _ _ (h.2 found hf)⟩
  | acked put object => exact ⟨h.1, hg.has _ _ _ h.2⟩

/-- One upload moves, and the others still know what they knew. -/
theorem Racing.Ordered.move {before after : List Upload} {u u' : Upload}
    (h : Ordered env ⟨before ++ u :: after, s⟩) (hg : Grows s t) (hu : u'.Knows env t) :
    Ordered env ⟨before ++ u' :: after, t⟩ where
  clean := hg.clean
  knows x hx := by
    rcases List.mem_append.mp hx with hx | hx
    · exact (h.knows x (List.mem_append_left _ hx)).mono hg
    · rcases List.mem_cons.mp hx with rfl | hx
      · exact hu
      · exact (h.knows x (List.mem_append_right _ (List.mem_cons_of_mem _ hx))).mono hg

theorem Racing.Ordered.knows_here {before after : List Upload} (h : Ordered env ⟨before ++ u :: after, s⟩) :
    u.Knows env s :=
  h.knows u (List.mem_append_right _ List.mem_cons_self)

theorem proper_of_store {sha : Bytes} (hopen : openPut env packet = .ok (put, sha))
    (hx : (ObjectStore.putCompressed env sha put.compressed put.rawSize).exec s = (.ok object, t)) :
    Proper env packet put object ∧ ∀ sessionId, textOf t sessionId = textOf s sessionId := by
  have hk : Keeps (fun _ _ _ => True) _
      (ObjectStore.putCompressed env sha put.compressed put.rawSize) s :=
    ObjectStore.putCompressed_keeps (fun _ _ _ => trivial) fun _ _ _ _ _ _ => trivial
  obtain ⟨hsha, hput⟩ := Keeps.ok hk hx
  have heq := hput.sha_eq
  subst heq
  obtain ⟨hfile, hpath⟩ := parsePutPayload_ok (openPut_ok hopen).1
  refine ⟨⟨hopen, Hash.isWord_of_isSha256Hex hsha, hfile, hpath, ?_⟩, fun sessionId => ?_⟩
  · rw [recordOf, hput.path_eq]
    exact ObjectStore.textOf_ne_nil hsha
  · refine textOf_congr (hput.frame _ fun he => ?_)
    exact not_inObjects_path sessionId (he ▸ ObjectStore.inObjects_pathOf _)

/-- What is read of a session tells whether it has a chunk. -/
theorem of_received {existing : List (UInt64 × Bytes)}
    (hx : (received sessionId).exec s = (.ok existing, t)) :
    t = s ∧ ∀ found ∈ existing.find? (·.1 == i), Has s sessionId i found.2 := by
  have hk : Keeps (fun _ _ _ => True) _ (received sessionId) s := received_keeps
  obtain ⟨ht, rs, hrs, hlist⟩ := Keeps.ok hk hx
  subst hlist
  rw [find?_received]
  refine ⟨ht, fun found hfound => ?_⟩
  obtain ⟨r, hr, rfl⟩ := Option.map_eq_some_iff.mp hfound
  obtain ⟨hmem, hi⟩ := mem_of_byGlobal hr
  exact ⟨rs, hrs, r, hmem, hi, rfl⟩

/-- An upload that has found its chunk has written nothing, and its hash is the one there. -/
theorem of_afterRead_some {record : ReceivedChunkRecord} {existing : List (UInt64 × Bytes)}
    {found : UInt64 × Bytes} (hf : existing.find? (·.1 == record.globalIndex) = some found)
    (hx : (afterRead env sessionId record existing).exec s = (.ok (), t)) :
    t = s ∧ found.2 = record.sha256 := by
  rw [afterRead, hf] at hx
  dsimp only at hx
  split at hx
  · rw [Prog.exec_throw] at hx
    cases hx
  · rename_i heq
    cases hx
    exact ⟨rfl, not_not.mp heq⟩

/-- One that has not found it has written a line. -/
theorem of_afterRead_none {record : ReceivedChunkRecord} {existing : List (UInt64 × Bytes)}
    (hf : existing.find? (·.1 == record.globalIndex) = none)
    (hx : (afterRead env sessionId record existing).exec s = (.ok (), t)) :
    Adds s t sessionId (.chunk record) := by
  rw [afterRead, hf] at hx
  exact Adds.of_appendLine hx

/-- An upload whose reading is up to date adds at most the one record of its chunk. -/
theorem grows_of_append {existing : List (UInt64 × Bytes)} (hs : Clean s)
    (hk : (Upload.mk packet (.read put object existing)).Knows env s)
    (hg : UpToDate s packet put existing)
    (hx : (afterRead env put.sessionId (recordOf packet put object) existing).exec s = (.ok (), t)) :
    Grows s t ∧ Has t put.sessionId packet.chunkIndex object.sha256 := by
  obtain ⟨hp, hsome⟩ := hk
  cases hf : existing.find? (·.1 == packet.chunkIndex) with
  | some found =>
    obtain ⟨rfl, hsha⟩ := of_afterRead_some hf hx
    have hhas := hsome found hf
    rw [hsha] at hhas
    exact ⟨.of_text hs fun _ => rfl, hhas⟩
  | none =>
    have hadds := of_afterRead_none hf hx
    have hw : ∀ r ∈ (Line.chunk (recordOf packet put object)).record?, Writable r := by
      intro r hr
      cases hr
      exact hp.writable
    have hnew : ∀ r ∈ (Line.chunk (recordOf packet put object)).record?, ∀ rs,
        Recorded s put.sessionId rs → ∀ q ∈ rs, q.globalIndex ≠ r.globalIndex := by
      intro r hr rs hrs
      cases hr
      exact hg hf rs hrs
    refine ⟨hadds.grows hs hw hnew, ?_⟩
    obtain ⟨lines, hl, _⟩ := hs put.sessionId
    refine ⟨_, (hadds.lines hl hw).recorded, recordOf packet put object, ?_, rfl, rfl⟩
    rw [List.filterMap_append]
    exact List.mem_append_right _ (List.mem_singleton.mpr rfl)

/-- The step lemma. -/
theorem Racing.Step.ordered (hs : Step env UpToDate a b) (h : a.Ordered env) : b.Ordered env := by
  cases hs with
  | arrive us s packet =>
    refine ⟨h.clean, fun u hu => ?_⟩
    rcases List.mem_cons.mp hu with rfl | hu
    · trivial
    · exact h.knows u hu
  | store before after hopen hx =>
    obtain ⟨hp, htext⟩ := proper_of_store hopen hx
    exact h.move (.of_text h.clean htext) hp
  | read before after hx =>
    obtain ⟨rfl, hsome⟩ := of_received hx
    exact h.move (.of_text h.clean fun _ => rfl) ⟨h.knows_here, hsome⟩
  | append before after hg hx =>
    obtain ⟨hgrows, hhas⟩ := grows_of_append h.clean h.knows_here hg hx
    exact h.move hgrows ⟨h.knows_here.1, hhas⟩
  | stop before after s u hu =>
    refine ⟨h.clean, fun x hx => h.knows x ?_⟩
    rcases List.mem_append.mp hx with hx | hx
    · exact List.mem_append_left _ hx
    · exact List.mem_append_right _ (List.mem_cons_of_mem _ hx)
  | @mark us s t sessionId v hx =>
    have hadds : Adds s t sessionId (.committed v) := .of_appendLine hx
    have hgrows := hadds.grows h.clean (fun r hr => by cases hr) fun r hr => by cases hr
    exact ⟨hgrows.clean, fun u hu => (h.knows u hu).mono hgrows⟩
  | other us s t ht =>
    have hgrows : Grows s t := .of_text h.clean fun sessionId => textOf_congr (ht sessionId)
    exact ⟨hgrows.clean, fun u hu => (h.knows u hu).mono hgrows⟩

/-- The run lemma. -/
theorem Racing.Run.ordered (h : Run env UpToDate a b) (ha : a.Ordered env) : b.Ordered env := by
  induction h with
  | refl => exact ha
  | tail _ hs ih => exact hs.ordered ih

theorem Racing.Ordered.oneRecord (h : c.Ordered env) : c.OneRecord := by
  intro sessionId rs hrs
  obtain ⟨lines, hl, hn⟩ := h.clean sessionId
  rwa [hrs.unique hl.recorded]

theorem eq_of_shaHexFromArray {a b : Digest}
    (h : PacketCodec.shaHexFromArray a = PacketCodec.shaHexFromArray b) : a = b :=
  Subtype.ext (hexEncode_injective h)

theorem Proper.sha_eq (h : Proper env packet put object) :
    object.sha256 = PacketCodec.shaHexFromArray packet.chunkSha256 :=
  (openPut_ok h.opened).2.1

theorem Has.unique (hn : c.OneRecord) {sha sha' : Bytes} (h : Has c.state sessionId i sha)
    (h' : Has c.state sessionId i sha') : sha = sha' := by
  obtain ⟨rs, hrs, r, hr, hi, rfl⟩ := h
  obtain ⟨rs', hrs', r', hr', hi', rfl⟩ := h'
  cases hrs.unique hrs'
  rw [List.inj_on_of_nodup_map (hn sessionId rs hrs) hr hr' (hi.trans hi'.symm)]

theorem Racing.Ordered.oneHash (h : c.Ordered env) : c.OneHash := by
  intro u hu u' hu' put object put' object' hs hs' hsession hindex
  obtain ⟨packet, stage⟩ := u
  obtain ⟨packet', stage'⟩ := u'
  subst hs hs'
  obtain ⟨hp, hhas⟩ := h.knows _ hu
  obtain ⟨hp', hhas'⟩ := h.knows _ hu'
  dsimp only at hindex hp hp' hhas hhas'
  rw [← hsession, ← hindex] at hhas'
  have hsha := hhas.unique h.oneRecord hhas'
  rw [hp.sha_eq, hp'.sha_eq] at hsha
  exact eq_of_shaHexFromArray hsha

/-- Of an upload that is not up to date, a second record comes. -/
theorem upToDate_of_oneRecord {existing : List (UInt64 × Bytes)} (hs : Clean s)
    (hk : (Upload.mk packet (.read put object existing)).Knows env s)
    (hx : (afterRead env put.sessionId (recordOf packet put object) existing).exec s = (.ok (), t))
    {us : List Upload} (hone : Racing.OneRecord ⟨us, t⟩) : UpToDate s packet put existing := by
  intro hf rs hrs r hr hi
  have hadds := of_afterRead_none hf hx
  obtain ⟨lines, hl, _⟩ := hs put.sessionId
  cases hrs.unique hl.recorded
  have hw : ∀ q ∈ (Line.chunk (recordOf packet put object)).record?, Writable q := by
    intro q hq
    cases hq
    exact hk.1.writable
  have hn := hone put.sessionId _ (hadds.lines hl hw).recorded
  rw [List.filterMap_append, List.map_append] at hn
  exact List.disjoint_of_nodup_append hn (List.mem_map_of_mem hr) (hi ▸ List.mem_singleton.mpr rfl)

/-- Uploads that overlap without harm: while each one that appends a record has read the session
as it still is, no session has an index twice and no chunk is acknowledged with two hashes;
and the first one that has not makes a second record. -/
theorem sessions_hold_one_chunk_per_index (hs : Clean s)
    (h : Racing.Run env UpToDate ⟨[], s⟩ c) :
    (c.OneRecord ∧ c.OneHash) ∧
      ∀ before after t packet put object existing,
        c.uploads = before ++ ⟨packet, .read put object existing⟩ :: after →
        (afterRead env put.sessionId (recordOf packet put object) existing).exec c.state =
          (.ok (), t) →
        (Racing.OneRecord ⟨before ++ ⟨packet, .acked put object⟩ :: after, t⟩ ↔
          UpToDate c.state packet put existing) := by
  have hc : c.Ordered env := h.ordered ⟨hs, fun u hu => absurd hu (List.not_mem_nil)⟩
  refine ⟨⟨hc.oneRecord, hc.oneHash⟩, ?_⟩
  intro before after t packet put object existing hus hx
  have hc' : Racing.Ordered env ⟨before ++ ⟨packet, .read put object existing⟩ :: after, c.state⟩ := by
    rw [← hus]
    exact hc
  refine ⟨upToDate_of_oneRecord hc.clean hc'.knows_here hx, fun hg => ?_⟩
  have hstep := Racing.Step.append before after hg hx
  exact (hstep.ordered hc').oneRecord

/-- Two uploads that read a session before either of them appends. -/
theorem run_overlapping {p q : Packet} {f g : PutPayload} {o w : PutObjectResult} {x y : Bytes}
    {k m r s u v : Fs} {e : List (UInt64 × Bytes)} (hp : openPut env p = .ok (f, x))
    (hq : openPut env q = .ok (g, y))
    (hs : (ObjectStore.putCompressed env x f.compressed f.rawSize).exec k = (.ok o, m))
    (hs' : (ObjectStore.putCompressed env y g.compressed g.rawSize).exec m = (.ok w, r))
    (hr : (received f.sessionId).exec r = (.ok e, s)) (hr' : (received g.sessionId).exec s = (.ok e, s))
    (ha : (afterRead env f.sessionId (recordOf p f o) e).exec s = (.ok (), u))
    (ha' : (afterRead env g.sessionId (recordOf q g w) e).exec u = (.ok (), v)) :
    Racing.Run env Anyhow ⟨[], k⟩ ⟨[⟨q, .acked g w⟩, ⟨p, .acked f o⟩], v⟩ := by
  have hstored : Racing.Run env Anyhow ⟨[], k⟩ ⟨[⟨q, .stored g w⟩, ⟨p, .stored f o⟩], r⟩ :=
    .tail (.tail (.tail (.tail .refl (.arrive [] _ p)) (.arrive _ _ q)) (.store [_] [] hp hs))
      (.store [] [_] hq hs')
  exact .tail (.tail (.tail (.tail hstored (.read [_] [] hr)) (.read [] [_] hr'))
    (.append [_] [] trivial ha)) (.append [] [_] trivial ha')

def letterB : Bytes × Digest :=
  (ascii "b", ⟨(hexDecode
    (ascii "3e23e8160039594a33894f6564e1b1348bbd7a0088d42c4acb73eeaed59c009d")).getD [], by decide⟩)

def bothEnv : Env := rawEnv [letterA, letterB]

/-- A letter as the first chunk of the session. -/
def putOf (letter : Bytes × Digest) : Packet where
  type := .putChunk
  sessionIdHash := PacketCodec.sessionHash (ascii "s")
  chunkIndex := 0
  chunkSha256 := letter.2
  payload := BackupClient.makePutPayload (ascii "s") ⟨0, ascii "a.txt", 1, 0o644,
    PacketCodec.shaHexFromArray letter.2, 0, PacketCodec.shaHexFromArray letter.2, ascii "1",
    rawFrame letter.1⟩

def fieldsOf (letter : Bytes × Digest) : PutPayload :=
  ⟨ascii "s", ascii "a.txt", 1, 0o644, PacketCodec.shaHexFromArray letter.2, 0, 1, 10, rawFrame letter.1⟩

def objectOf (letter : Bytes × Digest) : PutObjectResult :=
  ⟨PacketCodec.shaHexFromArray letter.2, ObjectStore.textOf (PacketCodec.shaHexFromArray letter.2), 1,
    10, true⟩

/-- A letter is stored. -/
def Stores (letter : Bytes × Digest) (s t : Fs) : Prop :=
  (ObjectStore.putCompressed bothEnv (PacketCodec.shaHexFromArray letter.2) (rawFrame letter.1)
    1).exec s = (.ok (objectOf letter), t)

/-- The record of a letter is appended. -/
def Appends (letter : Bytes × Digest) (s t : Fs) : Prop :=
  (afterRead bothEnv (ascii "s") (recordOf (putOf letter) (fieldsOf letter) (objectOf letter)) []).exec
    s = (.ok (), t)

def stored (letter : Bytes × Digest) (s : Fs) : Fs :=
  ((ObjectStore.putCompressed bothEnv (PacketCodec.shaHexFromArray letter.2) (rawFrame letter.1)
    1).exec s).2

def recorded (letter : Bytes × Digest) (s : Fs) : Fs :=
  ((afterRead bothEnv (ascii "s") (recordOf (putOf letter) (fieldsOf letter) (objectOf letter))
    []).exec s).2

theorem stores_of {letter : Bytes × Digest} (h : ((ObjectStore.putCompressed bothEnv
    (PacketCodec.shaHexFromArray letter.2) (rawFrame letter.1) 1).exec s).1 = .ok (objectOf letter)) :
    Stores letter s (stored letter s) :=
  Prog.exec_of_fst h

theorem appends_of {letter : Bytes × Digest} (h : ((afterRead bothEnv (ascii "s")
    (recordOf (putOf letter) (fieldsOf letter) (objectOf letter)) []).exec s).1 = .ok ()) :
    Appends letter s (recorded letter s) :=
  Prog.exec_of_fst h

theorem exec_received_nil (h : ((received (ascii "s")).exec s).1 = .ok []) :
    (received (ascii "s")).exec s = (.ok [], s) := by
  have hx := Prog.exec_of_fst h
  rw [hx, (of_received (i := 0) hx).1]

theorem openPut_letterA : openPut bothEnv (putOf letterA) =
    .ok (fieldsOf letterA, PacketCodec.shaHexFromArray letterA.2) := by
  decide +kernel

theorem openPut_letterB : openPut bothEnv (putOf letterB) =
    .ok (fieldsOf letterB, PacketCodec.shaHexFromArray letterB.2) := by
  decide +kernel

theorem stores_letterA : Stores letterA emptyRepo (stored letterA emptyRepo) :=
  stores_of (by decide +kernel)

theorem clean_emptyRepo : Clean emptyRepo := by
  intro sessionId
  refine ⟨[], ⟨by simp [textOf], fun r hr => absurd hr List.not_mem_nil⟩, List.nodup_nil⟩

theorem upToDate_of_nil {existing : List (UInt64 × Bytes)} (h : textOf s put.sessionId = []) :
    UpToDate s packet put existing := by
  intro _ rs hrs
  rw [Recorded, h] at hrs
  cases hrs
  intro r hr
  contradiction

/-- What the second upload of a letter finds. -/
def objectAgain (letter : Bytes × Digest) : PutObjectResult := { objectOf letter with inserted := false }

/-- An upload and the same one again, which stores its object before the first has its record. -/
theorem run_resent {r k u v : Fs} {existing : List (UInt64 × Bytes)}
    (hstore : Stores letterA emptyRepo r)
    (hagain : (ObjectStore.putCompressed bothEnv (PacketCodec.shaHexFromArray letterA.2)
      (rawFrame letterA.1) 1).exec r = (.ok (objectAgain letterA), k))
    (hread : (received (ascii "s")).exec k = (.ok [], k)) (happend : Appends letterA k u)
    (hread' : (received (ascii "s")).exec u = (.ok existing, u))
    (hfound : existing.find? (·.1 == (0 : UInt64)) ≠ none)
    (happend' : (afterRead bothEnv (ascii "s") (recordOf (putOf letterA) (fieldsOf letterA)
      (objectAgain letterA)) existing).exec u = (.ok (), v)) :
    Racing.Run bothEnv UpToDate ⟨[], emptyRepo⟩
      ⟨[⟨putOf letterA, .acked (fieldsOf letterA) (objectAgain letterA)⟩,
        ⟨putOf letterA, .acked (fieldsOf letterA) (objectOf letterA)⟩], v⟩ := by
  have htext : textOf k (ascii "s") = [] := by
    rw [(proper_of_store openPut_letterA hagain).2, (proper_of_store openPut_letterA hstore).2]
    simp [textOf]
  have hstored : Racing.Run bothEnv UpToDate ⟨[], emptyRepo⟩
      ⟨[⟨putOf letterA, .stored (fieldsOf letterA) (objectAgain letterA)⟩,
        ⟨putOf letterA, .stored (fieldsOf letterA) (objectOf letterA)⟩], k⟩ :=
    .tail (.tail (.tail (.tail .refl (.arrive [] _ _)) (.arrive _ _ _))
      (.store [_] [] openPut_letterA hstore)) (.store [] [_] openPut_letterA hagain)
  have hfirst := (hstored.tail (.read [_] [] hread)).tail
    (.append [_] [] (upToDate_of_nil htext) happend)
  exact (hfirst.tail (.read [] [_] hread')).tail
    (.append [] [_] (fun hnone => absurd hnone hfound) happend')

theorem resent_letter_is_held_once :
    ∃ c, Racing.Run bothEnv UpToDate ⟨[], emptyRepo⟩ c ∧
      (c.uploads.map fun u => u.stage) = [.acked (fieldsOf letterA) (objectAgain letterA),
        .acked (fieldsOf letterA) (objectOf letterA)] ∧ c.OneRecord ∧ c.OneHash := by
  have hagain := Prog.exec_of_fst (p := ObjectStore.putCompressed bothEnv
    (PacketCodec.shaHexFromArray letterA.2) (rawFrame letterA.1) 1) (s := stored letterA emptyRepo)
    (x := .ok (objectAgain letterA)) (by decide +kernel)
  obtain ⟨k, hk⟩ : ∃ k, k = ((ObjectStore.putCompressed bothEnv (PacketCodec.shaHexFromArray letterA.2)
    (rawFrame letterA.1) 1).exec (stored letterA emptyRepo)).2 := ⟨_, rfl⟩
  rw [← hk] at hagain
  have hread : (received (ascii "s")).exec k = (.ok [], k) := by
    rw [hk]
    exact exec_received_nil (by decide +kernel)
  have happend : Appends letterA k (recorded letterA k) := by
    rw [hk]
    exact appends_of (by decide +kernel)
  have hread' : ((received (ascii "s")).exec (recorded letterA k)).1 =
      .ok [(0, PacketCodec.shaHexFromArray letterA.2)] := by
    rw [hk]
    decide +kernel
  have hsame : (received (ascii "s")).exec (recorded letterA k) =
      (.ok [(0, PacketCodec.shaHexFromArray letterA.2)], recorded letterA k) := by
    have hx := Prog.exec_of_fst hread'
    rw [hx, (of_received (i := 0) hx).1]
  have happend' := Prog.exec_of_fst (p := afterRead bothEnv (ascii "s")
    (recordOf (putOf letterA) (fieldsOf letterA) (objectAgain letterA))
    [(0, PacketCodec.shaHexFromArray letterA.2)]) (s := recorded letterA k) (x := .ok ()) (by
      rw [hk]
      decide +kernel)
  have hrun := run_resent stores_letterA hagain hread happend hsame (by simp) happend'
  exact ⟨_, hrun, rfl, (sessions_hold_one_chunk_per_index clean_emptyRepo hrun).1⟩

/-- The repository with both letters stored. -/
def bothStored : Fs := stored letterB (stored letterA emptyRepo)

theorem stores_letterB : Stores letterB (stored letterA emptyRepo) bothStored :=
  stores_of (by decide +kernel)

theorem appends_letterA : Appends letterA bothStored (recorded letterA bothStored) :=
  appends_of (by decide +kernel)

theorem appends_letterB :
    Appends letterB (recorded letterA bothStored) (recorded letterB (recorded letterA bothStored)) :=
  appends_of (by decide +kernel)

theorem lines_of_appends {letter : Bytes × Digest} {lines : List Line} (h : Appends letter s t)
    (hl : Lines s (ascii "s") lines)
    (hsha : Hash.isSha256Hex (PacketCodec.shaHexFromArray letter.2) = true) :
    Lines t (ascii "s")
      (lines ++ [.chunk (recordOf (putOf letter) (fieldsOf letter) (objectOf letter))]) := by
  refine (of_afterRead_none rfl h).lines hl fun r hr => ?_
  cases hr
  exact ⟨Hash.isWord_of_isSha256Hex hsha, Hash.isWord_of_isSha256Hex hsha,
    show ascii "a.txt" ≠ [] by decide, ObjectStore.textOf_ne_nil hsha⟩

theorem not_oneRecord {r u v : Fs} {us : List Upload} (hA : Stores letterA emptyRepo r)
    (hB : Stores letterB r s) (hA' : Appends letterA s u) (hB' : Appends letterB u v) :
    ¬Racing.OneRecord ⟨us, v⟩ := by
  have hempty : Lines s (ascii "s") [] := by
    refine ⟨?_, fun r hr => absurd hr List.not_mem_nil⟩
    rw [(proper_of_store openPut_letterB hB).2, (proper_of_store openPut_letterA hA).2]
    simp [textOf]
  have hlines := lines_of_appends hB' (lines_of_appends hA' hempty (by decide)) (by decide)
  intro h
  have hn := h (ascii "s") _ hlines.recorded
  exact absurd (List.mem_singleton_self (0 : UInt64)) (List.nodup_cons.mp hn).1

/-- Two packets with different hashes for one chunk of a session, both acknowledged. -/
theorem two_chunks_with_one_index :
    ∃ c, Racing.Run bothEnv Anyhow ⟨[], emptyRepo⟩ c ∧ ¬c.OneRecord ∧ ¬c.OneHash := by
  have hread : (received (ascii "s")).exec bothStored = (.ok [], bothStored) :=
    exec_received_nil (by decide +kernel)
  have hrun := run_overlapping openPut_letterA openPut_letterB stores_letterA stores_letterB hread
    hread appends_letterA appends_letterB
  refine ⟨_, hrun, not_oneRecord stores_letterA stores_letterB appends_letterA appends_letterB,
    fun h => ?_⟩
  have hne : letterB.2 ≠ letterA.2 := by decide
  exact hne (h _ (.head _) _ (.tail _ (.head _)) _ _ _ _ rfl rfl rfl rfl)

end Dpc
