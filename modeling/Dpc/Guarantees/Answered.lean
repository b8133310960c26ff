import Dpc.Guarantees.Truthful
import Dpc.Guarantees.Uploaded

/-! What the server answers is so and stays so, whoever else works on the repository, and what an
upload has relied on at its end. -/

namespace Dpc
open Text FileTree Effects ManifestStore ObjectStore BackupServer BackupClient TransferSession

variable {env : Env} {s t : Fs} {now : UInt64} {packet : Packet} {reply sessionId : Bytes}
  {chunk : PreparedChunk} {chunks : List PreparedChunk} {exitAfter sent : UInt64}
  {received : List (UInt64 × Bytes)} {a b : Pool Fs FsEffect Exn}

theorem BackupServer.Answered.moves (h : Answered env packet reply s) (hm : Moves s t) :
    Answered env packet reply t := by
  obtain ⟨answer, hdecode, hsaid⟩ := h
  refine ⟨answer, hdecode, ?_⟩
  split at hsaid
  · obtain ⟨put, sha, hopen, hheard⟩ := hsaid
    exact ⟨put, sha, hopen, hheard.moves hm⟩
  · obtain ⟨v, hpayload, hpublished⟩ := hsaid
    exact ⟨v, hpayload, hpublished.moves hm⟩
  · obtain ⟨sessionId, received, hqueries, hstatus, hheard⟩ := hsaid
    exact ⟨sessionId, received, hqueries, hstatus, fun e he => (hheard e he).moves hm⟩
  · trivial
  · trivial
  · exact hsaid

/-- Nobody works, or whoever does moves the repository. -/
theorem Pool.Reaches.moving (h : Pool.Reaches (Works env) ⟨[], s⟩ a) :
    Moves s a.state ∧ a.AllSafe Moves fun _ s t => Moves s t :=
  h.rely (fun _ _ hp => hp.learns) Moves.refl Moves.trans (fun _ _ _ _ hg => hg)
    fun _ hp => absurd hp List.not_mem_nil

/-- What the server answers to a packet that it handles beside any other work is so from then on:
an acknowledged chunk is in the record of its session with its object in place, an acknowledged
version has its manifest and its marker, and what a status says was received is on record. -/
theorem answers_are_so (hs : SessionsBacked s) (ha : Pool.Reaches (Works env) ⟨[], s⟩ a)
    (hr : Watched.Reaches (Works env) ⟨handlePacket env now packet, a⟩ ⟨.pure reply, b⟩) :
    Answered env packet reply b.state := by
  obtain ⟨hmoves, hsafe⟩ := Pool.Reaches.moving ha
  have hanswer : Learns Moves _ (.pure reply) b.state :=
    hr.learns Moves.refl Moves.trans (fun _ _ _ hq hm hs => (hq hs).moves hm)
      (fun _ _ hp => hp.learns) hsafe learns_handlePacket
  exact hanswer (hs.moves hmoves)

theorem sessionsBacked_emptyRepo : SessionsBacked emptyRepo :=
  (sound_empty : Sound letterEnv [] emptyRepo).sessions

/-- The repository after the backup that was running when the packet came. -/
def letterMeanwhile : Fs := (letterAgain.exec emptyRepo).2

theorem letterAgain_runs : Pool.Reaches (Works letterEnv) ⟨[], emptyRepo⟩ ⟨[letterAgain], emptyRepo⟩ :=
  .single (.start [] emptyRepo letterAgain (.inl ⟨_, rfl⟩))

/-- Beside the backup, which ends first. -/
theorem reaches_beside {α : Type} {p : Op α} {x : α} (h : p.exec letterMeanwhile = (.ok x, t)) :
    Watched.Reaches (Works letterEnv) ⟨p, ⟨[letterAgain], emptyRepo⟩⟩ ⟨.pure x, ⟨[], t⟩⟩ :=
  (Watched.reaches_pool (Pool.reaches_exec letterAgain emptyRepo [])).trans (Watched.reaches_exec h)

/-- A chunk is taken after a backup that has begun before. -/
theorem letter_answer_is_so : ∃ reply b,
    Watched.Reaches (Works letterEnv) ⟨handlePacket letterEnv 1700000000 (letterPut (ascii "f")),
      ⟨[letterAgain], emptyRepo⟩⟩ ⟨.pure reply, b⟩ ∧
      Answered letterEnv (letterPut (ascii "f")) reply b.state := by
  have hx : ((handlePacket letterEnv 1700000000 (letterPut (ascii "f"))).exec
      letterMeanwhile).1.toOption.isSome := by decide +kernel
  cases hreply : (handlePacket letterEnv 1700000000 (letterPut (ascii "f"))).exec letterMeanwhile with
  | mk result t =>
    cases result with
    | error e =>
      rw [hreply] at hx
      cases hx
    | ok reply =>
      have hr := reaches_beside hreply
      exact ⟨reply, _, hr, answers_are_so sessionsBacked_emptyRepo letterAgain_runs hr⟩

namespace BackupClient

theorem learns_exchange :
    Learns Moves (fun ack t => SessionsBacked s → ∃ reply, PacketCodec.decode reply = .ok ack ∧
      Answered env packet reply t) (exchange env now packet) s := by
  simp only [exchange, Prog.bind_eq]
  refine Learns.bind_ofExcept fun frame hframe => ?_
  rw [handleConnection_frame hframe]
  have hdecoded : ∀ p : Op Bytes,
      Learns Moves (fun reply t => SessionsBacked s → Answered env packet reply t) p s →
        Learns Moves (fun ack t => SessionsBacked s → ∃ reply, PacketCodec.decode reply = .ok ack ∧
          Answered env packet reply t) (p.bind fun reply => .ofExcept (PacketCodec.decode reply)) s := by
    intro p hp
    refine hp.bind fun reply a ha => ?_
    exact Safe.ofExcept (fun ack hack hs => ⟨reply, hack, ha hs⟩) fun _ _ => trivial
  refine hdecoded _ (Learns.bind learns_handlePacket.attempt fun x a hx => ?_)
  split
  · exact hx _ rfl
  · split
    · rename_i hsent
      exact fun _ => ⟨_, decode_sendText hsent, trivial⟩
    · trivial
  · trivial

/-- A chunk that was sent is on record. -/
theorem learns_sendChunk (hsession : sessionId ≠ []) (hc : Sendable env chunk) :
    Learns Moves (fun _ t => SessionsBacked s → Heard t sessionId chunk.globalIndex chunk.chunkSha256)
      (sendChunk env now sessionId chunk) s := by
  simp only [sendChunk, Prog.bind_eq]
  refine Learns.bind_ofExcept fun digest hd => learns_exchange.bind fun ack a hack => ?_
  refine Learns.bind_ofExcept fun _ _ => ?_
  split
  · trivial
  · rename_i htype
    intro hs
    obtain ⟨reply, hdecode, answer, hanswer, hsaid⟩ := hack hs
    cases hdecode.symm.trans hanswer
    rw [not_not.mp htype] at hsaid
    obtain ⟨put, sha, hopen, hheard⟩ := hsaid
    obtain ⟨hopened, rfl⟩ := openPut_putPacket hsession hc hd hopen
    rwa [hopened.session] at hheard

theorem mem_of_lookup {i : UInt64} {sha : Bytes} (h : lookup received i = some sha) :
    (i, sha) ∈ received := by
  obtain ⟨e, he, rfl⟩ := Option.map_eq_some_iff.mp h
  have hi := List.find?_some he
  rw [beq_iff_eq] at hi
  rw [← hi]
  exact List.mem_reverse.mp (List.mem_of_find?_eq_some he)

/-- The loop over chunks: those that are passed over were on record, the others are put there. -/
theorem learns_sendChunks (hsession : sessionId ≠ []) (hc : ∀ c ∈ chunks, Sendable env c) :
    Learns Moves (fun done t => done = true → SessionsBacked s →
      (∀ e ∈ received, Heard s sessionId e.1 e.2) →
        ∀ c ∈ chunks, Heard t sessionId c.globalIndex c.chunkSha256)
      (sendChunks env now sessionId exitAfter received sent chunks) s := by
  induction chunks generalizing sent s with
  | nil => exact fun _ _ _ c hc => absurd hc List.not_mem_nil
  | cons chunk chunks ih =>
    have hrest : ∀ c ∈ chunks, Sendable env c := fun c h => hc c (List.mem_cons_of_mem _ h)
    rw [sendChunks]
    split
    · rename_i hlookup
      refine Safe.post ((ih hrest).keep (F := Moves s) (fun _ _ hm h => h.trans hm) (.refl s)) ?_
      intro done t ht hdone hs hknown
      refine List.forall_mem_cons.mpr ⟨?_, ht.1 hdone hs hknown⟩
      exact (hknown _ (mem_of_lookup hlookup)).moves ht.2
    · simp only [Prog.bind_eq]
      refine Learns.bind ((learns_sendChunk hsession (hc chunk List.mem_cons_self)).keep (F := Moves s)
        (fun _ _ hm h => h.trans hm) (.refl s)) fun _ a ha => ?_
      split
      · exact fun hdone => by cases hdone
      · refine Safe.post ((ih hrest).keep (F := Moves a) (fun _ _ hm h => h.trans hm) (.refl a)) ?_
        intro done t ht hdone hs hknown
        refine List.forall_mem_cons.mpr ⟨(ha.1 hs).moves ht.2, ht.1 hdone (hs.moves ha.2) ?_⟩
        exact fun e he => (hknown e he).moves ha.2

theorem learns_commit {total : UInt64} :
    Learns Moves (fun text t => SessionsBacked s → ∃ v, text = commitText v ∧ OnDisk t v)
      (commit env now sessionId total) s := by
  simp only [commit, Prog.bind_eq]
  refine learns_exchange.bind fun ack a hack => Learns.bind_ofExcept fun _ _ => ?_
  split
  · trivial
  · rename_i htype
    intro hs
    obtain ⟨reply, hdecode, answer, hanswer, hsaid⟩ := hack hs
    cases hdecode.symm.trans hanswer
    rw [not_not.mp htype] at hsaid
    exact hsaid

/-- An upload that ends with a version has all its chunks on record. -/
def Ended (chunks : List PreparedChunk) (sessionId : Bytes) (printed : Option Bytes) (t : Fs) :
    Prop :=
  ∀ text, printed = some text →
    (∀ c ∈ chunks, Heard t sessionId c.globalIndex c.chunkSha256) ∧
      ∃ v, text = commitText v ∧ OnDisk t v

theorem Ended.moves {printed : Option Bytes} (h : Ended chunks sessionId printed s)
    (hm : Moves s t) : Ended chunks sessionId printed t := by
  intro text he
  obtain ⟨hheard, v, hv, hpublished⟩ := h text he
  exact ⟨fun c hc => (hheard c hc).moves hm, v, hv, hpublished.moves hm⟩

theorem queries_queryPacket {session : Bytes} (hsession : sessionId ≠ [])
    (h : Queries (queryPacket sessionId) session) : session = sessionId := by
  have hfields : parseTextFields (queryPacket sessionId).payload "DPC_QUERY_SESSION_V1" =
      .ok [(ascii "session_hex", hexEncodeString sessionId)] := by
    refine parseTextFields_textFields (.of_test (by decide)) fun f hf => ?_
    rw [List.mem_singleton.mp hf]
    exact ⟨isWord_session_hex, isWord_hexEncode hsession⟩
  have hfield : field [(ascii "session_hex", hexEncodeString sessionId)] "session_hex" =
      .ok (hexEncodeString sessionId) := field_of_mem (by simp) (List.mem_singleton_self _)
  obtain ⟨fields, value, h, hvalue, hdecoded⟩ := h
  cases hfields.symm.trans h
  cases hfield.symm.trans hvalue
  rw [hexDecodeString_hexEncodeString] at hdecoded
  exact (Except.ok.inj hdecoded).symm

/-- What a status is taken to say was received is on record. -/
theorem heard_of_status {status : Packet} (hsession : sessionId ≠ [])
    (hdecode : PacketCodec.decode reply = .ok status)
    (hsaid : Answered env (queryPacket sessionId) reply t)
    (hstatus : parseStatus status = .ok received) :
    ∀ e ∈ received, Heard t sessionId e.1 e.2 := by
  obtain ⟨answer, hanswer, hsaid⟩ := hsaid
  cases hdecode.symm.trans hanswer
  have htype : status.type = .sessionStatus := by
    obtain ⟨_, _, hrest⟩ := bind_ok hstatus
    by_contra hne
    rw [if_pos hne] at hrest
    cases hrest
  rw [htype] at hsaid
  obtain ⟨session, heard, hqueries, hheard, hall⟩ := hsaid
  cases queries_queryPacket hsession hqueries
  cases hheard.symm.trans hstatus
  exact hall

/-- The greeting and the query, with any packets in their places. -/
theorem learns_asked {β : Type} {hello query : Packet} {f : List (UInt64 × Bytes) → Op β}
    {Q : β → Fs → Prop}
    (hf : ∀ received b, Moves s b → (SessionsBacked s → ∃ reply status,
      PacketCodec.decode reply = .ok status ∧ Answered env query reply b ∧
        parseStatus status = .ok received) → Learns Moves Q (f received) b) :
    Learns Moves Q ((exchange env now hello).bind fun ack =>
      (Prog.ofExcept (requireNotError ack)).bind fun _ => (exchange env now query).bind fun status =>
        (Prog.ofExcept (parseStatus status)).bind f) s := by
  have hstays : ∀ a b, Moves a b → Moves s a → Moves s b := fun _ _ hm h => h.trans hm
  refine Learns.bind (Learns.keep hstays learns_exchange (.refl s)) fun _ a ha => ?_
  refine Learns.bind_ofExcept fun _ _ => ?_
  refine Learns.bind (Learns.keep hstays learns_exchange ha.2) fun status b hb => ?_
  refine Learns.bind_ofExcept fun received hreceived => hf received b hb.2 fun hs => ?_
  obtain ⟨reply, hdecode, hsaid⟩ := hb.1 (hs.moves ha.2)
  exact ⟨reply, status, hdecode, hsaid, hreceived⟩

theorem learns_upload {source : Source} (hsession : sessionId ≠ [])
    (hprepared : prepareChunks env source = .ok chunks) :
    Learns Moves (fun printed t => SessionsBacked s → Ended chunks sessionId printed t)
      (upload env now source sessionId exitAfter) s := by
  obtain ⟨_, hsendable⟩ := sendable_of_prepared hprepared
  have hstays : ∀ a b, Moves a b → Moves s a → Moves s b := fun _ _ hm h => h.trans hm
  unfold upload
  simp only [Prog.bind_eq]
  -- the packets are named, or else they are evaluated
  obtain ⟨hello, hhello⟩ : ∃ p : Packet, p = ⟨.hello, PacketCodec.sessionHash sessionId, 0,
    zeroDigest, ascii "DPC_CLIENT_V1" ++ [newline]⟩ := ⟨_, rfl⟩
  obtain ⟨query, hquery⟩ : ∃ p, p = queryPacket sessionId := ⟨_, rfl⟩
  have hquery' := hquery
  rw [queryPacket] at hquery'
  rw [← hhello, ← hquery']
  refine Learns.bind_ofExcept fun prepared he => ?_
  cases hprepared.symm.trans he
  refine learns_asked fun received b hb hstatus => ?_
  have hknown : SessionsBacked s → ∀ e ∈ received, Heard b sessionId e.1 e.2 := by
    intro hs
    obtain ⟨reply, status, hdecode, hsaid, hreceived⟩ := hstatus hs
    rw [hquery] at hsaid
    exact heard_of_status hsession hdecode hsaid hreceived
  refine Learns.bind (Learns.keep hstays (learns_sendChunks hsession hsendable) hb)
    fun done c hdone => ?_
  split
  · rename_i htrue
    refine Learns.bind (Learns.keep (F := fun t => Moves c t) (fun _ _ hm h => h.trans hm)
      learns_commit (.refl c)) fun text d hd => ?_
    intro hs text' he
    cases he
    refine ⟨fun chunk hc => ?_, hd.1 (hs.moves hdone.2)⟩
    exact (hdone.1 htrue (hs.moves hb) (hknown hs) chunk hc).moves hd.2
  · exact fun _ _ h => by cases h

end BackupClient

/-- Whoever else works on the repository, uploads under the same session and compactions among
them: when an upload prints a version, its session has a record of each of its chunks with the
object in place, and the version has its manifest and its marker. -/
theorem ended_uploads_are_on_record {source : Source} {text : Bytes} (hs : SessionsBacked s)
    (hsession : sessionId ≠ []) (hprepared : prepareChunks env source = .ok chunks)
    (ha : Pool.Reaches (Works env) ⟨[], s⟩ a)
    (hr : Watched.Reaches (Works env) ⟨upload env now source sessionId exitAfter, a⟩
      ⟨.pure (some text), b⟩) :
    (∀ c ∈ chunks, Heard b.state sessionId c.globalIndex c.chunkSha256) ∧
      ∃ v, text = commitText v ∧ OnDisk b.state v := by
  obtain ⟨hmoves, hsafe⟩ := Pool.Reaches.moving ha
  have hended : Learns Moves _ (.pure (some text)) b.state :=
    hr.learns Moves.refl Moves.trans (fun _ _ _ hq hm hs => (hq hs).moves hm)
      (fun _ _ hp => hp.learns) hsafe (learns_upload hsession hprepared)
  exact hended (hs.moves hmoves) text rfl

/-- The backup that runs meanwhile takes the first version, the upload the second. -/
theorem plain_upload_is_on_record : ∃ b,
    Watched.Reaches (Works letterEnv) ⟨upload letterEnv 1700000001 plainSource (ascii "s") 0,
      ⟨[letterAgain], emptyRepo⟩⟩ ⟨.pure (some (commitText 2)), b⟩ ∧
    ∀ c ∈ plainChunks, Heard b.state (ascii "s") c.globalIndex c.chunkSha256 := by
  have hx : ((upload letterEnv 1700000001 plainSource (ascii "s") 0).exec letterMeanwhile).1 =
      .ok (some (commitText 2)) := by decide +kernel
  have hr := reaches_beside (Prog.exec_of_fst hx)
  exact ⟨_, hr, (ended_uploads_are_on_record sessionsBacked_emptyRepo (by decide) prepared_plain
    letterAgain_runs hr).1⟩

end Dpc
