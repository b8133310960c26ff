import Dpc.Guarantees.Uploaded
import Dpc.Network.Wire

/-! What an upload does over a socket is what it does call by call. -/

namespace Dpc
open Text FileTree Effects Dialog PacketCodec BackupClient

variable {env : Env} {now : UInt64} {packet : Packet} {frame : Bytes}

namespace BackupServer

/-- An answer that is no error. -/
def Plain : Except Exn Bytes → Prop
  | .ok reply => ∃ p : Packet, encode p = .ok reply ∧ p.type ≠ .error
  | .error _ => True

/-- How a turn ends: the server goes on after all answers but errors. -/
def Turned : Except Exn (Bytes × Bool) → Prop
  | .ok (reply, keeps) => ∃ p : Packet, encode p = .ok reply ∧ (p.type = .error ↔ keeps = false)
  | .error e => e = dpcError "socket closed" ∨ ∀ message, e ≠ .dpc message

theorem plain_sendText {type : PacketType} {hash : UInt64} {text : Bytes} (h : type ≠ .error) :
    Plain (sendText type hash text) := by
  cases hx : sendText type hash text with
  | ok reply => exact ⟨_, hx, h⟩
  | error e => trivial

theorem closes_handlePacket : (handlePacket env now packet).Closes Plain := by
  have hlast : ∀ {α : Type} {p : Op α} {f : α → Op Bytes}, (∀ a, (f a).Closes Plain) →
      (p.bind f).Closes Plain := fun hf => .bind_last (fun _ => trivial) hf
  cases htype : packet.type with
  | hello =>
    simp only [handlePacket, htype]
    exact Prog.closes_ofExcept (plain_sendText (by decide))
  | querySession =>
    simp only [handlePacket, htype, querySession, Prog.bind_eq]
    refine hlast fun _ => hlast fun _ => hlast fun _ => hlast fun _ => ?_
    exact Prog.closes_ofExcept (plain_sendText (by decide))
  | putChunk =>
    simp only [handlePacket, htype, putChunk, Prog.bind_eq]
    refine hlast fun _ => hlast fun _ => hlast fun _ => ?_
    exact Prog.closes_ofExcept (plain_sendText (by decide))
  | commitSession =>
    simp only [handlePacket, htype, commitSession, Prog.bind_eq]
    refine hlast fun _ => hlast fun _ => hlast fun _ => ?_
    exact Prog.closes_ofExcept (plain_sendText (by decide))
  | _ =>
    simp only [handlePacket, htype]
    trivial

theorem closes_turn : (turn env now frame).Closes Turned := by
  have hinner : (do let packet ← .ofExcept (opened frame); handlePacket env now packet :
      Op Bytes).Closes Plain :=
    .bind_last (fun _ => trivial) fun _ => closes_handlePacket
  simp only [turn, Prog.bind_eq]
  refine hinner.attempt_bind fun x hx => ?_
  cases x with
  | ok reply =>
    obtain ⟨p, hp, htype⟩ := hx
    exact ⟨p, hp, by simp [htype]⟩
  | error e =>
    cases e with
    | dpc message =>
      dsimp only
      cases hsend : sendText .error 0 (message ++ [newline]) with
      | ok reply => exact ⟨_, hsend, by simp⟩
      | error e => exact .inl rfl
    | _ => exact .inr fun message h => by cases h

/-- All that the server sends is framed. -/
theorem answers_turn (request : Bytes) (s : Fs) : Answers need (turn env now request) s := by
  intro reply keeps t ht
  have hturned : (turn env now request).Closes Turned := closes_turn
  have h := hturned.exec s
  rw [ht] at h
  obtain ⟨p, hp, _⟩ := h
  exact framed_encode hp

/-- The call of one turn. -/
theorem handleConnection_eq (h : encode packet = .ok frame) :
    handleConnection env now frame = (turn env now frame).bind fun r => .pure r.1 := by
  simp only [handleConnection, turn, Prog.bind_eq, Prog.bind_assoc', opened_encode h,
    decode_encode h]
  congr 1
  funext reply
  cases reply with
  | ok reply => rfl
  | error e =>
    cases e with
    | dpc message =>
      dsimp only
      cases sendText .error 0 (message ++ [newline]) with
      | ok reply => rfl
      | error e => rfl
    | _ => rfl

end BackupServer

/-- How the client ends tells how the calls end: where the server's process has ended with another
exception, the client sees the connection closed. -/
def Told {α : Type} (x y : Except Exn α) : Prop :=
  x = y ∨ (∃ e, x = .error e ∧ ∀ message, e ≠ .dpc message) ∧ y = .error (dpcError "socket closed")

/-- A client does what a program does, call by call. -/
abbrev Follows (env : Env) (now : UInt64) (p : Op (Option Bytes)) (c : Caller) : Prop :=
  Prog.Mirrors Told p (c.calls (BackupServer.turn env now))

namespace Follows

theorem check {α : Type} {x : Except Exn α} {f : α → Op (Option Bytes)} {k : α → Caller}
    (h : ∀ a, x = .ok a → Follows env now (f a) (k a)) :
    Follows env now ((Prog.ofExcept x).bind f) (check x k) := by
  cases x with
  | ok a => exact h a rfl
  | error e => exact .throw (.inl rfl)

/-- An exchange is followed where an error that comes back is the end of it. -/
theorem ask {f : Packet → Op (Option Bytes)} {k : Packet → Caller}
    (h : ∀ p, Follows env now (f p) (k p))
    (herror : ∀ p, p.type = .error → ∃ e, f p = .throw e ∧ k p = .done (.error e)) :
    Follows env now ((exchange env now packet).bind f) (ask packet k) := by
  simp only [exchange, Prog.bind_eq, Prog.bind_assoc']
  refine check fun frame hframe => ?_
  rw [BackupServer.handleConnection_eq hframe, Prog.bind_assoc', Follows, calls_ask]
  refine .attempt BackupServer.closes_turn (fun turned hturned => ?_) fun e he => ?_
  · obtain ⟨reply, keeps⟩ := turned
    obtain ⟨p, hp, htype⟩ := hturned
    have hf : (Prog.ofExcept (decode reply) : Op Packet).bind f = f p := by
      rw [decode_encode hp]
      rfl
    have hk : BackupClient.check (opened reply) k = k p := by
      rw [opened_encode hp]
      rfl
    simp only [Prog.pure_bind', hf]
    cases keeps with
    | true =>
      simp only [answered, hk]
      exact h p
    | false =>
      obtain ⟨e, hthrow, hdone⟩ := herror p (htype.mpr rfl)
      simp only [answered, hk, hthrow, hdone]
      exact .throw (.inl rfl)
  · rcases he with rfl | hother
    · exact .throw (.inl rfl)
    · exact .throw (.inr ⟨⟨e, rfl, hother⟩, rfl⟩)

end Follows

/-- An error packet is what `requireNotError` throws. -/
theorem requireNotError_error {p : Packet} (h : p.type = .error) :
    requireNotError p = .error (dpcErrorWith "server error: " p.payload) := by
  rw [requireNotError, if_pos h]

theorem follows_callChunks {sessionId : Bytes} {exitAfter sent : UInt64}
    {received : List (UInt64 × Bytes)} {f : Bool → Op (Option Bytes)} {k : Bool → Caller}
    {chunks : List PreparedChunk} (h : ∀ b, Follows env now (f b) (k b)) :
    Follows env now ((sendChunks env now sessionId exitAfter received sent chunks).bind f)
      (callChunks sessionId exitAfter received k sent chunks) := by
  induction chunks generalizing sent with
  | nil => exact h true
  | cons chunk chunks ih =>
    rw [sendChunks, callChunks]
    split
    · exact ih
    · simp only [sendChunk, chunkPacket, Prog.bind_eq, Prog.bind_assoc']
      cases shaArrayFromHex chunk.chunkSha256 with
      | error e => exact .throw (.inl rfl)
      | ok sha =>
        refine .ask (fun ack => .check fun _ _ => ?_) fun ack hack => ?_
        · by_cases htype : ack.type ≠ .putChunkAck
          · rw [if_pos htype, if_pos htype]
            exact .throw (.inl rfl)
          · rw [if_neg htype, if_neg htype]
            simp only [Prog.pure_eq, Prog.pure_bind']
            split
            · exact h false
            · exact ih
        · rw [requireNotError_error hack]
          exact ⟨_, rfl, rfl⟩

theorem follows_callCommit {sessionId : Bytes} {total : UInt64} :
    Follows env now ((commit env now sessionId total).bind fun ack => .pure (some ack))
      (callCommit sessionId total) := by
  simp only [commit, callCommit, Prog.bind_eq, Prog.bind_assoc']
  refine .ask (fun ack => .check fun _ _ => ?_) fun ack hack => ?_
  · split
    · exact .throw (.inl rfl)
    · exact .pure (.inl rfl)
  · rw [requireNotError_error hack]
    exact ⟨_, rfl, rfl⟩

theorem follows_callUpload {source : Source} {sessionId : Bytes} {exitAfter : UInt64}
    {chunks : List PreparedChunk} (h : TransferSession.prepareChunks env source = .ok chunks) :
    Follows env now (upload env now source sessionId exitAfter)
      (callUpload sessionId exitAfter chunks) := by
  simp only [upload, callUpload, h, Prog.ofExcept, Prog.bind_eq, Prog.pure_bind']
  refine .ask (fun hello => .check fun _ _ => ?_) fun hello hhello => ?_
  · refine .ask (fun status => .check fun received _ => ?_) fun status hstatus => ?_
    · refine follows_callChunks fun all => ?_
      cases all with
      | true => exact follows_callCommit
      | false => exact .pure (.inl rfl)
    · rw [parseStatus, requireNotError_error hstatus]
      exact ⟨_, rfl, rfl⟩
  · rw [requireNotError_error hhello]
    exact ⟨_, rfl, rfl⟩

theorem sends_check {α : Type} {x : Except Exn α} {k : α → Caller} (h : ∀ a, (k a).Sends need) :
    (check x k).Sends need := by
  cases x with
  | ok a => exact h a
  | error e => trivial

theorem sends_ask {k : Packet → Caller} (h : ∀ p, (k p).Sends need) :
    (ask packet k).Sends need := by
  cases hframe : encode packet with
  | error e =>
    rw [ask, hframe]
    trivial
  | ok frame =>
    rw [ask, hframe]
    exact ⟨framed_encode hframe, fun reply => sends_check h⟩

theorem sends_callChunks {sessionId : Bytes} {exitAfter sent : UInt64}
    {received : List (UInt64 × Bytes)} {k : Bool → Caller} {chunks : List PreparedChunk}
    (h : ∀ b, (k b).Sends need) :
    (callChunks sessionId exitAfter received k sent chunks).Sends need := by
  induction chunks generalizing sent with
  | nil => exact h true
  | cons chunk chunks ih =>
    rw [callChunks]
    split
    · exact ih
    · refine sends_check fun put => sends_ask fun ack => sends_check fun _ => ?_
      split
      · trivial
      · split
        · exact h false
        · exact ih

theorem sends_callUpload {sessionId : Bytes} {exitAfter : UInt64} {chunks : List PreparedChunk} :
    (callUpload sessionId exitAfter chunks).Sends need := by
  refine sends_ask fun hello => sends_check fun _ => sends_ask fun status =>
    sends_check fun received => sends_callChunks fun all => ?_
  cases all with
  | true =>
    refine sends_ask fun ack => sends_check fun _ => ?_
    split
    · trivial
    · trivial
  | false => trivial

variable {s : Fs} {source : Source} {sessionId : Bytes} {exitAfter : UInt64}
  {chunks : List PreparedChunk} {c : Connection Fs FsEffect Exn UInt8 Exn (Option Bytes)}

/-- However the bytes of both sides are split, held back and joined, an upload over a socket is the
upload that calls the server: the repository passes the same states, and the client that has ended has
what the calls give. It ends: the connection is never stuck before, and does not go on for ever. -/
theorem upload_over_socket (hprepared : TransferSession.prepareChunks env source = .ok chunks)
    (h : Reaches need (BackupServer.turn env now)
      ((callUpload sessionId exitAfter chunks).connect s) c) :
    (∃ is, Prog.Cut (upload env now source sessionId exitAfter) s is c.state) ∧
    (∀ y, c.client = .ended y →
      ∃ x, (upload env now source sessionId exitAfter).exec s = (x, c.state) ∧ Told x y) ∧
    ((∃ y, c.client = .ended y) ∨ ∃ d, Dialog.Step need (BackupServer.turn env now) c d) ∧
    Ends need (BackupServer.turn env now) c := by
  have hserve : ∀ request s, Framed need request → Answers need (BackupServer.turn env now request) s :=
    fun request s _ => BackupServer.answers_turn request s
  obtain ⟨⟨is, hcut⟩, hended, hprogress, hends⟩ := h.calls need_nil hserve sends_callUpload
  have hfollows : Follows env now (upload env now source sessionId exitAfter)
    (callUpload sessionId exitAfter chunks) := follows_callUpload hprepared
  exact ⟨⟨is, hfollows.cut hcut⟩, fun y hy => hfollows.exec (hended y hy), hprogress, hends⟩

/-- The second upload of a file goes over a socket, and the client is told of the version. -/
theorem second_try_over_socket : ∃ c,
    Reaches need (BackupServer.turn letterEnv 1700000001)
      ((callUpload (ascii "s") 0 plainChunks).connect firstTry) c ∧
    c.client = .ended (.ok (some (BackupServer.commitText 1))) ∧
    (upload letterEnv 1700000001 plainSource (ascii "s") 0).exec firstTry =
      (.ok (some (BackupServer.commitText 1)), c.state) := by
  have hserve : ∀ request s, Framed need request →
      Answers need (BackupServer.turn letterEnv 1700000001 request) s :=
    fun request s _ => BackupServer.answers_turn request s
  obtain ⟨c, y, hc, hy⟩ := Reaches.finishes need_nil hserve sends_callUpload .refl
  obtain ⟨_, hended, _⟩ := upload_over_socket prepared_plain hc
  obtain ⟨x, hx, htold⟩ := hended y hy
  have hfst := second_try
  rw [hx] at hfst
  subst hfst
  rcases htold with rfl | ⟨⟨e, he, _⟩, _⟩
  · exact ⟨c, hc, hy, hx⟩
  · cases he

end Dpc
