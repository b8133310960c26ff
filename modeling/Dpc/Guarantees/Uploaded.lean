import Dpc.Guarantees.Lossless
import Dpc.Network.RegroupFacts
import Dpc.Network.UploadFacts

/-! Uploads that are stopped and run again under one session id. -/

namespace Dpc
open Text FileTree Effects ManifestStore BackupServer BackupClient TransferSession
open BackupEngine (Added)

variable {env : Env} {s t u : Fs} {sessionId text : Bytes} {now exitAfter : UInt64}
  {source : Source} {is : List FsEffect} {cs chunks : List PreparedChunk}
  {rs : List ReceivedChunkRecord} {attempts : List (List PreparedChunk)} {D : Bytes → Prop}

/-- Uploads under one session id, one after another, each stopped somewhere or run to its end, and
what each had prepared. What others do between them adds objects of bytes of the kind `D`, and no
record to the session. -/
inductive Attempts (env : Env) (sessionId : Bytes) (D : Bytes → Prop) (s : Fs) :
    List (List PreparedChunk) → Fs → Prop where
  | nil : Attempts env sessionId D s [] s
  | upload {attempts : List (List PreparedChunk)} {t u : Fs}
      (h : Attempts env sessionId D s attempts t)
      (now exitAfter : UInt64) (source : Source) (chunks : List PreparedChunk)
      (hprepared : prepareChunks env source = .ok chunks) (hcount : chunks.length < 2 ^ 64)
      (is : List FsEffect) (hcut : Prog.Cut (upload env now source sessionId exitAfter) t is u) :
      Attempts env sessionId D s (attempts ++ [chunks]) u
  | between {attempts : List (List PreparedChunk)} {t u : Fs}
      (h : Attempts env sessionId D s attempts t) (hadded : Added env D t u)
      (hcarries : ∀ rs, Carries t sessionId rs → Carries u sessionId rs) :
      Attempts env sessionId D s attempts u

/-- The session has one record for each of the chunks, which are numbered from zero. -/
structure Records (env : Env) (t : Fs) (sessionId : Bytes) (cs : List PreparedChunk)
    (rs : List ReceivedChunkRecord) : Prop where
  carries : Carries t sessionId rs
  tells : List.Forall₂ (Tells env t) cs rs
  numbered : TransferSession.Numbered 0 cs
  count : cs.length < 2 ^ 64

theorem TransferSession.Numbered.get {i : UInt64} {k : Nat} {c : PreparedChunk} (h : Numbered i cs)
    (hk : cs[k]? = some c) : c.globalIndex = i + UInt64.ofNat k := by
  induction cs generalizing i k with
  | nil => simp at hk
  | cons d cs ih =>
    cases k with
    | zero =>
      rw [List.getElem?_cons_zero, Option.some.injEq] at hk
      simp [← hk, h.1]
    | succ k =>
      rw [ih h.2 hk, UInt64.ofNat_add, UInt64.add_assoc]
      exact congrArg (i + ·) (UInt64.add_comm _ _)

theorem TransferSession.Numbered.drop {i : UInt64} (h : Numbered i cs) (k : Nat) :
    TransferSession.Numbered (i + UInt64.ofNat k) (cs.drop k) := by
  induction k generalizing i cs with
  | zero => simpa using h
  | succ k ih =>
    cases cs with
    | nil => trivial
    | cons c cs =>
      have hnext : i + UInt64.ofNat (k + 1) = i + 1 + UInt64.ofNat k := by
        rw [UInt64.ofNat_add, UInt64.add_assoc]
        exact congrArg (i + ·) (UInt64.add_comm _ _)
      rw [hnext]
      exact ih h.2

theorem TransferSession.Numbered.of_prefix {i : UInt64} {ds : List PreparedChunk} (h : Numbered i cs)
    (hp : ds <+: cs) : Numbered i ds := by
  induction ds generalizing i cs with
  | nil => trivial
  | cons d ds ih =>
    obtain ⟨rest, rfl⟩ := hp
    exact ⟨h.1, ih h.2 (List.prefix_append ds rest)⟩

theorem Tells.get {k : Nat} {r : ReceivedChunkRecord} (h : List.Forall₂ (Tells env t) cs rs)
    (hk : rs[k]? = some r) : ∃ c, cs[k]? = some c ∧ Tells env t c r := by
  induction h generalizing k with
  | nil => simp at hk
  | cons hc _ ih =>
    cases k with
    | zero =>
      rw [List.getElem?_cons_zero, Option.some.injEq] at hk
      exact ⟨_, rfl, hk ▸ hc⟩
    | succ k => exact ih hk

theorem ofNat_injective {j k : Nat} (hj : j < 2 ^ 64) (hk : k < 2 ^ 64)
    (h : UInt64.ofNat j = UInt64.ofNat k) : j = k := by
  rw [← UInt64.toNat_ofNat_of_lt' hj, ← UInt64.toNat_ofNat_of_lt' hk, h]

namespace Records

theorem index {k : Nat} {r : ReceivedChunkRecord} (h : Records env t sessionId cs rs)
    (hk : rs[k]? = some r) : r.globalIndex = UInt64.ofNat k ∧ k < 2 ^ 64 := by
  obtain ⟨c, hc, hr⟩ := Tells.get h.tells hk
  have hlen := (List.getElem?_eq_some_iff.mp hc).1
  rw [hr.index.1, h.numbered.get hc, UInt64.zero_add]
  exact ⟨rfl, Nat.lt_trans hlen h.count⟩

theorem increasing (h : Records env t sessionId cs rs) :
    rs.Pairwise (·.globalIndex < ·.globalIndex) := by
  rw [List.pairwise_iff_getElem]
  intro i j hi hj hij
  obtain ⟨hri, hi'⟩ := h.index (List.getElem?_eq_getElem hi)
  obtain ⟨hrj, hj'⟩ := h.index (List.getElem?_eq_getElem hj)
  rw [hri, hrj, UInt64.lt_iff_toNat_lt, UInt64.toNat_ofNat_of_lt' hi', UInt64.toNat_ofNat_of_lt' hj']
  exact hij

/-- The record with an index is the one in its place. -/
theorem lookup {k : Nat} (h : Records env t sessionId cs rs) (hk : k < 2 ^ 64) :
    (SessionIndex.byGlobal rs)[UInt64.ofNat k]? = rs[k]? := by
  cases hr : rs[k]? with
  | some r =>
    rw [← (h.index hr).1]
    exact SessionIndex.byGlobal_of_increasing h.increasing r (List.mem_of_getElem? hr)
  | none =>
    cases hget : (SessionIndex.byGlobal rs)[UInt64.ofNat k]? with
    | none => rfl
    | some r =>
      obtain ⟨hmem, hindex⟩ := SessionIndex.mem_of_byGlobal hget
      obtain ⟨j, hj⟩ := List.getElem?_of_mem hmem
      obtain ⟨hrj, hj'⟩ := h.index hj
      have hsame : j = k := ofNat_injective hj' hk (hrj.symm.trans hindex)
      rw [hsame, hr] at hj
      cases hj

theorem length_eq (h : Records env t sessionId cs rs) : cs.length = rs.length := h.tells.length_eq

theorem beside (h : Records env s sessionId cs rs) (hk : ObjectStore.Kept s t)
    (hc : ∀ rs, Carries s sessionId rs → Carries t sessionId rs) : Records env t sessionId cs rs :=
  ⟨hc rs h.carries, h.tells.imp fun _ _ hr => hr.kept hk, h.numbered, h.count⟩

theorem grown {first : List PreparedChunk} (h : Records env s sessionId cs rs)
    (hg : Grown env sessionId rs chunks first s t)
    (hn : TransferSession.Numbered (UInt64.ofNat cs.length) first)
    (hcount : (cs ++ first).length < 2 ^ 64) :
    ∃ rs', Records env t sessionId (cs ++ first) rs' := by
  obtain ⟨new, hnew, hcarries⟩ := hg.records
  refine ⟨rs ++ new, hcarries, ?_, h.numbered.append (by rwa [UInt64.zero_add]), hcount⟩
  exact List.rel_append (h.tells.imp fun _ _ hr => hr.kept hg.added.kept) hnew

/-- The chunks of an upload behind those that the session has are new to it. -/
theorem fresh (h : Records env s sessionId cs rs) (hall : ∀ c ∈ chunks, Sendable env c)
    (hn : TransferSession.Numbered 0 chunks) (hcount : chunks.length < 2 ^ 64) :
    Fresh env rs (chunks.drop cs.length) := by
  have hget : ∀ {j : Nat} {c : PreparedChunk}, (chunks.drop cs.length)[j]? = some c →
      c.globalIndex = UInt64.ofNat (cs.length + j) ∧ cs.length + j < 2 ^ 64 := by
    intro j c hc
    rw [List.getElem?_drop] at hc
    have hlen := (List.getElem?_eq_some_iff.mp hc).1
    exact ⟨by rw [hn.get hc, UInt64.zero_add], Nat.lt_trans hlen hcount⟩
  refine ⟨fun c hc => hall c (List.mem_of_mem_drop hc), fun c hc => ?_, ?_⟩
  · obtain ⟨j, hj⟩ := List.getElem?_of_mem hc
    obtain ⟨hi, hlt⟩ := hget hj
    rw [hi, h.lookup hlt]
    exact List.getElem?_eq_none (by rw [← h.length_eq]; exact Nat.le_add_right _ _)
  · rw [List.pairwise_iff_getElem]
    intro i j hi hj hij he
    obtain ⟨hci, hi'⟩ := hget (List.getElem?_eq_getElem hi)
    obtain ⟨hcj, hj'⟩ := hget (List.getElem?_eq_getElem hj)
    rw [hci, hcj] at he
    have := ofNat_injective hi' hj' he
    omega

/-- The session has a record for each chunk of an upload that is in the place of one it has. -/
theorem known (h : Records env s sessionId cs rs) (hn : TransferSession.Numbered 0 chunks)
    {k : Nat} {c : PreparedChunk}
    (hc : (chunks.take cs.length)[k]? = some c) :
    ∃ d r, cs[k]? = some d ∧ (SessionIndex.byGlobal rs)[c.globalIndex]? = some r ∧
      r.sha256 = d.chunkSha256 := by
  obtain ⟨hk, hck⟩ : k < cs.length ∧ chunks[k]? = some c := by
    rw [List.getElem?_take] at hc
    split at hc
    · exact ⟨‹_›, hc⟩
    · cases hc
  have hr := List.getElem?_eq_getElem (h.length_eq ▸ hk)
  obtain ⟨d, hd, htells⟩ := Tells.get h.tells hr
  refine ⟨d, _, hd, ?_, htells.index.2⟩
  rw [hn.get hck, UInt64.zero_add, h.lookup (Nat.lt_trans hk h.count), hr]

end Records

/-- Where the session has chunks of the same places, they are passed over as long as they are the
same, and none of the others is recorded. -/
theorem sendChunks_over_cut (hsession : sessionId ≠ []) (h : Carries s sessionId rs)
    (hsendable : ∀ c ∈ chunks, Sendable env c)
    (hknown : ∀ c ∈ chunks, ∃ r, (SessionIndex.byGlobal rs)[c.globalIndex]? = some r)
    {sent : UInt64} {post : List PreparedChunk}
    (hcut : Prog.Cut (sendChunks env now sessionId exitAfter (SessionIndex.receivedOf rs) sent
      (chunks ++ post)) s is t) :
    (Added env (fun raw => ∃ c ∈ chunks, c.raw = raw) s t ∧ Carries t sessionId rs) ∨
      Prog.Cut (sendChunks env now sessionId exitAfter (SessionIndex.receivedOf rs) sent post) s is t := by
  induction chunks with
  | nil => exact .inr hcut
  | cons c chunks ih =>
    obtain ⟨r, hr⟩ := hknown c List.mem_cons_self
    rw [List.cons_append, sendChunks, lookup_receivedOf, hr, Option.map_some] at hcut
    split at hcut
    · rcases ih (fun d hd => hsendable d (List.mem_cons_of_mem _ hd))
        (fun d hd => hknown d (List.mem_cons_of_mem _ hd)) hcut with ⟨hadded, hcarries⟩ | hrest
      · refine .inl ⟨hadded.mono fun raw hraw => ?_, hcarries⟩
        obtain ⟨d, hd, he⟩ := hraw
        exact ⟨d, List.mem_cons_of_mem _ hd, he⟩
      · exact .inr hrest
    · rename_i hother
      -- the server refuses another chunk in this place
      simp only [Prog.bind_eq] at hcut
      rcases hcut.of_bind with hcut | ⟨_, m, _, _, hx, _, _, _⟩
      · obtain ⟨hadded, hcase⟩ := sendChunk_cut hsession (hsendable c List.mem_cons_self) h hcut
        rcases hcase with hcarries | ⟨hnone, _⟩
        · exact .inl ⟨hadded.mono fun raw he => ⟨c, List.mem_cons_self, he.symm⟩, hcarries⟩
        · rw [hr] at hnone
          cases hnone
      · have hput := sendChunk_ok hsession (hsendable c List.mem_cons_self) h hx
        exact absurd (congrArg some (hput.known r hr).1) hother

/-- The upload after its query, with what the session had. -/
def uploadRest (env : Env) (now : UInt64) (sessionId : Bytes) (exitAfter : UInt64)
    (rs : List ReceivedChunkRecord) (chunks : List PreparedChunk) : Op (Option Bytes) :=
  (sendChunks env now sessionId exitAfter (SessionIndex.receivedOf rs) 0 chunks).bind fun b =>
    if b then (commit env now sessionId (UInt64.ofNat chunks.length)).bind fun ack => .pure (some ack)
    else .pure none

/-- A greeting or a query leaves the state alone, wherever it is stopped. -/
theorem asks_cut {packet : Packet} (hp : packet.type = .hello ∨ packet.type = .querySession)
    (hcut : Prog.Cut (exchange env now packet) s is t) : t = s := by
  obtain ⟨_, hcut⟩ := exchange_cut hcut
  exact cut_silent (asks_emits hp) hcut

theorem asks_ok {packet ack : Packet} (hp : packet.type = .hello ∨ packet.type = .querySession)
    (hx : (exchange env now packet).exec s = (.ok ack, t)) : t = s := by
  obtain ⟨_, hcut⟩ := Prog.cut_exec (exchange env now packet) s
  rw [hx] at hcut
  exact asks_cut hp hcut

/-- An upload leaves the state alone until it knows what the session has. -/
theorem upload_cut_rest (hsession : sessionId ≠ []) (hprepared : prepareChunks env source = .ok chunks)
    (h : Carries s sessionId rs)
    (hcut : Prog.Cut (upload env now source sessionId exitAfter) s is t) :
    t = s ∨ ∃ is', Prog.Cut (uploadRest env now sessionId exitAfter rs chunks) s is' t := by
  simp only [upload, hprepared, Prog.bind_eq] at hcut
  rcases hcut.of_bind with hcut | ⟨_, m, _, _, hx, _, hcut, _⟩
  · exact .inl (Prog.cut_ofExcept hcut)
  rw [Prog.exec_ofExcept, Prod.mk.injEq, Except.ok.injEq] at hx
  obtain ⟨rfl, rfl⟩ := hx
  -- the greeting
  rcases hcut.of_bind with hcut | ⟨hello, m, _, _, _, hfirst, hcut, _⟩
  · exact .inl (asks_cut (.inl rfl) hcut)
  cases asks_cut (.inl rfl) hfirst
  rcases hcut.of_bind with hcut | ⟨_, m, _, _, hx, _, hcut, _⟩
  · exact .inl (Prog.cut_ofExcept hcut)
  rw [Prog.exec_ofExcept, Prod.mk.injEq] at hx
  obtain ⟨_, rfl⟩ := hx
  -- the query
  rcases hcut.of_bind with hcut | ⟨status, m, _, _, hquery, hfirst, hcut, _⟩
  · exact .inl (asks_cut (.inr rfl) hcut)
  cases asks_cut (.inr rfl) hfirst
  rcases hcut.of_bind with hcut | ⟨received, m, _, _, hx, _, hcut, _⟩
  · exact .inl (Prog.cut_ofExcept hcut)
  rw [Prog.exec_ofExcept, Prod.mk.injEq] at hx
  obtain ⟨hparsed, rfl⟩ := hx
  obtain ⟨_, rfl⟩ := query_ok hsession h hquery hparsed
  exact .inr ⟨_, hcut⟩

theorem upload_ok_rest {reply : Option Bytes} (hsession : sessionId ≠ [])
    (hprepared : prepareChunks env source = .ok chunks) (h : Carries s sessionId rs)
    (hx : (upload env now source sessionId exitAfter).exec s = (.ok reply, t)) :
    (uploadRest env now sessionId exitAfter rs chunks).exec s = (.ok reply, t) := by
  simp only [upload, hprepared, Prog.bind_eq] at hx
  rw [Prog.exec_bind_of_ok (Prog.exec_ofExcept _ _)] at hx
  obtain ⟨hello, m, hhello, hx⟩ := Prog.exec_bind_ok hx
  obtain ⟨_, m', hnot, hx⟩ := Prog.exec_bind_ok hx
  rw [Prog.exec_ofExcept, Prod.mk.injEq] at hnot
  obtain ⟨hnot, rfl⟩ := hnot
  cases asks_ok (.inl rfl) hhello
  obtain ⟨status, m, hquery, hx⟩ := Prog.exec_bind_ok hx
  obtain ⟨received, m', hparsed, hx⟩ := Prog.exec_bind_ok hx
  rw [Prog.exec_ofExcept, Prod.mk.injEq] at hparsed
  obtain ⟨hparsed, rfl⟩ := hparsed
  obtain ⟨rfl, rfl⟩ := query_ok hsession h hquery hparsed
  exact hx

theorem sendable_of_prepared (h : prepareChunks env source = .ok chunks) :
    TransferSession.Numbered 0 chunks ∧ ∀ c ∈ chunks, Sendable env c := by
  obtain ⟨files, groups, _, hn, rfl, hall⟩ := prepareChunks_ok h
  refine ⟨hn, fun c hc => ?_⟩
  obtain ⟨group, hg, hc⟩ := List.mem_flatten.mp hc
  obtain ⟨file, _, data, hsent⟩ := hall.exists_left hg
  obtain ⟨chunk, _, hfor⟩ := hsent.chunks.exists_left hc
  exact hfor.sendable

/-- The session has grown by the first of the chunks that it lacked. -/
structure Continued (env : Env) (sessionId : Bytes) (cs chunks : List PreparedChunk) (s t : Fs) :
    Prop where
  added : Added env (fun raw => ∃ c ∈ chunks, c.raw = raw) s t
  records : ∃ first rs, first <+: chunks.drop cs.length ∧ Records env t sessionId (cs ++ first) rs

theorem Continued.stay (h : Records env s sessionId cs rs)
    (ha : Added env (fun raw => ∃ c ∈ chunks, c.raw = raw) s t) (hc : Carries t sessionId rs) :
    Continued env sessionId cs chunks s t := by
  refine ⟨ha, [], rs, List.nil_prefix, ?_⟩
  rw [List.append_nil]
  exact ⟨hc, h.tells.imp fun _ _ hr => hr.kept ha.kept, h.numbered, h.count⟩

theorem Continued.unmoved (h : Continued env sessionId cs chunks s t)
    (hu : Unmoved env sessionId t u) : Continued env sessionId cs chunks s u := by
  obtain ⟨first, rs, hp, hrs⟩ := h.records
  exact ⟨h.added.trans (hu.1.mono fun _ => False.elim), first, rs, hp, hrs.beside hu.1.kept hu.2⟩

theorem Records.extend {first : List PreparedChunk} (h : Records env s sessionId cs rs)
    (hn : TransferSession.Numbered 0 chunks) (hcount : chunks.length < 2 ^ 64)
    (hp : first <+: chunks.drop cs.length)
    (hg : Grown env sessionId rs (chunks.drop cs.length) first s t) :
    Added env (fun raw => ∃ c ∈ chunks, c.raw = raw) s t ∧
      ∃ rs', Records env t sessionId (cs ++ first) rs' := by
  have hnumbered : TransferSession.Numbered (UInt64.ofNat cs.length) first := by
    have := TransferSession.Numbered.of_prefix (hn.drop cs.length) hp
    rwa [UInt64.zero_add] at this
  have hlength : (cs ++ first).length < 2 ^ 64 := by
    have hlen := hp.length_le
    have := h.count
    rw [List.length_drop] at hlen
    rw [List.length_append]
    omega
  refine ⟨hg.added.mono fun raw hraw => ?_, h.grown hg hnumbered hlength⟩
  obtain ⟨c, hc, he⟩ := hraw
  exact ⟨c, List.mem_of_mem_drop hc, he⟩

theorem Records.over (h : Records env s sessionId cs rs) (hn : TransferSession.Numbered 0 chunks) :
    ∀ c ∈ chunks.take cs.length, ∃ r, (SessionIndex.byGlobal rs)[c.globalIndex]? = some r := by
  intro c hc
  obtain ⟨k, hk⟩ := List.getElem?_of_mem hc
  obtain ⟨_, r, _, hr, _⟩ := h.known hn hk
  exact ⟨r, hr⟩

theorem sendChunks_continued (hsession : sessionId ≠ []) (hall : ∀ c ∈ chunks, Sendable env c)
    (hn : TransferSession.Numbered 0 chunks) (hcount : chunks.length < 2 ^ 64)
    (h : Records env s sessionId cs rs)
    (hcut : Prog.Cut (sendChunks env now sessionId exitAfter (SessionIndex.receivedOf rs) 0 chunks)
      s is t) : Continued env sessionId cs chunks s t := by
  have hfresh := h.fresh hall hn hcount
  rw [← List.take_append_drop cs.length chunks] at hcut
  rcases sendChunks_over_cut hsession h.carries (fun c hc => hall c (List.mem_of_mem_take hc))
    (h.over hn) hcut with ⟨ha, hc⟩ | hcut
  · refine .stay h (ha.mono fun raw hraw => ?_) hc
    obtain ⟨c, hc, he⟩ := hraw
    exact ⟨c, List.mem_of_mem_take hc, he⟩
  · obtain ⟨first, hp, hg⟩ := sendChunks_cut hsession h.carries hfresh hfresh.unknown hcut
    obtain ⟨ha, rs', hrs'⟩ := h.extend hn hcount hp hg
    exact ⟨ha, first, rs', hp, hrs'⟩

/-- Wherever an upload is stopped, the session has grown by the first of the chunks that it
lacked. -/
theorem upload_cut (hsession : sessionId ≠ []) (hprepared : prepareChunks env source = .ok chunks)
    (hcount : chunks.length < 2 ^ 64) (h : Records env s sessionId cs rs)
    (hcut : Prog.Cut (upload env now source sessionId exitAfter) s is t) :
    Continued env sessionId cs chunks s t := by
  obtain ⟨hn, hall⟩ := sendable_of_prepared hprepared
  rcases upload_cut_rest hsession hprepared h.carries hcut with rfl | ⟨_, hcut⟩
  · exact .stay h (.refl _) h.carries
  rcases hcut.of_bind with hcut | ⟨done, m, _, _, _, hfirst, hcut, _⟩
  · exact sendChunks_continued hsession hall hn hcount h hcut
  have hcontinued := sendChunks_continued hsession hall hn hcount h hfirst
  refine hcontinued.unmoved ?_
  split at hcut
  · rcases hcut.of_bind with hcut | ⟨_, m', _, _, _, hfirst, hcut, _⟩
    · exact commit_cut hcut
    · cases hcut
      exact commit_cut hfirst
  · cases hcut
    exact ⟨.refl _, fun _ => id⟩

/-- An upload that is acknowledged has found the chunks that the session had to be the same, has
recorded the others, and has made a version of all. -/
theorem upload_acked (hsession : sessionId ≠ []) (hprepared : prepareChunks env source = .ok chunks)
    (hcount : chunks.length < 2 ^ 64) (h : Records env s sessionId cs rs)
    (hx : (upload env now source sessionId exitAfter).exec s = (.ok (some text), u)) :
    (∀ c ∈ chunks.take cs.length, ∃ r ∈ (SessionIndex.byGlobal rs)[c.globalIndex]?,
        r.sha256 = c.chunkSha256) ∧
      ∃ m t rs', Records env t sessionId (cs ++ chunks.drop cs.length) rs' ∧
        Added env (fun raw => ∃ c ∈ chunks, c.raw = raw) s t ∧ text = commitText m.version ∧
        Committed env now (commitPacket sessionId (UInt64.ofNat chunks.length)) t u sessionId rs' m := by
  obtain ⟨hn, hall⟩ := sendable_of_prepared hprepared
  have hfresh := h.fresh hall hn hcount
  obtain ⟨done, t, hsend, hx⟩ := Prog.exec_bind_ok (upload_ok_rest hsession hprepared h.carries hx)
  cases done with
  | false => cases hx
  | true =>
    obtain ⟨text', u', hcommit, hx⟩ := Prog.exec_bind_ok hx
    cases hx
    rw [← List.take_append_drop cs.length chunks] at hsend
    have hover : ∀ c ∈ chunks.take cs.length, Sendable env c := fun c hc =>
      hall c (List.mem_of_mem_take hc)
    have hsame := sendChunks_known hsession hover h.carries (h.over hn) hsend
    rw [sendChunks_skip hsame] at hsend
    have hg := sendChunks_new hsession h.carries hfresh hfresh.unknown hsend
    obtain ⟨ha, rs', hrs'⟩ := h.extend hn hcount (List.prefix_refl _) hg
    obtain ⟨m, htext, hcommitted⟩ := commit_acked hsession hrs'.carries hcommit
    exact ⟨hsame, m, t, rs', hrs', ha, htext, hcommitted⟩

/-- Before the first of the uploads the session has nothing. -/
theorem Records.empty (hfresh : SessionIndex.textOf s sessionId = []) : Records env s sessionId [] [] :=
  ⟨⟨[], ⟨by rw [hfresh]; rfl, by simp⟩, rfl⟩, .nil, trivial, by decide⟩

/-- What an object was made of: bytes of another, or a chunk of one of the uploads. -/
def Brought (D : Bytes → Prop) (attempts : List (List PreparedChunk)) (raw : Bytes) : Prop :=
  D raw ∨ ∃ chunks ∈ attempts, ∃ c ∈ chunks, c.raw = raw

theorem Brought.earlier {raw : Bytes} (h : Brought D attempts raw) :
    Brought D (attempts ++ [chunks]) raw := by
  refine h.imp_right fun hraw => ?_
  obtain ⟨chunks', hin, hc⟩ := hraw
  exact ⟨chunks', List.mem_append_left _ hin, hc⟩

theorem Brought.last {raw : Bytes} (h : ∃ c ∈ chunks, c.raw = raw) :
    Brought D (attempts ++ [chunks]) raw :=
  .inr ⟨chunks, List.mem_concat_self, h⟩

/-- What the uploads have left: a record for each of the first chunks, and each of these in its
place in one of the uploads. -/
structure Left (env : Env) (sessionId : Bytes) (D : Bytes → Prop) (s : Fs)
    (attempts : List (List PreparedChunk)) (t : Fs) (cs : List PreparedChunk)
    (rs : List ReceivedChunkRecord) : Prop where
  records : Records env t sessionId cs rs
  added : Added env (Brought D attempts) s t
  places : ∀ (k : Nat) (c : PreparedChunk), cs[k]? = some c → ∃ chunks ∈ attempts, chunks[k]? = some c

/-- The step lemma. -/
theorem Left.continued (h : Left env sessionId D s attempts t cs rs)
    (hc : Continued env sessionId cs chunks t u) :
    ∃ cs' rs', Left env sessionId D s (attempts ++ [chunks]) u cs' rs' := by
  obtain ⟨first, rs', hp, hrs'⟩ := hc.records
  refine ⟨cs ++ first, rs', hrs', ?_, fun k c hk => ?_⟩
  · exact (h.added.mono fun _ => .earlier).trans (hc.added.mono fun _ => .last)
  · by_cases hlt : k < cs.length
    · rw [List.getElem?_append_left hlt] at hk
      obtain ⟨chunks', hin, hc'⟩ := h.places k c hk
      exact ⟨chunks', List.mem_append_left _ hin, hc'⟩
    · rw [List.getElem?_append_right (Nat.le_of_not_lt hlt)] at hk
      obtain ⟨rest, hrest⟩ := hp
      have hin : (first ++ rest)[k - cs.length]? = some c := by
        rw [List.getElem?_append_left (List.getElem?_eq_some_iff.mp hk).1, hk]
      rw [hrest, List.getElem?_drop, Nat.add_sub_cancel' (Nat.le_of_not_lt hlt)] at hin
      exact ⟨chunks, List.mem_concat_self, hin⟩

/-- The run lemma. -/
theorem Attempts.left (hsession : sessionId ≠ []) (hfresh : SessionIndex.textOf s sessionId = [])
    (h : Attempts env sessionId D s attempts t) :
    ∃ cs rs, Left env sessionId D s attempts t cs rs := by
  induction h with
  | nil => exact ⟨[], [], .empty hfresh, .refl _, by simp⟩
  | upload h now exitAfter source chunks hprepared hcount is hcut ih =>
    obtain ⟨cs, rs, hleft⟩ := ih
    exact hleft.continued (upload_cut hsession hprepared hcount hleft.records hcut)
  | between h hadded hcarries ih =>
    obtain ⟨cs, rs, hleft⟩ := ih
    exact ⟨cs, rs, hleft.records.beside hadded.kept hcarries,
      hleft.added.trans (hadded.mono fun _ => .inl), hleft.places⟩

/-- A version of the chunks that are recorded. -/
structure Versioned (env : Env) (sessionId : Bytes) (now : UInt64) (cs : List PreparedChunk)
    (rs : List ReceivedChunkRecord) (u : Fs) (m : Manifest) : Prop where
  manifest : ∃ f, u.leaf? (manifestPath m.version) = some f ∧ f.data = serialize m
  marker : (u.leaf? (commitPath m.version)).isSome
  made : m = SessionIndex.manifestOf env sessionId m.version now rs
  increasing : rs.Pairwise (·.globalIndex < ·.globalIndex)
  tells : List.Forall₂ (Tells env u) cs rs

/-- A commit adds no object. -/
theorem BackupServer.Committed.added {packet : Packet} {m : Manifest}
    (h : Committed env now packet t u sessionId rs m) : Added env (fun _ => False) t u := by
  obtain ⟨v, hg, _, hframe⟩ := h.gathered
  refine (Added.of_frame hg.frame fun q hq he => ?_).trans (.of_frame hframe fun q hq he => ?_)
  · exact BackupEngine.not_inObjects_walPath (he ▸ hq)
  · rcases he with he | he
    · exact BackupEngine.not_inObjects_publishPath hq he
    · exact SessionIndex.not_inObjects_path sessionId (he ▸ hq)

theorem BackupServer.Committed.versioned {packet : Packet} {m : Manifest}
    (h : Committed env now packet t u sessionId rs m) (hrs : Records env t sessionId cs rs) :
    Versioned env sessionId now cs rs u m := by
  obtain ⟨v, hg, _, _⟩ := h.gathered
  exact ⟨h.manifest, h.marker, hg.manifest, hrs.increasing,
    hrs.tells.imp fun _ _ hr => hr.kept h.added.kept⟩

/-- One more upload, which is acknowledged. -/
theorem Left.acked (hsession : sessionId ≠ []) (h : Left env sessionId D s attempts t cs rs)
    (hprepared : prepareChunks env source = .ok chunks) (hcount : chunks.length < 2 ^ 64)
    (hx : (upload env now source sessionId exitAfter).exec t = (.ok (some text), u)) :
    (∀ (k : Nat) (c d : PreparedChunk), cs[k]? = some c → chunks[k]? = some d →
        c.chunkSha256 = d.chunkSha256) ∧
      ∃ rs' m, text = commitText m.version ∧
        Versioned env sessionId now (cs ++ chunks.drop cs.length) rs' u m ∧
        Added env (Brought D (attempts ++ [chunks])) s u := by
  obtain ⟨hsame, m, v, rs', hrs', hadded, htext, hcommitted⟩ :=
    upload_acked hsession hprepared hcount h.records hx
  refine ⟨fun k c d hc hd => ?_, rs', m, htext, hcommitted.versioned hrs', ?_⟩
  · obtain ⟨hn, _⟩ := sendable_of_prepared hprepared
    have hk := (List.getElem?_eq_some_iff.mp hc).1
    have htake : (chunks.take cs.length)[k]? = some d := by rw [List.getElem?_take, if_pos hk, hd]
    obtain ⟨c', r, hc', hr, hsha⟩ := h.records.known hn htake
    rw [hc, Option.some.injEq] at hc'
    obtain ⟨r', hr', hsha'⟩ := hsame d (List.mem_of_getElem? htake)
    rw [hr, Option.mem_some_iff] at hr'
    rw [hc', ← hsha, ← hsha', hr']
  · exact (h.added.mono fun _ => .earlier).trans ((hadded.mono fun _ => .last).trans
      (hcommitted.added.mono fun _ => False.elim))

def plainSource : Source := .ofWorld plainWorld [ascii "data"]

def plainChunks : List PreparedChunk := (prepareChunks letterEnv plainSource).toOption.getD []

def firstTry : Fs := ((upload letterEnv 1700000000 plainSource (ascii "s") 1).exec emptyRepo).2

theorem prepared_plain : prepareChunks letterEnv plainSource = .ok plainChunks := by decide +kernel

theorem count_plain : plainChunks.length < 2 ^ 64 := by decide +kernel

theorem attempts_plain :
    Attempts letterEnv (ascii "s") (fun _ => False) emptyRepo [plainChunks] firstTry := by
  obtain ⟨is, hcut⟩ := Prog.cut_exec (upload letterEnv 1700000000 plainSource (ascii "s") 1) emptyRepo
  exact .upload .nil 1700000000 1 plainSource plainChunks prepared_plain count_plain is hcut

theorem second_try : ((upload letterEnv 1700000001 plainSource (ascii "s") 0).exec firstTry).1 =
    .ok (some (commitText 1)) := by decide +kernel

theorem same_plain : ∀ cs ∈ [plainChunks], cs = plainChunks := fun _ => List.mem_singleton.mp

end Dpc
