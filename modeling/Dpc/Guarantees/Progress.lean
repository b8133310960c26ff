import Dpc.Guarantees.Interrupted

/-! Uploads that exit after a number of chunks get on by just this number. -/

namespace Dpc
open Text FileTree Effects BackupServer BackupClient TransferSession
open BackupEngine (Added)

variable {env : Env} {s t u : Fs} {sessionId text : Bytes} {now exitAfter sent : UInt64}
  {source : Source} {cs chunks : List PreparedChunk} {rs rs₀ : List ReceivedChunkRecord}
  {D : Bytes → Prop} {ns : List UInt64}

/-- The loop ends early behind as many chunks as were asked for. -/
theorem sendChunks_exits (hsession : sessionId ≠ []) (h : Carries s sessionId rs)
    (hfresh : Fresh env rs chunks)
    (hnew : ∀ c ∈ chunks, (SessionIndex.byGlobal rs₀)[c.globalIndex]? = none)
    (hsent : exitAfter = 0 ∨ sent < exitAfter)
    (hx : (sendChunks env now sessionId exitAfter (SessionIndex.receivedOf rs₀) sent chunks).exec s =
      (.ok false, t)) :
    ∃ n, sent.toNat + n = exitAfter.toNat ∧ 0 < n ∧ n ≤ chunks.length ∧
      Grown env sessionId rs chunks (chunks.take n) s t := by
  induction chunks generalizing s rs sent with
  | nil => cases hx
  | cons c chunks ih =>
    rw [sendChunks_cons (hnew c List.mem_cons_self)] at hx
    obtain ⟨_, m, hsend, hx⟩ := Prog.exec_bind_ok hx
    have hput := sendChunk_ok hsession (hfresh.sendable c List.mem_cons_self) h hsend
    obtain ⟨r, hr, hcarries⟩ := hput.new (hfresh.unknown c List.mem_cons_self)
    split at hx
    · rename_i hexit
      cases hx
      obtain ⟨hpos, hle⟩ := hexit
      have hlt := hsent.resolve_left fun he => absurd (he ▸ hpos) (by decide)
      rw [UInt64.lt_iff_toNat_lt] at hlt
      have hmax := exitAfter.toNat_lt
      rw [UInt64.le_iff_toNat_le, toNat_add_one (by omega)] at hle
      exact ⟨1, by omega, by decide, by simp, .cons hput.added hr (.nil hcarries (.refl _))⟩
    · rename_i hgo
      have hsent' : exitAfter = 0 ∨ sent + 1 < exitAfter := by
        rcases hsent with hzero | hlt
        · exact .inl hzero
        · refine .inr (UInt64.not_le.mp fun hle => hgo ⟨?_, hle⟩)
          exact UInt64.lt_of_le_of_lt (UInt64.zero_le) hlt
      obtain ⟨n, hn, hpos, hle, hgrown⟩ := ih hcarries (hfresh.tail hr.index.1)
        (fun c' hc' => hnew c' (List.mem_cons_of_mem _ hc')) hsent' hx
      have hone : (sent + 1).toNat = sent.toNat + 1 := by
        rcases hsent with hzero | hlt
        · rw [hzero, UInt64.toNat_zero] at hn
          omega
        · have hmax := exitAfter.toNat_lt
          rw [UInt64.lt_iff_toNat_lt] at hlt
          exact toNat_add_one (by omega)
      exact ⟨n + 1, by omega, by omega, by simpa using hle, .cons hput.added hr hgrown⟩

/-- An upload that exits early has recorded as many chunks as it was asked to, of those that the
session lacked. -/
theorem upload_exits (hsession : sessionId ≠ []) (hprepared : prepareChunks env source = .ok chunks)
    (hcount : chunks.length < 2 ^ 64) (h : Records env s sessionId cs rs)
    (hknown : cs <+: chunks)
    (hx : (upload env now source sessionId exitAfter).exec s = (.ok none, t)) :
    0 < exitAfter.toNat ∧ cs.length + exitAfter.toNat ≤ chunks.length ∧
      ∃ rs', Records env t sessionId (chunks.take (cs.length + exitAfter.toNat)) rs' := by
  obtain ⟨hn, hall⟩ := sendable_of_prepared hprepared
  have hfresh := h.fresh hall hn hcount
  obtain ⟨done, m, hsend, hx⟩ := Prog.exec_bind_ok (upload_ok_rest hsession hprepared h.carries hx)
  cases done with
  | true =>
    obtain ⟨text', u', hcommit, hx⟩ := Prog.exec_bind_ok hx
    cases hx
  | false =>
    cases hx
    obtain ⟨rest, rfl⟩ := hknown
    have hskip : ∀ c ∈ cs, ∃ r ∈ (SessionIndex.byGlobal rs)[c.globalIndex]?,
        r.sha256 = c.chunkSha256 := by
      intro c hc
      obtain ⟨k, hk⟩ := List.getElem?_of_mem hc
      obtain ⟨d, r, hd, hr, hsha⟩ := h.known hn (by rwa [List.take_left])
      rw [hk, Option.some.injEq] at hd
      exact ⟨r, hr, hd ▸ hsha⟩
    rw [sendChunks_skip hskip] at hsend
    rw [List.drop_left] at hfresh
    have hzero : exitAfter = 0 ∨ 0 < exitAfter := by
      rcases Nat.eq_zero_or_pos exitAfter.toNat with he | hlt
      · exact .inl (UInt64.toNat_inj.mp he)
      · exact .inr (UInt64.lt_iff_toNat_lt.mpr hlt)
    obtain ⟨n, he, hpos, hle, hg⟩ := sendChunks_exits hsession h.carries hfresh hfresh.unknown
      hzero hsend
    rw [UInt64.toNat_zero, Nat.zero_add] at he
    subst he
    have hfirst : rest.take exitAfter.toNat <+: (cs ++ rest).drop cs.length := by
      rw [List.drop_left]
      exact List.take_prefix _ _
    obtain ⟨_, rs', hrs'⟩ := h.extend hn hcount hfirst (by rwa [List.drop_left])
    refine ⟨hpos, by simpa using hle, rs', ?_⟩
    rwa [List.take_length_add_append]

/-- Uploads of the same chunks, each of which exited early, and after how many chunks; what others
do between them adds no record to the session. -/
inductive Exits (env : Env) (sessionId : Bytes) (chunks : List PreparedChunk) (s : Fs) :
    List UInt64 → Fs → Prop where
  | nil : Exits env sessionId chunks s [] s
  | upload {ns : List UInt64} {t u : Fs} (h : Exits env sessionId chunks s ns t)
      (now exitAfter : UInt64) (source : Source) (hprepared : prepareChunks env source = .ok chunks)
      (hx : (upload env now source sessionId exitAfter).exec t = (.ok none, u)) :
      Exits env sessionId chunks s (ns ++ [exitAfter]) u
  | between {ns : List UInt64} {t u : Fs} (h : Exits env sessionId chunks s ns t)
      (hkept : ObjectStore.Kept t u)
      (hcarries : ∀ rs, Carries t sessionId rs → Carries u sessionId rs) :
      Exits env sessionId chunks s ns u

/-- However often the uploads of some chunks exit early, each gets on by the number of chunks that
it was asked to send: the session has a record for each of the first chunks, as many as all of them
were asked for together, and these are not more than there are. -/
theorem early_exits_add_up (hsession : sessionId ≠ [])
    (hfresh : SessionIndex.textOf s sessionId = []) (hcount : chunks.length < 2 ^ 64)
    (h : Exits env sessionId chunks s ns t) :
    (∀ n ∈ ns, 0 < n.toNat) ∧ (ns.map UInt64.toNat).sum ≤ chunks.length ∧
      ∃ rs, Carries t sessionId rs ∧
        List.Forall₂ (Tells env t) (chunks.take (ns.map UInt64.toNat).sum) rs := by
  have hrun : (∀ n ∈ ns, 0 < n.toNat) ∧ (ns.map UInt64.toNat).sum ≤ chunks.length ∧
      ∃ rs, Records env t sessionId (chunks.take (ns.map UInt64.toNat).sum) rs := by
    induction h with
    | nil => exact ⟨by simp, by simp, [], .empty hfresh⟩
    | @upload ns t u h now exitAfter source hprepared hx ih =>
      obtain ⟨hpos, hle, rs, hrs⟩ := ih
      obtain ⟨hn, hsum, rs', hrs'⟩ := upload_exits hsession hprepared hcount hrs
        (List.take_prefix _ _) hx
      rw [List.length_take, Nat.min_eq_left hle] at hsum hrs'
      have hlast : ((ns ++ [exitAfter]).map UInt64.toNat).sum =
          (ns.map UInt64.toNat).sum + exitAfter.toNat := by simp
      rw [hlast]
      refine ⟨fun n hin => ?_, hsum, rs', hrs'⟩
      rcases List.mem_append.mp hin with hin | hin
      · exact hpos n hin
      · rwa [List.mem_singleton.mp hin]
    | between h hkept hcarries ih =>
      obtain ⟨hpos, hle, rs, hrs⟩ := ih
      exact ⟨hpos, hle, rs, hrs.beside hkept hcarries⟩
  obtain ⟨hpos, hle, rs, hrs⟩ := hrun
  exact ⟨hpos, hle, rs, hrs.carries, hrs.tells⟩

/-- A directory with the letter under two names. -/
def pairSource : Source :=
  .ofWorld (.ofNodes (letterNodes [⟨[ascii "data", ascii "b.txt"], .leaf (.file ⟨ascii "a", 0o644⟩)⟩])
    (by decide +kernel) (by decide +kernel) (by decide +kernel)) [ascii "data"]

def pairChunks : List PreparedChunk := (prepareChunks letterEnv pairSource).toOption.getD []

/-- The repository after an upload of the directory that has exited, and after a local backup of it
from there. -/
def pairTry : Fs := ((upload letterEnv 1700000000 pairSource (ascii "s") 1).exec emptyRepo).2

def pairBackup : Fs :=
  ((BackupEngine.create letterEnv 1700000001 .none pairSource .fixed).exec pairTry).2

theorem second_exit_adds_up : ∃ t rs,
    (upload letterEnv 1700000002 pairSource (ascii "s") 1).exec pairBackup = (.ok none, t) ∧
      Carries t (ascii "s") rs ∧ List.Forall₂ (Tells letterEnv t) pairChunks rs := by
  have hprepared : prepareChunks letterEnv pairSource = .ok pairChunks := by decide +kernel
  have hlength : pairChunks.length = 2 := by decide +kernel
  have htry : ((upload letterEnv 1700000000 pairSource (ascii "s") 1).exec emptyRepo).1 = .ok none := by
    decide +kernel
  have hbackup : ((BackupEngine.create letterEnv 1700000001 .none pairSource .fixed).exec pairTry).1 =
      .ok ⟨1, 2, 2, 0, 2, 0, 2⟩ := by decide +kernel
  have hnext : ((upload letterEnv 1700000002 pairSource (ascii "s") 1).exec pairBackup).1 =
      .ok none := by decide +kernel
  have htext : SessionIndex.textOf pairBackup (ascii "s") = SessionIndex.textOf pairTry (ascii "s") := by
    decide +kernel
  obtain ⟨m, _, hcreated⟩ := BackupEngine.create_ok (Prog.exec_of_fst hbackup)
  obtain ⟨_, _, hdescribed⟩ := hcreated.described
  have hone : Exits letterEnv (ascii "s") pairChunks emptyRepo ([] ++ [1]) pairTry :=
    .upload .nil 1700000000 1 pairSource hprepared (Prog.exec_of_fst htry)
  have hbetween : Exits letterEnv (ascii "s") pairChunks emptyRepo ([] ++ [1]) pairBackup :=
    .between hone hdescribed.added.kept fun _ h => h.congr htext
  obtain ⟨_, _, rs, hcarries, htells⟩ := early_exits_add_up (by decide) (by decide) (by rw [hlength]; decide)
    (.upload hbetween 1700000002 1 pairSource hprepared (Prog.exec_of_fst hnext))
  refine ⟨_, rs, Prog.exec_of_fst hnext, hcarries, ?_⟩
  have hall : pairChunks.take (([] ++ [1] ++ [1] : List UInt64).map UInt64.toNat).sum = pairChunks :=
    List.take_of_length_le hlength.le
  rwa [hall] at htells

end Dpc
