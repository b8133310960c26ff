import Dpc.Guarantees.Freshness
import Dpc.Guarantees.Readable

namespace Dpc
open Text FileTree Effects ManifestStore BackupEngine BackupServer

variable {env : Env} {s t u : Fs} {v w : UInt64} {vs : List UInt64} {sessionId : Bytes}
  {lines : List SessionIndex.Line} {n : Nat}

/-- Commits of one session, one after another, each acknowledged with a version, and no
chunk in between. -/
inductive Recommits (env : Env) (sessionId : Bytes) (s : Fs) : List UInt64 → Fs → Prop where
  | nil : Recommits env sessionId s [] s
  | snoc {vs : List UInt64} {v total now : UInt64} {packet : Packet} {reply : Bytes} {t u : Fs}
      (h : Recommits env sessionId s vs t) (hopen : openCommit packet = .ok (sessionId, total))
      (hx : (handlePacket env now packet).exec t = (.ok reply, u))
      (ha : Acknowledges packet v reply) : Recommits env sessionId s (vs ++ [v]) u

/-- However often the session is committed, the answer is the version that it has. -/
def Idempotent (env : Env) (sessionId : Bytes) (v : UInt64) (s : Fs) : Prop :=
  ∀ vs t, Recommits env sessionId s vs t → (∀ w, InList t w → InList s w) ∧ ∀ w ∈ vs, w = v

/-- A version has a manifest with these files. -/
def HasFiles (t : Fs) (files : List FileManifest) (w : UInt64) : Prop :=
  ∃ m f, m.version = w ∧ m.files = files ∧ t.leaf? (manifestPath w) = some f ∧ f.data = serialize m

/-- The files that the records of a session make. -/
def filesOf (env : Env) (sessionId : Bytes) (lines : List SessionIndex.Line) : List FileManifest :=
  (SessionIndex.manifestOf env sessionId 0 0 (lines.filterMap SessionIndex.Line.record?)).files

/-- A commit publishes the files of the session's records, whether it was committed before or
not, and only adds a line that nothing reads. -/
theorem commit_again {total now : UInt64} {packet : Packet} {reply : Bytes}
    (hlines : SessionIndex.Lines t sessionId lines) (hopen : openCommit packet = .ok (sessionId, total))
    (hx : (handlePacket env now packet).exec t = (.ok reply, u)) (ha : Acknowledges packet v reply) :
    Published t v u ∧ SessionIndex.Lines u sessionId (lines ++ [.committed v]) ∧
      HasFiles u (filesOf env sessionId lines) v := by
  have hpub := (Publishes.commit hx ha).published
  obtain ⟨_, sessionId', rs, m, rfl, hc⟩ := commit_ok hx ha
  obtain ⟨a, hg, _, _⟩ := hc.gathered
  obtain ⟨total', hopen', _⟩ := hg.opened
  obtain ⟨rfl, rfl⟩ := Prod.mk.inj (Except.ok.inj (hopen'.symm.trans hopen))
  refine ⟨hpub, ⟨?_, ?_⟩, ?_⟩
  · rw [hc.text, hlines.text]
    simp [SessionIndex.Line.text]
  · intro r hr
    rw [List.filterMap_append] at hr
    exact hlines.writable r (by simpa [SessionIndex.Line.record?] using hr)
  · obtain ⟨f, hfile, hdata⟩ := hc.manifest
    refine ⟨m, f, rfl, ?_, hfile, hdata⟩
    rw [hg.manifest, hg.recorded.unique hlines.recorded]
    rfl

theorem Published.manifest (h : Published t v u) (hw : w ≠ v) :
    u.leaf? (manifestPath w) = t.leaf? (manifestPath w) := by
  refine h.frame _ ?_
  intro hq
  rcases hq with hq | hq | hq
  · exact hw (manifestPath_injective hq)
  · exact manifestPath_ne_commitPath w v hq
  · exact hq rfl

/-- The latest version after a commit: one more, as long as it has six digits. -/
theorem Latest.publish (h : Latest s n) (hp : Published s v t) :
    v.toNat = n + 1 ∧ Latest t (min (n + 1) (10 ^ 6 - 1)) := by
  have hv := h.next hp.next
  have hn := h.lt
  refine ⟨hv, ?_⟩
  by_cases hsix : n + 1 < 10 ^ 6
  · rw [Nat.min_eq_left (by omega)]
    exact (h.step hp hsix).1
  · rw [Nat.min_eq_right (by omega)]
    have hsame : ∀ w, Listed t w ↔ Listed s w := by
      intro w
      rw [hp.listed_iff]
      constructor
      · intro hw
        rcases hw with hw | ⟨_, hlt⟩
        · exact hw
        · omega
      · exact .inl
    constructor
    · intro w hw
      have := h.above w ((hsame w).mp hw)
      omega
    · rcases h.attained with h0 | ⟨w, hw, he⟩
      · omega
      · exact .inr ⟨w, (hsame w).mpr hw, by omega⟩

/-- What some commits of a session have done. -/
structure Recommitted (env : Env) (sessionId : Bytes) (lines : List SessionIndex.Line) (n : Nat)
    (s : Fs) (vs : List UInt64) (t : Fs) : Prop where
  text : SessionIndex.Lines t sessionId (lines ++ vs.map .committed)
  latest : Latest t (min (n + vs.length) (10 ^ 6 - 1))
  answers : vs.map UInt64.toNat = (List.range' (n + 1) vs.length).map (min · (10 ^ 6))
  listed : ∀ w, Listed t w ↔ Listed s w ∨ w ∈ vs ∧ w.toNat < 10 ^ 6
  files : ∀ w ∈ vs, HasFiles t (filesOf env sessionId lines) w

theorem filesOf_append :
    filesOf env sessionId (lines ++ vs.map .committed) = filesOf env sessionId lines := by
  have hnone : (vs.map SessionIndex.Line.committed).filterMap SessionIndex.Line.record? = [] := by
    simp [List.filterMap_map, SessionIndex.Line.record?, Function.comp_def]
  rw [filesOf, filesOf, List.filterMap_append, hnone, List.append_nil]

/-- The step lemma. -/
theorem Recommitted.step {total now : UInt64} {packet : Packet} {reply : Bytes} (hl : Latest s n)
    (h : Recommitted env sessionId lines n s vs t) (hopen : openCommit packet = .ok (sessionId, total))
    (hx : (handlePacket env now packet).exec t = (.ok reply, u)) (ha : Acknowledges packet v reply) :
    Recommitted env sessionId lines n s (vs ++ [v]) u := by
  obtain ⟨hpub, hlines, hfiles⟩ := commit_again h.text hopen hx ha
  rw [filesOf_append] at hfiles
  obtain ⟨hv, hlatest⟩ := h.latest.publish hpub
  have hn := hl.lt
  constructor
  · rw [List.map_append, ← List.append_assoc]
    exact hlines
  · have hmin : min (min (n + vs.length) (10 ^ 6 - 1) + 1) (10 ^ 6 - 1) =
        min (n + (vs ++ [v]).length) (10 ^ 6 - 1) := by
      rw [List.length_append, List.length_singleton]
      omega
    rwa [hmin] at hlatest
  · rw [List.map_append, h.answers, List.length_append, List.length_singleton, List.range'_1_concat,
      List.map_append, List.map_singleton, List.map_singleton, hv]
    congr 2
    omega
  · intro w
    rw [hpub.listed_iff, h.listed, List.mem_append, List.mem_singleton]
    constructor
    · intro hw
      rcases hw with (hw | ⟨hw, hsix⟩) | ⟨hw, hsix⟩
      · exact .inl hw
      · exact .inr ⟨.inl hw, hsix⟩
      · exact .inr ⟨.inr hw, hw ▸ hsix⟩
    · intro hw
      rcases hw with hw | ⟨hw | hw, hsix⟩
      · exact .inl (.inl hw)
      · exact .inl (.inr ⟨hw, hsix⟩)
      · exact .inr ⟨hw, hw ▸ hsix⟩
  · intro w hw
    by_cases hwv : w = v
    · rw [hwv]
      exact hfiles
    · rcases List.mem_append.mp hw with hw | hw
      · obtain ⟨m, f, hm, hmf, hleaf, hdata⟩ := h.files w hw
        exact ⟨m, f, hm, hmf, (hpub.manifest hwv).trans hleaf, hdata⟩
      · exact absurd (List.mem_singleton.mp hw) hwv

/-- The run lemma. -/
theorem Recommits.recommitted (hl : Latest s n) (hlines : SessionIndex.Lines s sessionId lines)
    (h : Recommits env sessionId s vs t) : Recommitted env sessionId lines n s vs t := by
  induction h with
  | nil =>
    have hn := hl.lt
    constructor
    · rw [List.map_nil, List.append_nil]
      exact hlines
    · rw [List.length_nil, Nat.add_zero, Nat.min_eq_left (by omega)]
      exact hl
    · rfl
    · simp
    · simp
  | snoc _ hopen hx ha ih => exact ih.step hl hopen hx ha

/-- Every commit of a session makes a version of its own, whether the session was committed
before or not: the answers count on from the latest version, up to a million; they are the
versions that the list gets; and all of them have the same files. -/
theorem every_commit_makes_a_version (hl : Latest s n)
    (hlines : SessionIndex.Lines s sessionId lines) (h : Recommits env sessionId s vs t) :
    vs.map UInt64.toNat = (List.range' (n + 1) vs.length).map (min · (10 ^ 6)) ∧
      (∀ w, Listed t w ↔ Listed s w ∨ w ∈ vs ∧ w.toNat < 10 ^ 6) ∧ (∀ w ∈ vs, ¬Listed s w) ∧
      ∀ w ∈ vs, HasFiles t (filesOf env sessionId lines) w := by
  have hr := h.recommitted hl hlines
  refine ⟨hr.answers, hr.listed, ?_, hr.files⟩
  intro w hw hlisted
  have hmem : w.toNat ∈ vs.map UInt64.toNat := List.mem_map_of_mem hw
  rw [hr.answers] at hmem
  obtain ⟨k, hk, he⟩ := List.mem_map.mp hmem
  have hle := hl.above w hlisted
  have hlt := hlisted.1
  have hk := (List.mem_range'_1.mp hk).1
  omega

/-- The repository after the first commit of a session. -/
def committedLetter : Fs :=
  ((handlePacket letterEnv 1700000000 letterCommit).exec (letterSession (ascii "a.txt"))).2

def committedLines : List SessionIndex.Line := [.chunk letterRecord, .committed 1]

def secondReply : Bytes :=
  (sendText .commitAck letterCommit.sessionIdHash (commitText 2)).toOption.getD []

theorem lines_committedLetter : SessionIndex.Lines committedLetter (ascii "s") committedLines := by
  refine ⟨by decide +kernel, ?_⟩
  intro r hr
  have hr : r ∈ [letterRecord] := hr
  rw [List.mem_singleton.mp hr]
  have hsha : Hash.isSha256Hex letterRecord.sha256 = true := by decide +kernel
  exact ⟨Hash.isWord_of_isSha256Hex hsha, Hash.isWord_of_isSha256Hex hsha, by decide,
    ObjectStore.textOf_ne_nil hsha⟩

theorem recommits_letter : ∃ t, Recommits letterEnv (ascii "s") committedLetter [2] t := by
  have hopen : openCommit letterCommit = .ok (ascii "s", 1) := by decide +kernel
  have hx : ((handlePacket letterEnv 1700000000 letterCommit).exec committedLetter).1 =
      .ok secondReply := by decide +kernel
  have ha : Acknowledges letterCommit 2 secondReply := by decide +kernel
  exact ⟨_, .snoc .nil hopen (Prog.exec_of_fst hx) ha⟩

theorem latest_committedLetter : Latest committedLetter 1 := by
  have hx : (listCommittedVersions.exec committedLetter).1 = .ok [1] := by decide +kernel
  have hlist := (listCommittedVersions_ok (Prog.exec_of_fst hx)).2.1
  constructor
  · intro w hw
    rw [List.mem_singleton.mp ((hlist w).mpr hw)]
    exact Nat.le_refl 1
  · exact .inr ⟨1, (hlist 1).mp (List.mem_singleton_self 1), rfl⟩

theorem letter_makes_a_second_version :
    ∃ t, Recommits letterEnv (ascii "s") committedLetter [2] t ∧ Listed t 1 ∧ Listed t 2 ∧
      HasFiles t (filesOf letterEnv (ascii "s") committedLines) 2 := by
  obtain ⟨t, hr⟩ := recommits_letter
  have hlatest := latest_committedLetter
  obtain ⟨_, hlisted, _, hfiles⟩ := every_commit_makes_a_version hlatest lines_committedLetter hr
  obtain ⟨w, hw, he⟩ := hlatest.attained.resolve_left (by decide)
  have hone : w = 1 := UInt64.toNat_inj.mp he
  exact ⟨t, hr, (hlisted 1).mpr (.inl (hone ▸ hw)), (hlisted 2).mpr (.inr ⟨by simp, by decide⟩),
    hfiles 2 (by simp)⟩

/-- The second commit of a session, which carries the record of the first, is answered with
another version. -/
theorem second_commit_is_not_idempotent :
    SessionIndex.Lines committedLetter (ascii "s") committedLines ∧
      SessionIndex.Line.committed 1 ∈ committedLines ∧
      ¬Idempotent letterEnv (ascii "s") 1 committedLetter := by
  refine ⟨lines_committedLetter, by simp [committedLines], fun h => ?_⟩
  obtain ⟨t, hr⟩ := recommits_letter
  have hsame := (h [2] t hr).2 2 (by simp)
  exact absurd hsame (by decide)

end Dpc
