import Dpc.Guarantees.Sources
import Dpc.Network.ServerFacts

namespace Dpc
open Text FileTree Effects ManifestStore BackupEngine BackupServer

variable {env : Env} {s t u : Fs} {v : UInt64} {vs : List UInt64}

/-- An operation that succeeds, with the version that it returns or acknowledges. -/
inductive Publishes (env : Env) : Fs → UInt64 → Fs → Prop where
  | create {now : UInt64} {fault : FaultStage} {source : Source} {mode : ChunkingMode} {s t : Fs}
      {r : BackupResult} (h : (create env now fault source mode).exec s = (.ok r, t)) :
      Publishes env s r.version t
  | commit {now : UInt64} {packet : Packet} {s t : Fs} {reply : Bytes} {v : UInt64}
      (h : (handlePacket env now packet).exec s = (.ok reply, t))
      (ha : Acknowledges packet v reply) : Publishes env s v t

/-- The run of some operations, with the versions in the order in which they came. Between
them the server may have other packets to handle, chunks above all. -/
inductive Run (env : Env) (s : Fs) : List UInt64 → Fs → Prop where
  | nil : Run env s [] s
  | snoc {vs : List UInt64} {v : UInt64} {t u : Fs} (h : Run env s vs t)
      (hp : Publishes env t v u) : Run env s (vs ++ [v]) u
  | packet {vs : List UInt64} {t : Fs} {now : UInt64} {packet : Packet} (h : Run env s vs t)
      (hp : packet.type ≠ .commitSession) : Run env s vs ((handlePacket env now packet).exec t).2

/-- A path that tells nothing about the other versions. -/
def OwnPath (v : UInt64) (q : Path) : Prop :=
  q = manifestPath v ∨ q = commitPath v ∨ q.head? ≠ some (ascii "manifests")

/-- What an operation that succeeds does to the list of versions. -/
structure Published (s : Fs) (v : UInt64) (t : Fs) : Prop where
  next : NextOf s v
  frame : Frame (OwnPath v) s t
  marker : (t.leaf? (commitPath v)).isSome

theorem ownPath_of_publish {q : Path} (h : PublishPath v q) : OwnPath v q := by
  rcases h with rfl | rfl | rfl | rfl | rfl
  · exact .inr (.inr (show some (ascii "tmp") ≠ some (ascii "manifests") by decide))
  · exact .inl rfl
  · exact .inr (.inl rfl)
  · exact .inr (.inr (by decide))
  · exact .inr (.inr (by decide))

theorem ownPath_of_backup {q : Path} (h : BackupPath q) : OwnPath v q := by
  rcases h with h | rfl
  · refine .inr (.inr ?_)
    rw [h]
    decide
  · exact .inr (.inr (by decide))

theorem ownPath_session (sessionId : Bytes) : OwnPath v (SessionIndex.path sessionId) :=
  .inr (.inr (show some (ascii "metadata") ≠ some (ascii "manifests") by decide))

theorem Publishes.published (h : Publishes env s v t) : Published s v t := by
  cases h with
  | create h =>
    obtain ⟨m, hv, hc⟩ := create_ok h
    obtain ⟨u, hb, hf⟩ := hc.built
    rw [hv]
    refine ⟨hb.next, ?_, hc.marker⟩
    exact (hb.frame.mono fun q hq => ownPath_of_backup hq).trans
      (hf.mono fun q hq => ownPath_of_publish hq)
  | commit h ha =>
    obtain ⟨_, sessionId, rs, m, rfl, hc⟩ := commit_ok h ha
    obtain ⟨u, hg, _, hf⟩ := hc.gathered
    refine ⟨hg.next, ?_, hc.marker⟩
    refine (hg.frame.mono fun q hq => ownPath_of_backup (.inr hq)).trans (hf.mono fun q hq => ?_)
    rcases hq with hq | rfl
    · exact ownPath_of_publish hq
    · exact ownPath_session sessionId

namespace Published

theorem leaf?_commitPath (h : Published s v t) {w : UInt64} (hw : w ≠ v) :
    t.leaf? (commitPath w) = s.leaf? (commitPath w) := by
  refine h.frame _ ?_
  intro hq
  rcases hq with hq | hq | hq
  · exact manifestPath_ne_commitPath v w hq.symm
  · exact hw (commitPath_injective hq)
  · exact hq rfl

/-- Its own version is new on the list, if the list takes it, and the others stay. -/
theorem listed_iff (h : Published s v t) (w : UInt64) :
    Listed t w ↔ Listed s w ∨ w = v ∧ v.toNat < 10 ^ 6 := by
  by_cases hw : w = v
  · subst hw
    rw [or_iff_right h.next.fresh]
    simp only [Listed, h.marker, and_true, true_and]
  · rw [listed_congr (h.leaf?_commitPath hw)]
    simp [hw]

theorem parses (h : Published s v t) : Parses t := by
  intro name hname hm
  by_cases hq : OwnPath v (manifestsDir ++ [name])
  · rcases hq with hq | hq | hq
    · simp only [manifestPath, List.append_cancel_left_eq, List.cons.injEq, and_true] at hq
      rw [hq, not_marker_manifest] at hm
      contradiction
    · simp only [commitPath, List.append_cancel_left_eq, List.cons.injEq, and_true] at hq
      rw [hq] at hm ⊢
      exact ⟨v, markerNumber_versionFileName ((isMarkerName_versionFileName v).mp hm)⟩
    · exact absurd rfl hq
  · rw [h.frame _ hq] at hname
    exact h.next.parses name hname hm

end Published

/-- The latest version that is listed, or zero. -/
structure Latest (s : Fs) (n : Nat) : Prop where
  above : ∀ w, Listed s w → w.toNat ≤ n
  attained : n = 0 ∨ ∃ w, Listed s w ∧ w.toNat = n

theorem Latest.lt {n : Nat} (h : Latest s n) : n < 10 ^ 6 := by
  rcases h.attained with h0 | ⟨w, hw, hn⟩
  · omega
  · have := hw.1
    omega

theorem Latest.next {n : Nat} (h : Latest s n) (hv : NextOf s v) : v.toNat = n + 1 := by
  rcases hv.next with ⟨rfl, hno⟩ | ⟨w, hw, hn⟩
  · rcases h.attained with h0 | ⟨w, hw, _⟩
    · simp [h0]
    · exact absurd hw (hno w)
  · have hle := h.above w hw
    rcases h.attained with h0 | ⟨w', hw', hn'⟩
    · omega
    · have := UInt64.lt_iff_toNat_lt.mp (hv.above w' hw')
      omega

/-- Where the names are the same, so is the list. -/
theorem names_of_quiet (h : Frame ChunkPath s t) (name : Name) :
    t.leaf? (manifestsDir ++ [name]) = s.leaf? (manifestsDir ++ [name]) := by
  refine h _ ?_
  intro hq
  rcases hq with hq | ⟨sessionId, hq⟩
  · exact absurd hq (show some (ascii "manifests") ≠ some (ascii "objects") by decide)
  · exact absurd hq (ne_of_head (show some (ascii "manifests") ≠ some (ascii "metadata") by decide))

theorem Latest.quiet {n : Nat} (hf : Frame ChunkPath s t) (h : Latest s n) : Latest t n := by
  have hl : ∀ w, Listed t w ↔ Listed s w := fun w => listed_congr (names_of_quiet hf _)
  refine ⟨fun w hw => h.above w ((hl w).mp hw), ?_⟩
  rcases h.attained with h0 | ⟨w, hw, hn⟩
  · exact .inl h0
  · exact .inr ⟨w, (hl w).mpr hw, hn⟩

/-- The step lemma: below a million the next version is one more, and is then the latest. -/
theorem Latest.step {n : Nat} (h : Latest s n) (hp : Published s v t) (hn : n + 1 < 10 ^ 6) :
    Latest t (n + 1) ∧ Listed t v := by
  have hv := h.next hp.next
  have hlisted : Listed t v := (hp.listed_iff v).mpr (.inr ⟨rfl, by omega⟩)
  refine ⟨⟨fun w hw => ?_, .inr ⟨v, hlisted, hv⟩⟩, hlisted⟩
  rcases (hp.listed_iff w).mp hw with hold | ⟨rfl, _⟩
  · have := h.above w hold
    omega
  · omega

/-- The run lemma: below a million the versions are the numbers after the latest, each is
on the list, and the last one is the latest. -/
theorem Run.counts {n : Nat} (hl : Latest s n) (h : Run env s vs t)
    (hn : n + vs.length < 10 ^ 6) :
    vs.map UInt64.toNat = List.range' (n + 1) vs.length ∧ Latest t (n + vs.length) ∧
      (∀ v ∈ vs, Listed t v) ∧ (vs ≠ [] → Parses t) := by
  induction h with
  | nil => exact ⟨rfl, hl, by simp, by simp⟩
  | snoc h hp ih =>
    rename_i vs v t u
    rw [List.length_append, List.length_singleton] at hn
    obtain ⟨hmap, hlatest, hall, _⟩ := ih (by omega)
    have hpub := hp.published
    obtain ⟨hstep, hv⟩ := hlatest.step hpub (by omega)
    refine ⟨?_, ?_, ?_, fun _ => hpub.parses⟩
    · rw [List.map_append, hmap, List.map_singleton, hlatest.next hpub.next, List.length_append,
        List.length_singleton, List.range'_1_concat]
      simp only [List.append_cancel_left_eq, List.cons.injEq, and_true]
      omega
    · rw [List.length_append, List.length_singleton, ← Nat.add_assoc]
      exact hstep
    · intro w hw
      rcases List.mem_append.mp hw with hw | hw
      · exact (hpub.listed_iff w).mpr (.inl (hall w hw))
      · rw [List.mem_singleton.mp hw]
        exact hv
  | packet h hp ih =>
    obtain ⟨hmap, hlatest, hall, hparses⟩ := ih hn
    rename_i vs t now packet
    have hf : Frame ChunkPath t ((handlePacket env now packet).exec t).2 := quiet_frame hp
    refine ⟨hmap, hlatest.quiet hf, fun w hw => ?_, fun hne name hname => ?_⟩
    · exact (listed_congr (names_of_quiet hf _)).mpr (hall w hw)
    · exact hparses hne name (by rwa [← names_of_quiet hf])

/-- A run that gets there returns the version one million. -/
theorem Run.million {n : Nat} (hl : Latest s n) (h : Run env s vs t) (hne : vs ≠ [])
    (hn : 10 ^ 6 ≤ n + vs.length) : ∃ v ∈ vs, v.toNat = 10 ^ 6 := by
  induction h with
  | nil => contradiction
  | snoc h hp ih =>
    rename_i vs v t u
    rw [List.length_append, List.length_singleton] at hn
    by_cases hsmall : n + vs.length < 10 ^ 6
    · obtain ⟨_, hlatest, _⟩ := h.counts hl hsmall
      have hv := hlatest.next hp.published.next
      exact ⟨v, by simp, by omega⟩
    · have hvs : vs ≠ [] := by
        rintro rfl
        have := hl.lt
        simp at hsmall
        omega
      obtain ⟨w, hw, hn⟩ := ih hvs (by omega)
      exact ⟨w, by simp [hw], hn⟩
  | packet h hp ih => exact ih hne hn

/-- The versions of a run are all different and on the list, exactly when the run ends
before the number that takes a seventh digit. -/
theorem run_versions_fresh_iff {n : Nat} (hl : Latest s n) (h : Run env s vs t) :
    (vs.Nodup ∧ ∀ v ∈ vs, InList t v) ↔ vs = [] ∨ n + vs.length < 10 ^ 6 := by
  constructor
  · intro ⟨_, hall⟩
    by_cases hne : vs = []
    · exact .inl hne
    · refine .inr (Nat.lt_of_not_le fun hn => ?_)
      obtain ⟨v, hv, hm⟩ := h.million hl hne hn
      have := (hall v hv).listed.1
      omega
  · intro hor
    rcases hor with rfl | hn
    · exact ⟨.nil, by simp⟩
    · obtain ⟨hmap, _, hall, hparses⟩ := h.counts hl hn
      refine ⟨?_, fun v hv => .of_listed (hparses (List.ne_nil_of_mem hv)) (hall v hv)⟩
      refine List.Nodup.of_map UInt64.toNat ?_
      rw [hmap]
      exact List.nodup_range'

def letterBackup : Op BackupResult :=
  create letterEnv 1700000000 .none (.ofWorld plainWorld [ascii "data"]) .fixed

theorem two_versions_fresh :
    ∃ t u, letterBackup.exec emptyRepo = (.ok ⟨1, 1, 1, 10, 1, 1, 0⟩, t) ∧
      letterBackup.exec t = (.ok ⟨2, 1, 1, 0, 1, 0, 1⟩, u) ∧ Run letterEnv emptyRepo [1, 2] u ∧
      [(1 : UInt64), 2].Nodup ∧ InList u 1 ∧ InList u 2 := by
  have hfirst : (letterBackup.exec emptyRepo).1 = .ok ⟨1, 1, 1, 10, 1, 1, 0⟩ := by decide +kernel
  have hsecond : (letterBackup.exec (letterBackup.exec emptyRepo).2).1 =
      .ok ⟨2, 1, 1, 0, 1, 0, 1⟩ := by decide +kernel
  have hx := Prog.exec_of_fst hfirst
  have hx' := Prog.exec_of_fst hsecond
  have hrun : Run letterEnv emptyRepo [1, 2] _ :=
    Run.snoc (Run.snoc .nil (Publishes.create hx)) (Publishes.create hx')
  have hlatest : Latest emptyRepo 0 := by
    refine ⟨fun w hw => ?_, .inl rfl⟩
    have := hw.2
    simp at this
  obtain ⟨hnodup, hall⟩ := (run_versions_fresh_iff hlatest hrun).mpr (.inr (by decide))
  exact ⟨_, _, hx, hx', hrun, hnodup, hall 1 (by simp), hall 2 (by simp)⟩

/-- A repository whose latest version is the last one with six digits. -/
def fullRepo : Fs :=
  .ofNodes nameMax255 (List.toAList [⟨[ascii "manifests"], .dir⟩,
    ⟨[ascii "manifests", ascii "version-999999.commit"], .leaf ⟨ascii "committed", 0o644⟩⟩])
    (by decide +kernel)

/-- From there on every backup has the same version, and it is not on the list. -/
theorem million_not_fresh :
    ∃ t u, letterBackup.exec fullRepo = (.ok ⟨1000000, 1, 1, 10, 1, 1, 0⟩, t) ∧
      letterBackup.exec t = (.ok ⟨1000000, 1, 1, 0, 1, 0, 1⟩, u) ∧
      (listCommittedVersions.exec u).1 = .ok [999999] := by
  have hfirst : (letterBackup.exec fullRepo).1 = .ok ⟨1000000, 1, 1, 10, 1, 1, 0⟩ := by
    decide +kernel
  have hsecond : (letterBackup.exec (letterBackup.exec fullRepo).2).1 =
      .ok ⟨1000000, 1, 1, 0, 1, 0, 1⟩ := by decide +kernel
  exact ⟨_, _, Prog.exec_of_fst hfirst, Prog.exec_of_fst hsecond, by decide +kernel⟩

end Dpc
