import Dpc.Core.RawFrames
import Dpc.Metadata.MaintenanceFacts
import Dpc.Network.GroupFacts
import Dpc.Network.ServerFacts

namespace Dpc
open Text FileTree Effects ManifestStore ObjectStore BackupEngine

/-- What can be done to a repository. A packet is a chunk, a commit, or one of the others. -/
inductive Operation where
  | create (now : UInt64) (fault : FaultStage) (source : Source) (mode : ChunkingMode)
  | handle (now : UInt64) (packet : Packet)
  | recover
  | checkpoint
  | compact

namespace Operation

def prog (env : Env) : Operation → Op Unit
  | create now fault source mode => do let _ ← BackupEngine.create env now fault source mode
  | handle now packet => do let _ ← BackupServer.handlePacket env now packet
  | recover => do let _ ← RecoveryManager.recover env
  | checkpoint => do let _ ← writeCheckpoint env
  | compact => MetadataCompactor.compact env

/-- The manifest that an operation builds when it starts in a state. -/
def builds (env : Env) (s : Fs) : Operation → Option Manifest
  | create now fault source mode =>
    match (BackupEngine.buildManifest env now fault source mode).exec s with
    | (.ok p, _) => some p.manifest
    | _ => none
  | handle now packet =>
    if packet.type = .commitSession then
      match (BackupServer.buildManifest env now packet).exec s with
      | (.ok built, _) => some built.2
      | _ => none
    else none
  | _ => none

end Operation

/-- An operation that was started, with the effects that it had until it ended or was
stopped. -/
structure Event where
  op : Operation
  start : Fs
  effects : List FsEffect

/-- `CommitMarker::create` took effect for the version. -/
def Event.Marks (e : Event) (v : UInt64) : Prop :=
  ∃ data mode, .replace (commitPath v) data mode ∈ e.effects

/-- Operations one after another, each stopped after any of its effects. -/
inductive Steps (env : Env) (s : Fs) : List Event → Fs → Prop where
  | nil : Steps env s [] s
  | snoc {log : List Event} {op : Operation} {is : List FsEffect} {t u : Fs}
      (h : Steps env s log t) (hc : Prog.Cut (op.prog env) t is u) :
      Steps env s (log ++ [⟨op, t, is⟩]) u

variable {env : Env} {s t u a b : Fs} {op : Operation} {i : FsEffect} {is : List FsEffect}
  {log log' : List Event} {v : UInt64} {m : Manifest}

theorem Steps.append (h : Steps env s log t) (h' : Steps env t log' u) :
    Steps env s (log ++ log') u := by
  induction h' with
  | nil => rwa [List.append_nil]
  | snoc _ hc ih =>
    rw [← List.append_assoc]
    exact .snoc ih hc

/-- Every object that the chunks of a manifest name is there. -/
def Present (t : Fs) (m : Manifest) : Prop :=
  ∀ file ∈ m.files, ∀ ref ∈ file.chunks,
    ∃ p, absoluteObjectPath ref.objectPath = .ok p ∧ (t.leaf? p).isSome

/-- The effects that an operation has in a state. -/
inductive Allowed (env : Env) (op : Operation) (start a : Fs) : FsEffect → Prop where
  | scratch {i : FsEffect} (h : ∀ q ∈ i.touches, Scratch q) : Allowed env op start a i
  | object {sha data : Bytes} {mode : UInt32} (h : a.leaf? (pathOf sha) = none) :
      Allowed env op start a (.replace (pathOf sha) data mode)
  | record {sessionId : Bytes} {r : ReceivedChunkRecord} {mode : UInt32} {e : Exn}
      (hw : SessionIndex.Writable r) (hsha : Hash.isSha256Hex r.sha256 = true)
      (hpath : r.objectPath = textOf r.sha256) (hobject : (a.leaf? (pathOf r.sha256)).isSome) :
      Allowed env op start a (.append (SessionIndex.path sessionId) (SessionIndex.recordLine r) mode e)
  | committed {sessionId : Bytes} {v : UInt64} {mode : UInt32} {e : Exn} :
      Allowed env op start a
        (.append (SessionIndex.path sessionId) (SessionIndex.committedLine v) mode e)
  | rename {v : UInt64} (h : ¬Listed a v) :
      Allowed env op start a (.rename (tmpManifestPath v) (manifestPath v))
  | marker {m : Manifest} {f : File} {data : Bytes} {mode : UInt32}
      (hbuilds : op.builds env start = some m) (hfile : a.leaf? (manifestPath m.version) = some f)
      (hdata : f.data = serialize m) (hpresent : Present a m) :
      Allowed env op start a (.replace (commitPath m.version) data mode)

namespace Allowed

theorem scratch_effects {start : Fs} :
    ScratchEffects fun i a _ => Allowed env op start a i := fun _ _ _ h => .scratch h

theorem not_scratch_manifests {q : Path} (h : q.head? = some (ascii "manifests")) : ¬Scratch q := by
  intro hs
  rcases hs with hs | rfl | rfl
  · rw [h] at hs
    exact absurd hs (by decide)
  · exact absurd h (by decide)
  · exact absurd h (by decide)

theorem not_scratch_object {q : Path} (h : InObjects q) : ¬Scratch q := by
  intro hs
  rcases hs with hs | rfl | rfl
  · rw [h] at hs
    exact absurd hs (by decide)
  · exact absurd h (by decide)
  · exact absurd h (by decide)

theorem not_scratch_session (sessionId : Bytes) : ¬Scratch (SessionIndex.path sessionId) := by
  intro hs
  rcases hs with hs | hs | hs
  · exact absurd hs (show some (ascii "metadata") ≠ some (ascii "tmp") by decide)
  · exact SessionIndex.path_ne_wal sessionId hs
  · exact SessionIndex.path_ne_checkpoint sessionId hs

variable {start : Fs}

/-- Below `manifests` an effect falls on a manifest that is not listed, or on a marker. -/
theorem touches_manifests (h : Allowed env op start a i) {q : Path} (hq : q ∈ i.touches)
    (hhead : q.head? = some (ascii "manifests")) :
    (∃ v, q = manifestPath v ∧ ¬Listed a v) ∨ ∃ v data mode, i = .replace (commitPath v) data mode ∧
      q = commitPath v := by
  cases h with
  | scratch hs => exact absurd (hs q hq) (not_scratch_manifests hhead)
  | object =>
    rw [List.mem_singleton.mp hq] at hhead
    exact absurd hhead (show some (ascii "objects") ≠ some (ascii "manifests") by decide)
  | record =>
    rw [List.mem_singleton.mp hq] at hhead
    exact absurd hhead (show some (ascii "metadata") ≠ some (ascii "manifests") by decide)
  | committed =>
    rw [List.mem_singleton.mp hq] at hhead
    exact absurd hhead (show some (ascii "metadata") ≠ some (ascii "manifests") by decide)
  | rename hn =>
    simp only [FsEffect.touches, List.mem_cons, List.not_mem_nil, or_false] at hq
    rcases hq with rfl | rfl
    · exact absurd hhead (show some (ascii "tmp") ≠ some (ascii "manifests") by decide)
    · exact .inl ⟨_, rfl, hn⟩
  | marker => exact .inr ⟨_, _, _, rfl, List.mem_singleton.mp hq⟩

/-- Objects stay as they are. -/
theorem kept (h : Allowed env op start a i) (ha : Effect.apply i a = .ok b) : Kept a b := by
  intro q f hq hf
  suffices q ∉ i.touches by rw [FsEffect.apply_frame ha this, hf]
  intro hm
  cases h with
  | scratch hs => exact not_scratch_object hq (hs q hm)
  | object hn =>
    rw [List.mem_singleton.mp hm, hn] at hf
    contradiction
  | record =>
    rw [List.mem_singleton.mp hm] at hq
    exact SessionIndex.not_inObjects_path _ hq
  | committed =>
    rw [List.mem_singleton.mp hm] at hq
    exact SessionIndex.not_inObjects_path _ hq
  | rename =>
    simp only [FsEffect.touches, List.mem_cons, List.not_mem_nil, or_false] at hm
    rcases hm with rfl | rfl
    · exact not_inObjects_tmp _ hq
    · exact not_inObjects_manifest _ hq
  | marker =>
    rw [List.mem_singleton.mp hm] at hq
    exact not_inObjects_commit _ hq

/-- A version that is listed stays listed, and its manifest stays as it is. -/
theorem stays (h : Allowed env op start a i) (ha : Effect.apply i a = .ok b) (hl : Listed a v) :
    Listed b v ∧ b.leaf? (manifestPath v) = a.leaf? (manifestPath v) := by
  constructor
  · refine ⟨hl.1, ?_⟩
    by_cases hm : commitPath v ∈ i.touches
    · rcases h.touches_manifests hm rfl with ⟨w, he, _⟩ | ⟨w, data, mode, rfl, he⟩
      · exact absurd he.symm (manifestPath_ne_commitPath w v)
      · rw [(FsEffect.replace_ok ha).leaf?, if_pos he]
        rfl
    · rw [FsEffect.apply_frame ha hm]
      exact hl.2
  · refine FsEffect.apply_frame ha fun hm => ?_
    rcases h.touches_manifests hm rfl with ⟨w, he, hn⟩ | ⟨w, _, _, _, he⟩
    · rw [manifestPath_injective he] at hl
      exact hn hl
    · exact manifestPath_ne_commitPath v w he

/-- Only its marker adds a version to the list. -/
theorem adds (h : Allowed env op start a i) (ha : Effect.apply i a = .ok b) (hl : Listed b v) :
    Listed a v ∨ ∃ data mode, i = .replace (commitPath v) data mode := by
  by_cases hm : commitPath v ∈ i.touches
  · rcases h.touches_manifests hm rfl with ⟨w, he, _⟩ | ⟨w, data, mode, hi, he⟩
    · exact absurd he.symm (manifestPath_ne_commitPath w v)
    · rw [he]
      exact .inr ⟨data, mode, hi⟩
  · exact .inl ((listed_congr (FsEffect.apply_frame ha hm)).mp hl)

end Allowed

theorem Present.kept (h : Present a m) (hk : Kept a b) : Present b m := by
  intro file hf ref hr
  obtain ⟨p, hp, hsome⟩ := h file hf ref hr
  obtain ⟨f, hleaf⟩ := Option.isSome_iff_exists.mp hsome
  have hin : InObjects p := by
    simp only [absoluteObjectPath, bind, Except.bind, pure, Except.pure, throw, throwThe,
      MonadExceptOf.throw] at hp
    split at hp
    · contradiction
    · split at hp
      · contradiction
      · rename_i hhead
        cases hp
        exact not_not.mp hhead
  exact ⟨p, hp, Option.isSome_iff_exists.mpr ⟨f, hk p f hin hleaf⟩⟩

/-- The version was made by an operation of the log, and is whole. -/
def Origin (env : Env) (log : List Event) (t : Fs) (v : UInt64) : Prop :=
  ∃ e ∈ log, ∃ m, e.op.builds env e.start = some m ∧ e.Marks v ∧ m.version = v ∧
    (∃ f, t.leaf? (manifestPath v) = some f ∧ f.data = serialize m) ∧ Present t m

/-- What a record of a session names is there. -/
def Backed (t : Fs) (r : ReceivedChunkRecord) : Prop :=
  Hash.isSha256Hex r.sha256 = true ∧ r.objectPath = textOf r.sha256 ∧
    (t.leaf? (pathOf r.sha256)).isSome

theorem Backed.kept {r : ReceivedChunkRecord} (h : Backed a r) (hk : Kept a b) : Backed b r := by
  obtain ⟨hsha, hpath, hsome⟩ := h
  obtain ⟨f, hf⟩ := Option.isSome_iff_exists.mp hsome
  exact ⟨hsha, hpath, Option.isSome_iff_exists.mpr ⟨f, hk _ f (inObjects_pathOf _) hf⟩⟩

/-- The invariant of a repository with the log of what was done to it. -/
structure Sound (env : Env) (log : List Event) (t : Fs) : Prop where
  nameMax : t.nameMax = nameMax255
  dir : t.leaf? manifestsDir = none
  parses : Parses t
  versions : ∀ v, Listed t v → Origin env log t v
  sessions : ∀ sessionId, ∃ lines, SessionIndex.Lines t sessionId lines ∧
    ∀ r ∈ lines.filterMap SessionIndex.Line.record?, Backed t r

theorem sound_empty : Sound env [] emptyRepo where
  nameMax := rfl
  dir := leaf?_emptyRepo _
  parses name hname := by simp at hname
  versions v hl := by
    have := hl.2
    simp at this
  sessions sessionId := ⟨[], ⟨by simp [SessionIndex.textOf], by simp⟩, by simp⟩

theorem Origin.stays {op : Operation} {start : Fs} (h : Origin env (log ++ [⟨op, start, is⟩]) a v)
    (hallowed : Allowed env op start a i) (ha : Effect.apply i a = .ok b) (hl : Listed a v) :
    Origin env (log ++ [⟨op, start, is ++ [i]⟩]) b v := by
  obtain ⟨e, he, m, hbuilds, hmarks, hv, hfile, hpresent⟩ := h
  have hfile' : ∃ f, b.leaf? (manifestPath v) = some f ∧ f.data = serialize m := by
    rw [(hallowed.stays ha hl).2]
    exact hfile
  have hpresent' := hpresent.kept (hallowed.kept ha)
  rcases List.mem_append.mp he with he | he
  · exact ⟨e, List.mem_append_left _ he, m, hbuilds, hmarks, hv, hfile', hpresent'⟩
  · rw [List.mem_singleton.mp he] at hbuilds hmarks
    obtain ⟨data, mode, hm⟩ := hmarks
    exact ⟨_, List.mem_append_right _ (List.mem_singleton_self _), m, hbuilds,
      ⟨data, mode, List.mem_append_left _ hm⟩, hv, hfile', hpresent'⟩

theorem Sound.parses_step {op : Operation} {start : Fs} (h : Parses a)
    (hallowed : Allowed env op start a i) (ha : Effect.apply i a = .ok b) : Parses b := by
  intro name hname hm
  by_cases hq : manifestsDir ++ [name] ∈ i.touches
  · rcases hallowed.touches_manifests hq rfl with ⟨v, he, _⟩ | ⟨v, _, _, _, he⟩
    · simp only [manifestPath, List.append_cancel_left_eq, List.cons.injEq, and_true] at he
      rw [he, not_marker_manifest] at hm
      contradiction
    · simp only [commitPath, List.append_cancel_left_eq, List.cons.injEq, and_true] at he
      rw [he] at hm ⊢
      exact ⟨v, markerNumber_versionFileName ((isMarkerName_versionFileName v).mp hm)⟩
  · rw [FsEffect.apply_frame ha hq] at hname
    exact h name hname hm

theorem Sound.sessions_step {op : Operation} {start : Fs} {sessionId : Bytes}
    {lines : List SessionIndex.Line} (h : SessionIndex.Lines a sessionId lines)
    (hbacked : ∀ r ∈ lines.filterMap SessionIndex.Line.record?, Backed a r)
    (hallowed : Allowed env op start a i) (ha : Effect.apply i a = .ok b) :
    ∃ lines, SessionIndex.Lines b sessionId lines ∧
      ∀ r ∈ lines.filterMap SessionIndex.Line.record?, Backed b r := by
  have hk := hallowed.kept ha
  by_cases hq : SessionIndex.path sessionId ∈ i.touches
  · cases hallowed with
    | scratch hs => exact absurd (hs _ hq) (Allowed.not_scratch_session sessionId)
    | object =>
      have he := List.mem_singleton.mp hq
      exact absurd he (ne_of_head (show some (ascii "metadata") ≠ some (ascii "objects") by decide))
    | record hw hsha hpath hobject =>
      rename_i sessionId' r mode e
      have he := SessionIndex.path_injective (List.mem_singleton.mp hq)
      subst he
      refine ⟨lines ++ [.chunk r], ⟨?_, ?_⟩, ?_⟩
      · rw [SessionIndex.textOf_append ha, h.text]
        simp [SessionIndex.Line.text]
      · intro x hx
        rw [List.filterMap_append, List.mem_append] at hx
        rcases hx with hx | hx
        · exact h.writable x hx
        · rw [show x = r by simpa [SessionIndex.Line.record?] using hx]
          exact hw
      · intro x hx
        rw [List.filterMap_append, List.mem_append] at hx
        rcases hx with hx | hx
        · exact (hbacked x hx).kept hk
        · rw [show x = r by simpa [SessionIndex.Line.record?] using hx]
          exact Backed.kept ⟨hsha, hpath, hobject⟩ hk
    | committed =>
      rename_i sessionId' v mode e
      have he := SessionIndex.path_injective (List.mem_singleton.mp hq)
      subst he
      have hrecords : (lines ++ [SessionIndex.Line.committed v]).filterMap SessionIndex.Line.record? =
          lines.filterMap SessionIndex.Line.record? := by simp [SessionIndex.Line.record?]
      refine ⟨lines ++ [.committed v], ⟨?_, ?_⟩, ?_⟩
      · rw [SessionIndex.textOf_append ha, h.text]
        simp [SessionIndex.Line.text]
      · rw [hrecords]
        exact h.writable
      · rw [hrecords]
        exact fun x hx => (hbacked x hx).kept hk
    | rename =>
      simp only [FsEffect.touches, List.mem_cons, List.not_mem_nil, or_false] at hq
      rcases hq with he | he
      · exact absurd he (SessionIndex.path_ne_tmp sessionId _)
      · exact absurd he (SessionIndex.path_ne_manifest sessionId _)
    | marker => exact absurd (List.mem_singleton.mp hq) (SessionIndex.path_ne_commit sessionId _)
  · exact ⟨lines, h.congr (FsEffect.apply_frame ha hq), fun r hr => (hbacked r hr).kept hk⟩

/-- The step lemma: an effect that is allowed keeps the invariant. -/
theorem Sound.step {op : Operation} {start : Fs} (h : Sound env (log ++ [⟨op, start, is⟩]) a)
    (hallowed : Allowed env op start a i) (ha : Effect.apply i a = .ok b) :
    Sound env (log ++ [⟨op, start, is ++ [i]⟩]) b where
  nameMax := by rw [FsEffect.apply_nameMax ha, h.nameMax]
  dir := by
    rw [FsEffect.apply_frame ha, h.dir]
    intro hq
    rcases hallowed.touches_manifests hq rfl with ⟨v, he, _⟩ | ⟨v, _, _, _, he⟩
    · exact absurd (congrArg List.length he) (show 1 ≠ 2 by decide)
    · exact absurd (congrArg List.length he) (show 1 ≠ 2 by decide)
  parses := Sound.parses_step h.parses hallowed ha
  versions v hl := by
    rcases hallowed.adds ha hl with hold | ⟨data, mode, rfl⟩
    · exact (h.versions v hold).stays hallowed ha hold
    · by_cases hold : Listed a v
      · exact (h.versions v hold).stays hallowed ha hold
      -- The marker is new, so the effect is the one of the manifest that was built.
      · generalize hi : FsEffect.replace (commitPath v) data mode = i at hallowed
        have hk := hallowed.kept (hi ▸ ha)
        cases hallowed with
        | scratch hs =>
          subst hi
          exact absurd (hs _ (List.mem_singleton_self _)) (Allowed.not_scratch_manifests rfl)
        | object =>
          have he := (FsEffect.replace.inj hi).1
          exact absurd he (ne_of_head (show some (ascii "manifests") ≠ some (ascii "objects") by decide))
        | record => contradiction
        | committed => contradiction
        | rename => contradiction
        | marker hbuilds hfile hdata hpresent =>
          rename_i m f data' mode'
          have hv := commitPath_injective (FsEffect.replace.inj hi).1
          subst hv
          refine ⟨_, List.mem_append_right _ (List.mem_singleton_self _), m, hbuilds,
            ⟨data', mode', List.mem_append_right _ (List.mem_singleton_self _)⟩, rfl,
            ⟨f, ?_, hdata⟩, hpresent.kept hk⟩
          rw [(FsEffect.replace_ok ha).leaf?, if_neg (manifestPath_ne_commitPath _ _), hfile]
  sessions sessionId := by
    obtain ⟨lines, hlines, hbacked⟩ := h.sessions sessionId
    exact Sound.sessions_step hlines hbacked hallowed ha

end Dpc
