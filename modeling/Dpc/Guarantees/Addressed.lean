import Dpc.Core.Emitted
import Dpc.Guarantees.Acked

namespace Dpc
open Text FileTree Effects ObjectStore BackupServer

variable {env : Env} {content : Bytes → Option Bytes} {s t : Fs}

/-- A call that may put an object into the store. -/
inductive Call where
  | putRaw (raw : Bytes)
  | putChunk (now : UInt64) (packet : Packet) (type : packet.type = .putChunk)

/-- A worker makes the call and leaves its result. -/
def Call.run (env : Env) : Call → Op Unit
  | .putRaw raw => do
    let _ ← ObjectStore.putRaw env raw
    return ()
  | .putChunk now packet _ => do
    let _ ← handlePacket env now packet
    return ()

/-- The call carries the bytes: as they are, or in the frame of its chunk. -/
def Call.Carries (content : Bytes → Option Bytes) : Call → Bytes → Prop
  | .putRaw raw, bytes => bytes = raw
  | .putChunk _ packet _, bytes =>
    ∃ put, parsePutPayload packet.payload = .ok put ∧ content put.compressed = some bytes

/-- Where `<p>/<sha>.zst` lies. -/
def objectAt (p sha : Bytes) : Path := [ascii "objects", p, sha ++ ascii ".zst"]

/-- Every object unpacks to bytes from somewhere with its hash, and lies under the first two
digits. -/
def Addressed (env : Env) (content : Bytes → Option Bytes) (From : Bytes → Prop) (s : Fs) : Prop :=
  ∀ p sha f, s.leaf? (objectAt p sha) = some f → p = sha.take 2 ∧
    ∃ raw, content f.data = some raw ∧ Hash.sha256Hex env.evp raw = sha ∧ From raw

/-- The objects of one state are there in another, with frames of the same bytes. -/
def SameBytes (content : Bytes → Option Bytes) (s t : Fs) : Prop :=
  ∀ p sha f, s.leaf? (objectAt p sha) = some f →
    ∃ f', t.leaf? (objectAt p sha) = some f' ∧ content f'.data = content f.data

/-- What the calls do to the store: frames of bytes from somewhere, each put under the hash
of its bytes. -/
def Puts (env : Env) (content : Bytes → Option Bytes) (From : Bytes → Prop) : FsEffect → Prop
  | .ensureDirectory _ => True
  | .replace path data _ => ∃ raw, content data = some raw ∧ From raw ∧
      path = pathOf (Hash.sha256Hex env.evp raw)
  | .append path _ _ _ => ¬InObjects path
  | _ => False

section Emits

variable {From : Bytes → Prop} {P : FsEffect → Prop}

theorem emits_appendChunk {sessionId : Bytes} {record : ReceivedChunkRecord}
    (hdir : ∀ p, P (.ensureDirectory p))
    (happend : ∀ data mode e, P (.append (SessionIndex.path sessionId) data mode e)) :
    (SessionIndex.appendChunk env sessionId record).Emits P := by
  have hreceived : (SessionIndex.received sessionId).Emits P := by
    simp only [SessionIndex.received, SessionIndex.records, Prog.bind_eq]
    refine Prog.Emits.bind (Prog.emits_query.bind fun b => ?_) fun _ => trivial
    split
    · exact Prog.emits_query.bind fun _ => Prog.emits_ofExcept
    · trivial
  simp only [SessionIndex.appendChunk, SessionIndex.appendLine, Prog.bind_eq]
  refine hreceived.bind fun existing => ?_
  split
  · split
    · trivial
    · trivial
  · exact (emits_ensureDirectory (hdir _)).bind fun _ => Prog.emits_perform (happend _ _ _)

/-- Every call puts what it carries only. -/
theorem Call.emits (hz : env.zstd.Unpacks content) (hl : env.zstd.Lawful) {call : Call}
    (hcarry : ∀ raw, call.Carries content raw → From raw) :
    (call.run env).Emits (Puts env content From) := by
  have hdir : ∀ p, Puts env content From (.ensureDirectory p) := fun _ => trivial
  cases call with
  | putRaw raw =>
    simp only [Call.run, ObjectStore.putRaw, Prog.bind_eq]
    refine Prog.Emits.bind (Prog.Emits.bind_ofExcept fun compressed hc => ?_) fun _ => trivial
    have hraw : content compressed = some raw :=
      ((hz _ _ _).mp (hl.decompress (Compressor.compress_ok hc).2 (Nat.le_refl _))).1
    exact emits_putCompressed hdir fun _ => ⟨raw, hraw, hcarry raw rfl, rfl⟩
  | putChunk now packet type =>
    simp only [Call.run, handlePacket, type, BackupServer.putChunk, Prog.bind_eq]
    refine Prog.Emits.bind (Prog.Emits.bind_ofExcept fun opened hopen => ?_) fun _ => trivial
    obtain ⟨put, sha⟩ := opened
    obtain ⟨hput, _, raw, hraw, hsha⟩ := openPut_ok hopen
    have hcontent := Compressor.content_of_decompress hz hraw
    refine (emits_putCompressed hdir fun _ => ?_).bind fun stored => ?_
    · exact ⟨raw, hcontent, hcarry raw ⟨put, hput, hcontent⟩, by rw [hsha]⟩
    · refine (emits_appendChunk hdir fun _ _ _ => ?_).bind fun _ => Prog.emits_ofExcept
      exact SessionIndex.not_inObjects_path put.sessionId

/-- Between two moments of a run the store is still in order, and has the same bytes. -/
def Lasts (env : Env) (content : Bytes → Option Bytes) (From : Bytes → Prop) (s t : Fs) : Prop :=
  Addressed env content From s →
    Addressed env content From t ∧ (env.evp.NoCollision From → SameBytes content s t)

theorem Lasts.trans {u : Fs} (h : Lasts env content From s t) (h' : Lasts env content From t u) :
    Lasts env content From s u := by
  intro hs
  obtain ⟨ht, hst⟩ := h hs
  obtain ⟨hu, htu⟩ := h' ht
  refine ⟨hu, fun hcol p sha f hf => ?_⟩
  obtain ⟨f', hf', hc⟩ := hst hcol p sha f hf
  obtain ⟨f'', hf'', hc'⟩ := htu hcol p sha f' hf'
  exact ⟨f'', hf'', hc'.trans hc⟩

theorem Lasts.of_leaf? (h : ∀ p sha, t.leaf? (objectAt p sha) = s.leaf? (objectAt p sha)) :
    Lasts env content From s t :=
  fun hs => ⟨fun p sha f hf => hs p sha f (by rw [← h, hf]), fun _ p sha f hf => ⟨f, by rw [h, hf], rfl⟩⟩

theorem Puts.lasts {i : FsEffect} (ha : Effect.apply i s = .ok t) (h : Puts env content From i) :
    Lasts env content From s t := by
  cases i with
  | ensureDirectory p => exact .of_leaf? fun _ _ => (FsEffect.ensureDirectory_ok ha).1.leaf? _
  | append path data mode e =>
    refine .of_leaf? fun p sha => FsEffect.apply_frame ha fun hm => h ?_
    rw [← List.mem_singleton.mp hm]
    rfl
  | replace path data mode =>
    obtain ⟨raw, hraw, hfrom, rfl⟩ := h
    have hleaf := (FsEffect.replace_ok ha).leaf?
    intro hs
    refine ⟨fun p sha f hf => ?_, fun hcol p sha f hf => ?_⟩
    · rw [hleaf] at hf
      split at hf
      · rename_i he
        cases hf
        simp only [objectAt, pathOf, List.cons.injEq, and_true, true_and] at he
        obtain ⟨rfl, hsha⟩ := he
        rw [List.append_cancel_right hsha]
        exact ⟨rfl, raw, hraw, rfl, hfrom⟩
      · exact hs p sha f hf
    · rw [hleaf]
      split
      · rename_i he
        obtain ⟨_, raw', hraw', hsha', hfrom'⟩ := hs p sha f hf
        simp only [objectAt, pathOf, List.cons.injEq, and_true, true_and] at he
        have hsha := List.append_cancel_right he.2
        refine ⟨_, rfl, ?_⟩
        rw [hraw, hraw', hcol raw raw' hfrom hfrom' (hsha.symm.trans hsha'.symm)]
      · exact ⟨f, hf, rfl⟩
  | rename src dst => contradiction
  | remove path => contradiction
  | chmod path mode => contradiction

end Emits

/-- The bytes that some calls carry. -/
def Carried (content : Bytes → Option Bytes) (calls : Call → Prop) (raw : Bytes) : Prop :=
  ∃ call, calls call ∧ call.Carries content raw

/-- The programs of the workers that make the calls. -/
def Makes (env : Env) (calls : Call → Prop) (p : Op Unit) : Prop :=
  ∃ call, calls call ∧ p = call.run env

variable {calls : Call → Prop} {a b : Pool Fs FsEffect Exn} {workers : List (Op Unit)}

theorem lasts_of_reaches (hz : env.zstd.Unpacks content) (hl : env.zstd.Lawful)
    (hsafe : a.AllSafe (Lasts env content (Carried content calls))
      fun i _ _ => Puts env content (Carried content calls) i)
    (h : Pool.Reaches (Makes env calls) a b) :
    Lasts env content (Carried content calls) a.state b.state ∧
      b.AllSafe (Lasts env content (Carried content calls))
        fun i _ _ => Puts env content (Carried content calls) i := by
  refine h.rely ?_ (fun s => .of_leaf? fun _ _ => rfl) Lasts.trans (fun i s t => Puts.lasts) hsafe
  intro p s ⟨call, hcall, hp⟩
  rw [hp]
  exact (call.emits hz hl fun raw hraw => ⟨call, hcall, hraw⟩).safe s

/-- However the workers take turns, and wherever they are stopped, every object unpacks to
bytes with its hash, and an object that is there stays there with the same bytes. -/
theorem objects_stay_addressed (hz : env.zstd.Unpacks content) (hl : env.zstd.Lawful)
    (hempty : ∀ q, InObjects q → s.leaf? q = none)
    (ha : Pool.Reaches (Makes env calls) ⟨[], s⟩ a) (hb : Pool.Reaches (Makes env calls) a b) :
    Addressed env content (Carried content calls) b.state ∧
      (env.evp.NoCollision (Carried content calls) → SameBytes content a.state b.state) := by
  have hnone : Addressed env content (Carried content calls) s := by
    intro p sha f hf
    rw [hempty (objectAt p sha) rfl] at hf
    contradiction
  obtain ⟨hlasts, hsafe⟩ := lasts_of_reaches hz hl (fun p hp => by contradiction) ha
  exact (lasts_of_reaches hz hl hsafe hb).1 (hlasts hnone).1

def letterRaw : Call := .putRaw (ascii "a")

def letterChunk : Call := .putChunk 1700000000 (letterPut (ascii "a.txt")) rfl

/-- One call of the program's own and one of the server, with the same byte. -/
def letterCalls (call : Call) : Prop := call = letterRaw ∨ call = letterChunk

theorem carried_letterCalls {raw : Bytes} (h : Carried rawContent letterCalls raw) :
    raw = ascii "a" := by
  obtain ⟨call, rfl | rfl, hcarry⟩ := h
  · exact hcarry
  · obtain ⟨put, hput, hraw⟩ := hcarry
    have hparse : (parsePutPayload (letterPut (ascii "a.txt")).payload).map PutPayload.compressed =
        .ok (rawFrame (ascii "a")) := by decide +kernel
    rw [hput] at hparse
    rw [Except.ok.inj hparse] at hraw
    have hframe : rawContent (rawFrame (ascii "a")) = some (ascii "a") := by decide +kernel
    exact Option.some.inj (hraw.symm.trans hframe)

def after (call : Call) (s : Fs) : Fs := ((call.run letterEnv).exec s).2

theorem reaches_after {call : Call} (h : letterCalls call) (s : Fs) :
    Pool.Reaches (Makes letterEnv letterCalls) ⟨[], s⟩ ⟨[], after call s⟩ :=
  .head (.start [] s _ ⟨call, h, rfl⟩) (Pool.reaches_exec _ s [])

theorem letters_stay_addressed :
    (∃ f, (after letterRaw emptyRepo).leaf? (pathOf (Hash.bytesToHex letterA.2.val)) = some f) ∧
      Addressed letterEnv rawContent (Carried rawContent letterCalls)
        (after letterChunk (after letterRaw emptyRepo)) ∧
      SameBytes rawContent (after letterRaw emptyRepo)
        (after letterChunk (after letterRaw emptyRepo)) := by
  have hraw := @reaches_after letterRaw (.inl rfl) emptyRepo
  have hchunk := @reaches_after letterChunk (.inr rfl) (after letterRaw emptyRepo)
  have hz : letterEnv.zstd.Unpacks rawContent := Zstd.raw_unpacks
  have hl : letterEnv.zstd.Lawful := Zstd.raw_lawful
  obtain ⟨haddressed, hsame⟩ := objects_stay_addressed hz hl (fun q _ => leaf?_emptyRepo q) hraw hchunk
  dsimp only at haddressed hsame
  refine ⟨⟨⟨rawFrame (ascii "a"), 0o644⟩, by decide +kernel⟩, haddressed, hsame ?_⟩
  exact Evp.noCollision_of_eq fun _ => carried_letterCalls

end Dpc
