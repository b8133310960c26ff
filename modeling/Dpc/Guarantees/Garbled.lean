import Dpc.Guarantees.Addressed
import Dpc.Guarantees.Concurrent
import Dpc.Guarantees.Immutable
import Dpc.Guarantees.Visible
import Dpc.Lib.Cuts
import Dpc.Metadata.UpkeepEmitted
import Dpc.Metadata.WalFormat
import Dpc.Network.UploadFacts

/-! A log that was spoilt, and what makes it readable again. -/

namespace Dpc
open Text FileTree Effects Framing ManifestStore ObjectStore

variable {env : Env} {s t u w : Fs} {now : UInt64} {packet : Packet} {P : FsEffect → Prop}
  {log : List Event} {op : Operation} {records : List WalRecord}

/-- `corrupt_repo --wal-garbage`. -/
def corruptWal (env : Env) : Op Unit :=
  .perform (.append WalLog.walPath (ascii "garbage") (0o666 &&& ~~~env.umask)
    (dpcError "open wal failed for corruption"))

/-- All that the operations have to be allowed to do, but for the compaction. -/
structure MayWork (P : FsEffect → Prop) : Prop where
  dir : ∀ p, P (.ensureDirectory p)
  wal : ∀ data mode e, P (.append WalLog.walPath data mode e)
  object : ∀ sha data mode, P (.replace (pathOf sha) data mode)
  session : ∀ sessionId data mode e, P (.append (SessionIndex.path sessionId) data mode e)
  staged : ∀ version data mode, P (.replace (tmpManifestPath version) data mode)
  renamed : ∀ version, P (.rename (tmpManifestPath version) (manifestPath version))
  marker : ∀ version data mode, P (.replace (commitPath version) data mode)
  checkpoint : ∀ data mode, P (.replace Checkpoint.path data mode)
  removed : ∀ name, P (.remove (tmpDir ++ [name]))

theorem MayWork.backup (h : MayWork P) : BackupEngine.MayBackUp env P :=
  ⟨h.dir, h.wal, fun _ _ _ _ => h.object _ _ _, h.staged, h.renamed, h.marker, h.checkpoint⟩

theorem BackupServer.emits_handlePacket (h : MayWork P) : (handlePacket env now packet).Emits P := by
  have hbackup : BackupEngine.MayBackUp env P := h.backup
  have hpublish : ∀ m, (BackupEngine.publish env .none m).Emits P := fun m =>
    BackupEngine.emits_publish hbackup.publish
  cases htype : packet.type with
  | putChunk =>
    simp only [handlePacket, htype, putChunk, Prog.bind_eq]
    refine Prog.Emits.bind_ofExcept fun opened _ => ?_
    refine (emits_putCompressed h.dir fun _ => h.object _ _ _).bind fun stored => ?_
    exact (emits_appendChunk h.dir (h.session _)).bind fun _ => Prog.emits_ofExcept
  | commitSession =>
    simp only [handlePacket, htype, commitSession, buildManifest, Prog.bind_eq]
    refine Prog.Emits.bind (Prog.Emits.bind_ofExcept fun opened _ => ?_) fun built => ?_
    · exact emits_nextVersion.bind fun _ => (emits_append h.dir h.wal).bind fun _ =>
        emits_session_buildManifest.bind fun _ => trivial
    · exact (hpublish _).bind fun _ => (emits_markCommitted h.dir (h.session _)).bind fun _ =>
        Prog.emits_ofExcept
  | hello => exact (asks_emits (.inl htype)).mono fun _ h => h.elim
  | querySession => exact (asks_emits (.inr htype)).mono fun _ h => h.elim
  | _ =>
    simp only [handlePacket, htype]
    trivial

theorem Operation.emits (h : MayWork P) (hop : op ≠ .compact) : (op.prog env).Emits P := by
  cases op with
  | create now fault source mode => exact (BackupEngine.emits_create h.backup).bind fun _ => trivial
  | handle now packet => exact (BackupServer.emits_handlePacket h).bind fun _ => trivial
  | recover =>
    exact (RecoveryManager.emits_recover h.dir h.removed h.checkpoint).bind fun _ => trivial
  | checkpoint => exact (emits_writeCheckpoint h.dir h.checkpoint).bind fun _ => trivial
  | compact => exact absurd rfl hop

/-- Behind some records the log goes on with the bytes of the tool. -/
def Garbled (s : Fs) : Prop :=
  ∃ f records data rest, s.leaf? WalLog.walPath = some f ∧ Written WalLog.code records data ∧
    f.data = data ++ (ascii "garbage" ++ rest)

/-- An effect that leaves the log alone, or adds to it. -/
def Extends (i : FsEffect) : Prop :=
  WalLog.walPath ∉ i.touches ∨ ∃ data mode e, i = .append WalLog.walPath data mode e

theorem mayWork_extends : MayWork Extends where
  dir _ := .inl List.not_mem_nil
  wal data mode e := .inr ⟨data, mode, e, rfl⟩
  object sha _ _ := .inl fun h =>
    BackupEngine.not_inObjects_walPath (List.mem_singleton.mp h ▸ inObjects_pathOf sha)
  session sessionId _ _ _ := .inl fun h =>
    SessionIndex.path_ne_wal sessionId (List.mem_singleton.mp h).symm
  staged version _ _ := .inl fun h => tmp_ne_wal version (List.mem_singleton.mp h).symm
  renamed version := .inl fun h => by
    rcases List.mem_cons.mp h with h | h
    · exact tmp_ne_wal version h.symm
    · exact manifest_ne_wal version (List.mem_singleton.mp h).symm
  marker version _ _ := .inl fun h => commit_ne_wal version (List.mem_singleton.mp h).symm
  checkpoint _ _ := .inl fun h => absurd (List.mem_singleton.mp h) (by decide)
  removed name := .inl fun h => by
    have hhead := congrArg List.head? (List.mem_singleton.mp h)
    exact absurd hhead (show some (ascii "metadata") ≠ some (ascii "tmp") by decide)

theorem Garbled.step {i : FsEffect} (hi : Extends i) (ha : Effect.apply i s = .ok t)
    (h : Garbled s) : Garbled t := by
  obtain ⟨f, records, data, rest, hf, hwritten, hdata⟩ := h
  rcases hi with hfree | ⟨more, mode, e, rfl⟩
  · exact ⟨f, records, data, rest, by rw [FsEffect.apply_frame ha hfree, hf], hwritten, hdata⟩
  · have hput := (FsEffect.append_ok ha).leaf? WalLog.walPath
    rw [if_pos rfl, hf] at hput
    refine ⟨_, records, data, rest ++ more, hput, hwritten, ?_⟩
    simp [appended, hdata]

theorem Garbled.cut {is : List FsEffect} (hop : op ≠ .compact) (hc : Prog.Cut (op.prog env) s is t)
    (h : Garbled s) : Garbled t :=
  Prog.Emits.cut (R := fun a b => Garbled a → Garbled b) (fun _ => id) (fun hab hbc ha => hbc (hab ha))
    (fun _ _ _ hi ha => Garbled.step hi ha) (Operation.emits mayWork_extends hop) hc h

theorem Garbled.steps (hrun : Steps env s log t) (hlog : ∀ e ∈ log, e.op ≠ .compact)
    (h : Garbled s) : Garbled t := by
  induction hrun with
  | nil => exact h
  | snoc _ hc ih =>
    exact .cut (hlog _ List.mem_concat_self) hc
      (ih fun e he => hlog e (List.mem_append_left _ he))

/-- No record begins as the bytes of the tool do. -/
theorem not_written_garbage {rest : Bytes} : ¬Written WalLog.code records (ascii "garbage" ++ rest) := by
  intro h
  cases records with
  | nil =>
    have hnil := written_nil.mp h
    exact absurd (List.append_eq_nil_iff.mp hnil).1 (by decide)
  | cons record records =>
    obtain ⟨frame, more, hf, _, he⟩ := written_cons.mp h
    obtain ⟨_, rfl⟩ := WalLog.encodeRecord_iff.mp hf
    have hmagic := congrArg (List.take 4) he
    simp only [WalLog.header, List.append_assoc] at hmagic
    rw [List.take_append_of_le_length (by decide),
      List.take_append_of_le_length (Endian.length_leBytes 4 _).ge] at hmagic
    exact absurd hmagic (by decide)

theorem Garbled.unread (h : Garbled s) : ∃ e, WalLog.readAll.exec s = (.error e, s) := by
  obtain ⟨f, old, data, rest, hf, hwritten, hdata⟩ := h
  have hx := WalLog.exec_readAll hf
  cases hr : WalLog.readRecords f.data.length f.data with
  | error e => exact ⟨e, by rw [hx, hr]⟩
  | ok records =>
    have hall := WalLog.readRecords_iff.mp hr
    rw [hdata] at hall
    obtain ⟨more, hmore⟩ := Framing.Written.rest hwritten hall
    exact absurd hmore not_written_garbage

/-- The tool spoils a log that could be read. -/
theorem garbled_of_corruptWal (hread : (WalLog.readAll.exec s).1 = .ok records)
    (hc : (corruptWal env).exec s = (.ok (), t)) : Garbled t := by
  have hwritten := WalLog.written_of_readAll (Prog.exec_of_fst hread)
  have hput := (FsEffect.append_ok (Prog.exec_perform_ok hc)).leaf? WalLog.walPath
  rw [if_pos rfl] at hput
  refine ⟨_, records, WalLog.logOf s, [], hput, hwritten, ?_⟩
  rw [List.append_nil, WalLog.logOf]
  cases s.leaf? WalLog.walPath with
  | none => rfl
  | some f => rfl

/-- Recovery reads the log before it changes a file. -/
theorem Garbled.unrecovered (h : Garbled s) :
    ∃ e t, (RecoveryManager.recover env).exec s = (.error e, t) ∧ ∀ q, t.leaf? q = s.leaf? q := by
  simp only [RecoveryManager.recover, Prog.bind_eq]
  cases hl : ensureLayout.exec s with
  | mk result a =>
    have hgrown : ∀ q, a.leaf? q = s.leaf? q := by
      have hframe : Frame (fun _ => False) s (ensureLayout.exec s).2 :=
        Frame.of_keeps (ensureLayout_keeps fun _ _ _ _ hq => absurd hq List.not_mem_nil)
      rw [hl] at hframe
      exact fun q => hframe q id
    cases result with
    | error e => exact ⟨e, a, Prog.exec_bind_of_error hl, hgrown⟩
    | ok u =>
      obtain ⟨f, old, data, rest, hf, hsplit⟩ := h
      have ha : Garbled a := ⟨f, old, data, rest, (hgrown _).trans hf, hsplit⟩
      obtain ⟨e, he⟩ := ha.unread
      refine ⟨e, a, ?_, hgrown⟩
      rw [Prog.exec_bind_of_ok hl]
      exact Prog.exec_bind_of_error he

/-- The log after a compaction is what the committed versions make it, whatever it was. -/
theorem compact_reads {u : Unit} (h : (MetadataCompactor.compact env).exec s = (.ok u, t)) :
    ∃ vs, listCommittedVersions.exec s = (.ok vs, s) ∧
      (WalLog.readAll.exec t).1 =
        .ok [⟨.checkpoint, MetadataCompactor.payload vs⟩, ⟨.compact, ascii "compact"⟩] ∧
      Frame Scratch s t := by
  have hframe : Frame Scratch s ((MetadataCompactor.compact env).exec s).2 :=
    Frame.of_keeps (MetadataCompactor.compact_keeps fun i a b hq => hq)
  rw [h] at hframe
  simp only [MetadataCompactor.compact, Prog.bind_eq] at h
  obtain ⟨vs, a, ha, h⟩ := Prog.exec_bind_ok h
  obtain ⟨hfile, hwritten⟩ := WalLog.replaceWith_ok h
  refine ⟨vs, ?_, by rw [WalLog.readAll_of_written hfile hwritten], hframe⟩
  simp only [writeCheckpoint, Prog.bind_eq] at ha
  obtain ⟨ws, b, hlist, ha⟩ := Prog.exec_bind_ok ha
  obtain ⟨_, c, _, hc⟩ := Prog.exec_bind_ok ha
  cases hc
  rwa [(listCommittedVersions_ok hlist).1] at hlist

/-- What the tool wrote into a log that could be read stays in the way of every reader, through
whatever is done afterwards, crashes included: recovery throws and changes no file. Only a compaction
makes the log readable; it reads then as the versions that are listed, and all that is not the upkeep's
is as before. -/
theorem garbage_stays_until_compaction (hread : (WalLog.readAll.exec s).1 = .ok records)
    (hc : (corruptWal env).exec s = (.ok (), t)) (hrun : Steps env t log u)
    (hlog : ∀ e ∈ log, e.op ≠ .compact) :
    (∃ e, WalLog.readAll.exec u = (.error e, u)) ∧
    (∃ e w, (RecoveryManager.recover env).exec u = (.error e, w) ∧ ∀ q, w.leaf? q = u.leaf? q) ∧
    ∀ v, (MetadataCompactor.compact env).exec u = (.ok (), v) →
      ∃ vs, listCommittedVersions.exec u = (.ok vs, u) ∧
        (WalLog.readAll.exec v).1 =
          .ok [⟨.checkpoint, MetadataCompactor.payload vs⟩, ⟨.compact, ascii "compact"⟩] ∧
        Frame Scratch u v := by
  have hspoilt : Garbled u := (garbled_of_corruptWal hread hc).steps hrun hlog
  exact ⟨hspoilt.unread, hspoilt.unrecovered, fun v hv => compact_reads hv⟩

/-- A backup behind the garbage succeeds, and the compaction that follows lists both. -/
theorem letter_log_is_spoilt_and_compacted : ∃ t u v,
    (corruptWal letterEnv).exec firstLetter = (.ok (), t) ∧
      (∃ e, WalLog.readAll.exec u = (.error e, u)) ∧
      (MetadataCompactor.compact letterEnv).exec u = (.ok (), v) ∧
      (WalLog.readAll.exec v).1 =
        .ok [⟨.checkpoint, MetadataCompactor.payload [1, 2]⟩, ⟨.compact, ascii "compact"⟩] := by
  let again : Operation := .create 1700000001 .none (letterSource 1) .fixed
  let t : Fs := ((corruptWal letterEnv).exec firstLetter).2
  let u : Fs := ((again.prog letterEnv).exec t).2
  have hread : (WalLog.readAll.exec firstLetter).1.isOk := by decide +kernel
  have hc : ((corruptWal letterEnv).exec firstLetter).1 = .ok () := by decide +kernel
  have hv : ((MetadataCompactor.compact letterEnv).exec u).1 = .ok () := by decide +kernel
  have hlist : (listCommittedVersions.exec u).1 = .ok [1, 2] := by decide +kernel
  obtain ⟨is, hcut⟩ := Prog.cut_exec (again.prog letterEnv) t
  have hrun : Steps letterEnv t [⟨again, t, is⟩] u := .snoc .nil hcut
  have hlog : ∀ e ∈ [(⟨again, t, is⟩ : Event)], e.op ≠ .compact := by simp [again]
  have hok : ∀ x : Except Exn (List WalRecord), x.isOk → ∃ records, x = .ok records := by
    intro x hx
    cases x with
    | error e => exact absurd hx Bool.false_ne_true
    | ok records => exact ⟨records, rfl⟩
  obtain ⟨records, hrecords⟩ := hok _ hread
  obtain ⟨hspoilt, _, hcompact⟩ :=
    garbage_stays_until_compaction hrecords (Prog.exec_of_fst hc) hrun hlog
  obtain ⟨vs, hvs, hlogged, _⟩ := hcompact _ (Prog.exec_of_fst hv)
  rw [hvs] at hlist
  obtain rfl := Except.ok.inj hlist
  exact ⟨t, u, _, Prog.exec_of_fst hc, hspoilt, Prog.exec_of_fst hv, hlogged⟩

end Dpc
