import Dpc.Guarantees.Moving

/-! The log says only what is so, whoever writes to it. -/

namespace Dpc
open Text FileTree Effects Framing ManifestStore

variable {env : Env} {s : Fs}

/-- Without a log and a checkpoint nothing is said. -/
theorem truthful_of_fresh (hlog : s.leaf? WalLog.walPath = none)
    (hcheckpoint : s.leaf? Checkpoint.path = none) : Truthful s where
  log := ⟨[], written_nil.mpr (by rw [WalLog.logOf, hlog]; rfl),
    fun _ hr => absurd hr List.not_mem_nil⟩
  checkpoint f hf := absurd (hcheckpoint.symm.trans hf) (Option.some_ne_none f).symm

variable {a b : Pool Fs FsEffect Exn}

/-- However many operations have started on a truthful repository, however they take turns and
wherever they have stopped, the log that is there can be read: an object that it names is there, a
version that it calls renamed has its manifest, one that it calls committed has its marker as well,
and those of a checkpoint in it are listed. So are those of the checkpoint, which can be loaded. -/
theorem log_says_what_is_so (hs : Truthful s) (hr : Pool.Reaches (Works env) ⟨[], s⟩ b) :
    ((b.state.leaf? WalLog.walPath).isSome → ∃ records,
      WalLog.readAll.exec b.state = (.ok records, b.state) ∧
        ∀ record ∈ records, Says b.state record) ∧
    ∀ f, b.state.leaf? Checkpoint.path = some f → ∃ vs,
      Checkpoint.load.exec b.state = (.ok (Checkpoint.ofVersions vs), b.state) ∧
        ∀ v ∈ vs, Listed b.state v := by
  have hmoves : Moves s b.state :=
    Learns.pool Moves.refl Moves.trans (fun _ _ hp => hp.learns) hr
  have hb : Truthful b.state := hmoves.2 hs
  obtain ⟨records, hwritten, hso⟩ := hb.log
  refine ⟨fun hf => ⟨records, WalLog.readAll_of_written hf hwritten, hso⟩, fun f hf => ?_⟩
  obtain ⟨vs, hdata, hvs⟩ := hb.checkpoint f hf
  exact ⟨vs, Checkpoint.exec_load hf hdata, hvs⟩

/-- A backup that stops after the manifest is renamed. -/
def letterRenamed : Op Unit :=
  Operation.prog letterEnv (.create 1700000000 .afterManifestRename (letterSource 1) .fixed)

def letterAgain : Op Unit :=
  Operation.prog letterEnv (.create 1700000001 .none (letterSource 1) .fixed)

def letterTwice : Fs := (letterAgain.exec (letterRenamed.exec emptyRepo).2).2

/-- Of two backups that have started one stops after the manifest is renamed; the other one then
takes the same version, and commits it. -/
theorem letter_log_says_what_is_so : ∃ t records,
    Pool.Reaches (Works letterEnv) ⟨[], emptyRepo⟩ ⟨[], t⟩ ∧
    WalLog.readAll.exec t = (.ok records, t) ∧ records.length = 9 ∧
    ∀ record ∈ records, Says t record := by
  have hr : Pool.Reaches (Works letterEnv) ⟨[], emptyRepo⟩ ⟨[], letterTwice⟩ :=
    .head (.start [] emptyRepo letterAgain (.inl ⟨_, rfl⟩)) <|
      .head (.start [letterAgain] emptyRepo letterRenamed (.inl ⟨_, rfl⟩)) <|
        (Pool.reaches_exec letterRenamed emptyRepo [letterAgain]).trans
          (Pool.reaches_exec letterAgain _ [])
  have hfresh : Truthful emptyRepo := truthful_of_fresh rfl rfl
  have hthere : (letterTwice.leaf? WalLog.walPath).isSome := by decide +kernel
  have hlength : (WalLog.readAll.exec letterTwice).1.toOption.map List.length = some 9 := by
    decide +kernel
  have hsaid := (log_says_what_is_so hfresh hr).1
  simp only at hsaid
  obtain ⟨records, hread, hso⟩ := hsaid hthere
  rw [hread] at hlength
  exact ⟨_, records, hr, hread, Option.some.inj hlength, hso⟩

end Dpc
