import Dpc.Core.PublishFacts

namespace Dpc
open Text FileTree Effects ManifestStore

/-- A file that only the upkeep reads: a temporary file, the log or the checkpoint. -/
def Scratch (q : Path) : Prop :=
  q.head? = some (ascii "tmp") ∨ q = WalLog.walPath ∨ q = Checkpoint.path

/-- Whatever touches such files only is allowed. -/
def ScratchEffects (G : FsEffect → Fs → Fs → Prop) : Prop :=
  ∀ i a b, (∀ q ∈ i.touches, Scratch q) → G i a b

variable {G : FsEffect → Fs → Fs → Prop} {env : Env} {s : Fs}

namespace ScratchEffects

theorem dir (hG : ScratchEffects G) (p : Path) (a b : Fs) : G (.ensureDirectory p) a b :=
  hG _ a b fun _ hq => absurd hq List.not_mem_nil

theorem replace (hG : ScratchEffects G) {p : Path} (hp : Scratch p) (data : Bytes) (mode : UInt32)
    (a b : Fs) : G (.replace p data mode) a b := by
  refine hG _ a b fun q hq => ?_
  rwa [List.mem_singleton.mp hq]

theorem wal (hG : ScratchEffects G) (data : Bytes) (mode : UInt32) (e : Exn) (a b : Fs) :
    G (.append WalLog.walPath data mode e) a b := by
  refine hG _ a b fun q hq => ?_
  rw [List.mem_singleton.mp hq]
  exact .inr (.inl rfl)

theorem checkpoint (hG : ScratchEffects G) (data : Bytes) (mode : UInt32) (a b : Fs) :
    G (.replace Checkpoint.path data mode) a b := hG.replace (.inr (.inr rfl)) data mode a b

end ScratchEffects

theorem checkpoint_keeps (hG : ScratchEffects G) :
    Keeps G (fun _ _ => True) (writeCheckpoint env) s :=
  (writeCheckpoint_keeps hG.dir fun data mode a b _ => hG.checkpoint data mode a b).post
    fun _ _ _ => trivial

namespace RecoveryManager

theorem removeFiles_keeps (hG : ScratchEffects G) (names : List Name) :
    Keeps G (fun _ _ => True) (removeFiles tmpDir names) s := by
  induction names generalizing s with
  | nil => trivial
  | cons name names ih =>
    simp only [removeFiles, Prog.bind_eq]
    have hremove : ∀ a b, G (.remove (tmpDir ++ [name])) a b := by
      intro a b
      refine hG _ a b fun q hq => ?_
      rw [List.mem_singleton.mp hq]
      exact .inl rfl
    have hfirst : Keeps G (fun _ _ => True) (Prog.perform (.remove (tmpDir ++ [name]))) s :=
      Keeps.perform fun t _ => ⟨hremove s t, trivial⟩
    exact Keeps.bind hfirst fun _ _ _ => ih

theorem readAll_keeps : Keeps G (fun _ _ => True) WalLog.readAll s := by
  simp only [WalLog.readAll, Prog.bind_eq]
  refine Keeps.bind_query fun b _ => ?_
  split
  · refine Keeps.bind_query fun data _ => ?_
    exact Keeps.ofExcept fun _ _ => trivial
  · trivial

theorem recover_keeps (hG : ScratchEffects G) : Keeps G (fun _ _ => True) (recover env) s := by
  simp only [recover, removeTmpFiles, Prog.bind_eq]
  refine Keeps.bind (ObjectStore.ensureLayout_keeps hG.dir) fun _ a _ => ?_
  refine Keeps.bind readAll_keeps fun _ b _ => ?_
  refine Keeps.bind (Q := fun _ _ => True) ?_ fun _ c _ => ?_
  · refine Keeps.bind_query fun there _ => ?_
    split
    · refine Keeps.bind_query fun names _ => ?_
      exact Keeps.bind (removeFiles_keeps hG names) fun _ _ _ => trivial
    · trivial
  · exact Keeps.bind (checkpoint_keeps hG) fun _ _ _ => trivial

end RecoveryManager

theorem MetadataCompactor.compact_keeps (hG : ScratchEffects G) :
    Keeps G (fun _ _ => True) (compact env) s := by
  simp only [compact, WalLog.replaceWith, Prog.bind_eq]
  refine Keeps.bind (checkpoint_keeps hG) fun _ a _ => ?_
  refine Keeps.bind_ofExcept fun data _ => ?_
  refine (FileUtils.writeFileAtomic_keeps _ _ _ hG.dir fun mode a b _ => ?_).post fun _ _ _ => trivial
  exact hG.replace (.inr (.inl rfl)) data mode a b

end Dpc
