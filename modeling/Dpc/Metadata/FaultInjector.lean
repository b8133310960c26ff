import Dpc.Core.BackupEngine

namespace Dpc.FaultInjector
open Text FileTree Effects

/-- What `FaultInjectedCrash` says. -/
def injectedCrash (stage : FaultStage) : Exn := dpcErrorWith "injected crash at " (toString stage)

def parse (value : Bytes) : Except Exn FaultStage :=
  if value = ascii "none" ∨ value = [] then .ok .none
  else if value = ascii "after-begin" then .ok .afterBegin
  else if value = ascii "after-object-write" then .ok .afterObjectWrite
  else if value = ascii "after-manifest-write" then .ok .afterManifestWrite
  else if value = ascii "after-manifest-rename" then .ok .afterManifestRename
  else if value = ascii "after-commit-marker" then .ok .afterCommitMarker
  else .error (dpcErrorWith "unknown fault stage: " value)

/-- A stage is named by its own text only; no text at all is no stage. -/
theorem parse_iff {value : Bytes} {stage : FaultStage} :
    parse value = .ok stage ↔ value = toString stage ∨ value = [] ∧ stage = .none := by
  constructor
  · intro h
    unfold parse at h
    split at h
    · rename_i hv
      cases h
      exact hv.imp_right fun hv => ⟨hv, rfl⟩
    · repeat'
        split at h
        · rename_i hv
          cases h
          exact .inl hv
      cases h
  · intro h
    rcases h with rfl | ⟨rfl, rfl⟩
    · cases stage <;> decide
    · decide

variable {fault stage : FaultStage}

theorem trigger_self (h : stage ≠ .none) : trigger stage stage = .throw (injectedCrash stage) := by
  rw [trigger, if_neg (by simp [h])]
  rfl

theorem trigger_other (h : fault ≠ stage) : trigger fault stage = .pure () := by
  rw [trigger, if_pos (.inr h)]
  rfl

end Dpc.FaultInjector
