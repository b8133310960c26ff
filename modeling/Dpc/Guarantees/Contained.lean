import Dpc.Core.RawFrames
import Dpc.Network.FailureFacts

namespace Dpc
open Text FileTree Effects ManifestStore ObjectStore BackupServer SessionIndex

/-- The session that a query names. -/
def Queries (packet : Packet) (sessionId : Bytes) : Prop :=
  ∃ fields value, parseTextFields packet.payload "DPC_QUERY_SESSION_V1" = .ok fields ∧
    field fields "session_hex" = .ok value ∧ hexDecodeString value = .ok sessionId

variable {env : Env} {memory : Option Nat} {s : Fs} {now : UInt64} {packet : Packet}

end Dpc
