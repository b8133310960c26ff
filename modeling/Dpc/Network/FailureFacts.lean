import Dpc.Core.FailureFacts
import Dpc.Network.ServerFacts

namespace Dpc
open Text FileTree Effects ManifestStore

namespace BackupServer

variable {fields : Fields} {order : List (Reading × String)}

section Readings

variable {β : Type} {key : String}

end Readings

end BackupServer

namespace BackupServer

end BackupServer

namespace SessionIndex

variable {s : Fs} {env : Env} {sessionId : Bytes} {memory : Option Nat}

def fileName (sessionId : Bytes) : Name := hexEncodeString sessionId ++ ascii ".session"

theorem path_eq (sessionId : Bytes) :
    path sessionId = [ascii "metadata", ascii "sessions", fileName sessionId] := rfl

end SessionIndex

end Dpc
