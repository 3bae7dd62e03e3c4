import IngestionQueue.Bytes.Sha256
import IngestionQueue.Bytes.Utf8
import IngestionQueue.Job

/-!
# Idempotency keys

Two requests with the same key ask for the same job. The key is the digest of what the request names, joined
by colons, with the token of the client at the end where the client sent one that is not empty.
-/

namespace IngestionQueue.IdempotencyKey

/-- The number of digits of a key. -/
def length : Nat := 64

/-- The longest token that a client may send, in characters. -/
def maxClientKeyLength : Nat := 128

/-- The text whose digest is the key. -/
def basis (target : JobTarget) (action : IngestAction) (clientKey : Option String) : String :=
  let named := [target.tenantId, target.workspaceId, target.kbId, target.documentId,
    target.documentVersionId, action.name]
  match clientKey with
  | some key => ":".intercalate (if key.isEmpty then named else named ++ [key])
  | none => ":".intercalate named

def build (target : JobTarget) (action : IngestAction) (clientKey : Option String) : String :=
  Sha256.hexDigest (Utf8.ofString (basis target action clientKey))

end IngestionQueue.IdempotencyKey
