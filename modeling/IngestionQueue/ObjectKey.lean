import IngestionQueue.Text.Blank
import IngestionQueue.Text.Path

/-!
# Object keys of uploads

The object of a version lies under the tenant, the knowledge base, the document and the version, with a name
made from the name of the uploaded file. That name is one component of a path, so it cannot lead elsewhere.
-/

namespace IngestionQueue

namespace FileName

/-- The name for a file that has no name of its own. -/
def fallback : String := "document.bin"

/-- What follows the last slash or backslash of a name, trimmed. -/
def lastPart (fileName : String) : String :=
  let pieces := Path.splitAt (fun c => c == '/' || c == '\\') fileName.toList
  String.ofList (Text.trimChars (pieces.getLastD []))

def sanitize (fileName : String) : String :=
  let name := lastPart fileName
  if name.isEmpty || name == "." || name == ".." then fallback else name

end FileName

/-- The key of the object of a version. -/
def objectKey (tenantId kbId documentId : String) (version : Int) (name : String) : String :=
  s!"tenant/{tenantId}/kb/{kbId}/doc/{documentId}/v{version}/{name}"

end IngestionQueue
