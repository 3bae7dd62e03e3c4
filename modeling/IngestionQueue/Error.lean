/-!
# Errors

`DomainError` is a value that the domain does not have, `ObjectError` a failure of the object store,
`AppError` a failure of an operation of the queue. Each has one wording.
-/

namespace IngestionQueue

inductive DomainError
  | unknownStatus (name : String)
  | unknownStage (name : String)
  | unknownAction (name : String)
  | unknownDocumentStatus (name : String)
  | invalidChunkConfig (chunkSize overlap : Nat)
  | invalidProgress (progress : Int)
  | invalid (what : String)
  deriving DecidableEq, Repr

def DomainError.message : DomainError → String
  | .unknownStatus name => s!"Unknown job status: {name}"
  | .unknownStage name => s!"Unknown job stage: {name}"
  | .unknownAction name => s!"Unknown ingestion action: {name} (expected upload or reindex)"
  | .unknownDocumentStatus name => s!"Unknown document status: {name}"
  | .invalidChunkConfig chunkSize overlap =>
    s!"Invalid chunk config: chunk_size={chunkSize}, overlap={overlap}"
  | .invalidProgress progress => s!"Progress out of range: {progress}"
  | .invalid what => s!"Validation error: {what}"

/-- Why the operating system refused a file operation. -/
inductive FileFault
  | notFound
  | exists
  | notDirectory
  | isDirectory
  | nameTooLong
  | nulInName
  | other (text : String)
  deriving DecidableEq, Repr

def FileFault.message : FileFault → String
  | .notFound => "No such file or directory (os error 2)"
  | .exists => "File exists (os error 17)"
  | .notDirectory => "Not a directory (os error 20)"
  | .isDirectory => "Is a directory (os error 21)"
  | .nameTooLong => "File name too long (os error 36)"
  | .nulInName => "file name contained an unexpected NUL byte"
  | .other text => text

inductive ObjectError
  | notFound (key : String)
  | invalidKey (key : String)
  | io (fault : FileFault)
  deriving DecidableEq, Repr

def ObjectError.message : ObjectError → String
  | .notFound key => s!"object not found: {key}"
  | .invalidKey key => s!"invalid object key: {key}"
  | .io fault => "object store I/O error: " ++ fault.message

inductive AppError
  | domain (e : DomainError)
  | validation (text : String)
  | database (text : String)
  | storage (e : ObjectError)
  | io (text : String)
  | serialization (text : String)
  | config (text : String)
  | notFound (what : String)
  | conflict (text : String)
  | leaseLost (text : String)
  | unsupportedParser (parser : String)
  | emptyContent
  | internal (text : String)
  deriving DecidableEq, Repr

namespace AppError

def message : AppError → String
  | .domain e => "Domain error: " ++ e.message
  | .validation text => s!"Validation error: {text}"
  | .database text => s!"Database error: {text}"
  | .storage e => "Storage error: " ++ e.message
  | .io text => s!"IO error: {text}"
  | .serialization text => s!"Serialization error: {text}"
  | .config text => s!"Configuration error: {text}"
  | .notFound what => s!"Not found: {what}"
  | .conflict text => s!"Conflict: {text}"
  | .leaseLost text => s!"Lease lost: {text}"
  | .unsupportedParser parser => s!"Unsupported parser: {parser} parser not configured"
  | .emptyContent => "document has no parseable content"
  | .internal text => s!"Internal error: {text}"

/-- Whether another worker now owns the job. -/
def isLeaseLost : AppError → Bool
  | .leaseLost _ => true
  | _ => false

end AppError

end IngestionQueue
