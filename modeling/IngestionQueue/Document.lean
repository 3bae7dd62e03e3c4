import IngestionQueue.Bytes.Utf8
import IngestionQueue.Error
import IngestionQueue.Json.Basic
import IngestionQueue.Text.Blank
import IngestionQueue.Text.Path

/-!
# Documents

A document has versions, each of them an object in the object store with a parser, and a version that was
indexed has chunks. Deletion is a status of the document.
-/

namespace IngestionQueue

inductive DocumentStatus
  | pending
  | processing
  | ready
  | failed
  | deleted
  deriving DecidableEq, Repr

namespace DocumentStatus

def name : DocumentStatus → String
  | pending => "pending"
  | processing => "processing"
  | ready => "ready"
  | failed => "failed"
  | deleted => "deleted"

def all : List DocumentStatus := [pending, processing, ready, failed, deleted]

def parse (s : String) : Except DomainError DocumentStatus :=
  match all.find? fun a => a.name == s with
  | some a => .ok a
  | none => .error (.unknownDocumentStatus s)

end DocumentStatus

/-- How indexing a version ended. -/
inductive ParseStatus
  | pending
  | success
  | failed
  deriving DecidableEq, Repr

namespace ParseStatus

def name : ParseStatus → String
  | pending => "pending"
  | success => "success"
  | failed => "failed"

def all : List ParseStatus := [pending, success, failed]

def parse (s : String) : Except DomainError ParseStatus :=
  match all.find? fun a => a.name == s with
  | some a => .ok a
  | none => .error (.invalid s!"unknown parse status: {s}")

end ParseStatus

/-- How the bytes of an object become text. -/
inductive ParserType
  | markdown
  | generic
  | pdf
  | image
  deriving DecidableEq, Repr

namespace ParserType

def name : ParserType → String
  | markdown => "markdown"
  | generic => "generic"
  | pdf => "pdf"
  | image => "image"

def all : List ParserType := [markdown, generic, pdf, image]

/-- The parser of a stored name, white space around it aside; `generic` for any other name and for none. -/
def ofStored (stored : Option String) : ParserType :=
  match stored with
  | none => generic
  | some s => (all.find? fun a => a.name == Text.trim s).getD generic

/-- The extensions that name a parser. -/
def extensions : List (String × ParserType) :=
  [("md", markdown), ("markdown", markdown), ("txt", markdown),
   ("png", image), ("jpg", image), ("jpeg", image), ("webp", image), ("gif", image), ("pdf", pdf)]

/-- The parser for a file name, from its extension in any case of its letters. -/
def infer (fileName : String) : ParserType :=
  match Path.extension? fileName.toList with
  | none => generic
  | some ext =>
    let lower := String.ofList (ext.map Char.toLower)
    ((extensions.find? fun p => p.1 == lower).map Prod.snd).getD generic

/-- The text of an object; the parsers for binary formats give none. -/
def decode (p : ParserType) (bytes : Bytes) : Option String :=
  match p with
  | markdown | generic => some (String.ofList (Utf8.decode bytes))
  | pdf | image => none

end ParserType

structure Document where
  id : String
  tenantId : String
  workspaceId : String
  kbId : String
  title : String
  sourceUri : Option String
  currentVersion : Int
  status : DocumentStatus
  createdAt : Int
  updatedAt : Int
  deriving DecidableEq, Repr

structure DocumentVersion where
  id : String
  tenantId : String
  documentId : String
  version : Int
  objectKey : String
  parserType : ParserType
  parseStatus : ParseStatus
  checksum : Option String
  createdAt : Int
  deriving DecidableEq, Repr

/-- A version joined with its document, as a worker sees it. -/
structure DocumentSource where
  tenantId : String
  workspaceId : String
  kbId : String
  documentId : String
  documentVersionId : String
  objectKey : Option String
  parserType : Option String
  deriving DecidableEq, Repr

def DocumentSource.parser (s : DocumentSource) : ParserType :=
  ParserType.ofStored s.parserType

/-- A chunk to be written; what it belongs to comes from its source. Chunks are numbered from one. -/
structure NewChunk where
  id : String
  chunkNo : Int
  content : String
  tokenCount : Int
  deriving DecidableEq, Repr

structure DocumentChunk where
  id : String
  tenantId : String
  workspaceId : String
  kbId : String
  documentId : String
  documentVersionId : String
  chunkNo : Int
  content : String
  tokenCount : Int
  metadata : Json
  createdAt : Int

end IngestionQueue
