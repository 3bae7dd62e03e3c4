import IngestionQueue.Store.Basic
import IngestionQueue.Wire.Job

/-!
# Written form of documents

Documents, versions, sources and chunks are written as objects with a field for each of their parts. The
metadata of a chunk is any JSON value.
-/

namespace IngestionQueue

open Json (Record Decoder)

def DocumentStatus.toJson (a : DocumentStatus) : Json := .string a.name

def DocumentStatus.decoder : Decoder DocumentStatus := Decoder.variant (all.map fun a => (a.name, a))

def ParseStatus.toJson (a : ParseStatus) : Json := .string a.name

def ParseStatus.decoder : Decoder ParseStatus := Decoder.variant (all.map fun a => (a.name, a))

def ParserType.toJson (a : ParserType) : Json := .string a.name

def ParserType.decoder : Decoder ParserType := Decoder.variant (all.map fun a => (a.name, a))

namespace Document

def toJson (d : Document) : Json := .object [
  ("id", .string d.id),
  ("tenant_id", .string d.tenantId),
  ("workspace_id", .string d.workspaceId),
  ("kb_id", .string d.kbId),
  ("title", .string d.title),
  ("source_uri", Json.ofText? d.sourceUri),
  ("current_version", .int d.currentVersion),
  ("status", d.status.toJson),
  ("created_at", .int d.createdAt),
  ("updated_at", .int d.updatedAt)]

def record : Record Document :=
  (Record.pure Document.mk)
    |>.field "id" Decoder.string
    |>.field "tenant_id" Decoder.string
    |>.field "workspace_id" Decoder.string
    |>.field "kb_id" Decoder.string
    |>.field "title" Decoder.string
    |>.optionalField "source_uri" Decoder.string
    |>.field "current_version" Decoder.int32
    |>.field "status" DocumentStatus.decoder
    |>.field "created_at" Decoder.int64
    |>.field "updated_at" Decoder.int64

def decoder : Decoder Document := record.decoder "Document"

end Document

namespace DocumentVersion

def toJson (v : DocumentVersion) : Json := .object [
  ("id", .string v.id),
  ("tenant_id", .string v.tenantId),
  ("document_id", .string v.documentId),
  ("version", .int v.version),
  ("object_key", .string v.objectKey),
  ("parser_type", v.parserType.toJson),
  ("parse_status", v.parseStatus.toJson),
  ("checksum", Json.ofText? v.checksum),
  ("created_at", .int v.createdAt)]

def record : Record DocumentVersion :=
  (Record.pure DocumentVersion.mk)
    |>.field "id" Decoder.string
    |>.field "tenant_id" Decoder.string
    |>.field "document_id" Decoder.string
    |>.field "version" Decoder.int32
    |>.field "object_key" Decoder.string
    |>.field "parser_type" ParserType.decoder
    |>.field "parse_status" ParseStatus.decoder
    |>.optionalField "checksum" Decoder.string
    |>.field "created_at" Decoder.int64

def decoder : Decoder DocumentVersion := record.decoder "DocumentVersion"

end DocumentVersion

namespace DocumentChunk

def toJson (c : DocumentChunk) : Json := .object [
  ("id", .string c.id),
  ("tenant_id", .string c.tenantId),
  ("workspace_id", .string c.workspaceId),
  ("kb_id", .string c.kbId),
  ("document_id", .string c.documentId),
  ("document_version_id", .string c.documentVersionId),
  ("chunk_no", .int c.chunkNo),
  ("content", .string c.content),
  ("token_count", .int c.tokenCount),
  ("metadata", c.metadata),
  ("created_at", .int c.createdAt)]

def record : Record DocumentChunk :=
  (Record.pure DocumentChunk.mk)
    |>.field "id" Decoder.string
    |>.field "tenant_id" Decoder.string
    |>.field "workspace_id" Decoder.string
    |>.field "kb_id" Decoder.string
    |>.field "document_id" Decoder.string
    |>.field "document_version_id" Decoder.string
    |>.field "chunk_no" Decoder.int32
    |>.field "content" Decoder.string
    |>.field "token_count" Decoder.int32
    |>.field "metadata" Decoder.value
    |>.field "created_at" Decoder.int64

def decoder : Decoder DocumentChunk := record.decoder "DocumentChunk"

end DocumentChunk

/-- The parts of a source, with the parser that reads it. -/
def DocumentSource.toJson (s : DocumentSource) : Json := .object [
  ("tenant_id", .string s.tenantId),
  ("workspace_id", .string s.workspaceId),
  ("kb_id", .string s.kbId),
  ("document_id", .string s.documentId),
  ("document_version_id", .string s.documentVersionId),
  ("object_key", Json.ofText? s.objectKey),
  ("parser_type", Json.ofText? s.parserType),
  ("parser", s.parser.toJson)]

def VersionRow.toJson (v : VersionRow) : Json := .object [
  ("id", .string v.id),
  ("tenant_id", .string v.tenantId),
  ("document_id", .string v.documentId),
  ("version", .int v.version),
  ("object_key", Json.ofText? v.objectKey),
  ("parser_type", Json.ofText? v.parserType),
  ("parse_status", v.parseStatus.toJson),
  ("checksum", Json.ofText? v.checksum),
  ("created_at", .int v.createdAt)]

def ChunkRow.toJson (c : ChunkRow) : Json := .object [
  ("id", .string c.id),
  ("tenant_id", .string c.tenantId),
  ("workspace_id", .string c.workspaceId),
  ("kb_id", .string c.kbId),
  ("document_id", .string c.documentId),
  ("document_version_id", .string c.documentVersionId),
  ("chunk_no", .int c.chunkNo),
  ("content", .string c.content),
  ("token_count", .int c.tokenCount),
  ("metadata", .string c.metadata),
  ("created_at", .int c.createdAt)]

/-- All rows of the tables, those of each table in the order of their identifiers. -/
def Store.toJson (s : Store) : Json :=
  let sorted := s.sortedById
  .object [
    ("documents", .array (sorted.documents.map Document.toJson)),
    ("versions", .array (sorted.versions.map VersionRow.toJson)),
    ("chunks", .array (sorted.chunks.map ChunkRow.toJson)),
    ("jobs", .array (sorted.jobs.map Job.toJson))]

end IngestionQueue
