import IngestionQueue.Document
import IngestionQueue.Job
import IngestionQueue.Json.Reading

/-!
# The tables

Documents, versions, chunks and jobs are kept in four tables, the rows of each in the order in which they were
inserted. A version belongs to a document; a chunk and a job belong to a document and to a version. A `Query`
is a series of statements. A statement that would break a rule of the tables fails and changes nothing, but
what the statements before it did stays, unless they are made one by `Query.atomically`.
-/

namespace IngestionQueue

/-- A version as it is stored, where the object key and the parser may be missing. -/
structure VersionRow where
  id : String
  tenantId : String
  documentId : String
  version : Int
  objectKey : Option String
  parserType : Option String
  parseStatus : ParseStatus
  checksum : Option String
  createdAt : Int
  deriving DecidableEq, Repr

namespace VersionRow

def ofVersion (v : DocumentVersion) : VersionRow where
  id := v.id
  tenantId := v.tenantId
  documentId := v.documentId
  version := v.version
  objectKey := some v.objectKey
  parserType := some v.parserType.name
  parseStatus := v.parseStatus
  checksum := v.checksum
  createdAt := v.createdAt

def toVersion (r : VersionRow) : DocumentVersion where
  id := r.id
  tenantId := r.tenantId
  documentId := r.documentId
  version := r.version
  objectKey := r.objectKey.getD ""
  parserType := ParserType.ofStored r.parserType
  parseStatus := r.parseStatus
  checksum := r.checksum
  createdAt := r.createdAt

end VersionRow

/-- A chunk as it is stored, its metadata being JSON text. -/
structure ChunkRow where
  id : String
  tenantId : String
  workspaceId : String
  kbId : String
  documentId : String
  documentVersionId : String
  chunkNo : Int
  content : String
  tokenCount : Int
  metadata : String
  createdAt : Int
  deriving DecidableEq, Repr

namespace ChunkRow

/-- The row of a new chunk of a source. -/
def ofNew (now : Int) (source : DocumentSource) (c : NewChunk) : ChunkRow where
  id := c.id
  tenantId := source.tenantId
  workspaceId := source.workspaceId
  kbId := source.kbId
  documentId := source.documentId
  documentVersionId := source.documentVersionId
  chunkNo := c.chunkNo
  content := c.content
  tokenCount := c.tokenCount
  metadata := "\x7b\x7d"
  createdAt := now

/-- The chunk of a row; metadata that cannot be read counts as the empty object. -/
def toChunk (r : ChunkRow) : DocumentChunk where
  id := r.id
  tenantId := r.tenantId
  workspaceId := r.workspaceId
  kbId := r.kbId
  documentId := r.documentId
  documentVersionId := r.documentVersionId
  chunkNo := r.chunkNo
  content := r.content
  tokenCount := r.tokenCount
  metadata := (Json.parse r.metadata).getD (.object [])
  createdAt := r.createdAt

end ChunkRow

structure Store where
  documents : List Document
  versions : List VersionRow
  chunks : List ChunkRow
  jobs : List Job
  deriving DecidableEq, Repr

def Store.empty : Store := ⟨[], [], [], []⟩

/-- A rule of the tables that a row would break. -/
inductive Violation
  | unique (columns : String)
  | primaryKey (column : String)
  | foreignKey
  | check (condition : String)
  deriving DecidableEq, Repr

def Violation.toError : Violation → AppError
  | .unique columns =>
    .conflict s!"Unique constraint violation: UNIQUE constraint failed: {columns} (2067)"
  | .primaryKey column =>
    .conflict s!"Unique constraint violation: UNIQUE constraint failed: {column} (1555)"
  | .foreignKey => .validation "Foreign key constraint violation: FOREIGN KEY constraint failed (787)"
  | .check condition => .database s!"Database error [275]: CHECK constraint failed: {condition}"

abbrev Query (α : Type) := ExceptT AppError (StateM Store) α

namespace Query

variable {α β : Type}

/-- The result of a query on a store, and the store after it. -/
def on (q : Query α) (s : Store) : Except AppError α × Store :=
  q.run.run s

/-- A query that leaves the store as it was when it fails. -/
def atomically (q : Query α) : Query α := ExceptT.mk fun s =>
  match q.on s with
  | (.ok a, s') => (.ok a, s')
  | (.error e, _) => (.error e, s)

/-- Refuses a row that breaks a rule. -/
def refuse (v : Violation) : Query α :=
  throw v.toError

@[simp] theorem on_pure (a : α) (s : Store) : (pure a : Query α).on s = (.ok a, s) := rfl

@[simp] theorem on_bind (q : Query α) (f : α → Query β) (s : Store) :
    (q >>= f).on s = match q.on s with
      | (.ok a, s') => (f a).on s'
      | (.error e, s') => (.error e, s') := by
  simp only [on, bind, ExceptT.run, ExceptT.bind, ExceptT.mk, StateT.run, StateT.bind, ExceptT.bindCont]
  rcases q s with ⟨_ | _, _⟩ <;> rfl

@[simp] theorem on_map (g : α → β) (q : Query α) (s : Store) :
    (g <$> q).on s = match q.on s with
      | (.ok a, s') => (.ok (g a), s')
      | (.error e, s') => (.error e, s') := by
  rw [← bind_pure_comp, on_bind]
  rfl

@[simp] theorem on_get (s : Store) : (get : Query Store).on s = (.ok s, s) := rfl

@[simp] theorem on_set (s t : Store) : (set t : Query PUnit).on s = (.ok ⟨⟩, t) := rfl

@[simp] theorem on_modify (f : Store → Store) (s : Store) :
    (modify f : Query PUnit).on s = (.ok ⟨⟩, f s) := rfl

@[simp] theorem on_throw (e : AppError) (s : Store) : (throw e : Query α).on s = (.error e, s) := rfl

@[simp] theorem on_refuse (v : Violation) (s : Store) :
    (refuse v : Query α).on s = (.error v.toError, s) := rfl

@[simp] theorem on_ite (p : Prop) [Decidable p] (q q' : Query α) (s : Store) :
    (if p then q else q').on s = if p then q.on s else q'.on s := by
  split <;> rfl

theorem on_atomically (q : Query α) (s : Store) :
    q.atomically.on s = match q.on s with
      | (.ok a, s') => (.ok a, s')
      | (.error e, _) => (.error e, s) := rfl

end Query

namespace Store

def hasDocument (s : Store) (id : String) : Bool :=
  s.documents.any fun d => d.id == id

def hasVersion (s : Store) (id : String) : Bool :=
  s.versions.any fun v => v.id == id

/-- The store with the rows of each table in the order of their identifiers. -/
def sortedById (s : Store) : Store where
  documents := s.documents.mergeSort fun a b => a.id ≤ b.id
  versions := s.versions.mergeSort fun a b => a.id ≤ b.id
  chunks := s.chunks.mergeSort fun a b => a.id ≤ b.id
  jobs := s.jobs.mergeSort fun a b => a.id ≤ b.id

end Store

end IngestionQueue
