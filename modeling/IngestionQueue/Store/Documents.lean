import IngestionQueue.Store.Jobs

/-!
# The tables of documents, versions and chunks

An upload writes its document, its version and its job together or not at all. The chunks of a version are
replaced as a whole. The status of a document that is deleted does not change any more. Deleting a row deletes
what belongs to it.
-/

namespace IngestionQueue

namespace Store

/-- A version joined with its document. -/
def source? (s : Store) (versionId : String) : Option DocumentSource := do
  let v ← s.versions.find? fun v => v.id == versionId
  let d ← s.documents.find? fun d => d.id == v.documentId
  return {
    tenantId := d.tenantId
    workspaceId := d.workspaceId
    kbId := d.kbId
    documentId := d.id
    documentVersionId := v.id
    objectKey := v.objectKey
    parserType := v.parserType }

def document? (s : Store) (tenantId id : String) : Option Document :=
  s.documents.find? fun d => d.tenantId == tenantId && d.id == id

def version? (s : Store) (documentId : String) (version : Int) : Option DocumentVersion :=
  (s.versions.find? fun v => v.documentId == documentId && v.version == version).map VersionRow.toVersion

/-- The document of a list that was created last; of several, the first one. -/
def latest? : List Document → Option Document
  | [] => none
  | d :: rest =>
    match latest? rest with
    | none => some d
    | some e => some (if e.createdAt ≤ d.createdAt then d else e)

/-- The documents that were uploaded under a name and are not deleted. -/
def documentsFrom (s : Store) (tenantId workspaceId kbId sourceUri : String) : List Document :=
  s.documents.filter fun d =>
    d.tenantId == tenantId && d.workspaceId == workspaceId && d.kbId == kbId &&
      d.sourceUri == some sourceUri && d.status != .deleted

def documentFrom? (s : Store) (tenantId workspaceId kbId sourceUri : String) : Option Document :=
  latest? (s.documentsFrom tenantId workspaceId kbId sourceUri)

/-- The chunks of a version in the order of their numbers. -/
def chunksOf (s : Store) (versionId : String) : List DocumentChunk :=
  ((s.chunks.filter fun c => c.documentVersionId == versionId).mergeSort
    fun a b => a.chunkNo ≤ b.chunkNo).map ChunkRow.toChunk

/-- Changes the document that has an identifier. -/
def updateDocument (s : Store) (id : String) (f : Document → Document) : Store :=
  { s with documents := s.documents.map fun d => if d.id = id then f d else d }

def updateVersion (s : Store) (id : String) (f : VersionRow → VersionRow) : Store :=
  { s with versions := s.versions.map fun v => if v.id = id then f v else v }

def updateChunk (s : Store) (id : String) (f : ChunkRow → ChunkRow) : Store :=
  { s with chunks := s.chunks.map fun c => if c.id = id then f c else c }

/-- The store without the chunks of a version. -/
def withoutChunks (s : Store) (versionId : String) : Store :=
  { s with chunks := s.chunks.filter fun c => c.documentVersionId != versionId }

/-- The store without the versions of a list and what belongs to them. -/
def withoutVersions (s : Store) (ids : List String) : Store :=
  { s with
    versions := s.versions.filter fun v => !ids.contains v.id
    chunks := s.chunks.filter fun c => !ids.contains c.documentVersionId
    jobs := s.jobs.filter fun j => !ids.contains j.documentVersionId }

/-- The store without a document and what belongs to it. -/
def withoutDocument (s : Store) (id : String) : Store :=
  let versions := (s.versions.filter fun v => v.documentId == id).map VersionRow.id
  let rest := s.withoutVersions versions
  { rest with
    documents := rest.documents.filter fun d => d.id != id
    chunks := rest.chunks.filter fun c => c.documentId != id
    jobs := rest.jobs.filter fun j => j.documentId != id }

end Store

namespace Query

/-- Inserts a document, or gives the document that has its identifier a new title, version, status and time.
-/
def upsertDocument (d : Document) : Query Unit := do
  let s ← get
  if s.hasDocument d.id then
    set (s.updateDocument d.id fun e =>
      { e with
        title := d.title
        currentVersion := d.currentVersion
        status := d.status
        updatedAt := d.updatedAt })
  else set { s with documents := s.documents ++ [d] }

def insertVersion (r : VersionRow) : Query Unit := do
  let s ← get
  if s.versions.any fun v => v.documentId == r.documentId && v.version == r.version then
    refuse (.unique "document_versions.document_id, document_versions.version")
  else if s.hasVersion r.id then refuse (.primaryKey "document_versions.id")
  else if !s.hasDocument r.documentId then refuse .foreignKey
  else set { s with versions := s.versions ++ [r] }

def insertChunk (r : ChunkRow) : Query Unit := do
  let s ← get
  if s.chunks.any fun c => c.documentVersionId == r.documentVersionId && c.chunkNo == r.chunkNo then
    refuse (.unique "document_chunks.document_version_id, document_chunks.chunk_no")
  else if s.chunks.any fun c => c.id == r.id then refuse (.primaryKey "document_chunks.id")
  else if !(s.hasDocument r.documentId && s.hasVersion r.documentVersionId) then refuse .foreignKey
  else set { s with chunks := s.chunks ++ [r] }

/-- Writes a document with a new version and, if there is one, the job for it. -/
def saveUpload (d : Document) (v : DocumentVersion) (job : Option Job) : Query Unit := atomically do
  upsertDocument d
  insertVersion (.ofVersion v)
  match job with
  | none => return ()
  | some j =>
    let created ← insertJob j
    if created then return ()
    else
      let key := j.idempotencyKey
      throw (.conflict s!"job with key {key} already exists")

def insertChunks : List ChunkRow → Query Unit
  | [] => return ()
  | r :: rest => do
    insertChunk r
    insertChunks rest

/-- Puts new chunks in the place of all chunks of a version, and tells how many there are. -/
def replaceChunks (now : Int) (source : DocumentSource) (chunks : List NewChunk) : Query Nat := do
  modify fun s => s.withoutChunks source.documentVersionId
  insertChunks (chunks.map (ChunkRow.ofNew now source))
  return chunks.length

def setParseStatus (versionId : String) (status : ParseStatus) : Query Unit :=
  modify fun s => s.updateVersion versionId fun v => { v with parseStatus := status }

/-- Sets the status of a document that is not deleted. -/
def setDocumentStatus (now : Int) (id : String) (status : DocumentStatus) : Query Unit :=
  modify fun s => s.updateDocument id fun d =>
    if d.status = .deleted then d else { d with status := status, updatedAt := now }

/-- Marks a document as deleted, and tells how many rows have its identifier. -/
def markDeleted (id : String) : Query Nat := do
  let s ← get
  set (s.updateDocument id fun d => { d with status := .deleted })
  return s.documents.countP fun d => d.id == id

def deleteDocument (id : String) : Query Nat := do
  let s ← get
  set (s.withoutDocument id)
  return s.documents.countP fun d => d.id == id

def deleteVersion (id : String) : Query Nat := do
  let s ← get
  set (s.withoutVersions [id])
  return s.versions.countP fun v => v.id == id

/-- Changes where the object of a version is and how it is read. -/
def setVersionSource (id : String) (objectKey parserType : Option String) : Query Nat := do
  let s ← get
  set (s.updateVersion id fun v => { v with objectKey := objectKey, parserType := parserType })
  return s.versions.countP fun v => v.id == id

def setChunkMetadata (id metadata : String) : Query Nat := do
  let s ← get
  set (s.updateChunk id fun c => { c with metadata := metadata })
  return s.chunks.countP fun c => c.id == id

/-- Marks the document of an attempt as being processed, under its lease. -/
def markProcessing (now : Int) (l : Lease) (documentId : String) : Query Unit := atomically do
  heartbeat now l
  setDocumentStatus now documentId .processing

/-- Writes the result of an attempt under its lease. -/
def finalize (now : Int) (l : Lease) (source : DocumentSource) (chunks : List NewChunk) : Query Nat :=
  atomically do
    let written ← replaceChunks now source chunks
    setParseStatus source.documentVersionId .success
    setDocumentStatus now source.documentId .ready
    complete now l
    return written

/-- Records a failed attempt under its lease. Before a retry the version and its document are pending again;
once the job is given up both have failed. -/
def recordFailure (now : Int) (l : Lease) (documentId versionId : String) (outcome : FailureOutcome)
    (error : String) : Query Unit := atomically do
  fail now l outcome error
  match outcome with
  | .retry _ =>
    setParseStatus versionId .pending
    setDocumentStatus now documentId .pending
  | .deadLetter =>
    setParseStatus versionId .failed
    setDocumentStatus now documentId .failed

end Query

end IngestionQueue
