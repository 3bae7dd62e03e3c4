import IngestionQueue.Backoff
import IngestionQueue.Bytes.Base64
import IngestionQueue.Bytes.Hex
import IngestionQueue.Bytes.Sha256
import IngestionQueue.Bytes.Utf8
import IngestionQueue.Checked
import IngestionQueue.Chunk
import IngestionQueue.Cli.Arguments
import IngestionQueue.Cli.Command
import IngestionQueue.Cli.Http
import IngestionQueue.Cli.Output
import IngestionQueue.Cli.Run
import IngestionQueue.DatabaseUrl
import IngestionQueue.Document
import IngestionQueue.Error
import IngestionQueue.FileTree
import IngestionQueue.IdempotencyKey
import IngestionQueue.Ingestion
import IngestionQueue.Job
import IngestionQueue.Json.Basic
import IngestionQueue.Json.Decoding
import IngestionQueue.Json.Printing
import IngestionQueue.Json.Reading
import IngestionQueue.Json.Syntax
import IngestionQueue.Main
import IngestionQueue.Number.Binary64
import IngestionQueue.Number.Literal
import IngestionQueue.Number.Shortest
import IngestionQueue.Number.Word
import IngestionQueue.ObjectKey
import IngestionQueue.ObjectStore
import IngestionQueue.Proofs.Consistency
import IngestionQueue.Proofs.Fencing
import IngestionQueue.Proofs.FileTree
import IngestionQueue.Proofs.Index
import IngestionQueue.Proofs.Integrity
import IngestionQueue.Proofs.Lifecycle
import IngestionQueue.Proofs.ObjectKey
import IngestionQueue.Proofs.Path
import IngestionQueue.Proofs.ObjectStore
import IngestionQueue.Proofs.Services
import IngestionQueue.Proofs.System
import IngestionQueue.Proofs.Task
import IngestionQueue.Proofs.Write
import IngestionQueue.Recovery
import IngestionQueue.Rpc.Envelope
import IngestionQueue.Rpc.Message
import IngestionQueue.Rpc.Server
import IngestionQueue.Settings.Basic
import IngestionQueue.Settings.Layers
import IngestionQueue.Store.Basic
import IngestionQueue.Store.Documents
import IngestionQueue.Store.Jobs
import IngestionQueue.Text.Blank
import IngestionQueue.Text.Grid
import IngestionQueue.Text.Occurrence
import IngestionQueue.Text.Path
import IngestionQueue.Text.Quoted
import IngestionQueue.Text.Width
import IngestionQueue.Toml.Basic
import IngestionQueue.Toml.Moment
import IngestionQueue.Toml.Reading
import IngestionQueue.Uuid
import IngestionQueue.Wire.Document
import IngestionQueue.Wire.Ingestion
import IngestionQueue.Wire.Job
import IngestionQueue.Worker
import IngestionQueue.World
import IngestionQueue.Proofs.Production
import IngestionQueue.Proofs.Conservation
import IngestionQueue.Proofs.Recovery
import IngestionQueue.Proofs.Sweep
import IngestionQueue.Proofs.Progress
import IngestionQueue.Proofs.Fresh
import IngestionQueue.Proofs.Idempotence
import IngestionQueue.Proofs.Utf8
import IngestionQueue.Proofs.IdempotencyKey
import IngestionQueue.Proofs.Deduplication
import IngestionQueue.Proofs.Spacing
import IngestionQueue.Proofs.Targets
import IngestionQueue.Proofs.Isolation
import IngestionQueue.Proofs.Readiness
import IngestionQueue.Proofs.Numbering
import IngestionQueue.Proofs.Sources
import IngestionQueue.Proofs.Deletion
import IngestionQueue.Proofs.Processing
import IngestionQueue.Proofs.Blank
import IngestionQueue.Proofs.Chunk
import IngestionQueue.Proofs.Overlap
import IngestionQueue.Proofs.Attempt
import IngestionQueue.Proofs.Claiming
import IngestionQueue.Proofs.Work
import IngestionQueue.Proofs.Base64
import IngestionQueue.Proofs.Json
import IngestionQueue.Proofs.Record
import IngestionQueue.Proofs.Wire
import IngestionQueue.Proofs.Saving
import IngestionQueue.Proofs.Backoff
import IngestionQueue.Proofs.Settings
import IngestionQueue.Proofs.UploadKey
import IngestionQueue.Proofs.Damage
import IngestionQueue.Proofs.ObjectMap
import IngestionQueue.Proofs.Refinement
import IngestionQueue.Proofs.Draining
import IngestionQueue.Proofs.DeadLetters
import IngestionQueue.Proofs.Spelling
import IngestionQueue.Proofs.Accepting
import IngestionQueue.Proofs.Lossless
