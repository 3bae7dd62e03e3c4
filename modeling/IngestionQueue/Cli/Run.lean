import IngestionQueue.Cli.Arguments
import IngestionQueue.Cli.Output

/-!
# Running the client

A run reads its arguments, perhaps a file, and makes one call at most. It ends with what it prints and the
status that it exits with: zero for success, one for a failure, two for arguments that make no command.
-/

namespace IngestionQueue.Cli

def version : String := "0.1.0"

/-- The address of the server, unless it is told otherwise. -/
def defaultUrl : String := "http://127.0.0.1:9531"

/-- What a run leaves behind. Help and remarks on usage are not spelled out. -/
inductive Outcome
  | usage (status : Nat)
  | printed (text : String)
  | failed (message : String)
  deriving DecidableEq, Repr

namespace Outcome

def status : Outcome → Nat
  | usage status => status
  | printed _ => 0
  | failed _ => 1

/-- What is printed of a result that is read with a decoder. -/
def ofResult {α : Type} (d : Json.Decoder α) (text : α → String) (result : Except String Json) : Outcome :=
  match result with
  | .error e => .failed e
  | .ok v =>
    match Json.decodeValue d v with
    | .ok a => .printed (text a)
    | .error e => .failed e.message

end Outcome

/-- The rest of a run: it is over, or it goes on with the text of the reply to a call, if there is a reply. -/
inductive Plan
  | finished (outcome : Outcome)
  | call (request : Request) (finish : Option String → Outcome)

/-- The call of an upload, given the content of its file. -/
def planUpload (file : String) (scope : Scope) (name idempotencyKey : Option String)
    (content : Option Bytes) : Plan :=
  match content with
  | none => .finished (.failed s!"Failed to read {file}")
  | some content =>
    match name <|> (Path.fileName? file.toList).map String.ofList with
    | none => .finished (.failed "File path has no file name")
    | some fileName =>
      .call (.upload scope fileName content idempotencyKey) fun reply =>
        .ofResult UploadResult.decoder (fun r => r.text fileName content.length) (resultOf reply)

/-- How a command is carried out, `read` giving the content of a file. -/
def Command.plan (c : Command) (url : String) (read : String → Option Bytes) : Plan :=
  match c with
  | .enqueue scope document version action key =>
    .call (.enqueue scope document version action key) fun reply =>
      .ofResult EnqueueResult.decoder EnqueueResult.text (resultOf reply)
  | .upload file scope name key => planUpload file scope name key (read file)
  | .reindex tenant document key =>
    .call (.reindex tenant document key) fun reply =>
      .ofResult EnqueueResult.decoder EnqueueResult.text (resultOf reply)
  | .job id tenant =>
    .call (.job id tenant) fun reply => .ofResult JobResult.decoder JobResult.text (resultOf reply)
  | .stats => .call .stats fun reply => .printed (statsText url (resultOf reply))
  | .deadLetters limit =>
    .call (.deadLetters limit) fun reply => .ofResult DeadLetters.decoder DeadLetters.text (resultOf reply)

/-- The file that a command reads. -/
def Command.file? : Command → Option String
  | .upload file _ _ _ => some file
  | _ => none

/-- What is done about arguments that are no command to run. -/
def Stop.outcome : Stop → Outcome
  | .help => .usage 0
  | .usage => .usage 2
  | .version => .printed ("ingestctl " ++ IngestionQueue.Cli.version ++ "\n")

end IngestionQueue.Cli
