import IngestionQueue.Cli.Http
import IngestionQueue.Cli.Run
import Std.Async.DNS
import Std.Async.TCP

/-!
# The client

`ingestctl` asks a running server to enqueue, upload and reindex, and shows jobs, counts and dead letters.
-/

namespace IngestionQueue.Cli

open Std.Async

/-- What the server sends up to the end of the connection. -/
partial def receive (client : TCP.Socket.Client) (soFar : ByteArray) : Async ByteArray := do
  match ← client.recv? 65536 with
  | some bytes => receive client (soFar ++ bytes)
  | none => return soFar

/-- Posts a message to an endpoint and returns the reply. -/
def exchange (e : Http.Endpoint) (message : Bytes) : Async ByteArray := do
  let addresses ← DNS.getAddrInfo e.host ""
  match addresses[0]? with
  | none => throw (.userError "no address")
  | some address =>
    let port := UInt16.ofNat e.port
    let client ← TCP.Socket.Client.mk
    client.connect (match address with
      | .v4 a => .v4 ⟨a, port⟩
      | .v6 a => .v6 ⟨a, port⟩)
    client.send (ByteArray.mk (Http.post e message).toArray)
    receive client .empty

/-- The text of the reply to a call, unless the server cannot be reached. -/
def reply? (url : String) (r : Request) : IO (Option String) := do
  match Http.Endpoint.ofUrl? url with
  | none => return none
  | some e =>
    try
      let bytes ← (exchange e (Utf8.encode (Json.print r.toJson))).block
      return some (Http.bodyText bytes.toList)
    catch _ => return none

/-- The content of a file, unless it cannot be read. -/
def content? (path : String) : IO (Option Bytes) := do
  try
    return some (← IO.FS.readBinFile path).toList
  catch _ => return none

/-- Prints what a run leaves behind and returns the status to exit with. -/
def finish (o : Outcome) : IO UInt32 := do
  match o with
  | .usage _ => IO.println "Usage: ingestctl [--rpc-url <RPC_URL>] <COMMAND>"
  | .printed text => IO.print text
  | .failed message => IO.eprintln s!"Error: {message}"
  return UInt32.ofNat o.status

end IngestionQueue.Cli

open IngestionQueue.Cli in
def main (args : List String) : IO UInt32 := do
  match Invocation.ofArguments args with
  | .error stop => finish stop.outcome
  | .ok i =>
    let url := (i.rpcUrl <|> (← IO.getEnv "INGEST_RPC_URL")).getD defaultUrl
    let content ← match i.command.file? with
      | some path => content? path
      | none => pure none
    match i.command.plan url (fun _ => content) with
    | .finished o => finish o
    | .call request complete => finish (complete (← reply? url request))
