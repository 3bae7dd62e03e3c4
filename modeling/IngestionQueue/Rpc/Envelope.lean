import IngestionQueue.Rpc.Server

/-!
# Messages between client and server

A request is an object that names the version of the protocol, a method, an identifier, and perhaps
parameters. Its reply repeats the identifier and carries the result or the error. A text that is no JSON and
an object that is no request are answered with errors of their own.
-/

namespace IngestionQueue.Rpc

open Json (Record Decoder)

/-- The version of the protocol. -/
def protocolVersion : String := "2.0"

/-- A request, its parameters as they stand. -/
structure Envelope where
  id : Json
  method : String
  params : Option Json.Syntax

namespace Envelope

/-- The version, which has to be the known one. -/
def versionDecoder : Decoder Unit := fun depth s => do
  let version ← Decoder.string depth s
  if version == protocolVersion then return () else throw (.invalidValue s.describe "a known version")

/-- An identifier is `null`, a text, or a natural number. -/
def idDecoder : Decoder Json := fun depth s =>
  match s with
  | .null => .ok .null
  | .string _ => (Decoder.string depth s).map .string
  | s => (Decoder.nat64 depth s).map fun n => .int n

def rawDecoder : Decoder Json.Syntax := fun _ s => .ok s

def decoder : Decoder Envelope :=
  ((Record.pure fun (_ : Unit) id method params => Envelope.mk id method params)
    |>.field "jsonrpc" versionDecoder
    |>.field "id" idDecoder
    |>.field "method" Decoder.string
    |>.optionalField "params" rawDecoder).decoder "Request"

end Envelope

/-- The reply to the request with an identifier. -/
def replyJson (id : Json) (result : Except RpcError Json) : Json :=
  match result with
  | .ok v => .object [("jsonrpc", .string protocolVersion), ("id", id), ("result", v)]
  | .error e => .object [("jsonrpc", .string protocolVersion), ("id", id), ("error", e.toJson)]

namespace RpcError

def parseError : RpcError := ⟨-32700, "Parse error"⟩

def invalidRequest : RpcError := ⟨-32600, "Invalid request"⟩

end RpcError

/-- The text of the reply to the text of a request, and the world after it. -/
def replyTo (maxAttempts uptime : Int) (request : String) (w : World) : String × World :=
  let written (id : Json) (result : Except RpcError Json) : String :=
    String.ofList (Json.print (replyJson id result))
  match Json.Syntax.parse request with
  | none => (written .null (.error .parseError), w)
  | some s =>
    match Envelope.decoder Json.maxDepth s with
    | .error _ => (written .null (.error .invalidRequest), w)
    | .ok e =>
      let (result, w) := serve maxAttempts uptime e.method e.params w
      (written e.id result, w)

end IngestionQueue.Rpc
