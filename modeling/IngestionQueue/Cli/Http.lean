import IngestionQueue.Bytes.Utf8
import IngestionQueue.Number.Literal
import IngestionQueue.Text.Path

/-!
# Posting over HTTP

The client posts one message and reads the reply up to the end of the connection. The body of a reply follows
the empty line after its header; a body in chunks is put together.
-/

namespace IngestionQueue.Cli.Http

/-- A server and the path of a resource on it. -/
structure Endpoint where
  host : String
  port : Nat
  path : String
  deriving DecidableEq, Repr

/-- The endpoint of a URL without encryption; the port is 80 unless it is given. -/
def Endpoint.ofUrl? (url : String) : Option Endpoint := do
  let start := "http://".toList
  if !start.isPrefixOf url.toList then none
  let rest := url.toList.drop start.length
  let authority := rest.takeWhile (· != '/')
  let path := rest.dropWhile (· != '/')
  let host := authority.takeWhile (· != ':')
  let port ← match authority.dropWhile (· != ':') with
    | [] => some 80
    | _ :: digits => Literal.natural? digits
  if host.isEmpty || 65535 < port then none
  else return ⟨String.ofList host, port, if path.isEmpty then "/" else String.ofList path⟩

/-- The bytes of a request that posts a message. -/
def post (e : Endpoint) (message : Bytes) : Bytes :=
  let host := e.host
  let port := e.port
  let path := e.path
  let length := message.length
  Utf8.ofString ("\r\n".intercalate [
    s!"POST {path} HTTP/1.1",
    s!"Host: {host}:{port}",
    "Content-Type: application/json",
    "Accept: */*",
    s!"Content-Length: {length}",
    "Connection: close",
    "", ""]) ++ message

/-- The bytes before and after the first empty line. -/
def splitHeader : Bytes → Bytes × Bytes
  | 13 :: 10 :: 13 :: 10 :: rest => ([], rest)
  | b :: rest =>
    let (header, body) := splitHeader rest
    (b :: header, body)
  | [] => ([], [])

/-- Whether a header says that the body comes in chunks. -/
def isChunked (header : Bytes) : Bool :=
  let text := (Utf8.decode header).map Char.toLower
  let lines := Path.splitAt (· == '\n') text
  lines.any fun line =>
    "transfer-encoding:".toList.isPrefixOf line && (Path.splitAt (· == ' ') line).any fun word =>
      "chunked".toList.isPrefixOf word

/-- The number that hexadecimal digits write, up to the first other byte. -/
def chunkSize (bytes : Bytes) : Nat :=
  let digits := bytes.takeWhile fun b => (Hex.digitValue? (Char.ofNat b.toNat)).isSome
  digits.foldl (fun n b => 16 * n + (Hex.digitValue? (Char.ofNat b.toNat)).getD 0) 0

/-- The chunks of a body put together, up to the empty one. -/
def joinChunks : Nat → Bytes → Bytes
  | 0, _ => []
  | fuel + 1, bytes =>
    let size := chunkSize bytes
    let rest := (bytes.dropWhile (· != 10)).drop 1
    if size = 0 then [] else rest.take size ++ joinChunks fuel (rest.drop (size + 2))

/-- The text of the body of a reply. -/
def bodyText (reply : Bytes) : String :=
  let (header, body) := splitHeader reply
  let body := if isChunked header then joinChunks body.length body else body
  String.ofList (Utf8.decodeReplacing body)

end IngestionQueue.Cli.Http
