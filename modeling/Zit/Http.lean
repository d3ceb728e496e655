import Zit.Lib.Arrival
import Zit.Lib.Search
import Zit.Url

/-!
# HTTP responses

`request` of `net.cpp` from the point where the request is sent: the status line, the headers and
the body are taken from a buffer that is filled from the socket. What a socket returns is a list of
reads, however the bytes of the server are cut into them, and the error it ends with.
-/

set_option autoImplicit false

namespace Zit.Net

open Lib

/-- `asio::error_code` of a socket that has no more bytes. -/
inductive SockError
  | eof
  | other (what : String)
  deriving DecidableEq, Repr

/-- What leaves `request`: an exception of the program, `asio::system_error`, or
`HttpException`. -/
inductive HttpExn
  | std (e : Exn)
  | system (e : SockError)
  | http (what : String) (statusCode : Nat)
  deriving DecidableEq, Repr

/-- The socket, and `response` as `response_stream` sees it: the bytes received and not yet taken. -/
structure Conn where
  reads : List Bytes
  ending : SockError
  stream : IStream
  deriving DecidableEq, Repr

abbrev HttpM := EStateM HttpExn Conn

def liftHttp {α : Type} (x : Except Exn α) : HttpM α := lift (x.mapError .std)

/-- An operation on `response_stream`. -/
def onStream {α : Type} (f : IStream → α × IStream) : HttpM α := fun s =>
  .ok (f s.stream).1 { s with stream := (f s.stream).2 }

/-! ## Reading from the socket -/

/-- `MatchMarkers::operator()`: the end of the first marker that occurs. On a miss the code returns
the end of what it was given as the place where the search is to go on. -/
def matchMarkers (markers : List Bytes) (data : Bytes) : Option Nat :=
  markers.findSome? fun marker => (search marker data).map (· + marker.length)

def lineMarkers : List Bytes := [ascii "\r\n".toList, ascii "\n".toList]

def blankMarkers : List Bytes := [ascii "\r\n\r\n".toList, ascii "\n\n".toList]

def Conn.fill (s : Conn) (reads : List Bytes) (rest : Bytes) : Conn :=
  { s with reads, stream := { s.stream with rest } }

/-- `asio::read_until`. It is taken to return once a marker is in the buffer: all of the buffer is
searched after every read, not what comes behind the last miss. -/
def readUntil (markers : List Bytes) : HttpM Unit := do
  let s ← get
  let (found, reads, rest) :=
    fillUntil (fun data => (matchMarkers markers data).isSome) s.reads s.stream.rest
  set (s.fill reads rest)
  if !found then throw (.system s.ending)

/-- `asio::read` with `transfer_at_least(n)`, and the error it leaves. -/
def readAtLeast (n : Nat) : HttpM (Option SockError) := do
  let s ← get
  let (enough, reads, rest) := fillAtLeast n s.reads s.stream.rest
  set (s.fill reads rest)
  return if enough then none else some s.ending

/-- `check_error` -/
def checkError (url : Url) : Option SockError → HttpM Unit
  | some (.other what) =>
    if url.scheme ≠ ascii "https".toList then throw (.system (.other what)) else pure ()
  | _ => pure ()

/-! ## Headers -/

/-- The loop over the headers, with at most `fuel` lines: where a `location` leads to, or the
encoding and the text of the headers. -/
def readHeaders : Nat → Bytes → Bytes → HttpM (Url ⊕ Bytes × Bytes)
  | 0, _, _ => throw (.std .diverged)
  | fuel + 1, encoding, headers => do
    let header ← onStream IStream.getline
    if (← get).stream.fail ∨ header = ascii "\r".toList ∨ header = [] then
      return .inr (encoding, headers)
    else if (ascii "location: ".toList).isPrefixOf (toLower header) then
      return .inl (← liftHttp (Url.ofString (rtrim (header.drop 10))))
    else if (ascii "transfer-encoding: ".toList).isPrefixOf (toLower header) then
      let encoding := rtrim (header.drop 19)
      if encoding ≠ ascii "chunked".toList then
        throw (.std (.runtimeError
          s!"{Bencode.rawText encoding} http transfer encoding currently not supported"))
      else readHeaders fuel encoding (headers ++ header ++ [10])
    else readHeaders fuel encoding (headers ++ header ++ [10])

/-! ## Bodies -/

/-- `chunk_len`, as its line says. -/
def readSize : HttpM Nat := do
  if (← get).stream.rest = [] then readUntil blankMarkers
  let chunkStrLen ← onStream IStream.getline
  liftHttp ((stol 16 (rtrim chunkStrLen)).bind castU64)

/-- The content of a chunk. The end of line behind it is taken too. -/
def readContent (url : Url) (chunkLen : Nat) : HttpM Bytes := do
  let chunkLen := chunkLen + 2
  let size := (← get).stream.rest.length
  if size < chunkLen then checkError url (← readAtLeast (chunkLen - size))
  let s ← get
  if s.stream.rest.length < chunkLen - 2 then throw (.std (.undefined "copy_n range"))
  set (s.fill s.reads (s.stream.rest.drop chunkLen))
  return s.stream.rest.take (chunkLen - 2)

/-- The loop over the chunks, with at most `fuel` turns. -/
def readChunks (url : Url) : Nat → Bytes → HttpM Bytes
  | 0, _ => throw (.std .diverged)
  | fuel + 1, resp => do
    let chunkLen ← readSize
    if chunkLen = 0 then return resp
    else
      let content ← readContent url chunkLen
      readChunks url fuel (resp ++ content)

/-- All bytes until the socket ends. -/
def readToEnd (url : Url) : HttpM Bytes := do
  let s ← get
  set (s.fill [] [])
  checkError url (some s.ending)
  return s.stream.rest ++ s.reads.flatten

/-! ## The response -/

/-- What `request` returns: `httpGet` of another URL, or the headers and the body. -/
inductive HttpResponse
  | redirect (loc : Url)
  | content (headers body : Bytes)
  deriving DecidableEq, Repr

/-- `VALID_STATUSES` -/
def validStatuses : List Nat := [200, 302, 301]

/-- `request`, once the request is sent. -/
def request (url : Url) : HttpM HttpResponse := do
  readUntil lineMarkers
  let httpVersion ← onStream IStream.word
  let statusCode ← onStream IStream.extractUnsigned
  let _ ← onStream IStream.getline
  if (← get).stream.fail ∨ ¬(ascii "HTTP/".toList).isPrefixOf httpVersion then
    throw (.std (.runtimeError "invalid response"))
  else if statusCode ∉ validStatuses then
    throw (.http s!"{Bencode.rawText url.str}: response returned with status code {statusCode}"
      statusCode)
  else
    tryCatch (readUntil blankMarkers) fun e => if e = .system .eof then pure () else throw e
    let s ← get
    match ← readHeaders (s.stream.rest.length + 1) [] [] with
    | .inl loc => return .redirect loc
    | .inr (encoding, headers) =>
      if encoding = ascii "chunked".toList then
        let s ← get
        let body ← readChunks url (s.stream.rest.length + s.reads.flatten.length + 1) []
        return .content headers body
      else return .content headers (← readToEnd url)

/-- A connection on which nothing was received yet. -/
def Conn.ofReads (reads : List Bytes) (ending : SockError) : Conn :=
  { reads, ending, stream := .ofStr [] }

end Zit.Net
