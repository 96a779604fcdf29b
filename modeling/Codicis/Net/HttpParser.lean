/-
The incremental HTTP/1.1 request parser (`net/http_parser.cc`).

The parser takes the header block as a whole, once its end has come, and then the body by its
length or in chunks.  What it needs across calls is in its fields; the bytes that it has not
consumed stay in the buffer.  A byte is a character here, and sizes are numbers modulo `2 ^ 64`
where the source computes them without a check.

`turn` is one turn of the loops of `parse` and `parse_chunked`.  `turn_loop_iff` says which
bytes a turn consumes, and that nothing behind them matters.  The two limits on unfinished
input are what breaks this: `Tight` says where.
-/
import Codicis.Lib.Cut
import Codicis.Lib.Fallible
import Codicis.Lib.Resumable

namespace Codicis

/-- A header field; the name is as received. -/
structure HttpHeader where
  name : List Char
  value : List Char
deriving DecidableEq, Repr

/-- A parsed request. -/
structure HttpRequest where
  method : List Char := []
  target : List Char := []
  path : List Char := []
  query : List Char := []
  httpMinor : ℕ := 1
  headers : List HttpHeader := []
  body : List Char := []
  keepAlive : Bool := true
deriving DecidableEq, Repr

namespace Http

def crlf : List Char := ['\r', '\n']

def crlfCrlf : List Char := ['\r', '\n', '\r', '\n']

/-- ASCII case-insensitive equality. -/
def iEquals (a b : List Char) : Bool := a.map Char.toLower = b.map Char.toLower

/-- The characters of a token. -/
def isTokenChar (c : Char) : Bool :=
  ('0' ≤ c && c ≤ '9') || ('A' ≤ c && c ≤ 'Z') || ('a' ≤ c && c ≤ 'z') ||
    "!#$%&'*+-.^_`|~".toList.contains c

/-- A non-empty token. -/
def isToken (s : List Char) : Bool := s ≠ [] && s.all isTokenChar

/-- A control character, other than a tab. -/
def hasCtl (s : List Char) : Bool :=
  s.any fun c => (c.toNat < 0x20 && c ≠ '\t') || c.toNat = 0x7F

/-- Spaces and tabs. -/
def isOws (c : Char) : Bool := c = ' ' || c = '\t'

/-- Remove leading and trailing spaces and tabs. -/
def trimOws (s : List Char) : List Char := ((s.dropWhile isOws).reverse.dropWhile isOws).reverse

/-- The value of a hex digit. -/
def hexDigit (c : Char) : Option ℕ :=
  if '0' ≤ c ∧ c ≤ '9' then some (c.toNat - '0'.toNat)
  else if 'a' ≤ c ∧ c ≤ 'f' then some (10 + (c.toNat - 'a'.toNat))
  else if 'A' ≤ c ∧ c ≤ 'F' then some (10 + (c.toNat - 'A'.toNat))
  else none

/-- The digits of a chunk size, up to an extension; the size is computed modulo `2 ^ 64`. -/
def hexDigits (value digits : ℕ) : List Char → Option (ℕ × ℕ)
  | [] => some (value, digits)
  | c :: cs =>
    if c = ';' then some (value, digits)
    else
      match hexDigit c with
      | none => none
      | some d => hexDigits ((value * 16 + d) % 2 ^ 64) (digits + 1) cs

/-- A chunk size has at least one digit. -/
def parseHexSize (s : List Char) : Option ℕ :=
  match hexDigits 0 0 s with
  | none => none
  | some (value, digits) => if digits = 0 then none else some value

/-- The lines of a header block; the last one may have no line end. -/
def crlfLines : List Char → List (List Char)
  | [] => []
  | '\r' :: '\n' :: cs => [] :: crlfLines cs
  | c :: cs =>
    match crlfLines cs with
    | [] => [[c]]
    | l :: ls => (c :: l) :: ls

end Http

open Http

/-- Case-insensitive header lookup: the first match. -/
def HttpRequest.header (r : HttpRequest) (name : String) : Option (List Char) :=
  (r.headers.find? fun h => iEquals h.name name.toList).map HttpHeader.value

namespace HttpRequestParser

/-- A line of the header block; empty lines are skipped. -/
def parseHeaderLine (line : List Char) : Except String (Option HttpHeader) :=
  match line with
  | [] => .ok none
  | c :: _ =>
    if isOws c = true then .error "obsolete header line folding"
    else
      match cutAt [':'] line with
      | none => .error "malformed header line"
      | some (name, rest) =>
        if isToken name = false then .error "invalid header name"
        else if hasCtl (trimOws rest) = true then .error "control character in header value"
        else .ok (some ⟨name, trimOws rest⟩)

/-- The header lines, in order. -/
def parseHeaders (lines : List (List Char)) : Except String (List HttpHeader) :=
  lines.foldlM (fun hs line => (parseHeaderLine line).map fun h => hs ++ h.toList) []

/-- The request line: method, target and version. -/
def parseRequestLine (line : List Char) : Except String HttpRequest :=
  match cutAt [' '] line with
  | none => .error "malformed request line"
  | some (method, rest) =>
    match cutAt [' '] rest with
    | none => .error "malformed request line"
    | some (target, version) =>
      if version ≠ "HTTP/1.0".toList ∧ version ≠ "HTTP/1.1".toList then
        .error "unsupported HTTP version"
      else if method = [] ∨ target = [] then .error "empty method or target"
      else if isToken method = false then .error "invalid method"
      else if hasCtl target = true then .error "control character in target"
      else
        let pq := (cutAt ['?'] target).getD (target, [])
        .ok { method := method, target := target, path := pq.1, query := pq.2,
              httpMinor := if version = "HTTP/1.1".toList then 1 else 0 }

/-- Whether the connection is kept: the version decides, a `Connection` header may override. -/
def resolveKeepAlive (r : HttpRequest) : Bool :=
  match r.header "Connection" with
  | none => r.httpMinor = 1
  | some conn =>
    if iEquals (trimOws conn) "close".toList = true then false
    else if iEquals (trimOws conn) "keep-alive".toList = true then true
    else r.httpMinor = 1

/-- How the body of a request is framed. -/
inductive Framing
  | none
  | length (n : ℕ)
  | chunked
deriving DecidableEq, Repr

/-- The `Content-Length` headers must agree; the last one counts. -/
def scanContentLength (cl : Option (List Char)) (h : HttpHeader) :
    Except String (Option (List Char)) :=
  if iEquals h.name "Content-Length".toList = false then .ok cl
  else
    match cl with
    | none => .ok (some h.value)
    | some v =>
      if trimOws h.value ≠ trimOws v then .error "conflicting Content-Length"
      else .ok (some h.value)

/-- The digits of a `Content-Length`, with a guard against overflow. -/
def lengthDigits (len : ℕ) : List Char → Except String ℕ
  | [] => .ok len
  | c :: cs =>
    if c < '0' ∨ '9' < c then .error "invalid Content-Length"
    else if (2 ^ 64 - 1 - 9) / 10 < len then .error "Content-Length overflow"
    else lengthDigits (len * 10 + (c.toNat - '0'.toNat)) cs

/-- Determine the framing of the body. -/
def resolveFraming (maxBody : ℕ) (r : HttpRequest) : Except String Framing := do
  let cl ← r.headers.foldlM scanContentLength none
  match r.header "Transfer-Encoding", cl with
  | some _, some _ => .error "Content-Length with Transfer-Encoding"
  | some te, none =>
    if iEquals (trimOws te) "chunked".toList = true then .ok .chunked
    else .error "unsupported Transfer-Encoding"
  | none, some cl => do
      let len ← lengthDigits 0 (trimOws cl)
      if maxBody < len then .error "body exceeds limit" else .ok (.length len)
  | none, none => .ok .none

/-- Parse the request line and the headers of a header block. -/
def parseHead (maxBody : ℕ) (block : List Char) : Except String (HttpRequest × Framing) := do
  let (line, rest) := (cutAt crlf block).getD (block, [])
  let r ← parseRequestLine line
  let headers ← parseHeaders (crlfLines rest)
  let r := { r with headers := headers }
  let r := { r with keepAlive := resolveKeepAlive r }
  let framing ← resolveFraming maxBody r
  .ok (r, framing)

/-- State across calls. -/
inductive State
  | head
  | bodyLength
  | bodyChunked
  | complete
  | error
deriving DecidableEq, Repr

/-- Phase within a chunked body. -/
inductive ChunkPhase
  | size
  | data
  | dataCrlf
  | trailer
deriving DecidableEq, Repr

inductive Progress
  | incomplete
  | complete
  | error
deriving DecidableEq, Repr

end HttpRequestParser

open HttpRequestParser in
/-- The parser of one connection. -/
structure HttpRequestParser where
  maxHeaderBytes : ℕ := 64 * 1024
  maxBodyBytes : ℕ := 8 * 1024 * 1024
  state : State := .head
  request : HttpRequest := {}
  error : String := ""
  bodyRemaining : ℕ := 0
  chunkPhase : ChunkPhase := .size
  chunkRemaining : ℕ := 0
  bodyTotal : ℕ := 0
deriving DecidableEq, Repr

namespace HttpRequestParser

/-- Parse the next request. -/
def reset (p : HttpRequestParser) : HttpRequestParser :=
  { maxHeaderBytes := p.maxHeaderBytes, maxBodyBytes := p.maxBodyBytes }

/-- What a turn of a loop does: go round again, or return. -/
inductive Turn
  | loop (p : HttpRequestParser) (rest : List Char)
  | stop (p : HttpRequestParser) (rest : List Char) (progress : Progress)
deriving DecidableEq, Repr

/-- Set the error state and return. -/
def fail (p : HttpRequestParser) (rest : List Char) (msg : String) : Turn :=
  .stop { p with state := .error, error := msg } rest .error

/-- The parser after a header block. -/
def afterHead (p : HttpRequestParser) (r : HttpRequest) : Framing → HttpRequestParser
  | .none => { p with request := r, state := .complete }
  | .length n =>
    { p with request := r, bodyRemaining := n, state := if n = 0 then .complete else .bodyLength }
  | .chunked => { p with request := r, state := .bodyChunked, chunkPhase := .size }

/-- Awaiting the full header block. -/
def turnHead (p : HttpRequestParser) (v : List Char) : Turn :=
  match cutAt crlfCrlf v with
  | none =>
    if p.maxHeaderBytes < v.length then p.fail v "header block too large"
    else .stop p v .incomplete
  | some (block, rest) =>
    if p.maxHeaderBytes < block.length then p.fail v "header block too large"
    else
      match parseHead p.maxBodyBytes block with
      | .error msg => p.fail v msg
      | .ok (r, framing) => .loop (p.afterHead r framing) rest

/-- Append bytes to the body. -/
def addBody (p : HttpRequestParser) (bytes : List Char) : HttpRequestParser :=
  { p with request := { p.request with body := p.request.body ++ bytes } }

/-- Reading a body of known length. -/
def turnBodyLength (p : HttpRequestParser) (v : List Char) : Turn :=
  let take := min v.length p.bodyRemaining
  let p' : HttpRequestParser := { p.addBody (v.take take) with
    bodyRemaining := p.bodyRemaining - take }
  if 0 < p'.bodyRemaining then .stop p' (v.drop take) .incomplete
  else .loop { p' with state := .complete } (v.drop take)

/-- The size of a chunk is known; the body must not exceed its limit. -/
def takeSize (p : HttpRequestParser) (size : ℕ) (rest : List Char) : Turn :=
  if size = 0 then .loop { p with chunkPhase := .trailer } rest
  else if p.maxBodyBytes < (p.bodyTotal + size) % 2 ^ 64 then
    fail { p with bodyTotal := (p.bodyTotal + size) % 2 ^ 64 } rest "body exceeds limit"
  else
    .loop { p with bodyTotal := (p.bodyTotal + size) % 2 ^ 64, chunkRemaining := size,
                   chunkPhase := .data } rest

/-- Reading the line with the size of a chunk. -/
def turnSize (p : HttpRequestParser) (v : List Char) : Turn :=
  match cutAt crlf v with
  | none =>
    if 1024 < v.length then p.fail v "chunk-size line too long" else .stop p v .incomplete
  | some (line, rest) =>
    match parseHexSize line with
    | none => p.fail v "invalid chunk size"
    | some size => p.takeSize size rest

/-- Reading the data of a chunk. -/
def turnData (p : HttpRequestParser) (v : List Char) : Turn :=
  let take := min v.length p.chunkRemaining
  let p' : HttpRequestParser := { p.addBody (v.take take) with
    chunkRemaining := p.chunkRemaining - take }
  if 0 < p'.chunkRemaining then .stop p' (v.drop take) .incomplete
  else .loop { p' with chunkPhase := .dataCrlf } (v.drop take)

/-- The line end behind the data of a chunk. -/
def turnDataCrlf (p : HttpRequestParser) (v : List Char) : Turn :=
  match v with
  | c :: d :: rest =>
    if c ≠ '\r' ∨ d ≠ '\n' then p.fail v "missing CRLF after chunk data"
    else .loop { p with chunkPhase := .size } rest
  | _ => .stop p v .incomplete

/-- Trailers, up to the final empty line. -/
def turnTrailer (p : HttpRequestParser) (v : List Char) : Turn :=
  match cutAt crlf v with
  | none => .stop p v .incomplete
  | some (line, rest) => .loop (if line = [] then { p with state := .complete } else p) rest

/-- One turn of the loop of `parse`; in a chunked body, of the loop of `parse_chunked`. -/
def turn (p : HttpRequestParser) (v : List Char) : Turn :=
  match p.state with
  | .head => p.turnHead v
  | .bodyLength => p.turnBodyLength v
  | .bodyChunked =>
    match p.chunkPhase with
    | .size => p.turnSize v
    | .data => p.turnData v
    | .dataCrlf => p.turnDataCrlf v
    | .trailer => p.turnTrailer v
  | .complete => .stop p v .complete
  | .error => .stop p v .error

/-- A bound on the number of turns: three for a byte, and one or two more where a turn may
consume nothing. -/
def rank (p : HttpRequestParser) (v : List Char) : ℕ :=
  3 * v.length +
    match p.state with
    | .bodyLength => 2
    | .complete => 1
    | .bodyChunked => if p.chunkPhase = .data then 1 else 0
    | _ => 0

def parseFuel : ℕ → HttpRequestParser → List Char → HttpRequestParser × List Char × Progress
  | 0, p, v => (p, v, .incomplete)
  | n + 1, p, v =>
    match p.turn v with
    | .loop p' rest => parseFuel n p' rest
    | .stop p' rest progress => (p', rest, progress)

/-- Parse as much as possible of one request from the buffer. -/
def parse (p : HttpRequestParser) (v : List Char) : HttpRequestParser × List Char × Progress :=
  parseFuel (p.rank v + 1) p v

end HttpRequestParser

end Codicis
