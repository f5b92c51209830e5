import Spinet.Library.Scanner
import Spinet.Library.Numerals

/-!
# The parser of HTTP requests

`HttpRequestParser` of `example/http/include/httpparser/httprequestparser.h`, with which both HTTP
servers of `example/http` read their requests. It reads one byte at a time: `consume` is a loop over
the bytes around a switch over the state, and `step` is one turn of it. The parser keeps its state
and its counters between two calls of `parse`, and the request is the caller's, so that a request
may arrive in pieces.

A byte is a character below 256; those from 128 on are the negative values of `char`. The counters
are `size_t` and wrap; an `int` wraps, as compilers have it. Two things may go wrong that no
`ParseResult` reports, and both are a `Fault` here: `reserve` throws a `length_error`, and
`headers.back()` is called where there is no header, which is undefined. That memory runs out is
left out: `reserve` and the strings throw a `bad_alloc` then, also for a size that is small enough.
-/

namespace Spinet.Http

open Scanner (Verdict)

/-! ## Bytes, numbers and strings -/

/-- Check if a byte is an HTTP character. -/
def isChar (c : Char) : Bool := c.toNat ≤ 127

/-- Check if a byte is an HTTP control character. -/
def isControl (c : Char) : Bool := c.toNat ≤ 31 || c.toNat == 127

/-- Check if a byte is defined as an HTTP special character. -/
def isSpecial (c : Char) : Bool :=
  ['(', ')', '<', '>', '@', ',', ';', ':', '\\', '"', '/', '[', ']', '?', '=', '\x7b', '\x7d', ' ',
    '\t'].contains c

/-- Check if a byte is a digit. -/
def isDigit (c : Char) : Bool := '0' ≤ c && c ≤ '9'

/-- White space, as `strtol` skips it. -/
def isSpace (c : Char) : Bool := c == ' ' || (9 ≤ c.toNat && c.toNat ≤ 13)

/-- The value of the digits with which a string begins, read on from a number. -/
def digitsFrom (base : ℕ) : ℕ → List Char → ℕ
  | n, [] => n
  | n, c :: cs =>
    match Numerals.digitValue c with
    | some d => if d < base then digitsFrom base (base * n + d) cs else n
    | none => n

/-- The number after the sign. In base sixteen it may have a prefix. -/
def unsigned (base : ℕ) : List Char → ℕ
  | '0' :: 'x' :: cs => if base = 16 then digitsFrom base 0 cs else 0
  | '0' :: 'X' :: cs => if base = 16 then digitsFrom base 0 cs else 0
  | cs => digitsFrom base 0 cs

/-- The number with which a string begins, after white space; the largest or the smallest `long` if
it is none. -/
def strtol (base : ℕ) (s : List Char) : ℤ :=
  match s.dropWhile isSpace with
  | '-' :: cs => max (-(unsigned base cs : ℤ)) (-2 ^ 63)
  | '+' :: cs => min (unsigned base cs : ℤ) (2 ^ 63 - 1)
  | cs => min (unsigned base cs : ℤ) (2 ^ 63 - 1)

/-- An `int`. -/
def toInt (x : ℤ) : ℤ := x.bmod (2 ^ 32)

/-- A `size_t`. -/
def toSize (x : ℤ) : ℕ := (x % 2 ^ 64).toNat

/-- A `size_t`, less one. -/
def decrement : ℕ → ℕ
  | 0 => 2 ^ 64 - 1
  | n + 1 => n

/-- The `int` with which a string begins. -/
def atoi (s : List Char) : ℤ := toInt (strtol 10 s)

/-- Whether two strings are equal but for the case of their letters. -/
def strcasecmp (s t : List Char) : Bool := s.map Char.toLower == t.map Char.toLower

/-- The size above which `std::vector<char>::reserve` throws. -/
def maxSize : ℕ := 2 ^ 63 - 1

/-! ## Requests -/

/-- A header of a request. -/
structure HeaderItem where
  /-- The name. -/
  name : List Char
  /-- The value. -/
  value : List Char
  deriving DecidableEq, Repr

/-- A request. -/
structure Request where
  /-- The method. -/
  method : List Char
  /-- The target. -/
  uri : List Char
  /-- The version before the point. -/
  versionMajor : ℤ
  /-- The version after the point. -/
  versionMinor : ℤ
  /-- The headers, in the order in which they came. -/
  headers : List HeaderItem
  /-- The body. -/
  content : List Char
  /-- Whether the connection stays open after the response. -/
  keepAlive : Bool
  deriving DecidableEq, Repr

/-- A new request. -/
def Request.init : Request := ⟨[], [], 0, 0, [], [], false⟩

/-- Changes the last header, `headers.back()`; `none` if there is no header. -/
def Request.modifyBack (req : Request) (f : HeaderItem → HeaderItem) : Option Request :=
  match req.headers.getLast? with
  | some h => some { req with headers := req.headers.dropLast ++ [f h] }
  | none => none

/-! ## The parser -/

/-- What a call of `parse` returns. -/
inductive ParseResult where
  /-- The request is complete. -/
  | parsingCompleted
  /-- More bytes are needed. -/
  | parsingIncompleted
  /-- The bytes are no request. -/
  | parsingError
  deriving DecidableEq, Repr

/-- What goes wrong in a call that does not return. -/
inductive Fault where
  /-- `reserve` throws. -/
  | lengthError
  /-- `back` is called on no headers. -/
  | emptyBack
  deriving DecidableEq, Repr

/-- The current state of the parser. -/
inductive State where
  | requestMethodStart
  | requestMethod
  | requestUriStart
  | requestUri
  | requestHttpVersionH
  | requestHttpVersionHt
  | requestHttpVersionHtt
  | requestHttpVersionHttp
  | requestHttpVersionSlash
  | requestHttpVersionMajorStart
  | requestHttpVersionMajor
  | requestHttpVersionMinorStart
  | requestHttpVersionMinor
  | responseStatusStart
  | responseHttpVersionHt
  | responseHttpVersionHtt
  | responseHttpVersionHttp
  | responseHttpVersionSlash
  | responseHttpVersionMajorStart
  | responseHttpVersionMajor
  | responseHttpVersionMinorStart
  | responseHttpVersionMinor
  | responseHttpVersionSpaceAfterVersion
  | responseHttpVersionStatusCodeStart
  | responseHttpVersionSpaceAfterStatusCode
  | responseHttpVersionStatusTextStart
  | responseHttpVersionNewLine
  | headerLineStart
  | headerLws
  | headerName
  | spaceBeforeHeaderValue
  | headerValue
  | expectingNewline2
  | expectingNewline3
  | post
  | chunkSize
  | chunkExtensionName
  | chunkExtensionValue
  | chunkSizeNewLine
  | chunkSizeNewLine2
  | chunkSizeNewLine3
  | chunkTrailerName
  | chunkTrailerValue
  | chunkDataNewLine1
  | chunkDataNewLine2
  | chunkData
  deriving DecidableEq, Repr

/-- The parser. -/
structure HttpRequestParser where
  /-- The current state. -/
  state : State
  /-- How much of the body is still to come. -/
  contentSize : ℕ
  /-- The size of a chunk, as far as it has been read. -/
  chunkSizeStr : List Char
  /-- How much of the chunk is still to come. -/
  chunkSize : ℕ
  /-- Whether the body comes in chunks. -/
  chunked : Bool
  deriving DecidableEq, Repr

/-- A new parser. -/
def HttpRequestParser.init : HttpRequestParser := ⟨.requestMethodStart, 0, [], 0, false⟩

/-- What comes of a call: it returns, or does not. -/
abbrev Outcome := Except Fault ParseResult

/-- How a turn of the loop ends that is the last one. -/
inductive Final where
  /-- The call returns, and the request is complete. -/
  | completed
  /-- The call returns, and the bytes are no request. -/
  | error
  /-- The call does not return. -/
  | fault (e : Fault)

/-- What comes of a call that ends so. -/
def Final.outcome : Final → Outcome
  | .completed => .ok .parsingCompleted
  | .error => .ok .parsingError
  | .fault e => .error e

/-- What a turn of the loop does. -/
abbrev Turn := Verdict (HttpRequestParser × Request) Final

section
variable (p : HttpRequestParser) (req : Request)

/-- The loop goes on in a state. -/
def goOn (s : State) : Turn := .goOn ({ p with state := s }, req)

/-- The call ends. -/
def done (r : Final) : Turn := .stop (p, req) r

/-- The states that expect one byte. -/
def expect (input expected : Char) (s : State) : Turn :=
  if input = expected then goOn p req s else done p req .error

/-- Goes on after a change of the last header. -/
def goOnWithBack (s : State) (f : HeaderItem → HeaderItem) : Turn :=
  match req.modifyBack f with
  | some req' => goOn p req' s
  | none => done p req (.fault .emptyBack)

/-- A header of a request with a body says how long the body is. -/
def lengthOfBody : Turn :=
  if req.method = "POST".toList ∨ req.method = "PUT".toList then
    match req.headers.getLast? with
    | none => done p req (.fault .emptyBack)
    | some h =>
      if strcasecmp h.name "Content-Length".toList then
        let p := { p with contentSize := toSize (atoi h.value) }
        if maxSize < p.contentSize then done p req (.fault .lengthError)
        else goOn p req .expectingNewline2
      else if strcasecmp h.name "Transfer-Encoding".toList ∧
          strcasecmp h.value "chunked".toList then
        goOn { p with chunked := true } req .expectingNewline2
      else goOn p req .expectingNewline2
  else goOn p req .expectingNewline2

/-- Whether a header is the connection's. -/
def checkIfConnection (item : HeaderItem) : Bool := strcasecmp item.name "Connection".toList

/-- Whether the connection stays open, by the first such header or by the version. -/
def setKeepAlive : Request :=
  match req.headers.find? checkIfConnection with
  | some it => { req with keepAlive := strcasecmp it.value "Keep-Alive".toList }
  | none =>
    if 1 < req.versionMajor ∨ (req.versionMajor = 1 ∧ req.versionMinor = 1) then
      { req with keepAlive := true }
    else req

/-- The end of the headers: a body follows, in chunks or not, or the request is complete. -/
def endOfHeaders (input : Char) : Turn :=
  let req := setKeepAlive req
  if p.chunked then goOn p req .chunkSize
  else if p.contentSize = 0 then
    done p req (if input = '\n' then .completed else .error)
  else goOn p req .post

/-- A byte of a body that does not come in chunks. -/
def pushContent (input : Char) : Turn :=
  let p := { p with contentSize := decrement p.contentSize }
  let req := { req with content := req.content ++ [input] }
  if p.contentSize = 0 then done p req .completed else goOn p req .post

/-- The size of a chunk has been read. -/
def endOfChunkSize : Turn :=
  let p := { p with chunkSize := toSize (strtol 16 p.chunkSizeStr), chunkSizeStr := [] }
  if maxSize < (req.content.length + p.chunkSize) % 2 ^ 64 then done p req (.fault .lengthError)
  else goOn p req (if p.chunkSize = 0 then .chunkSizeNewLine2 else .chunkData)

/-- A byte of a chunk. -/
def pushChunk (input : Char) : Turn :=
  let req := { req with content := req.content ++ [input] }
  let p := { p with chunkSize := decrement p.chunkSize }
  goOn p req (if p.chunkSize = 0 then .chunkDataNewLine1 else .chunkData)

end

/-- Whether a byte may stand in a method or in the name of a header. -/
def isToken (c : Char) : Bool := !(!isChar c || isControl c || isSpecial c)

/-- One turn of the loop of `consume`. -/
def step : HttpRequestParser × Request → Char → Turn
  | (p, req), input =>
    match p.state with
    | .requestMethodStart =>
      if !isToken input then done p req .error
      else goOn p { req with method := req.method ++ [input] } .requestMethod
    | .requestMethod =>
      if input = ' ' then goOn p req .requestUriStart
      else if !isToken input then done p req .error
      else goOn p { req with method := req.method ++ [input] } .requestMethod
    | .requestUriStart =>
      if isControl input then done p req .error
      else goOn p { req with uri := req.uri ++ [input] } .requestUri
    | .requestUri =>
      if input = ' ' then goOn p req .requestHttpVersionH
      else if input = '\r' then
        done p { req with versionMajor := 0, versionMinor := 9 } .completed
      else if isControl input then done p req .error
      else goOn p { req with uri := req.uri ++ [input] } .requestUri
    | .requestHttpVersionH => expect p req input 'H' .requestHttpVersionHt
    | .requestHttpVersionHt => expect p req input 'T' .requestHttpVersionHtt
    | .requestHttpVersionHtt => expect p req input 'T' .requestHttpVersionHttp
    | .requestHttpVersionHttp => expect p req input 'P' .requestHttpVersionSlash
    | .requestHttpVersionSlash =>
      if input = '/' then
        goOn p { req with versionMajor := 0, versionMinor := 0 } .requestHttpVersionMajorStart
      else done p req .error
    | .requestHttpVersionMajorStart =>
      if isDigit input then
        goOn p { req with versionMajor := toInt (input.toNat - '0'.toNat) } .requestHttpVersionMajor
      else done p req .error
    | .requestHttpVersionMajor =>
      if input = '.' then goOn p req .requestHttpVersionMinorStart
      else if isDigit input then
        goOn p { req with versionMajor := toInt (req.versionMajor * 10 + input.toNat - '0'.toNat) }
          .requestHttpVersionMajor
      else done p req .error
    | .requestHttpVersionMinorStart =>
      if isDigit input then
        goOn p { req with versionMinor := toInt (input.toNat - '0'.toNat) } .requestHttpVersionMinor
      else done p req .error
    | .requestHttpVersionMinor =>
      if input = '\r' then goOn p req .responseHttpVersionNewLine
      else if isDigit input then
        goOn p { req with versionMinor := toInt (req.versionMinor * 10 + input.toNat - '0'.toNat) }
          .requestHttpVersionMinor
      else done p req .error
    | .responseHttpVersionNewLine => expect p req input '\n' .headerLineStart
    | .headerLineStart =>
      if input = '\r' then goOn p req .expectingNewline3
      else if req.headers ≠ [] ∧ (input = ' ' ∨ input = '\t') then goOn p req .headerLws
      else if !isToken input then done p req .error
      else goOn p { req with headers := req.headers ++ [⟨[input], []⟩] } .headerName
    | .headerLws =>
      if input = '\r' then goOn p req .expectingNewline2
      else if input = ' ' ∨ input = '\t' then goOn p req .headerLws
      else if isControl input then done p req .error
      else goOnWithBack p req .headerValue fun h => { h with value := h.value ++ [input] }
    | .headerName =>
      if input = ':' then goOn p req .spaceBeforeHeaderValue
      else if !isToken input then done p req .error
      else goOnWithBack p req .headerName fun h => { h with name := h.name ++ [input] }
    | .spaceBeforeHeaderValue => expect p req input ' ' .headerValue
    | .headerValue =>
      if input = '\r' then lengthOfBody p req
      else if isControl input then done p req .error
      else goOnWithBack p req .headerValue fun h => { h with value := h.value ++ [input] }
    | .expectingNewline2 => expect p req input '\n' .headerLineStart
    | .expectingNewline3 => endOfHeaders p req input
    | .post => pushContent p req input
    | .chunkSize =>
      if input.isAlphanum then
        goOn { p with chunkSizeStr := p.chunkSizeStr ++ [input] } req .chunkSize
      else if input = ';' then goOn p req .chunkExtensionName
      else expect p req input '\r' .chunkSizeNewLine
    | .chunkExtensionName =>
      if input.isAlphanum ∨ input = ' ' then goOn p req .chunkExtensionName
      else if input = '=' then goOn p req .chunkExtensionValue
      else expect p req input '\r' .chunkSizeNewLine
    | .chunkExtensionValue =>
      if input.isAlphanum ∨ input = ' ' then goOn p req .chunkExtensionValue
      else expect p req input '\r' .chunkSizeNewLine
    | .chunkSizeNewLine =>
      if input = '\n' then endOfChunkSize p req else done p req .error
    | .chunkSizeNewLine2 =>
      if input = '\r' then goOn p req .chunkSizeNewLine3
      else if input.isAlpha then goOn p req .chunkTrailerName
      else done p req .error
    | .chunkSizeNewLine3 =>
      done p req (if input = '\n' then .completed else .error)
    | .chunkTrailerName =>
      if input.isAlphanum then goOn p req .chunkTrailerName
      else expect p req input ':' .chunkTrailerValue
    | .chunkTrailerValue =>
      if input.isAlphanum ∨ input = ' ' then goOn p req .chunkTrailerValue
      else expect p req input '\r' .chunkSizeNewLine
    | .chunkData => pushChunk p req input
    | .chunkDataNewLine1 => expect p req input '\r' .chunkDataNewLine2
    | .chunkDataNewLine2 => expect p req input '\n' .chunkSize
    | _ => done p req .error

/-- Reads the bytes, until the request is complete or something is wrong. -/
def consume (p : HttpRequestParser) (req : Request) (bytes : List Char) :
    (HttpRequestParser × Request) × Outcome :=
  match Scanner.feed step (p, req) bytes with
  | (s, some r, _) => (s, r.outcome)
  | (s, none, _) => (s, .ok .parsingIncompleted)

/-- Parses a piece of a request. -/
def parse (p : HttpRequestParser) (req : Request) (bytes : List Char) :
    (HttpRequestParser × Request) × Outcome :=
  consume p req bytes

end Spinet.Http
