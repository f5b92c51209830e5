import Spinet.Http.RequestParser

/-!
# What the parser takes for a request

The requests that the parser accepts, as they are written. A `Message` is a request line, the lines
of the header, and a body, each with the properties that its bytes must have; its `text` is what is
sent, and its `request` what it stands for. `Short` is the request of HTTP/0.9, which has no version
and no header. `Http/Grammar.lean` shows that these are the texts that the parser accepts, and no
others.

The format is wider than that of HTTP/1.1 in places, and these are part of the description: the
first byte of the target may be a blank, the byte after the `\r` of the empty line is not looked at
if a body follows, a line that begins with a blank goes on with the header before it, and the size
of a chunk ends where its first byte stands that is no hexadecimal digit. It is also narrower: one
blank must follow the colon, and the fields of the trailer have letters, digits and blanks only. -/

namespace Spinet.Http

/-- A text of bytes of a class. -/
structure Text (p : Char → Bool) where
  /-- The bytes. -/
  chars : List Char
  /-- All are of the class. -/
  all : ∀ c ∈ chars, p c = true

/-- A text of bytes of a class that is not empty. -/
structure Word (p : Char → Bool) extends Text p where
  /-- There is a byte. -/
  ne : chars ≠ []

/-- Whether a byte may stand in the value of a header. -/
def isText (c : Char) : Bool := !isControl c

/-- Whether a byte may stand in a target, after its first. -/
def isTarget (c : Char) : Bool := !isControl c && c != ' '

/-- Whether a byte is a blank of a line that goes on with the one before it. -/
def isBlank (c : Char) : Bool := c == ' ' || c == '\t'

/-- Whether a byte may stand in an extension or in the value of a trailer. -/
def isPlain (c : Char) : Bool := c.isAlphanum || c == ' '

/-! ## The parts of a message -/

/-- The target of a request. -/
structure Target where
  /-- The first byte. -/
  first : Char
  /-- The others. -/
  others : Text isTarget
  /-- The first byte may be a blank. -/
  first_text : isText first = true

/-- The target as it is written. -/
def Target.chars (t : Target) : List Char := t.first :: t.others.chars

/-- The target `/`. -/
def Target.root : Target := ⟨'/', ⟨[], List.all_eq_true.1 rfl⟩, rfl⟩

/-- The number 1, as it stands in a version. -/
def one : Word isDigit := ⟨⟨['1'], List.all_eq_true.1 rfl⟩, List.cons_ne_nil _ _⟩

/-- A header line with a name. -/
structure Field where
  /-- The name. -/
  name : Word isToken
  /-- The value. -/
  value : Text isText

/-- The header that a line begins. -/
def Field.item (f : Field) : HeaderItem := ⟨f.name.chars, f.value.chars⟩

/-- A header line that goes on with the header before it. -/
structure Fold where
  /-- The blanks with which it begins. -/
  blanks : Word isBlank
  /-- What is appended to the value. -/
  value : Text isText
  /-- It begins after the blanks. -/
  no_blank : ∀ c ∈ value.chars.head?, c ≠ ' '

/-- A line of the header. -/
inductive Line where
  /-- It begins a header. -/
  | field (f : Field)
  /-- It goes on with a header. -/
  | fold (f : Fold)

/-- A line as it is written. -/
def Line.text : Line → List Char
  | .field f => f.name.chars ++ ':' :: ' ' :: f.value.chars ++ ['\r', '\n']
  | .fold f => f.blanks.chars ++ f.value.chars ++ ['\r', '\n']

/-- What is known of a request after some lines of its header. -/
structure Head where
  /-- The headers. -/
  headers : List HeaderItem
  /-- The announced length of the body. -/
  contentSize : ℕ
  /-- Whether the body comes in chunks. -/
  chunked : Bool
  /-- A body of this length fits into a vector. -/
  fits : contentSize ≤ maxSize

/-- Nothing is known yet. -/
def Head.init : Head := ⟨[], 0, false, Nat.zero_le _⟩

/-- Takes note of what the last header says of the body, if the method has one. A body that is too
long for a vector is not accepted. -/
def Head.note (method : List Char) (d : Head) (h : HeaderItem) : Option Head :=
  if method = "POST".toList ∨ method = "PUT".toList then
    if strcasecmp h.name "Content-Length".toList then
      if hfits : toSize (atoi h.value) ≤ maxSize then
        some { d with contentSize := toSize (atoi h.value), fits := hfits }
      else none
    else if strcasecmp h.name "Transfer-Encoding".toList ∧
        strcasecmp h.value "chunked".toList then
      some { d with chunked := true }
    else some d
  else some d

/-- What is known after one more line; `none` if the line may not come here. -/
def Head.read (method : List Char) (d : Head) : Line → Option Head
  | .field f => Head.note method { d with headers := d.headers ++ [f.item] } f.item
  | .fold f =>
    match d.headers.getLast? with
    | none => none
    | some h =>
      -- A line of blanks alone changes nothing, and its header is not looked at again.
      if f.value.chars = [] then some d
      else
        let h := { h with value := h.value ++ f.value.chars }
        Head.note method { d with headers := d.headers.dropLast ++ [h] } h

/-- What follows the size of a chunk. -/
inductive Extension where
  /-- Nothing. -/
  | none
  /-- A name. -/
  | name (n : Text isPlain)
  /-- A name and a value. -/
  | value (n v : Text isPlain)

/-- An extension as it is written. -/
def Extension.text : Extension → List Char
  | .none => []
  | .name n => ';' :: n.chars
  | .value n v => ';' :: n.chars ++ '=' :: v.chars

/-- A chunk. -/
structure Chunk where
  /-- The size as it is written. -/
  size : Text Char.isAlphanum
  /-- What follows the size. -/
  extension : Extension
  /-- The bytes of the body. -/
  data : List Char
  /-- The size is their number. -/
  size_eq : toSize (strtol 16 size.chars) = data.length
  /-- There are some. -/
  data_ne : data ≠ []

/-- A chunk as it is written. -/
def Chunk.text (k : Chunk) : List Char :=
  k.size.chars ++ k.extension.text ++ '\r' :: '\n' :: k.data ++ ['\r', '\n']

/-- A field of the trailer. -/
structure Trailer where
  /-- The first byte of the name. -/
  first : Char
  /-- The others. -/
  others : Text Char.isAlphanum
  /-- The value. -/
  value : Text isPlain
  /-- A name begins with a letter. -/
  first_alpha : first.isAlpha = true

/-- A field of the trailer as it is written. -/
def Trailer.text (t : Trailer) : List Char :=
  t.first :: t.others.chars ++ ':' :: t.value.chars ++ ['\r', '\n']

/-- The end of a body in chunks. -/
structure LastChunk where
  /-- The size as it is written. -/
  size : Text Char.isAlphanum
  /-- What follows the size. -/
  extension : Extension
  /-- The size is zero. -/
  size_eq : toSize (strtol 16 size.chars) = 0
  /-- The trailer. -/
  trailers : List Trailer

/-- The end of a body as it is written. -/
def LastChunk.text (l : LastChunk) : List Char :=
  l.size.chars ++ l.extension.text ++ '\r' :: '\n' :: l.trailers.flatMap Trailer.text ++
    ['\r', '\n']

/-- The body of a message. -/
inductive Body where
  /-- There is none. -/
  | empty
  /-- As many bytes as the header announces. -/
  | sized (data : List Char)
  /-- A body in chunks. -/
  | chunks (ks : List Chunk) (last : LastChunk)

/-- The parser after the body. -/
def Body.parser (d : Head) : Body → HttpRequestParser
  | .empty => ⟨.expectingNewline3, 0, [], 0, false⟩
  | .sized _ => ⟨.post, 0, [], 0, false⟩
  | .chunks _ _ => ⟨.chunkSizeNewLine3, d.contentSize, [], 0, true⟩

/-- A body as it is written. -/
def Body.text : Body → List Char
  | .empty => []
  | .sized data => data
  | .chunks ks last => ks.flatMap Chunk.text ++ last.text

/-- The bytes of a body. -/
def Body.content : Body → List Char
  | .empty => []
  | .sized data => data
  | .chunks ks _ => ks.flatMap Chunk.data

/-- The body is the one that the header announces. The byte before it is a newline if it is
empty. -/
def Body.Framed (d : Head) (newline : Char) : Body → Prop
  | .empty => d.chunked = false ∧ d.contentSize = 0 ∧ newline = '\n'
  | .sized data => d.chunked = false ∧ d.contentSize = data.length ∧ data ≠ []
  | .chunks ks _ => d.chunked = true ∧ (ks.flatMap Chunk.data).length ≤ maxSize

/-! ## Messages -/

/-- The number that digits write, as an `int`. -/
def versionNumber (ds : List Char) : ℤ :=
  ds.foldl (fun v c => toInt (v * 10 + c.toNat - '0'.toNat)) 0

/-- Whether the connection stays open: as the first header of this name says, and without one if the
version has it so. -/
def keepsAlive (headers : List HeaderItem) (major minor : ℤ) : Bool :=
  match headers.find? checkIfConnection with
  | some it => strcasecmp it.value "Keep-Alive".toList
  | none => decide (1 < major ∨ (major = 1 ∧ minor = 1))

/-- A request with a version. -/
structure Message where
  /-- The method. -/
  method : Word isToken
  /-- The target. -/
  target : Target
  /-- The version before the point. -/
  major : Word isDigit
  /-- The version after the point. -/
  minor : Word isDigit
  /-- The lines of the header. -/
  lines : List Line
  /-- What they say. -/
  head : Head
  /-- The byte before the body. -/
  newline : Char
  /-- The body. -/
  body : Body
  /-- Every line may come where it comes. -/
  lines_read : lines.foldlM (Head.read method.chars) Head.init = some head
  /-- The body is the one that the header announces. -/
  framed : body.Framed head newline

/-- A message as it is sent. -/
def Message.text (m : Message) : List Char :=
  m.method.chars ++ ' ' :: m.target.chars ++ " HTTP/".toList ++ m.major.chars ++ '.' ::
    m.minor.chars ++ '\r' :: '\n' :: m.lines.flatMap Line.text ++ '\r' :: m.newline :: m.body.text

/-- The request that a message stands for. -/
def Message.request (m : Message) : Request where
  method := m.method.chars
  uri := m.target.chars
  versionMajor := versionNumber m.major.chars
  versionMinor := versionNumber m.minor.chars
  headers := m.head.headers
  content := m.body.content
  keepAlive :=
    keepsAlive m.head.headers (versionNumber m.major.chars) (versionNumber m.minor.chars)

/-- The parser after a message. -/
def Message.parser (m : Message) : HttpRequestParser := m.body.parser m.head

/-- A request without a version. -/
structure Short where
  /-- The method. -/
  method : Word isToken
  /-- The target. -/
  target : Target

/-- A request without a version as it is sent. -/
def Short.text (m : Short) : List Char := m.method.chars ++ ' ' :: m.target.chars ++ ['\r']

/-- The request that it stands for. -/
def Short.request (m : Short) : Request :=
  { Request.init with
    method := m.method.chars, uri := m.target.chars, versionMajor := 0, versionMinor := 9 }

/-- The parser after it. -/
def Short.parser (_ : Short) : HttpRequestParser := ⟨.requestUri, 0, [], 0, false⟩

end Spinet.Http
