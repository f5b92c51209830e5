import Spinet.Http.Delivery
import Spinet.Http.Reuse
import Spinet.Library.Machine

/-!
# A connection that is kept open

`HttpConnection` of `example/http/keep_alive/server.cpp`: it reads the beginning of a request,
parses it, reads a body if there is one, sends a response, and then reads again or closes. The
operations of the socket are the events; their callbacks, and the timer that closes a connection on
which nothing arrives, are the actions of the environment. An exception that leaves a callback ends
the process, and with it the run.

The callbacks hold references to the connection, and when the last one goes the connection is
destroyed, which closes the socket once more. That may be while an operation is noted as under way:
a socket that has been closed refuses an operation, and drops its callback.

The buffer is searched for the end of the header with the arguments of `std::search` in the wrong
order: it looks for the bytes of the buffer in the four bytes `\r\n\r\n`, and the position in these
is compared with one in the buffer. `indexOfHeaderEnd` computes with the addresses of the two, which
the environment chooses; all that is asked of them is that the objects do not overlap. -/

namespace Spinet.Http

open Numerals (numeral)
open Transition (Machine Config Reachable Allowed AllowedFrom allowed_append next run)

/-! ## The end of the header -/

/-- Where a sequence begins in another, as `std::search` gives it: the end if it is not there. -/
def search : List Char → List Char → ℕ
  | [], _ => 0
  | c :: cs, needle => if needle.isPrefixOf (c :: cs) then 0 else 1 + search cs needle

/-- The addresses of the local array `header_end` and of the buffer. -/
structure Place where
  /-- The array. -/
  headerEnd : ℕ
  /-- The buffer. -/
  header : ℕ

/-- The array and a buffer of this size are objects, and do not overlap. -/
def Place.Apart (l : Place) (cap : ℕ) : Prop :=
  0 < l.headerEnd ∧ l.headerEnd + 4 ≤ 2 ^ 64 ∧ l.header + cap ≤ 2 ^ 64 ∧
    (l.headerEnd + 4 ≤ l.header ∨ l.header + cap ≤ l.headerEnd)

instance (l : Place) (cap : ℕ) : Decidable (l.Apart cap) := by
  unfold Place.Apart
  infer_instance

/-- The difference of the two pointers, as a `size_t`. -/
def indexOfHeaderEnd (l : Place) (header : List Char) : ℕ :=
  (l.headerEnd + search "\r\n\r\n".toList header + (2 ^ 64 - l.header)) % 2 ^ 64

/-! ## The connection -/

/-- The responses. -/
inductive Response where
  /-- `RESPONSE_KEEP_ALIVE`. -/
  | keepAlive
  /-- `RESPONSE_CONNECTION_CLOSED`. -/
  | connectionClosed
  deriving DecidableEq, Repr

/-- The operation of the socket that is under way. -/
inductive Pending where
  /-- The beginning of a request is read. -/
  | header
  /-- A body is read. -/
  | body
  /-- A response is written. -/
  | response
  deriving DecidableEq, Repr

/-- What the connection does with its socket. -/
inductive Event where
  /-- `async_read_some` of some length. -/
  | readSome (len : ℕ)
  /-- `async_read` of some length. -/
  | read (len : ℕ)
  /-- `async_write` of a response. -/
  | write (r : Response)
  /-- `close`. -/
  | close
  deriving DecidableEq, Repr

/-- A connection. -/
structure HttpConnection where
  /-- The bytes in the buffer. -/
  header : List Char
  /-- The size of the buffer. -/
  headerCap : ℕ
  /-- The parser. -/
  parser : HttpRequestParser
  /-- The request. -/
  request : Request
  /-- The operation under way. -/
  pending : Option Pending
  /-- An exception has left a callback. -/
  thrown : Bool
  /-- The connection has been destroyed. -/
  destroyed : Bool

/-- What a function of the connection does: the state that it leaves, and its events. -/
abbrev Did := HttpConnection × List Event

section
variable (s : HttpConnection)

/-- Reads the beginning of a request, as much as the buffer takes. -/
def receiveRequestHeader : Did :=
  ({ s with pending := some .header }, [.readSome (s.headerCap - s.header.length)])

/-- Sends the response. -/
def sendResponse : Did :=
  ({ s with pending := some .response },
    [.write (if s.request.keepAlive then .keepAlive else .connectionClosed)])

/-- Closes the socket; the operation that was under way has ended. -/
def closeSocket : Did := ({ s with pending := none }, [.close])

/-- `~HttpConnection`, where the last reference to the connection goes. -/
def destroyConnection : Did := ({ s with pending := none, destroyed := true }, [.close])

/-- Doubles a buffer that is full. -/
def resizeHeaderBuffer : HttpConnection :=
  if s.header.length ≠ s.headerCap then s else { s with headerCap := s.headerCap * 2 }

/-- The number with which a string begins, as `std::stoi` has it; `none` if it throws. -/
def expectInt (str : List Char) : Option ℤ :=
  let digits := match str.dropWhile isSpace with
    | '-' :: cs => cs
    | '+' :: cs => cs
    | cs => cs
  let n := strtol 10 str
  if (digits.head?.map isDigit).getD false ∧ -2 ^ 31 ≤ n ∧ n ≤ 2 ^ 31 - 1 then some n else none

/-- A request is complete: its body is read again, if it has one, and otherwise a response is sent.
A length that is negative is no size of an array. -/
def receiveBody : Did :=
  match s.request.headers.find? (fun item => item.name == "Content-Length".toList) with
  | none => sendResponse s
  | some item =>
    match expectInt item.value with
    | none => sendResponse s
    | some n =>
      if maxSize < toSize n then ({ s with pending := none, thrown := true }, [])
      else ({ s with pending := some .body }, [.read (toSize n)])

/-- The callback of `receiveRequestHeader`, for bytes that have been read. -/
def onHeader (l : Place) (data : List Char) : Did :=
  let s := { s with header := s.header ++ data }
  if indexOfHeaderEnd l s.header = s.header.length then
    receiveRequestHeader (resizeHeaderBuffer s)
  else
    match parse s.parser s.request s.header with
    | ((p, r), .error _) =>
      ({ s with parser := p, request := r, pending := none, thrown := true }, [])
    | ((p, r), .ok .parsingCompleted) => receiveBody { s with parser := p, request := r }
    | ((p, r), .ok _) => sendResponse { s with parser := p, request := r }

/-- The callback of `sendResponse`, for a response that has been written. -/
def onResponse : Did :=
  if !s.request.keepAlive then closeSocket s
  else receiveRequestHeader { s with header := [], headerCap := 256 }

end

/-- What the environment does. -/
inductive Action where
  /-- `async_read_some` ends, with some bytes or an error. -/
  | readSome (res : Option (List Char)) (l : Place)
  /-- `async_read` ends. -/
  | read (res : Bool)
  /-- `async_write` ends. -/
  | write (res : Bool)
  /-- Nothing has arrived for two seconds. -/
  | expire
  /-- The last reference to the connection goes. -/
  | destroy

/-- One step of a connection. A read gives at least one byte, and no more than it was asked for. -/
def HttpConnection.step (s : HttpConnection) : Action → Option Did
  | .readSome res l =>
    if s.pending = some .header ∧ s.thrown = false then
      match res with
      | none => some (closeSocket s)
      | some data =>
        if data ≠ [] ∧ s.header.length + data.length ≤ s.headerCap ∧ l.Apart s.headerCap then
          some (onHeader s l data)
        else none
    else none
  | .read res =>
    if s.pending = some .body ∧ s.thrown = false then
      some (if res then sendResponse s else closeSocket s)
    else none
  | .write res =>
    if s.pending = some .response ∧ s.thrown = false then
      some (if res then onResponse s else closeSocket s)
    else none
  | .expire => if s.thrown = false ∧ s.destroyed = false then some (s, [.close]) else none
  | .destroy =>
    if s.thrown = false ∧ s.destroyed = false then some (destroyConnection s) else none

/-- The connection, driven by its environment. -/
def connection : Machine HttpConnection Action Event where
  step := HttpConnection.step

/-- A new connection, which has begun to read. -/
def accepted : Config HttpConnection Event where
  state := (receiveRequestHeader ⟨[], 256, .init, .init, none, false, false⟩).1
  trace := (receiveRequestHeader ⟨[], 256, .init, .init, none, false, false⟩).2

/-! ## The search never tells the connection to wait -/

/-- A sequence that is found at the beginning is not longer than what it is found in. -/
theorem length_le_of_search {hay needle : List Char} (hne : hay ≠ [])
    (h : search hay needle = 0) : needle.length ≤ hay.length := by
  cases hay with
  | nil => exact absurd rfl hne
  | cons c cs =>
    rw [search] at h
    split at h
    · exact (List.isPrefixOf_iff_prefix.1 ‹_›).length_le
    · omega

/-- A position is not behind the end. -/
theorem search_le (hay needle : List Char) : search hay needle ≤ hay.length := by
  induction hay with
  | nil => exact Nat.le_refl 0
  | cons c cs ih =>
    rw [search, List.length_cons]
    split <;> omega

/-- The position that is found is never the number of bytes in the buffer, wherever the array and
the buffer are. -/
theorem indexOfHeaderEnd_ne {l : Place} {cap : ℕ} {header : List Char} (hapart : l.Apart cap)
    (hcap : 4 < cap) (hne : header ≠ []) (hlength : header.length ≤ cap) :
    indexOfHeaderEnd l header ≠ header.length := by
  obtain ⟨hnull, harray, hbuffer, horder⟩ := hapart
  have hpos : 0 < header.length := List.length_pos_iff.2 hne
  have hle : search "\r\n\r\n".toList header ≤ 4 := search_le _ _
  intro heq
  rw [indexOfHeaderEnd] at heq
  -- The two pointers are equal, and both are in or right behind both objects.
  have hptr : l.headerEnd + search "\r\n\r\n".toList header = l.header + header.length := by
    omega
  have hzero : search "\r\n\r\n".toList header = 0 := by omega
  have hshort : header.length ≤ 4 := length_le_of_search (by decide) hzero
  omega

/-! ## The order of the operations -/

/-- The last operation of a trace that is not a `close`. -/
def lastOperation (tr : List Event) : Option Event := (tr.filter (· ≠ .close)).getLast?

/-- An operation is the last one when it has been begun. -/
theorem lastOperation_append (tr : List Event) {e : Event} (he : e ≠ .close) :
    lastOperation (tr ++ [e]) = some e := by
  simp [lastOperation, he]

/-- Closing does not count. -/
theorem lastOperation_close (tr : List Event) :
    lastOperation (tr ++ [.close]) = lastOperation tr := by
  simp [lastOperation]

/-- What may follow what. The connection reads once, into an empty buffer of the first size; then it
may read a body; then it sends one response; and after a response that says so it reads again. -/
def Orderly (past : List Event) : Event → Prop
  | .readSome n =>
    n = 256 ∧ (lastOperation past = none ∨ lastOperation past = some (.write .keepAlive))
  | .read _ => lastOperation past = some (.readSome 256)
  | .write _ =>
    lastOperation past = some (.readSome 256) ∨ ∃ n, lastOperation past = some (.read n)
  | .close => True

/-- The response that a request gets. -/
def Request.response (req : Request) : Response :=
  if req.keepAlive then .keepAlive else .connectionClosed

/-- The operation under way is the last one of the trace. -/
def Ready (s : HttpConnection) (tr : List Event) : Prop :=
  match s.pending with
  | some .header =>
    s.header = [] ∧ s.headerCap = 256 ∧ lastOperation tr = some (.readSome 256)
  | some .body => ∃ n, lastOperation tr = some (.read n)
  | some .response => lastOperation tr = some (.write s.request.response)
  | none => True

/-- What a function of the connection does is in order, and leaves it ready. -/
def InOrder (tr : List Event) (d : Did) : Prop :=
  AllowedFrom Orderly tr d.2 ∧ Ready d.1 (tr ++ d.2)

variable {s : HttpConnection} {tr : List Event} {c : Config HttpConnection Event}

/-- A response may be sent after a read. -/
theorem inOrder_sendResponse
    (h : lastOperation tr = some (.readSome 256) ∨ ∃ n, lastOperation tr = some (.read n)) :
    InOrder tr (sendResponse s) :=
  ⟨⟨h, trivial⟩, lastOperation_append tr (by simp)⟩

/-- The socket may always be closed. -/
theorem inOrder_closeSocket : InOrder tr (closeSocket s) := ⟨⟨trivial, trivial⟩, trivial⟩

/-- A body may be read after the beginning of a request. -/
theorem inOrder_receiveBody (h : lastOperation tr = some (.readSome 256)) :
    InOrder tr (receiveBody s) := by
  rw [receiveBody]
  split
  · exact inOrder_sendResponse (.inl h)
  · split
    · exact inOrder_sendResponse (.inl h)
    · split
      · exact ⟨trivial, trivial⟩
      · exact ⟨⟨h, trivial⟩, _, lastOperation_append tr (by simp)⟩

/-- Bytes that have been read into an empty buffer are parsed, whatever the search says. -/
theorem onHeader_of_empty {l : Place} {data : List Char} (hheader : s.header = []) (hne : data ≠ [])
    (hlength : data.length ≤ 256) (hapart : l.Apart 256) :
    onHeader s l data =
      match parse s.parser s.request data with
      | ((p, r), .error _) =>
        ({ s with header := data, parser := p, request := r, pending := none, thrown := true }, [])
      | ((p, r), .ok .parsingCompleted) =>
        receiveBody { s with header := data, parser := p, request := r }
      | ((p, r), .ok _) => sendResponse { s with header := data, parser := p, request := r } := by
  have hindex : indexOfHeaderEnd l data ≠ data.length :=
    indexOfHeaderEnd_ne hapart (by omega) hne hlength
  simp only [onHeader, hheader, List.nil_append, if_neg hindex]

/-- When bytes have arrived, the connection does not wait for more. -/
theorem inOrder_onHeader {l : Place} {data : List Char} (hheader : s.header = [])
    (hlast : lastOperation tr = some (.readSome 256)) (hne : data ≠ [])
    (hlength : data.length ≤ 256) (hapart : l.Apart 256) : InOrder tr (onHeader s l data) := by
  rw [onHeader_of_empty hheader hne hlength hapart]
  split
  · exact ⟨trivial, trivial⟩
  · exact inOrder_receiveBody hlast
  · exact inOrder_sendResponse (.inl hlast)

/-- After a response the connection reads or closes, as the response has said. -/
theorem inOrder_onResponse (h : lastOperation tr = some (.write s.request.response)) :
    InOrder tr (onResponse s) := by
  rw [onResponse]
  cases hkeep : s.request.keepAlive with
  | false => exact inOrder_closeSocket
  | true =>
    rw [Request.response, hkeep] at h
    exact ⟨⟨⟨rfl, .inr h⟩, trivial⟩, rfl, rfl, lastOperation_append tr (by simp)⟩

/-- A step of a connection that is ready. -/
theorem inOrder_step {a : Action} {d : Did} (h : Ready s tr) (hstep : s.step a = some d) :
    InOrder tr d := by
  cases a with
  | readSome res l =>
    cases res with
    | none =>
      rw [HttpConnection.step] at hstep
      split at hstep
      · obtain rfl := Option.some.inj hstep
        exact inOrder_closeSocket
      · cases hstep
    | some data =>
      rw [HttpConnection.step] at hstep
      split at hstep
      · rename_i hcond
        rw [Ready, hcond.1] at h
        obtain ⟨hheader, hcap, hlast⟩ := h
        split at hstep
        · rename_i hdata
          obtain rfl := Option.some.inj hstep
          rw [hheader, hcap, List.length_nil, Nat.zero_add] at hdata
          exact inOrder_onHeader hheader hlast hdata.1 hdata.2.1 hdata.2.2
        · cases hstep
      · cases hstep
  | read res =>
    rw [HttpConnection.step] at hstep
    split at hstep
    · rename_i hcond
      rw [Ready, hcond.1] at h
      obtain rfl := Option.some.inj hstep
      cases res with
      | true => exact inOrder_sendResponse (.inr h)
      | false => exact inOrder_closeSocket
    · cases hstep
  | write res =>
    rw [HttpConnection.step] at hstep
    split at hstep
    · rename_i hcond
      rw [Ready, hcond.1] at h
      obtain rfl := Option.some.inj hstep
      cases res with
      | true => exact inOrder_onResponse h
      | false => exact inOrder_closeSocket
    · cases hstep
  | expire =>
    rw [HttpConnection.step] at hstep
    split at hstep
    · obtain rfl := Option.some.inj hstep
      refine ⟨⟨trivial, trivial⟩, ?_⟩
      simpa only [Ready, lastOperation_close] using h
    · cases hstep
  | destroy =>
    rw [HttpConnection.step] at hstep
    split at hstep
    · obtain rfl := Option.some.inj hstep
      exact ⟨⟨trivial, trivial⟩, trivial⟩
    · cases hstep

/-- In every run, whatever arrives and wherever the buffers are, a connection answers each read of
the beginning of a request, and each such read is of the whole buffer: it never waits for the rest
of a header. A response that closes the connection is the last operation on it. -/
theorem orderly (h : Reachable connection accepted c) : Allowed Orderly c.trace := by
  have hboth : Allowed Orderly c.trace ∧ Ready c.state c.trace := by
    refine h.invariant_step (I := fun s tr => Allowed Orderly tr ∧ Ready s tr) ?_ ?_
    · exact ⟨⟨⟨rfl, .inl rfl⟩, trivial⟩, rfl, rfl, rfl⟩
    · rintro s tr a s' es ⟨hallowed, hready⟩ - hstep
      obtain ⟨hes, hready'⟩ := inOrder_step hready hstep
      exact ⟨allowed_append.2 ⟨hallowed, hes⟩, hready'⟩
  exact hboth.1

/-- `orderly`, where two requests are answered and the third read fails, and where the request says
that the connection is to be closed. No run has both kinds of responses, as the first request is
never replaced. -/
theorem orderly_rounds :
    Allowed Orderly [.readSome 256, .write .keepAlive, .readSome 256, .write .keepAlive,
        .readSome 256, .close, .close] ∧
      Allowed Orderly [.readSome 256, .write .connectionClosed, .close, .close] := by
  have hkeep : ∃ c, run connection accepted
      [.readSome (some "GET / HTTP/1.1\r\n\r\n".toList) ⟨4096, 8192⟩, .write true,
        .readSome (some "GET / HTTP/1.1\r\n\r\n".toList) ⟨4096, 8192⟩, .write true,
        .readSome none ⟨4096, 8192⟩, .destroy] = some c ∧
      c.trace = [.readSome 256, .write .keepAlive, .readSome 256, .write .keepAlive,
        .readSome 256, .close, .close] := ⟨_, rfl, rfl⟩
  have hclose : ∃ c, run connection accepted
      [.readSome (some "GET / HTTP/1.0\r\n\r\n".toList) ⟨4096, 8192⟩, .write true,
        .destroy] = some c ∧
      c.trace = [.readSome 256, .write .connectionClosed, .close, .close] := ⟨_, rfl, rfl⟩
  obtain ⟨c, hrun, htrace⟩ := hkeep
  obtain ⟨d, hrun', htrace'⟩ := hclose
  rw [← htrace, ← htrace']
  exact ⟨orderly (Transition.reachable_of_run hrun), orderly (Transition.reachable_of_run hrun')⟩

/-! ## A body is awaited when it has arrived -/

/-- The length of the body, as the server takes it from the headers. -/
def Request.announced (req : Request) : Option ℤ :=
  (req.headers.find? (fun item => item.name == "Content-Length".toList)).bind
    fun item => expectInt item.value

/-- A number that `std::stoi` gives is an `int`. -/
theorem expectInt_bounds {str : List Char} {k : ℤ} (h : expectInt str = some k) :
    -2 ^ 31 ≤ k ∧ k ≤ 2 ^ 31 - 1 := by
  simp only [expectInt, Option.ite_none_right_eq_some, Option.some.injEq] at h
  obtain ⟨⟨-, hbounds⟩, rfl⟩ := h
  exact hbounds

/-- The size of an array of so many bytes: a negative number is no size, and the others are taken as
they are. -/
theorem size_of_expectInt {str : List Char} {k : ℤ} (h : expectInt str = some k) :
    (k < 0 ∧ maxSize < toSize k) ∨ (0 ≤ k ∧ toSize k ≤ maxSize ∧ (toSize k : ℤ) = k) := by
  have hmax : maxSize = 2 ^ 63 - 1 := rfl
  have hbounds := expectInt_bounds h
  rw [toSize]
  omega

/-- A complete request makes the connection read as many bytes as the headers announce, if they
announce a number that is not negative. -/
theorem receiveBody_eq_read {n : ℕ} :
    (receiveBody s).2 = [.read n] ↔ s.request.announced = some (n : ℤ) := by
  rw [receiveBody, Request.announced]
  cases s.request.headers.find? fun item => item.name == "Content-Length".toList with
  | none => simp [sendResponse]
  | some item =>
    cases hint : expectInt item.value with
    | none => simp [sendResponse, hint]
    | some k =>
      simp only [Option.bind_some, hint, Option.some.injEq]
      rcases size_of_expectInt hint with ⟨hneg, hsize⟩ | ⟨hpos, hsize, hk⟩
      · -- An exception leaves the callback.
        simp only [if_pos hsize, List.nil_eq, reduceCtorEq, false_iff]
        omega
      · simp only [if_neg (Nat.not_lt.2 hsize), List.cons.injEq, Event.read.injEq, and_true]
        omega

/-- What the first read brings about. -/
theorem run_first {l : Place} {data : List Char} (hne : data ≠ []) (hlength : data.length ≤ 256)
    (hapart : l.Apart 256) :
    run connection accepted [.readSome (some data) l] =
      some ⟨(onHeader accepted.state l data).1,
        [.readSome 256] ++ (onHeader accepted.state l data).2⟩ := by
  have hstep : HttpConnection.step accepted.state (.readSome (some data) l) =
      some (onHeader accepted.state l data) := by
    simp only [HttpConnection.step, accepted, receiveRequestHeader, and_self, if_true, ne_eq, hne,
      not_false_eq_true, List.length_nil, Nat.zero_add, hlength, hapart]
  simp only [run, next, connection, hstep, Option.map_some, Option.bind_some]
  rfl

/-- A new parser completes a request that announces this length exactly when a message has arrived
that does, with its body. -/
theorem parse_announced_iff {data : List Char} {n : ℤ} :
    (∃ out, parse .init .init data = (out, .ok .parsingCompleted) ∧
        out.2.announced = some n) ↔
      ∃ (m : Message) (rest : List Char), data = m.text ++ rest ∧
        m.request.announced = some n := by
  constructor
  · rintro ⟨out, hparse, hannounced⟩
    obtain ⟨read, rest, rfl, hread⟩ := parse_completed.1 hparse
    rcases completes_iff.1 hread with ⟨m, rfl, rfl⟩ | ⟨m, rfl, rfl⟩
    · -- A request without a version has no headers.
      cases hannounced
    · exact ⟨m, rest, rfl, hannounced⟩
  · rintro ⟨m, rest, rfl, hannounced⟩
    have hcompletes := completes_iff.2 (.inr ⟨m, rfl, rfl⟩)
    exact ⟨_, parse_completed.2 ⟨m.text, rest, rfl, hcompletes⟩, hannounced⟩

/-- Whatever the method is, the first read makes the connection wait for `n` bytes exactly when it
has brought a whole message whose first header of the name `Content-Length`, written so, says `n`.
The parser goes by other rules: a message has a body for it only if the method is `POST` or `PUT`,
but then in whatever case the name is written. So a `GET` with such a header makes the connection
wait for bytes that are still to come, and a body that `content-length` announces is not waited
for. -/
theorem awaits_body_iff {l : Place} {data : List Char} {n : ℕ} (hne : data ≠ [])
    (hlength : data.length ≤ 256) (hapart : l.Apart 256) :
    (∃ c, run connection accepted [.readSome (some data) l] = some c ∧
        c.trace = [.readSome 256, .read n]) ↔
      ∃ (m : Message) (rest : List Char), data = m.text ++ rest ∧
        m.request.announced = some (n : ℤ) := by
  have hfirst : (∃ c, run connection accepted [.readSome (some data) l] = some c ∧
      c.trace = [.readSome 256, .read n]) ↔ (onHeader accepted.state l data).2 = [.read n] := by
    rw [run_first hne hlength hapart]
    simp
  rw [hfirst, ← parse_announced_iff, onHeader_of_empty rfl hne hlength hapart]
  simp only [accepted, receiveRequestHeader]
  -- By what the parser makes of the bytes: only a request that is complete has its body read.
  rcases parse .init .init data with ⟨⟨p, r⟩, fault | result⟩
  · simp
  · cases result with
    | parsingCompleted =>
      rw [receiveBody_eq_read]
      simp
    | parsingIncompleted => simp [sendResponse]
    | parsingError => simp [sendResponse]

/-- A length below two gigabytes is read as it is written. -/
theorem expectInt_numeral {n : ℕ} (hn : n < 2 ^ 31) : expectInt (numeral 10 n) = some (n : ℤ) := by
  have hmax : maxSize = 2 ^ 63 - 1 := rfl
  have hdigits : ∀ d < 10, isSpace d.digitChar = false ∧ d.digitChar ≠ '-' ∧ d.digitChar ≠ '+' ∧
      isDigit d.digitChar = true := by decide
  have hne : numeral 10 n ≠ [] := Numerals.numeral_ne_nil
  obtain ⟨c, cs, hnumeral⟩ := List.exists_cons_of_ne_nil hne
  obtain ⟨d, hd, rfl⟩ := Numerals.exists_digit_of_mem (by decide) (hnumeral ▸ List.mem_cons_self)
  obtain ⟨hspace, hminus, hplus, hdigit⟩ := hdigits d hd
  have hvalue : strtol 10 (numeral 10 n) = n := strtol_numeral (by decide) (by decide) (by omega)
  have hdrop : (numeral 10 n).dropWhile isSpace = d.digitChar :: cs := by
    rw [hnumeral, List.dropWhile_cons, hspace, if_neg Bool.false_ne_true]
  rw [expectInt, hdrop, hvalue]
  split
  · rename_i heq
    exact absurd (List.cons.inj heq).1 hminus
  · rename_i heq
    exact absurd (List.cons.inj heq).1 hplus
  · rw [if_pos]
    exact ⟨by simpa using hdigit, by omega, by omega⟩

/-- The server finds the length that the last header announces. -/
theorem announced_sized (h : Preamble) {n : ℕ} (hn : n < 2 ^ 31) (data : List Char) :
    (h.request (contentLength n) data).announced = some (n : ℤ) := by
  have hplain : ∀ item ∈ h.fields.map Field.item,
      ¬ (item.name == "Content-Length".toList) = true := by
    intro item hitem hname
    obtain ⟨f, hf, rfl⟩ := List.mem_map.1 hitem
    have hother := (h.fields_plain f hf).1
    rw [eq_of_beq hname] at hother
    exact absurd hother (by decide)
  have hfind : (h.request (contentLength n) data).headers.find?
      (fun item => item.name == "Content-Length".toList) = some (contentLength n).item := by
    rw [Preamble.request, List.map_append, List.find?_append, List.find?_eq_none.2 hplain]
    rfl
  rw [Request.announced, hfind, Option.bind_some]
  exact expectInt_numeral hn

/-- A request whose method has a body, and which announces `n` bytes of it in a last header
`Content-Length`: if its first read has brought all of the body, the connection waits for `n` bytes
more; if some of the body is still to come, it does not wait for it, and answers. -/
theorem awaits_sized (h : Preamble) (n : ℕ) (data : List Char) {l : Place} (hn : n < 2 ^ 31)
    (hlength : (h.text (contentLength n) data).length ≤ 256) (hapart : l.Apart 256) :
    ∃ c, run connection accepted [.readSome (some (h.text (contentLength n) data)) l] = some c ∧
      if n ≤ data.length then c.trace = [.readSome 256, .read n]
      else ∃ r, c.trace = [.readSome 256, .write r] := by
  have hne : h.text (contentLength n) data ≠ [] := by
    simp [Preamble.text]
  by_cases hdata : n ≤ data.length
  -- The parser has had the body, and the connection asks the socket for it.
  · obtain ⟨p, hparse⟩ := parse_sized h hn hdata
    refine ⟨_, run_first hne hlength hapart, ?_⟩
    have hread : (onHeader accepted.state l (h.text (contentLength n) data)).2 = [.read n] := by
      rw [onHeader_of_empty rfl hne hlength hapart]
      simp only [accepted, receiveRequestHeader, hparse]
      exact receiveBody_eq_read.2 (announced_sized h hn _)
    rw [if_pos hdata]
    dsimp only
    rw [hread]
    rfl
  -- The parser needs more, and the connection takes that for a request without a body.
  · obtain ⟨⟨p, r⟩, hparse⟩ := parse_sized_early h hn (Nat.lt_of_not_le hdata)
    refine ⟨_, run_first hne hlength hapart, ?_⟩
    rw [if_neg hdata, onHeader_of_empty rfl hne hlength hapart]
    simp only [accepted, receiveRequestHeader, hparse]
    exact ⟨_, rfl⟩

/-- `awaits_sized`, for a body of three bytes of which all have come, and for one of which two
have. -/
theorem awaits_sized_three :
    (∃ c, run connection accepted
        [.readSome (some (post.text (contentLength 3) "abc".toList)) ⟨4096, 8192⟩] = some c ∧
      c.trace = [.readSome 256, .read 3]) ∧
    ∃ c, run connection accepted
        [.readSome (some (post.text (contentLength 3) "ab".toList)) ⟨4096, 8192⟩] = some c ∧
      ∃ r, c.trace = [.readSome 256, .write r] :=
  ⟨awaits_sized post 3 "abc".toList (by decide) (by decide) (by decide),
    awaits_sized post 3 "ab".toList (by decide) (by decide) (by decide)⟩

/-! ## One request for good -/

/-- The connection after a message, when it reads again. -/
def afterMessage (m : Message) : HttpConnection :=
  ⟨[], 256, m.parser, m.request, some .header, false, false⟩

/-- A message that has no body, and no header named `Content-Length` that would announce one, is
answered at once, and the connection stays open. -/
structure Message.Lasting (m : Message) : Prop where
  /-- The body has no announced length. -/
  not_sized : ∀ data, m.body ≠ .sized data
  /-- The server finds no length either. -/
  no_length : m.request.headers.find? (fun item => item.name == "Content-Length".toList) = none
  /-- The connection stays open. -/
  keepAlive : m.request.keepAlive = true

variable {m : Message}

/-- Bytes that a call has parsed, with whatever result, are answered, and the connection reads
again. -/
theorem run_round {p : HttpRequestParser} {r : Request} {result : ParseResult} {data : List Char}
    {l : Place} (hm : m.Lasting)
    (hparse : parse p r data = ((m.parser, m.request), .ok result)) (hne : data ≠ [])
    (hlength : data.length ≤ 256) (hapart : l.Apart 256) (as : List Action) :
    run connection ⟨⟨[], 256, p, r, some .header, false, false⟩, tr⟩
        (.readSome (some data) l :: .write true :: as) =
      run connection ⟨afterMessage m, tr ++ [.write .keepAlive] ++ [.readSome 256]⟩ as := by
  let s : HttpConnection := ⟨data, 256, m.parser, m.request, some .header, false, false⟩
  have hsend : sendResponse s = ({ s with pending := some .response }, [.write .keepAlive]) := by
    simp only [sendResponse, s, hm.keepAlive, if_true]
  have hbody : receiveBody s = sendResponse s := by
    simp only [receiveBody, s, hm.no_length]
  have hheader : onHeader ⟨[], 256, p, r, some .header, false, false⟩ l data =
      ({ s with pending := some .response }, [.write .keepAlive]) := by
    rw [onHeader_of_empty rfl hne hlength hapart]
    simp only [hparse]
    cases result with
    | parsingCompleted => exact hbody.trans hsend
    | parsingIncompleted => exact hsend
    | parsingError => exact hsend
  have hread : next connection ⟨⟨[], 256, p, r, some .header, false, false⟩, tr⟩
      (.readSome (some data) l) =
        some ⟨{ s with pending := some .response }, tr ++ [.write .keepAlive]⟩ := by
    simp only [next, connection, HttpConnection.step, and_self, if_true, List.length_nil,
      Nat.zero_add, ne_eq, hne, not_false_eq_true, hlength, hapart, hheader, Option.map_some]
  have hwrite : ∀ tr, next connection ⟨{ s with pending := some .response }, tr⟩ (.write true) =
      some ⟨afterMessage m, tr ++ [.readSome 256]⟩ := by
    intro tr
    simp only [next, connection, HttpConnection.step, and_self, if_true, onResponse, s,
      hm.keepAlive, Bool.not_true, Bool.false_eq_true, if_false, Option.map_some]
    rfl
  rw [run, hread, Option.bind_some, run, hwrite, Option.bind_some]

/-- The events of some reads that are all answered, and of one more read. -/
def rounds (n : ℕ) : List Event :=
  (List.replicate n [.readSome 256, .write .keepAlive]).flatten ++ [.readSome 256]

/-- One more round. -/
theorem rounds_succ (n : ℕ) :
    rounds (n + 1) = rounds n ++ [.write .keepAlive] ++ [.readSome 256] := by
  rw [rounds, rounds, List.replicate_succ', List.flatten_append]
  simp

/-- A connection whose first request has been read does not read another one. When a message without
a body has arrived in one piece, every later read is answered as the first one was, whatever bytes
it brings, and the connection goes on with the first request. -/
theorem answered_alike (m : Message) (hm : m.Lasting) (lost : List Char) (l : Place)
    (later : List (List Char × Place)) (hfirst : (m.text ++ lost).length ≤ 256)
    (hplace : l.Apart 256)
    (hlater : ∀ x ∈ later, x.1 ≠ [] ∧ x.1.length ≤ 256 ∧ x.2.Apart 256) :
    run connection accepted (.readSome (some (m.text ++ lost)) l :: .write true ::
        later.flatMap fun x => [.readSome (some x.1) x.2, .write true]) =
      some ⟨afterMessage m, rounds (later.length + 1)⟩ := by
  have hparse : parse .init .init (m.text ++ lost) =
      ((m.parser, m.request), .ok .parsingCompleted) :=
    parse_completed.2 ⟨m.text, lost, rfl, completes_iff.2 (.inr ⟨m, rfl, rfl⟩)⟩
  have hne : m.text ++ lost ≠ [] := by
    simp [Message.text]
  have hafter : ∀ data, data ≠ [] →
      parse m.parser m.request data = ((m.parser, m.request), .ok (m.reply data)) := by
    intro data hdata
    have hcalls := calls_after_fixed m hm.not_sized [data] (by simpa using hdata)
    simp only [calls, List.map_cons, List.map_nil, Prod.mk.injEq, List.cons.injEq,
      and_true] at hcalls
    exact Prod.ext hcalls.1 hcalls.2
  -- The rounds that are left follow those that there have been.
  have hrest : ∀ n, run connection ⟨afterMessage m, rounds n⟩
      (later.flatMap fun x => [.readSome (some x.1) x.2, .write true]) =
        some ⟨afterMessage m, rounds (n + later.length)⟩ := by
    induction later with
    | nil => exact fun n => rfl
    | cons x later ih =>
      intro n
      obtain ⟨⟨hx, hxlength, hxapart⟩, hlater⟩ := List.forall_mem_cons.1 hlater
      rw [List.flatMap_cons, List.cons_append, List.cons_append, List.nil_append,
        afterMessage, run_round hm (hafter x.1 hx) hx hxlength hxapart, ← rounds_succ, ih hlater,
        List.length_cons, Nat.add_right_comm, Nat.add_assoc]
      rfl
  rw [accepted, receiveRequestHeader, run_round hm hparse hne hfirst hplace]
  exact (hrest 1).trans (by rw [Nat.add_comm])

/-- A message without headers and without a body is answered at once. -/
theorem lasting_get : get.Lasting where
  not_sized := fun _ h => Body.noConfusion h
  no_length := rfl
  keepAlive := rfl

/-- `answered_alike`, where the second read brings something else. -/
theorem answered_alike_get :
    run connection accepted (.readSome (some (get.text ++ [])) ⟨4096, 8192⟩ :: .write true ::
        [("DELETE / HTTP/1.1".toList, Place.mk 4096 8192)].flatMap fun x =>
          [.readSome (some x.1) x.2, .write true]) =
      some ⟨afterMessage get, rounds 2⟩ :=
  answered_alike get lasting_get [] ⟨4096, 8192⟩ [("DELETE / HTTP/1.1".toList, ⟨4096, 8192⟩)]
    (by decide) (by decide) (by decide)

end Spinet.Http
