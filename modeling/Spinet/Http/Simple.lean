import Spinet.Http.Connection

/-!
# A connection for one request

`HttpConnection` of `example/http/simple/server.cpp`: it reads the beginning of a request, reads a
body if there is one, sends a response, and closes. It is the connection of
`example/http/keep_alive/server.cpp` without the timer and without a second request, and it searches
for the end of the header in the same way, but asks whether the pointer found is the end of the
buffer. The request is a local variable of the callback, and every call parses into a new one. The
destructor closes the socket once more. -/

namespace Spinet.Http.Simple

open Transition (Machine Config Reachable next_eq_some reachable_of_run run)

/-! ## The connection -/

/-- What the connection does with its socket. -/
inductive Event where
  /-- `async_read_some` of some length. -/
  | readSome (len : ℕ)
  /-- `async_read` of some length. -/
  | read (len : ℕ)
  /-- `async_write` of the response. -/
  | write
  /-- `close`. -/
  | close
  deriving DecidableEq, Repr

/-- A connection. -/
structure HttpConnection where
  /-- The bytes in the buffer. -/
  header : List Char
  /-- The size of the buffer. -/
  headerCap : ℕ
  /-- The parser. -/
  parser : HttpRequestParser
  /-- The operation under way. -/
  pending : Option Pending
  /-- An exception has left a callback. -/
  thrown : Bool
  /-- The connection has been destroyed. -/
  destroyed : Bool

/-- What a function of the connection does: the state that it leaves, and its events. -/
abbrev Did := HttpConnection × List Event

section
variable (s : HttpConnection)

/-- Reads the beginning of a request, as much as the buffer takes. -/
def receiveRequestHeader : Did :=
  ({ s with pending := some .header }, [.readSome (s.headerCap - s.header.length)])

/-- Sends the response. -/
def sendResponse : Did := ({ s with pending := some .response }, [.write])

/-- Closes the socket; the operation that was under way has ended. -/
def closeSocket : Did := ({ s with pending := none }, [.close])

/-- `~HttpConnection`, where the last reference to the connection goes. -/
def destroyConnection : Did := ({ s with pending := none, destroyed := true }, [.close])

/-- Whether the pointer that the search gives is not the end of the bytes in the buffer. -/
def findHeaderEnd (l : Place) (header : List Char) : Bool :=
  decide (l.headerEnd + search "\r\n\r\n".toList header ≠ l.header + header.length)

/-- Doubles a buffer that is full. -/
def resizeHeaderBuffer : HttpConnection :=
  if s.header.length ≠ s.headerCap then s else { s with headerCap := s.headerCap * 2 }

/-- A request is complete: its body is read again, if it has one, and otherwise the response is
sent. A length that is negative is no size of an array. -/
def receiveBody (request : Request) : Did :=
  match request.headers.find? (fun item => item.name == "Content-Length".toList) with
  | none => sendResponse s
  | some item =>
    match expectInt item.value with
    | none => sendResponse s
    | some n =>
      if maxSize < toSize n then ({ s with pending := none, thrown := true }, [])
      else ({ s with pending := some .body }, [.read (toSize n)])

/-- The callback of `receiveRequestHeader`, for bytes that have been read. -/
def onHeader (l : Place) (data : List Char) : Did :=
  let s := { s with header := s.header ++ data }
  if !findHeaderEnd l s.header then receiveRequestHeader (resizeHeaderBuffer s)
  else
    match parse s.parser .init s.header with
    | ((p, _), .error _) => ({ s with parser := p, pending := none, thrown := true }, [])
    | ((p, request), .ok .parsingCompleted) => receiveBody { s with parser := p } request
    | ((p, _), .ok _) => sendResponse { s with parser := p }

end

/-- What the environment does. -/
inductive Action where
  /-- `async_read_some` ends, with some bytes or an error. -/
  | readSome (res : Option (List Char)) (l : Place)
  /-- `async_read` ends. -/
  | read (res : Bool)
  /-- `async_write` ends. -/
  | write (res : Bool)
  /-- The last reference to the connection goes. -/
  | destroy

/-- One step of a connection. A read gives at least one byte, and no more than it was asked for. The
socket is closed after the response, whether it could be written or not. -/
def HttpConnection.step (s : HttpConnection) : Action → Option Did
  | .readSome res l =>
    if s.pending = some .header then
      match res with
      | none => some (closeSocket s)
      | some data =>
        if data ≠ [] ∧ s.header.length + data.length ≤ s.headerCap ∧ l.Apart s.headerCap then
          some (onHeader s l data)
        else none
    else none
  | .read res =>
    if s.pending = some .body then some (if res then sendResponse s else closeSocket s) else none
  | .write _ => if s.pending = some .response then some (closeSocket s) else none
  | .destroy =>
    if s.thrown = false ∧ s.destroyed = false then some (destroyConnection s) else none

/-- The connection, driven by its environment. -/
def connection : Machine HttpConnection Action Event where
  step := HttpConnection.step

/-- A new connection, which has begun to read. -/
def accepted : Config HttpConnection Event where
  state := (receiveRequestHeader ⟨[], 256, .init, none, false, false⟩).1
  trace := (receiveRequestHeader ⟨[], 256, .init, none, false, false⟩).2

/-! ## One request and one response -/

/-- The end of the header is always found, wherever the array and the buffer are. -/
theorem findHeaderEnd_eq_true {l : Place} {cap : ℕ} {header : List Char} (hapart : l.Apart cap)
    (hcap : 4 < cap) (hne : header ≠ []) (hlength : header.length ≤ cap) :
    findHeaderEnd l header = true := by
  have hindex := indexOfHeaderEnd_ne hapart hcap hne hlength
  obtain ⟨-, harray, hbuffer, horder⟩ := hapart
  rw [findHeaderEnd, decide_eq_true_eq]
  intro heq
  apply hindex
  rw [indexOfHeaderEnd, heq]
  omega

/-- The operations of a connection: one read of a header, and then perhaps one of a body, and
perhaps the response, and perhaps `close` in a callback, and `close` in the destructor if there has
been one. -/
def operations (body : Option ℕ) (answered closed destroyed : Bool) : List Event :=
  [.readSome 256] ++ (body.map Event.read).toList ++ (if answered then [.write] else []) ++
    (if closed then [.close] else []) ++ if destroyed then [.close] else []

/-- Where a connection is: what it has done, and what is still to come. -/
def Stage (s : HttpConnection) (tr : List Event) : Prop :=
  ∃ body answered closed, tr = operations body answered closed s.destroyed ∧
    match s.pending with
    | some .header =>
      s.header = [] ∧ s.headerCap = 256 ∧ s.destroyed = false ∧ body = none ∧ answered = false ∧
        closed = false
    | some .body => s.destroyed = false ∧ answered = false ∧ closed = false
    | some .response => s.destroyed = false ∧ closed = false
    | none => True

variable {s : HttpConnection} {tr : List Event} {c : Config HttpConnection Event}
  {body : Option ℕ} {answered closed : Bool}

/-- The response is sent after the last read. -/
theorem stage_sendResponse (h : tr = operations body false false false)
    (hdestroyed : s.destroyed = false) : Stage (sendResponse s).1 (tr ++ (sendResponse s).2) :=
  ⟨body, true, false, by simp [h, sendResponse, operations, hdestroyed], hdestroyed, rfl⟩

/-- The socket is closed at the end. -/
theorem stage_closeSocket (h : tr = operations body answered false false)
    (hdestroyed : s.destroyed = false) : Stage (closeSocket s).1 (tr ++ (closeSocket s).2) :=
  ⟨body, answered, true, by simp [h, closeSocket, operations, hdestroyed], trivial⟩

/-- And once more when the connection is destroyed. -/
theorem stage_destroyConnection (h : tr = operations body answered closed false) :
    Stage (destroyConnection s).1 (tr ++ (destroyConnection s).2) :=
  ⟨body, answered, closed, by simp [h, destroyConnection, operations], trivial⟩

/-- An exception ends it all. -/
theorem stage_thrown (h : tr = operations body answered closed false)
    (hdestroyed : s.destroyed = false) (hpending : s.pending = none) : Stage s (tr ++ []) := by
  refine ⟨body, answered, closed, by rw [List.append_nil, h, hdestroyed], ?_⟩
  rw [hpending]
  trivial

/-- A body is read after the header. -/
theorem stage_receiveBody {request : Request} (h : tr = operations none false false false)
    (hdestroyed : s.destroyed = false) :
    Stage (receiveBody s request).1 (tr ++ (receiveBody s request).2) := by
  rw [receiveBody]
  split
  case h_1 => exact stage_sendResponse h hdestroyed
  case h_2 item _ =>
    split
    case h_1 => exact stage_sendResponse h hdestroyed
    case h_2 n _ =>
      split
      case isTrue => exact stage_thrown h hdestroyed rfl
      case isFalse =>
        exact ⟨some (toSize n), false, false, by simp [h, operations, hdestroyed], hdestroyed, rfl,
          rfl⟩

/-- Bytes that have been read into an empty buffer are parsed, whatever the search says. -/
theorem onHeader_of_empty {l : Place} {data : List Char} (hheader : s.header = []) (hne : data ≠ [])
    (hlength : data.length ≤ 256) (hapart : l.Apart 256) :
    onHeader s l data =
      match parse s.parser .init data with
      | ((p, _), .error _) =>
        ({ s with header := data, parser := p, pending := none, thrown := true }, [])
      | ((p, request), .ok .parsingCompleted) =>
        receiveBody { s with header := data, parser := p } request
      | ((p, _), .ok _) => sendResponse { s with header := data, parser := p } := by
  have hfind : (!findHeaderEnd l data) = false := by
    rw [findHeaderEnd_eq_true hapart (by omega) hne hlength]
    rfl
  simp only [onHeader, hheader, List.nil_append, hfind, if_neg Bool.false_ne_true]

/-- When bytes have arrived, the connection does not wait for more. -/
theorem stage_onHeader {l : Place} {data : List Char} (hheader : s.header = [])
    (h : tr = operations none false false false) (hdestroyed : s.destroyed = false)
    (hne : data ≠ []) (hlength : data.length ≤ 256) (hapart : l.Apart 256) :
    Stage (onHeader s l data).1 (tr ++ (onHeader s l data).2) := by
  rw [onHeader_of_empty hheader hne hlength hapart]
  split
  · exact stage_thrown h hdestroyed rfl
  · exact stage_receiveBody h hdestroyed
  · exact stage_sendResponse h hdestroyed

/-- A step. -/
theorem stage_step {a : Action} {d : Did} (h : Stage s tr) (hstep : s.step a = some d) :
    Stage d.1 (tr ++ d.2) := by
  obtain ⟨body, answered, closed, htr, hpc⟩ := h
  cases a with
  | readSome res l =>
    simp only [HttpConnection.step] at hstep
    split at hstep
    · rename_i hpending
      rw [hpending] at hpc
      obtain ⟨hheader, hcap, hdestroyed, rfl, rfl, rfl⟩ := hpc
      rw [hdestroyed] at htr
      cases res with
      | none =>
        obtain rfl := Option.some.inj hstep
        exact stage_closeSocket htr hdestroyed
      | some data =>
        dsimp only at hstep
        split at hstep
        · rename_i hdata
          obtain rfl := Option.some.inj hstep
          rw [hheader, hcap, List.length_nil, Nat.zero_add] at hdata
          exact stage_onHeader hheader htr hdestroyed hdata.1 hdata.2.1 hdata.2.2
        · cases hstep
    · cases hstep
  | read res =>
    simp only [HttpConnection.step] at hstep
    split at hstep
    · rename_i hpending
      rw [hpending] at hpc
      obtain ⟨hdestroyed, rfl, rfl⟩ := hpc
      rw [hdestroyed] at htr
      obtain rfl := Option.some.inj hstep
      cases res with
      | true => exact stage_sendResponse htr hdestroyed
      | false => exact stage_closeSocket htr hdestroyed
    · cases hstep
  | write res =>
    simp only [HttpConnection.step] at hstep
    split at hstep
    · rename_i hpending
      rw [hpending] at hpc
      obtain ⟨hdestroyed, rfl⟩ := hpc
      rw [hdestroyed] at htr
      obtain rfl := Option.some.inj hstep
      exact stage_closeSocket htr hdestroyed
    · cases hstep
  | destroy =>
    simp only [HttpConnection.step] at hstep
    split at hstep
    · rename_i hcond
      rw [hcond.2] at htr
      obtain rfl := Option.some.inj hstep
      exact stage_destroyConnection htr
    · cases hstep

/-- In every run, whatever arrives and wherever the buffers are, a connection reads the beginning of
one request into the whole buffer, at most one body, sends at most one response, and closes the
socket at most once, and once more if it is destroyed; all in this order, and nothing else. -/
theorem answered_once (h : Reachable connection accepted c) :
    ∃ body answered closed, c.trace = operations body answered closed c.state.destroyed := by
  have hstage : Stage c.state c.trace :=
    h.invariant_step (I := Stage) ⟨none, false, false, rfl, rfl, rfl, rfl, rfl, rfl, rfl⟩
      fun _ _ _ _ _ hs _ hstep => stage_step hs hstep
  obtain ⟨body, answered, closed, htrace, -⟩ := hstage
  exact ⟨body, answered, closed, htrace⟩

/-- `answered_once`, where a request with a body is answered and the connection is destroyed. -/
theorem answered_once_post :
    ∃ body answered closed,
      [.readSome 256, .read 3, .write, .close, .close] = operations body answered closed true := by
  have hrun : ∃ c, run connection accepted
      [.readSome (some "POST / HTTP/1.1\r\nContent-Length: 3\r\n\r\nabc".toList) ⟨4096, 8192⟩,
        .read true, .write true, .destroy] = some c ∧
      c.trace = [.readSome 256, .read 3, .write, .close, .close] ∧ c.state.destroyed = true :=
    ⟨_, rfl, rfl, rfl⟩
  obtain ⟨c, hc, htrace, hdestroyed⟩ := hrun
  rw [← htrace, ← hdestroyed]
  exact answered_once (reachable_of_run hc)

/-! ## A body is read when it has arrived -/

/-- A complete request makes the connection read as many bytes as the headers announce, if they
announce a number that is not negative. -/
theorem read_mem_receiveBody {request : Request} {n : ℕ} :
    .read n ∈ (receiveBody s request).2 ↔ request.announced = some (n : ℤ) := by
  rw [receiveBody, Request.announced]
  cases request.headers.find? fun item => item.name == "Content-Length".toList with
  | none => simp [sendResponse]
  | some item =>
    cases hint : expectInt item.value with
    | none => simp [sendResponse, hint]
    | some k =>
      simp only [Option.bind_some, hint, Option.some.injEq]
      rcases size_of_expectInt hint with ⟨hneg, hsize⟩ | ⟨hpos, hsize, hk⟩
      · simp only [if_pos hsize, List.not_mem_nil, false_iff]
        omega
      · simp only [if_neg (Nat.not_lt.2 hsize), List.mem_singleton, Event.read.injEq]
        omega

/-- A complete request is not read again. -/
theorem pending_receiveBody {request : Request} :
    (receiveBody s request).1.pending ≠ some .header := by
  rw [receiveBody]
  split
  · simp [sendResponse]
  · split
    · simp [sendResponse]
    · split <;> simp

/-- Bytes of the first read are parsed, and the body of a request that is complete is read. -/
theorem read_mem_onHeader {l : Place} {data : List Char} {n : ℕ} (hne : data ≠ [])
    (hlength : data.length ≤ 256) (hapart : l.Apart 256) :
    (onHeader accepted.state l data).1.pending ≠ some .header ∧
      (.read n ∈ (onHeader accepted.state l data).2 ↔
        ∃ out, parse .init .init data = (out, .ok .parsingCompleted) ∧
          out.2.announced = some (n : ℤ)) := by
  rw [onHeader_of_empty rfl hne hlength hapart]
  simp only [accepted, receiveRequestHeader]
  rcases parse .init .init data with ⟨⟨p, r⟩, fault | result⟩
  · simp
  · cases result with
    | parsingCompleted =>
      refine ⟨pending_receiveBody, ?_⟩
      rw [read_mem_receiveBody]
      simp
    | parsingIncompleted => simp [sendResponse]
    | parsingError => simp [sendResponse]

/-- After the first read, nothing more is read. -/
theorem step_late {a : Action} {d : Did} (h : s.pending ≠ some .header)
    (hstep : s.step a = some d) :
    d.1.pending ≠ some .header ∧ ∀ n, .read n ∉ d.2 := by
  cases a with
  | readSome res l =>
    simp only [HttpConnection.step, if_neg h] at hstep
    cases hstep
  | read res =>
    rw [HttpConnection.step, Option.ite_none_right_eq_some] at hstep
    obtain ⟨-, hd⟩ := hstep
    obtain rfl := Option.some.inj hd
    cases res <;> simp [sendResponse, closeSocket]
  | write res =>
    rw [HttpConnection.step, Option.ite_none_right_eq_some] at hstep
    obtain ⟨-, hd⟩ := hstep
    obtain rfl := Option.some.inj hd
    simp [closeSocket]
  | destroy =>
    rw [HttpConnection.step, Option.ite_none_right_eq_some] at hstep
    obtain ⟨-, hd⟩ := hstep
    obtain rfl := Option.some.inj hd
    simp [destroyConnection]

/-- In every run, a body is read exactly when the first read has brought a request that the parser
completes, and whose headers announce as much. -/
theorem reads_parsed_iff {l : Place} {data : List Char} {as : List Action} {n : ℕ}
    (hrun : run connection accepted (.readSome (some data) l :: as) = some c) :
    .read n ∈ c.trace ↔
      ∃ out, parse .init .init data = (out, .ok .parsingCompleted) ∧
        out.2.announced = some (n : ℤ) := by
  obtain ⟨c₁, hfirst, hrest⟩ := Option.bind_eq_some_iff.1 hrun
  obtain ⟨s₁, es, hstep, rfl⟩ := next_eq_some _ hfirst
  have hread : (data ≠ [] ∧ 0 + data.length ≤ 256 ∧ l.Apart 256) ∧
      some (onHeader accepted.state l data) = some (s₁, es) := by
    simpa only [connection, HttpConnection.step, accepted, receiveRequestHeader, if_true,
      List.length_nil, Option.ite_none_right_eq_some] using hstep
  obtain ⟨⟨hne, hlength, hapart⟩, hd⟩ := hread
  obtain ⟨hpending, hiff⟩ := read_mem_onHeader (n := n) hne (by omega) hapart
  rw [Option.some.inj hd] at hpending hiff
  rw [← hiff]
  -- The rest of the run neither reads a header nor a body.
  have hlate : c.state.pending ≠ some .header ∧
      (.read n ∈ c.trace ↔ .read n ∈ accepted.trace ++ es) := by
    refine (reachable_of_run hrest).invariant_step
      (I := fun s tr => s.pending ≠ some .header ∧ (.read n ∈ tr ↔ .read n ∈ accepted.trace ++ es))
      ⟨hpending, Iff.rfl⟩ ?_
    rintro s tr a s' es' ⟨hs, htr⟩ - hstep'
    obtain ⟨hs', hnone⟩ := step_late hs hstep'
    exact ⟨hs', by rw [List.mem_append, htr, or_iff_left (hnone n)]⟩
  rw [hlate.2]
  simp [accepted, receiveRequestHeader]

/-- Whatever the method is, `n` bytes of a body are read in a run exactly when the first read has
brought a whole message whose first header of the name `Content-Length`, written so, says `n`; see
`awaits_body_iff` for what the parser takes for the body of such a message. -/
theorem reads_body_iff {l : Place} {data : List Char} {as : List Action} {n : ℕ}
    (hrun : run connection accepted (.readSome (some data) l :: as) = some c) :
    .read n ∈ c.trace ↔
      ∃ (m : Message) (rest : List Char), data = m.text ++ rest ∧
        m.request.announced = some (n : ℤ) := by
  rw [reads_parsed_iff hrun, parse_announced_iff]

/-- A request whose method has a body, and which announces `n` bytes of it in a last header
`Content-Length`: in every run, if the first read has brought all of the body, `n` bytes more are
read, and nothing else; if some of the body is still to come, nothing more is read. -/
theorem reads_sized_iff (h : Preamble) (n : ℕ) (data : List Char) {l : Place} {as : List Action}
    (hn : n < 2 ^ 31)
    (hrun : run connection accepted
      (.readSome (some (h.text (contentLength n) data)) l :: as) = some c) (k : ℕ) :
    .read k ∈ c.trace ↔ k = n ∧ n ≤ data.length := by
  rw [reads_parsed_iff hrun]
  by_cases hdata : n ≤ data.length
  · obtain ⟨p, hparse⟩ := parse_sized h hn hdata
    have hannounced := announced_sized h hn (data.take n)
    rw [hparse]
    -- What is completed is the request that was sent, and that announces `n` bytes.
    constructor
    · rintro ⟨out, heq, hk⟩
      obtain rfl := (Prod.mk.inj heq).1
      rw [hannounced, Option.some.injEq] at hk
      exact ⟨by omega, hdata⟩
    · rintro ⟨rfl, -⟩
      exact ⟨_, rfl, hannounced⟩
  · obtain ⟨out, hparse⟩ := parse_sized_early h hn (Nat.lt_of_not_le hdata)
    simp [hparse, hdata]

/-- `reads_sized_iff`, for a body of three bytes of which all have come, and for one of which two
have. -/
theorem reads_sized_three :
    (∃ c, run connection accepted
        [.readSome (some (post.text (contentLength 3) "abc".toList)) ⟨4096, 8192⟩, .read true,
          .write true, .destroy] = some c ∧ .read 3 ∈ c.trace) ∧
    ∃ c, run connection accepted
        [.readSome (some (post.text (contentLength 3) "ab".toList)) ⟨4096, 8192⟩, .write true,
          .destroy] = some c ∧ ∀ k, .read k ∉ c.trace := by
  have hall : ∃ c, run connection accepted
      [.readSome (some (post.text (contentLength 3) "abc".toList)) ⟨4096, 8192⟩, .read true,
        .write true, .destroy] = some c := ⟨_, rfl⟩
  have htwo : ∃ c, run connection accepted
      [.readSome (some (post.text (contentLength 3) "ab".toList)) ⟨4096, 8192⟩, .write true,
        .destroy] = some c := ⟨_, rfl⟩
  obtain ⟨c, hc⟩ := hall
  obtain ⟨d, hd⟩ := htwo
  refine ⟨⟨c, hc, ?_⟩, d, hd, fun k hk => ?_⟩
  · exact (reads_sized_iff post 3 "abc".toList (by decide) hc 3).2 ⟨rfl, by decide⟩
  · exact absurd ((reads_sized_iff post 3 "ab".toList (by decide) hd k).1 hk).2 (by decide)

end Spinet.Http.Simple
