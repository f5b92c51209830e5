import Spinet.Http.Body

/-!
# The parser accepts the messages and nothing else

`completes_iff` puts the rules for the request line, the header and the body together: the texts
that a new parser accepts are those of the messages, and the request that it builds is the one that
the message stands for. `parsePieces` is how a caller uses the parser, call by call as the bytes
arrive, and `parsePieces_eq` shows that it does not matter how they arrive; so `parsePieces_iff`
says which streams begin with a request, and `sent_unique` that they begin with one only. -/

namespace Spinet.Http

open Scanner (Ends feed)

variable {p : HttpRequestParser} {req : Request} {out : HttpRequestParser × Request}
  {bytes : List Char}

/-- Whether the connection stays open, for a request of which nothing has been said yet. -/
theorem setKeepAlive_eq (h : req.keepAlive = false) :
    setKeepAlive req =
      { req with keepAlive := keepsAlive req.headers req.versionMajor req.versionMinor } := by
  obtain ⟨method, uri, versionMajor, versionMinor, headers, content, keepAlive⟩ := req
  subst h
  rw [setKeepAlive, keepsAlive]
  dsimp only
  cases headers.find? checkIfConnection with
  | some it => rfl
  | none =>
    by_cases hversion : 1 < versionMajor ∨ (versionMajor = 1 ∧ versionMinor = 1)
    · simp [hversion]
    · simp [hversion]

/-- What is known after the header is the message's request, but for its body. -/
theorem request_eq (m : Message) :
    m.request = { setKeepAlive { lineRequest m.method m.target m.major m.minor with
      headers := m.head.headers } with content := m.body.content } := by
  rw [setKeepAlive_eq rfl]
  rfl

/-- A new parser accepts the texts of the messages, with a version or without, and no others; and it
builds the request that the message stands for. -/
theorem completes_iff :
    Completes out (HttpRequestParser.init, Request.init) bytes ↔
      (∃ m : Short, bytes = m.text ∧ out = (m.parser, m.request)) ∨
        ∃ m : Message, bytes = m.text ∧ out = (m.parser, m.request) := by
  rw [completes_requestLine]
  refine or_congr Iff.rfl ⟨?_, ?_⟩
  · rintro ⟨method, target, major, minor, _, rfl, h⟩
    obtain ⟨lines, head, _, hread, rfl, _, rfl, hend⟩ := completes_lines.1 h
    obtain ⟨newline, body, rfl, hframed, rfl⟩ := (completes_endOfHeaders rfl).1 hend
    let m : Message := ⟨method, target, major, minor, lines, head, newline, body, hread, hframed⟩
    exact ⟨m, by simp [m, Message.text], congrArg (Prod.mk _) (request_eq m).symm⟩
  · rintro ⟨m, rfl, rfl⟩
    refine ⟨m.method, m.target, m.major, m.minor,
      m.lines.flatMap Line.text ++ '\r' :: m.newline :: m.body.text, by simp [Message.text], ?_⟩
    refine completes_lines.2 ⟨m.lines, m.head, _, m.lines_read, rfl, _, rfl, ?_⟩
    exact (completes_endOfHeaders rfl).2
      ⟨m.newline, m.body, rfl, m.framed, congrArg (Prod.mk _) (request_eq m)⟩

/-! ## Pieces -/

/-- Parses a request that arrives in pieces: a piece is parsed when it arrives, until a call comes
to something else than that more is needed. -/
def parsePieces (p : HttpRequestParser) (req : Request) :
    List (List Char) → (HttpRequestParser × Request) × Outcome
  | [] => ((p, req), .ok .parsingIncompleted)
  | piece :: pieces =>
    match parse p req piece with
    | ((p', req'), .ok .parsingIncompleted) => parsePieces p' req' pieces
    | r => r

/-- A call in which the loop stops comes to what the last turn does. -/
theorem parse_of_stop {s : HttpRequestParser × Request} {r : Final} {rest : List Char}
    (h : feed step (p, req) bytes = (s, some r, rest)) : parse p req bytes = (s, r.outcome) := by
  unfold parse consume
  rw [h]

/-- A call in which the loop does not stop needs more. -/
theorem parse_of_goOn {s : HttpRequestParser × Request} {rest : List Char}
    (h : feed step (p, req) bytes = (s, none, rest)) :
    parse p req bytes = (s, .ok .parsingIncompleted) := by
  unfold parse consume
  rw [h]

/-- A call that has completed the request has read a beginning of the bytes, up to the request's
end. -/
theorem parse_completed {s : HttpRequestParser × Request} :
    parse p req bytes = (s, .ok .parsingCompleted) ↔
      ∃ read rest, bytes = read ++ rest ∧ Completes s (p, req) read := by
  constructor
  · intro h
    rcases hfeed : feed step (p, req) bytes with ⟨s', r, rest⟩
    cases r with
    | none => simp [parse_of_goOn hfeed] at h
    | some r =>
      rw [parse_of_stop hfeed, Prod.mk.injEq] at h
      obtain ⟨rfl, hr⟩ := h
      obtain ⟨read, rfl, hread⟩ := Scanner.exists_of_stop hfeed
      have hcompleted : r = .completed := by
        cases r <;> simp_all [Final.outcome]
      exact ⟨read, rest, rfl, s', r, hread, hcompleted, rfl⟩
  · rintro ⟨read, rest, rfl, hread⟩
    obtain ⟨s', r, ⟨rfl, rfl⟩, hfeed⟩ := hread.feed_append rest
    exact parse_of_stop hfeed

/-- It does not matter in which pieces a request arrives. -/
theorem parsePieces_eq (p : HttpRequestParser) (req : Request) (pieces : List (List Char)) :
    parsePieces p req pieces = parse p req pieces.flatten := by
  induction pieces generalizing p req with
  | nil => rfl
  | cons piece pieces ih =>
    rw [List.flatten_cons, parsePieces]
    rcases hfeed : feed step (p, req) piece with ⟨⟨p', req'⟩, r, rest⟩
    cases r with
    | none =>
      -- The next call goes on where this one has ended.
      rw [parse_of_goOn hfeed]
      simp only [ih]
      unfold parse consume
      rw [(Scanner.feed_append hfeed _).2]
    | some r =>
      rw [parse_of_stop hfeed, parse_of_stop (Scanner.feed_append_of_stop hfeed)]
      cases r <;> rfl

/-- A request as it is sent, with a version or without. -/
inductive Sent : List Char → Request → Prop where
  /-- A request with a version. -/
  | message (m : Message) : Sent m.text m.request
  /-- A request without. -/
  | short (m : Short) : Sent m.text m.request

/-- What is sent is completed by a new parser, and nothing else is. -/
theorem sent_iff {r : Request} :
    Sent bytes r ↔ ∃ p, Completes (p, r) (HttpRequestParser.init, Request.init) bytes := by
  simp only [completes_iff, Prod.mk.injEq]
  constructor
  · rintro (m | m)
    · exact ⟨_, .inr ⟨m, rfl, rfl, rfl⟩⟩
    · exact ⟨_, .inl ⟨m, rfl, rfl, rfl⟩⟩
  · rintro ⟨p, ⟨m, rfl, rfl, rfl⟩ | ⟨m, rfl, rfl, rfl⟩⟩
    · exact .short m
    · exact .message m

/-- In whatever pieces it arrives, and whatever follows it, what has been sent is completed. -/
theorem completed_of_sent {sent rest : List Char} {r : Request} {pieces : List (List Char)}
    (h : Sent sent r) (hstream : pieces.flatten = sent ++ rest) :
    ∃ p, parsePieces .init .init pieces = ((p, r), .ok .parsingCompleted) := by
  obtain ⟨p, hp⟩ := sent_iff.1 h
  refine ⟨p, ?_⟩
  rw [parsePieces_eq, parse_completed]
  exact ⟨sent, rest, hstream, hp⟩

/-- In whatever pieces the bytes arrive, the parser completes a request if and only if they begin
with a request as it is sent, and the request that it completes is this one. -/
theorem parsePieces_iff (pieces : List (List Char)) (r : Request) :
    (∃ p, parsePieces .init .init pieces = ((p, r), .ok .parsingCompleted)) ↔
      ∃ sent rest, pieces.flatten = sent ++ rest ∧ Sent sent r := by
  constructor
  · rintro ⟨p, h⟩
    rw [parsePieces_eq, parse_completed] at h
    obtain ⟨sent, rest, hstream, hsent⟩ := h
    exact ⟨sent, rest, hstream, sent_iff.2 ⟨p, hsent⟩⟩
  · rintro ⟨sent, rest, hstream, hsent⟩
    exact completed_of_sent hsent hstream

/-- A stream begins with one request at most. -/
theorem sent_unique {sent sent' xs ys : List Char} {r r' : Request} (h : Sent sent r)
    (h' : Sent sent' r') (heq : sent ++ xs = sent' ++ ys) : sent = sent' ∧ r = r' := by
  obtain ⟨p, s, f, hfeed, -, hs⟩ := sent_iff.1 h
  obtain ⟨p', s', f', hfeed', -, hs'⟩ := sent_iff.1 h'
  obtain rfl : sent = sent' := Ends.unique (Q := fun _ _ => True) (R := fun _ _ => True)
    ⟨s, f, hfeed, trivial⟩ ⟨s', f', hfeed', trivial⟩ heq
  rw [hfeed', Prod.mk.injEq] at hfeed
  exact ⟨rfl, (Prod.mk.injEq .. ▸ hs.symm.trans (hfeed.1.symm.trans hs')).2⟩

end Spinet.Http
