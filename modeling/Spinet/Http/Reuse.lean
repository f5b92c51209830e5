import Spinet.Http.Grammar

/-!
# A parser that has completed a request

The parser has no way back to its first state, and a server that keeps a connection open keeps the
parser and the request with it. `calls` is a sequence of calls whose results the caller does not
look at. `calls_after` says what all the calls return that come after a completed request, and what
they make of the request: a new request is never read. -/

namespace Spinet.Http

open Scanner (feed)

/-- Calls in turn, one for each piece, whatever they come to. -/
def calls : HttpRequestParser × Request → List (List Char) →
    (HttpRequestParser × Request) × List Outcome
  | s, [] => (s, [])
  | s, piece :: pieces =>
    ((calls (parse s.1 s.2 piece).1 pieces).1,
      (parse s.1 s.2 piece).2 :: (calls (parse s.1 s.2 piece).1 pieces).2)

/-- What a call returns for a piece, after the message. -/
def Message.reply (m : Message) (piece : List Char) : ParseResult :=
  match m.body with
  | .sized _ => .parsingIncompleted
  | _ => if piece.head? = some '\n' then .parsingCompleted else .parsingError

/-- What becomes of the request, after the message. -/
def Message.kept (m : Message) (bytes : List Char) : Request :=
  match m.body with
  | .sized _ => { m.request with content := m.request.content ++ bytes }
  | _ => m.request

variable {m : Message}

/-- Whether the connection stays open has been settled. -/
theorem setKeepAlive_request (m : Message) : setKeepAlive m.request = m.request := by
  rw [setKeepAlive]
  cases hfind : m.request.headers.find? checkIfConnection with
  | some it =>
    have hkeep : m.request.keepAlive = strcasecmp it.value "Keep-Alive".toList := by
      have hfind' : m.head.headers.find? checkIfConnection = some it := hfind
      simp only [Message.request, keepsAlive, hfind']
    simp only [← hkeep]
  | none =>
    have hkeep : m.request.keepAlive = decide (1 < m.request.versionMajor ∨
        (m.request.versionMajor = 1 ∧ m.request.versionMinor = 1)) := by
      have hfind' : m.head.headers.find? checkIfConnection = none := hfind
      simp only [Message.request, keepsAlive, hfind']
    dsimp only
    split
    · rename_i hversion
      have htrue : m.request.keepAlive = true := by rw [hkeep, decide_eq_true hversion]
      rw [← htrue]
    · rfl

/-- If the loop ends on every byte and changes nothing, so does every call. -/
theorem calls_of_stop {s : HttpRequestParser × Request} {f : Char → Final}
    (h : ∀ c, step s c = .stop s (f c)) {g : List Char → Outcome}
    (hg : ∀ c rest, g (c :: rest) = (f c).outcome) (pieces : List (List Char))
    (hne : ∀ piece ∈ pieces, piece ≠ []) : calls s pieces = (s, pieces.map g) := by
  induction pieces with
  | nil => rfl
  | cons piece pieces ih =>
    obtain ⟨hpiece, hpieces⟩ := List.forall_mem_cons.1 hne
    obtain ⟨c, rest, rfl⟩ := List.exists_cons_of_ne_nil hpiece
    have hfeed : feed step s (c :: rest) = (s, some (f c), rest) := by rw [feed, h]
    have hparse : parse s.1 s.2 (c :: rest) = (s, (f c).outcome) := parse_of_stop hfeed
    rw [calls, hparse, ih hpieces, List.map_cons, hg]

/-! ## A body that has been read -/

/-- The parser and the request when some bytes have been read after the end of the body. -/
def pastEnd (r : Request) (l : List Char) : HttpRequestParser × Request :=
  (⟨.post, (2 ^ 64 - l.length) % 2 ^ 64, [], 0, false⟩, { r with content := r.content ++ l })

/-- The counter goes on from the largest number. -/
theorem decrement_pastEnd {k : ℕ} (hk : k + 1 < 2 ^ 64) :
    decrement ((2 ^ 64 - k) % 2 ^ 64) = 2 ^ 64 - (k + 1) := by
  cases k with
  | zero => rfl
  | succ k =>
    have hval : (2 ^ 64 - (k + 1)) % 2 ^ 64 = 2 ^ 64 - (k + 1 + 1) + 1 := by omega
    rw [hval, decrement]

/-- One more byte is appended to the body. -/
theorem step_pastEnd (r : Request) (l : List Char) (c : Char) (hlength : l.length + 1 < 2 ^ 64) :
    step (pastEnd r l) c = .goOn (pastEnd r (l ++ [c])) := by
  have hdecrement := decrement_pastEnd hlength
  have hpos : 2 ^ 64 - (l.length + 1) ≠ 0 := by omega
  have hmod : (2 ^ 64 - (l.length + 1)) % 2 ^ 64 = 2 ^ 64 - (l.length + 1) :=
    Nat.mod_eq_of_lt (by omega)
  simp only [step, pastEnd, pushContent, hdecrement, if_neg hpos, goOn, List.length_append,
    List.length_singleton, hmod, List.append_assoc]

/-- Every byte is appended to the body. -/
theorem feed_pastEnd (r : Request) (l bytes : List Char)
    (hlength : l.length + bytes.length < 2 ^ 64) :
    feed step (pastEnd r l) bytes = (pastEnd r (l ++ bytes), none, []) := by
  induction bytes generalizing l with
  | nil => rw [List.append_nil, feed]
  | cons c bytes ih =>
    rw [List.length_cons] at hlength
    rw [feed, step_pastEnd r l c (by omega)]
    have happend := ih (l ++ [c]) (by rw [List.length_append, List.length_singleton]; omega)
    rwa [List.append_assoc, List.singleton_append] at happend

/-- So is every piece. -/
theorem calls_pastEnd (r : Request) (l : List Char) (pieces : List (List Char))
    (hlength : l.length + pieces.flatten.length < 2 ^ 64) :
    calls (pastEnd r l) pieces =
      (pastEnd r (l ++ pieces.flatten), pieces.map fun _ => .ok .parsingIncompleted) := by
  induction pieces generalizing l with
  | nil => rw [List.flatten_nil, List.append_nil, calls, List.map_nil]
  | cons piece pieces ih =>
    rw [List.flatten_cons, List.length_append] at hlength
    have hfeed := feed_pastEnd r l piece (by omega)
    have hparse : parse (pastEnd r l).1 (pastEnd r l).2 piece =
        (pastEnd r (l ++ piece), .ok .parsingIncompleted) := parse_of_goOn hfeed
    have hpieces := ih (l ++ piece) (by rw [List.length_append]; omega)
    rw [calls, hparse, hpieces, List.flatten_cons, List.map_cons, List.append_assoc]

/-! ## The calls that come after -/

/-- Unless the body had an announced length, the loop ends on every byte and changes nothing. -/
theorem step_after (m : Message) (hbody : ∀ data, m.body ≠ .sized data) (c : Char) :
    step (m.parser, m.request) c =
      .stop (m.parser, m.request) (if c = '\n' then .completed else .error) := by
  cases hm : m.body with
  | empty =>
    rw [Message.parser, hm]
    simp only [Body.parser, step, endOfHeaders, setKeepAlive_request, Bool.false_eq_true,
      if_false, if_true, done]
  | sized data => exact absurd hm (hbody data)
  | chunks ks last =>
    rw [Message.parser, hm]
    simp only [Body.parser, step, done]

/-- Unless the body had an announced length, a call looks at its first byte alone and changes
nothing. -/
theorem calls_after_fixed (m : Message) (hbody : ∀ data, m.body ≠ .sized data)
    (pieces : List (List Char)) (hne : ∀ piece ∈ pieces, piece ≠ []) :
    calls (m.parser, m.request) pieces =
      ((m.parser, m.request), pieces.map fun piece => .ok (m.reply piece)) := by
  refine calls_of_stop (step_after m hbody) (fun c rest => ?_) pieces hne
  rw [Message.reply]
  split
  · exact absurd ‹_› (hbody _)
  · by_cases hc : c = '\n' <;> simp [hc, Final.outcome]

/-- After a request whose body had an announced length, every byte is appended to its body; after
any other, a call looks at its first byte alone and changes nothing. A new request is never read,
until the counter has wrapped around. -/
theorem calls_after (m : Message) (pieces : List (List Char))
    (hne : ∀ piece ∈ pieces, piece ≠ []) (hlength : pieces.flatten.length < 2 ^ 64) :
    (calls (m.parser, m.request) pieces).2 = pieces.map (fun piece => .ok (m.reply piece)) ∧
      (calls (m.parser, m.request) pieces).1.2 = m.kept pieces.flatten := by
  by_cases hbody : ∀ data, m.body ≠ .sized data
  · rw [calls_after_fixed m hbody pieces hne, Message.kept]
    refine ⟨rfl, ?_⟩
    split
    · exact absurd ‹_› (hbody _)
    · rfl
  · push Not at hbody
    obtain ⟨data, hbody⟩ := hbody
    have hinit : (m.parser, m.request) = pastEnd m.request [] := by
      rw [Message.parser, hbody, pastEnd, List.append_nil]
      rfl
    rw [hinit, calls_pastEnd _ _ _ (by simpa using hlength)]
    simp only [Message.reply, Message.kept, hbody, pastEnd, List.nil_append, and_self]

/-- Calls in turn are some of them and then the others. -/
theorem calls_append (s : HttpRequestParser × Request) (pieces pieces' : List (List Char)) :
    calls s (pieces ++ pieces') =
      ((calls (calls s pieces).1 pieces').1,
        (calls s pieces).2 ++ (calls (calls s pieces).1 pieces').2) := by
  induction pieces generalizing s with
  | nil => rfl
  | cons piece pieces ih =>
    rw [List.cons_append, calls, ih, calls]
    rfl

/-- Calls that need more. -/
theorem calls_of_goOn {s s' : HttpRequestParser × Request} {pieces : List (List Char)}
    (h : feed step s pieces.flatten = (s', none, [])) :
    calls s pieces = (s', pieces.map fun _ => .ok .parsingIncompleted) := by
  induction pieces generalizing s with
  | nil =>
    rw [List.flatten_nil, feed, Prod.mk.injEq] at h
    rw [calls, h.1, List.map_nil]
  | cons piece pieces ih =>
    rw [List.flatten_cons] at h
    rcases hfeed : feed step s piece with ⟨s₁, r, rest⟩
    cases r with
    | none =>
      rw [(Scanner.feed_append hfeed _).2] at h
      have hparse : parse s.1 s.2 piece = (s₁, .ok .parsingIncompleted) := parse_of_goOn hfeed
      rw [calls, hparse, ih h, List.map_cons]
    | some r =>
      rw [Scanner.feed_append_of_stop hfeed] at h
      simp at h

/-- One parser reads one request. A message that arrives in some pieces is completed by the call
that gets its last byte, and what this call gets after it is lost. Every call that comes then and
gets a byte does what `calls_after` says, whatever it gets. -/
theorem calls_message (m : Message) (earlier later : List (List Char)) (last lost : List Char)
    (hstream : earlier.flatten ++ last = m.text ++ lost)
    (hearlier : earlier.flatten.length < m.text.length) (hne : ∀ piece ∈ later, piece ≠ [])
    (hlength : later.flatten.length < 2 ^ 64) :
    (calls (.init, .init) (earlier ++ last :: later)).2 =
        earlier.map (fun _ => .ok .parsingIncompleted) ++
          .ok .parsingCompleted :: later.map (fun piece => .ok (m.reply piece)) ∧
      (calls (.init, .init) (earlier ++ last :: later)).1.2 = m.kept later.flatten := by
  have hsent : Completes (m.parser, m.request) (.init, .init) m.text :=
    completes_iff.2 (.inr ⟨m, rfl, rfl⟩)
  rcases hfeed : feed step (.init, .init) earlier.flatten with ⟨s, r, rest⟩
  cases r with
  | some r =>
    -- The parser cannot stop before the end of the message.
    obtain ⟨read, hread, hread_feed⟩ := Scanner.exists_of_stop hfeed
    have heq : read ++ (rest ++ last) = m.text ++ lost := by
      rw [← List.append_assoc, ← hread, hstream]
    have hsame : read = m.text :=
      Scanner.Ends.unique (Q := fun _ _ => True) ⟨s, r, hread_feed, trivial⟩ hsent heq
    rw [hread, hsame, List.length_append] at hearlier
    omega
  | none =>
    obtain ⟨rfl, happend⟩ := Scanner.feed_append hfeed last
    obtain ⟨s', r, ⟨rfl, rfl⟩, hwhole⟩ := hsent.feed_append lost
    have hparse : parse s.1 s.2 last = ((m.parser, m.request), .ok .parsingCompleted) := by
      have hstop : feed step s last = ((m.parser, m.request), some .completed, lost) := by
        rw [← hwhole, ← hstream]
        exact happend.symm
      exact parse_of_stop hstop
    obtain ⟨hreplies, hkept⟩ := calls_after m later hne hlength
    rw [calls_append, calls_of_goOn hfeed, calls, hparse]
    exact ⟨by rw [hreplies], hkept⟩

/-- A message without headers. -/
def get : Message where
  method := ⟨⟨"GET".toList, List.all_eq_true.1 rfl⟩, by decide⟩
  target := .root
  major := one
  minor := one
  lines := []
  head := Head.init
  newline := '\n'
  body := .empty
  lines_read := rfl
  framed := ⟨rfl, rfl, rfl⟩

/-- `calls_message`, where the message arrives in two pieces, and is sent once more. -/
theorem calls_message_get :
    (calls (.init, .init) ["GET / HT".toList, "TP/1.1\r\n\r\n".toList, get.text]).2 =
        [.ok .parsingIncompleted, .ok .parsingCompleted, .ok .parsingError] ∧
      (calls (.init, .init) ["GET / HT".toList, "TP/1.1\r\n\r\n".toList, get.text]).1.2 =
        get.request :=
  calls_message get ["GET / HT".toList] [get.text] "TP/1.1\r\n\r\n".toList [] (by decide)
    (by decide) (by decide) (by decide)

end Spinet.Http
