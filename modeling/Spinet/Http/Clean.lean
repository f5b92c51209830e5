import Spinet.Http.Reuse

/-!
# What a request never holds

Whatever bytes a parser gets, in however many calls, and whatever the calls return, it never looks
for a last header where there is none, and the request that it builds has no byte where it must not
be: no control character in a target, a name or a value, and nothing but token characters in a
method or a name. So no value can bring a line end into what is made of it. -/

namespace Spinet.Http

open Scanner (feed feed_invariant)

/-- No byte of a header is where it must not be. -/
structure CleanItem (h : HeaderItem) : Prop where
  /-- The name is not empty. -/
  name_ne : h.name ≠ []
  /-- The name has token characters only. -/
  name : ∀ c ∈ h.name, isToken c = true
  /-- The value has no control characters. -/
  value : ∀ c ∈ h.value, isText c = true

/-- No byte of the request is where it must not be. -/
structure Clean (req : Request) : Prop where
  /-- The method has token characters only. -/
  method : ∀ c ∈ req.method, isToken c = true
  /-- The target has no control characters. -/
  uri : ∀ c ∈ req.uri, isText c = true
  /-- The headers are clean. -/
  headers : ∀ h ∈ req.headers, CleanItem h

/-- The states in which a header has been begun. -/
def State.inHeader : State → Bool
  | .headerLws | .headerName | .spaceBeforeHeaderValue | .headerValue => true
  | _ => false

/-- The parser and the request are as a sequence of calls leaves them. -/
structure Sound (s : HttpRequestParser × Request) : Prop where
  /-- The request is clean. -/
  clean : Clean s.2
  /-- A header that has been begun is there. -/
  header : s.1.state.inHeader = true → s.2.headers ≠ []

/-- A turn of the loop leaves them so, and finds the header that it looks for. -/
def Keeps : Turn → Prop
  | .goOn s => Sound s
  | .stop s r => Sound s ∧ r ≠ .fault .emptyBack

variable {p : HttpRequestParser} {req : Request} {c e : Char} {t : State}

/-! ## Requests -/

/-- What is not forbidden in a method may stand there. -/
theorem Clean.pushMethod (h : Clean req) (hc : isToken c = true) :
    Clean { req with method := req.method ++ [c] } := by
  refine ⟨fun x hx => ?_, h.uri, h.headers⟩
  rcases List.mem_append.1 hx with hx | hx
  · exact h.method x hx
  · rwa [List.mem_singleton.1 hx]

/-- What is no control character may stand in a target. -/
theorem Clean.pushUri (h : Clean req) (hc : isText c = true) :
    Clean { req with uri := req.uri ++ [c] } := by
  refine ⟨h.method, fun x hx => ?_, h.headers⟩
  rcases List.mem_append.1 hx with hx | hx
  · exact h.uri x hx
  · rwa [List.mem_singleton.1 hx]

/-- The other parts of a request may be anything. -/
theorem Clean.other (h : Clean req) (major minor : ℤ) (content : List Char) (keepAlive : Bool) :
    Clean { req with
      versionMajor := major, versionMinor := minor, content := content, keepAlive := keepAlive } :=
  ⟨h.method, h.uri, h.headers⟩

/-- A header begins with a token character. -/
theorem Clean.pushHeader (h : Clean req) (hc : isToken c = true) :
    Clean { req with headers := req.headers ++ [⟨[c], []⟩] } := by
  refine ⟨h.method, h.uri, fun x hx => ?_⟩
  rcases List.mem_append.1 hx with hx | hx
  · exact h.headers x hx
  · obtain rfl := List.mem_singleton.1 hx
    exact ⟨List.cons_ne_nil _ _, by simpa using hc, by simp⟩

/-- A byte of a name. -/
theorem CleanItem.pushName {h : HeaderItem} (hh : CleanItem h) (hc : isToken c = true) :
    CleanItem { h with name := h.name ++ [c] } := by
  refine ⟨by simp, fun x hx => ?_, hh.value⟩
  rcases List.mem_append.1 hx with hx | hx
  · exact hh.name x hx
  · rwa [List.mem_singleton.1 hx]

/-- A byte of a value. -/
theorem CleanItem.pushValue {h : HeaderItem} (hh : CleanItem h) (hc : isText c = true) :
    CleanItem { h with value := h.value ++ [c] } := by
  refine ⟨hh.name_ne, hh.name, fun x hx => ?_⟩
  rcases List.mem_append.1 hx with hx | hx
  · exact hh.value x hx
  · rwa [List.mem_singleton.1 hx]

/-- Whether the connection stays open is not a matter of what is clean. -/
theorem Clean.setKeepAlive (h : Clean req) : Clean (setKeepAlive req) := by
  rw [Http.setKeepAlive]
  split
  · exact h.other _ _ _ _
  · split
    · exact h.other _ _ _ _
    · exact h

/-! ## Turns of the loop -/

/-- The loop goes on in a state in which no header is begun. -/
theorem keeps_goOn (h : Clean req) (ht : t.inHeader = false) : Keeps (goOn p req t) :=
  ⟨h, fun hin => absurd (ht ▸ hin) Bool.false_ne_true⟩

/-- The loop goes on with a header. -/
theorem keeps_goOn_header (h : Clean req) (hne : req.headers ≠ []) : Keeps (goOn p req t) :=
  ⟨h, fun _ => hne⟩

/-- The bytes are no request. -/
theorem keeps_error (h : Sound (p, req)) : Keeps (done p req .error) :=
  ⟨h, by simp⟩

/-- The request is complete, or the bytes are no request. -/
theorem keeps_done {r : Final} (h : Sound (p, req)) (hr : r ≠ .fault .emptyBack) :
    Keeps (done p req r) :=
  ⟨h, hr⟩

/-- A turn that depends on a condition. -/
theorem keeps_ite {P : Prop} [Decidable P] {v w : Turn} (hv : P → Keeps v) (hw : ¬ P → Keeps w) :
    Keeps (if P then v else w) := by
  split
  · exact hv ‹_›
  · exact hw ‹_›

/-- One byte is expected, and after it no header is begun. -/
theorem keeps_expect (h : Sound (p, req)) (ht : t.inHeader = false) :
    Keeps (expect p req c e t) :=
  keeps_ite (fun _ => keeps_goOn h.clean ht) fun _ => keeps_error h

/-- The last header is changed. -/
theorem keeps_goOnWithBack {f : HeaderItem → HeaderItem} (h : Sound (p, req))
    (hin : p.state.inHeader = true) (hf : ∀ x, CleanItem x → CleanItem (f x)) :
    Keeps (goOnWithBack p req t f) := by
  have hlast := (List.dropLast_append_getLast (h.header hin)).symm
  rw [goOnWithBack, Request.modifyBack, List.getLast?_eq_some_getLast (h.header hin)]
  refine keeps_goOn_header ⟨h.clean.method, h.clean.uri, fun x hx => ?_⟩ (by simp)
  rcases List.mem_append.1 hx with hx | hx
  · exact h.clean.headers x (List.mem_of_mem_dropLast hx)
  · obtain rfl := List.mem_singleton.1 hx
    exact hf _ (h.clean.headers _ (List.getLast_mem _))

/-- The end of a value. -/
theorem keeps_lengthOfBody (h : Sound (p, req)) (hin : p.state.inHeader = true) :
    Keeps (lengthOfBody p req) := by
  rw [lengthOfBody, List.getLast?_eq_some_getLast (h.header hin)]
  refine keeps_ite (fun _ => ?_) fun _ => keeps_goOn h.clean rfl
  refine keeps_ite (fun _ => ?_) fun _ => ?_
  · refine keeps_ite (fun _ => keeps_done ?_ (by simp)) fun _ => keeps_goOn h.clean rfl
    exact ⟨h.clean, h.header⟩
  · exact keeps_ite (fun _ => keeps_goOn h.clean rfl) fun _ => keeps_goOn h.clean rfl

/-- The end of the headers. -/
theorem keeps_endOfHeaders (h : Sound (p, req)) (hout : p.state.inHeader = false) :
    Keeps (endOfHeaders p req c) := by
  have hclean := h.clean.setKeepAlive
  refine keeps_ite (fun _ => keeps_goOn hclean rfl) fun _ => ?_
  refine keeps_ite (fun _ => keeps_done ⟨hclean, ?_⟩ ?_) fun _ => keeps_goOn hclean rfl
  · exact fun hin => absurd (hout ▸ hin) Bool.false_ne_true
  · split <;> simp

/-- A byte of a body. -/
theorem keeps_pushContent (h : Sound (p, req)) (hout : p.state.inHeader = false) :
    Keeps (pushContent p req c) := by
  have hclean : Clean { req with content := req.content ++ [c] } := h.clean.other _ _ _ _
  have hnot : ∀ n,
      Sound ({ p with contentSize := n }, { req with content := req.content ++ [c] }) :=
    fun n => ⟨hclean, fun hin => absurd (hout ▸ hin) Bool.false_ne_true⟩
  by_cases hzero : decrement p.contentSize = 0
  · simp only [pushContent, hzero, if_true]
    exact keeps_done (hnot 0) (by simp)
  · simp only [pushContent, hzero, if_false]
    exact keeps_goOn hclean rfl

/-- The size of a chunk. -/
theorem keeps_endOfChunkSize (h : Sound (p, req)) (hout : p.state.inHeader = false) :
    Keeps (endOfChunkSize p req) := by
  rw [endOfChunkSize]
  generalize (req.content.length + toSize (strtol 16 p.chunkSizeStr)) % 2 ^ 64 = n
  refine keeps_ite (fun _ => keeps_done ⟨h.clean, fun hin => ?_⟩ (by simp))
    fun _ => keeps_goOn h.clean ?_
  · exact absurd (hout ▸ hin) Bool.false_ne_true
  · split <;> rfl

/-- A byte of a chunk. -/
theorem keeps_pushChunk (h : Sound (p, req)) : Keeps (pushChunk p req c) := by
  have hclean : Clean { req with content := req.content ++ [c] } := h.clean.other _ _ _ _
  rw [pushChunk]
  generalize decrement p.chunkSize = n
  refine keeps_goOn hclean ?_
  split <;> rfl

/-! ## Runs -/

/-- The request line. -/
theorem step_keeps_line (h : Sound (p, req))
    (hstate : p.state = .requestMethodStart ∨ p.state = .requestMethod ∨
      p.state = .requestUriStart ∨ p.state = .requestUri) : Keeps (step (p, req) c) := by
  obtain ⟨s, n, str, k, b⟩ := p
  rcases hstate with rfl | rfl | rfl | rfl
  · exact keeps_ite (fun _ => keeps_error h) fun hc =>
      keeps_goOn (h.clean.pushMethod (by simpa using hc)) rfl
  · exact keeps_ite (fun _ => keeps_goOn h.clean rfl) fun _ =>
      keeps_ite (fun _ => keeps_error h) fun hc =>
        keeps_goOn (h.clean.pushMethod (by simpa using hc)) rfl
  · exact keeps_ite (fun _ => keeps_error h) fun hc =>
      keeps_goOn (h.clean.pushUri (by simpa [isText] using hc)) rfl
  · refine keeps_ite (fun _ => keeps_goOn h.clean rfl) fun _ => ?_
    refine keeps_ite (fun _ => keeps_done ⟨h.clean.other _ _ _ _, fun hin => ?_⟩ (by simp))
      fun _ => ?_
    · exact absurd hin Bool.false_ne_true
    · exact keeps_ite (fun _ => keeps_error h) fun hc =>
        keeps_goOn (h.clean.pushUri (by simpa [isText] using hc)) rfl

/-- A turn of the loop. -/
theorem step_keeps (h : Sound (p, req)) : Keeps (step (p, req) c) := by
  obtain ⟨s, n, str, k, b⟩ := p
  cases s with
  | requestMethodStart => exact step_keeps_line h (.inl rfl)
  | requestMethod => exact step_keeps_line h (.inr (.inl rfl))
  | requestUriStart => exact step_keeps_line h (.inr (.inr (.inl rfl)))
  | requestUri => exact step_keeps_line h (.inr (.inr (.inr rfl)))
  | requestHttpVersionH => exact keeps_expect h rfl
  | requestHttpVersionHt => exact keeps_expect h rfl
  | requestHttpVersionHtt => exact keeps_expect h rfl
  | requestHttpVersionHttp => exact keeps_expect h rfl
  | requestHttpVersionSlash =>
    exact keeps_ite (fun _ => keeps_goOn (h.clean.other _ _ _ _) rfl) fun _ => keeps_error h
  | requestHttpVersionMajorStart =>
    exact keeps_ite (fun _ => keeps_goOn (h.clean.other _ _ _ _) rfl) fun _ => keeps_error h
  | requestHttpVersionMajor =>
    exact keeps_ite (fun _ => keeps_goOn h.clean rfl) fun _ =>
      keeps_ite (fun _ => keeps_goOn (h.clean.other _ _ _ _) rfl) fun _ => keeps_error h
  | requestHttpVersionMinorStart =>
    exact keeps_ite (fun _ => keeps_goOn (h.clean.other _ _ _ _) rfl) fun _ => keeps_error h
  | requestHttpVersionMinor =>
    exact keeps_ite (fun _ => keeps_goOn h.clean rfl) fun _ =>
      keeps_ite (fun _ => keeps_goOn (h.clean.other _ _ _ _) rfl) fun _ => keeps_error h
  | responseHttpVersionNewLine => exact keeps_expect h rfl
  | headerLineStart =>
    refine keeps_ite (fun _ => keeps_goOn h.clean rfl) fun _ => ?_
    refine keeps_ite (fun hlws => keeps_goOn_header h.clean hlws.1) fun _ => ?_
    exact keeps_ite (fun _ => keeps_error h) fun hc =>
      keeps_goOn_header (h.clean.pushHeader (by simpa using hc)) (by simp)
  | headerLws =>
    refine keeps_ite (fun _ => keeps_goOn h.clean rfl) fun _ => ?_
    refine keeps_ite (fun _ => keeps_goOn_header h.clean (h.header rfl)) fun _ => ?_
    exact keeps_ite (fun _ => keeps_error h) fun hc =>
      keeps_goOnWithBack h rfl fun _ hx => hx.pushValue (by simpa [isText] using hc)
  | headerName =>
    refine keeps_ite (fun _ => keeps_goOn_header h.clean (h.header rfl)) fun _ => ?_
    exact keeps_ite (fun _ => keeps_error h) fun hc =>
      keeps_goOnWithBack h rfl fun _ hx => hx.pushName (by simpa using hc)
  | spaceBeforeHeaderValue =>
    exact keeps_ite (fun _ => keeps_goOn_header h.clean (h.header rfl)) fun _ => keeps_error h
  | headerValue =>
    refine keeps_ite (fun _ => keeps_lengthOfBody h rfl) fun _ => ?_
    exact keeps_ite (fun _ => keeps_error h) fun hc =>
      keeps_goOnWithBack h rfl fun _ hx => hx.pushValue (by simpa [isText] using hc)
  | expectingNewline2 => exact keeps_expect h rfl
  | expectingNewline3 => exact keeps_endOfHeaders h rfl
  | post => exact keeps_pushContent h rfl
  | chunkSize =>
    exact keeps_ite (fun _ => keeps_goOn h.clean rfl) fun _ =>
      keeps_ite (fun _ => keeps_goOn h.clean rfl) fun _ => keeps_expect h rfl
  | chunkExtensionName =>
    exact keeps_ite (fun _ => keeps_goOn h.clean rfl) fun _ =>
      keeps_ite (fun _ => keeps_goOn h.clean rfl) fun _ => keeps_expect h rfl
  | chunkExtensionValue =>
    exact keeps_ite (fun _ => keeps_goOn h.clean rfl) fun _ => keeps_expect h rfl
  | chunkSizeNewLine =>
    exact keeps_ite (fun _ => keeps_endOfChunkSize h rfl) fun _ => keeps_error h
  | chunkSizeNewLine2 =>
    exact keeps_ite (fun _ => keeps_goOn h.clean rfl) fun _ =>
      keeps_ite (fun _ => keeps_goOn h.clean rfl) fun _ => keeps_error h
  | chunkSizeNewLine3 =>
    refine keeps_done h ?_
    split <;> simp
  | chunkTrailerName =>
    exact keeps_ite (fun _ => keeps_goOn h.clean rfl) fun _ => keeps_expect h rfl
  | chunkTrailerValue =>
    exact keeps_ite (fun _ => keeps_goOn h.clean rfl) fun _ => keeps_expect h rfl
  | chunkDataNewLine1 => exact keeps_expect h rfl
  | chunkDataNewLine2 => exact keeps_expect h rfl
  | chunkData => exact keeps_pushChunk h
  | _ => exact keeps_error h

/-- A call. -/
theorem parse_sound (h : Sound (p, req)) (bytes : List Char) :
    Sound (parse p req bytes).1 ∧ (parse p req bytes).2 ≠ .error .emptyBack := by
  have hrun : Sound (feed step (p, req) bytes).1 ∧
      ∀ r, (feed step (p, req) bytes).2.1 = some r → r ≠ .fault .emptyBack := by
    refine feed_invariant (fun s c t hs ht => ?_) (fun s c t r hs ht => ?_) h bytes
    · have hkeeps := step_keeps (c := c) hs
      rwa [ht] at hkeeps
    · have hkeeps := step_keeps (c := c) hs
      rwa [ht] at hkeeps
  rcases hfeed : feed step (p, req) bytes with ⟨s, r, rest⟩
  rw [hfeed] at hrun
  cases r with
  | none =>
    rw [parse_of_goOn hfeed]
    exact ⟨hrun.1, by simp⟩
  | some r =>
    rw [parse_of_stop hfeed]
    refine ⟨hrun.1, fun hr => hrun.2 r rfl ?_⟩
    cases r <;> simp_all [Final.outcome]

/-- A new parser and a new request. -/
theorem sound_init : Sound (HttpRequestParser.init, Request.init) :=
  ⟨⟨by simp [Request.init], by simp [Request.init], by simp [Request.init]⟩,
    fun h => absurd h Bool.false_ne_true⟩

/-- Calls in turn. -/
theorem calls_sound {s : HttpRequestParser × Request} (h : Sound s) (pieces : List (List Char)) :
    Sound (calls s pieces).1 ∧ .error .emptyBack ∉ (calls s pieces).2 := by
  induction pieces generalizing s with
  | nil => exact ⟨h, List.not_mem_nil⟩
  | cons piece pieces ih =>
    obtain ⟨hsound, hne⟩ := parse_sound h piece
    obtain ⟨hrest, hmem⟩ := ih hsound
    exact ⟨hrest, fun hin => (List.mem_cons.1 hin).elim (fun heq => hne heq.symm) hmem⟩

/-- However a new parser is used, it never looks for a last header where there is none, and the
request that it builds is clean. -/
theorem calls_clean (pieces : List (List Char)) :
    Clean (calls (.init, .init) pieces).1.2 ∧
      .error .emptyBack ∉ (calls (.init, .init) pieces).2 :=
  ⟨(calls_sound sound_init pieces).1.clean, (calls_sound sound_init pieces).2⟩

end Spinet.Http
