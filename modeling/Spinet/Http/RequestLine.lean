import Spinet.Http.Message

/-!
# The request line, as the parser accepts it

The parser is taken apart state by state, from the left. `Completes` says that from a parser and a
request the bytes complete a request, with the last of them; for each state there is the rule that
says what the state itself reads, and in which state the rest is completed.
`completes_requestLine` puts the rules of the request line together. -/

namespace Spinet.Http

open Scanner (Ends ends_cons ends_class ends_item ends_until ends_collect not_ends_stop)

/-- The parser in a state. -/
def inState (p : HttpRequestParser) (s : State) : HttpRequestParser := { p with state := s }

/-- A call has ended with a complete request. -/
def Completed (out s : HttpRequestParser × Request) (r : Final) : Prop := r = .completed ∧ s = out

/-- From a parser and a request, the bytes complete a request, with the last of them, and leave the
parser and the request as `out`. -/
abbrev Completes (out s : HttpRequestParser × Request) (bytes : List Char) : Prop :=
  Ends step (Completed out) s bytes

variable {p : HttpRequestParser} {req : Request} {out : HttpRequestParser × Request}
  {bytes : List Char} {s t : State}

/-- An error completes nothing. -/
theorem not_completed_error {s : HttpRequestParser × Request} :
    ¬ Completed out s .error := by
  rintro ⟨h, -⟩
  cases h

/-- A turn that finds an error. -/
theorem exists_error {s : HttpRequestParser × Request} {c : Char}
    (h : step s c = done s.1 s.2 .error) :
    ∃ t r, step s c = .stop t r ∧ ¬ Completed out t r :=
  ⟨_, _, h, not_completed_error⟩

/-- With an error nothing is completed. -/
theorem not_completes_error {s : HttpRequestParser × Request} {c : Char} {rest : List Char}
    (h : step s c = done s.1 s.2 .error) : ¬ Completes out s (c :: rest) :=
  not_ends_stop h not_completed_error

/-- The states that expect one byte. -/
theorem completes_expect {e : Char}
    (h : ∀ c, step (p, req) c = expect p req c e t) :
    Completes out (p, req) bytes ↔
      ∃ rest, bytes = e :: rest ∧ Completes out (inState p t, req) rest := by
  refine ends_item ?_ fun c hc => exists_error ?_
  · rw [h, expect, if_pos rfl]
    rfl
  · rw [h, expect, if_neg hc]

/-- A byte of one class is not a byte outside of it. -/
theorem ne_of_class {f : Char → Bool} {c e : Char} (hc : f c = true) (he : f e = false) :
    c ≠ e := by
  rintro rfl
  rw [hc] at he
  cases he

/-- A byte of a class, others of it, and a byte that ends them, are a word and the byte. -/
theorem exists_word {f : Char → Bool} {e : Char} {C : List Char → List Char → Prop} :
    (∃ c rest, bytes = c :: rest ∧ f c = true ∧
      ∃ w rest', rest = w ++ e :: rest' ∧ (∀ x ∈ w, f x = true) ∧ C ([c] ++ w) rest') ↔
      ∃ (w : Word f) (rest : List Char), bytes = w.chars ++ e :: rest ∧ C w.chars rest := by
  constructor
  · rintro ⟨c, _, rfl, hc, w, rest, rfl, hw, h⟩
    exact ⟨⟨⟨c :: w, List.forall_mem_cons.2 ⟨hc, hw⟩⟩, List.cons_ne_nil _ _⟩, rest, rfl, h⟩
  · rintro ⟨⟨⟨chars, hall⟩, hne⟩, rest, rfl, h⟩
    obtain ⟨c, w, rfl⟩ := List.exists_cons_of_ne_nil hne
    obtain ⟨hc, hw⟩ := List.forall_mem_cons.1 hall
    exact ⟨c, _, rfl, hc, w, rest, rfl, hw, h⟩

/-! ## The request line -/

/-- The method, from its second byte on. -/
theorem completes_method {l : List Char} :
    Completes out (inState p .requestMethod, { req with method := l }) bytes ↔
      ∃ w rest, bytes = w ++ ' ' :: rest ∧ (∀ c ∈ w, isToken c = true) ∧
        Completes out (inState p .requestUriStart, { req with method := l ++ w }) rest := by
  refine ends_until (fun l => (inState p .requestMethod, { req with method := l }))
    (fun l => (inState p .requestUriStart, { req with method := l })) (isToken · = true) ' '
    ?_ (by decide) (fun l => ?_) ?_
  · intro l c hc
    have hne : c ≠ ' ' := ne_of_class hc (by decide)
    simp [step, inState, goOn, hc, hne]
  · rfl
  · intro l c hc hne
    refine exists_error ?_
    simp [step, inState, hc, hne]

/-- The method. -/
theorem completes_methodStart (p : HttpRequestParser) (req : Request) :
    Completes out (inState p .requestMethodStart, { req with method := [] }) bytes ↔
      ∃ (w : Word isToken) (rest : List Char), bytes = w.chars ++ ' ' :: rest ∧
        Completes out (inState p .requestUriStart, { req with method := w.chars }) rest := by
  rw [← exists_word (C := fun l rest =>
    Completes out (inState p .requestUriStart, { req with method := l }) rest)]
  simp only [← completes_method]
  refine ends_class (isToken · = true)
    (fun c => (inState p .requestMethod, { req with method := [c] })) (fun c hc => ?_)
    fun c hc => exists_error ?_
  · simp [step, inState, goOn, hc]
  · simp [step, inState, hc]

/-- The target, from its second byte on: after it comes a version or the end. -/
theorem completes_uri {l : List Char} :
    Completes out (inState p .requestUri, { req with uri := l }) bytes ↔
      ∃ w, (∀ c ∈ w, isTarget c = true) ∧
        ((bytes = w ++ ['\r'] ∧
            out = (inState p .requestUri,
              { req with uri := l ++ w, versionMajor := 0, versionMinor := 9 })) ∨
          ∃ rest, bytes = w ++ ' ' :: rest ∧
            Completes out (inState p .requestHttpVersionH, { req with uri := l ++ w }) rest) := by
  have hloop : ∀ l c, isTarget c = true →
      step (inState p .requestUri, { req with uri := l }) c =
        .goOn (inState p .requestUri, { req with uri := l ++ [c] }) := by
    intro l c hc
    have hspace : c ≠ ' ' := ne_of_class hc (by decide)
    have hcr : c ≠ '\r' := ne_of_class hc (by decide)
    have hcontrol : isControl c = false := by
      simp only [isTarget, Bool.and_eq_true, Bool.not_eq_true'] at hc
      exact hc.1
    simp [step, inState, goOn, hspace, hcr, hcontrol]
  refine (ends_collect (fun l => (inState p .requestUri, { req with uri := l }))
    (isTarget · = true) hloop).trans ?_
  constructor
  · rintro ⟨w, c, rest, rfl, hw, hc, hends⟩
    refine ⟨w, hw, ?_⟩
    by_cases hspace : c = ' '
    · subst hspace
      exact .inr ⟨rest, rfl, hends⟩
    by_cases hcr : c = '\r'
    · subst hcr
      obtain ⟨rfl, -, rfl⟩ := ends_cons.1 hends
      exact .inl ⟨rfl, rfl⟩
    · have hcontrol : isControl c = true := by
        simpa [isTarget, hspace] using hc
      refine absurd hends (not_completes_error ?_)
      simp [step, inState, hspace, hcr, hcontrol]
  · rintro ⟨w, hw, ⟨rfl, rfl⟩ | ⟨rest, rfl, hends⟩⟩
    · exact ⟨w, '\r', [], rfl, hw, by decide, ends_cons.2 ⟨rfl, rfl, rfl⟩⟩
    · exact ⟨w, ' ', rest, rfl, hw, by decide, hends⟩

/-- The target. -/
theorem completes_uriStart (p : HttpRequestParser) (req : Request) :
    Completes out (inState p .requestUriStart, { req with uri := [] }) bytes ↔
      ∃ target : Target,
        (bytes = target.chars ++ ['\r'] ∧
            out = (inState p .requestUri,
              { req with uri := target.chars, versionMajor := 0, versionMinor := 9 })) ∨
          ∃ rest, bytes = target.chars ++ ' ' :: rest ∧
            Completes out (inState p .requestHttpVersionH, { req with uri := target.chars })
              rest := by
  have hfirst : Completes out (inState p .requestUriStart, { req with uri := [] }) bytes ↔
      ∃ c rest, bytes = c :: rest ∧ isText c = true ∧
        Completes out (inState p .requestUri, { req with uri := [c] }) rest := by
    refine ends_class (isText · = true)
      (fun c => (inState p .requestUri, { req with uri := [c] })) (fun c hc => ?_)
      fun c hc => exists_error ?_
    · have hcontrol : isControl c = false := by simpa [isText] using hc
      simp [step, inState, goOn, hcontrol]
    · have hcontrol : isControl c = true := by simpa [isText] using hc
      simp [step, inState, hcontrol]
  rw [hfirst]
  constructor
  · rintro ⟨c, rest, rfl, hc, h⟩
    obtain ⟨w, hw, ⟨rfl, rfl⟩ | ⟨rest', rfl, h'⟩⟩ := completes_uri.1 h
    · exact ⟨⟨c, ⟨w, hw⟩, hc⟩, .inl ⟨rfl, rfl⟩⟩
    · exact ⟨⟨c, ⟨w, hw⟩, hc⟩, .inr ⟨rest', rfl, h'⟩⟩
  · rintro ⟨target, ⟨rfl, rfl⟩ | ⟨rest, rfl, h⟩⟩
    · exact ⟨_, _, rfl, target.first_text,
        completes_uri.2 ⟨_, target.others.all, .inl ⟨rfl, rfl⟩⟩⟩
    · exact ⟨_, _, rfl, target.first_text,
        completes_uri.2 ⟨_, target.others.all, .inr ⟨rest, rfl, h⟩⟩⟩

/-- The five bytes before the version. -/
theorem completes_http (p : HttpRequestParser) (req : Request) :
    Completes out (inState p .requestHttpVersionH, req) bytes ↔
      ∃ rest, bytes = "HTTP/".toList ++ rest ∧
        Completes out (inState p .requestHttpVersionMajorStart,
          { req with versionMajor := 0, versionMinor := 0 }) rest := by
  have hslash : ∀ bytes, Completes out (inState p .requestHttpVersionSlash, req) bytes ↔
      ∃ rest, bytes = '/' :: rest ∧
        Completes out (inState p .requestHttpVersionMajorStart,
          { req with versionMajor := 0, versionMinor := 0 }) rest := by
    refine fun bytes => ends_item rfl fun c hc => exists_error ?_
    simp [step, inState, hc]
  rw [completes_expect fun _ => rfl]
  constructor
  · rintro ⟨_, rfl, ht⟩
    obtain ⟨_, rfl, htt⟩ := (completes_expect fun _ => rfl).1 ht
    obtain ⟨_, rfl, hp⟩ := (completes_expect fun _ => rfl).1 htt
    obtain ⟨_, rfl, hs⟩ := (completes_expect fun _ => rfl).1 hp
    obtain ⟨rest, rfl, h⟩ := (hslash _).1 hs
    exact ⟨rest, rfl, h⟩
  · rintro ⟨rest, rfl, h⟩
    refine ⟨_, rfl, (completes_expect fun _ => rfl).2 ⟨_, rfl, ?_⟩⟩
    refine (completes_expect fun _ => rfl).2 ⟨_, rfl, ?_⟩
    refine (completes_expect fun _ => rfl).2 ⟨_, rfl, (hslash _).2 ⟨rest, rfl, h⟩⟩

/-- A number is read on from what has been read of it. -/
theorem versionNumber_append (l : List Char) (c : Char) :
    versionNumber (l ++ [c]) = toInt (versionNumber l * 10 + c.toNat - '0'.toNat) := by
  rw [versionNumber, List.foldl_append]
  rfl

/-- The first digit of a number. -/
theorem versionNumber_singleton (c : Char) :
    versionNumber [c] = toInt (c.toNat - '0'.toNat) := by
  simp [versionNumber]

/-- The version before the point, from its second digit on. -/
theorem completes_major {l : List Char} :
    Completes out
        (inState p .requestHttpVersionMajor, { req with versionMajor := versionNumber l }) bytes ↔
      ∃ w rest, bytes = w ++ '.' :: rest ∧ (∀ c ∈ w, isDigit c = true) ∧
        Completes out (inState p .requestHttpVersionMinorStart,
          { req with versionMajor := versionNumber (l ++ w) }) rest := by
  refine ends_until
    (fun l => (inState p .requestHttpVersionMajor, { req with versionMajor := versionNumber l }))
    (fun l =>
      (inState p .requestHttpVersionMinorStart, { req with versionMajor := versionNumber l }))
    (isDigit · = true) '.' ?_ (by decide) (fun l => ?_) ?_
  · intro l c hc
    have hne : c ≠ '.' := ne_of_class hc (by decide)
    simp [step, inState, goOn, hc, hne, versionNumber_append]
  · rfl
  · intro l c hc hne
    refine exists_error ?_
    simp [step, inState, hc, hne]

/-- The version before the point. -/
theorem completes_majorStart (p : HttpRequestParser) (req : Request) :
    Completes out (inState p .requestHttpVersionMajorStart, req) bytes ↔
      ∃ (w : Word isDigit) (rest : List Char), bytes = w.chars ++ '.' :: rest ∧
        Completes out (inState p .requestHttpVersionMinorStart,
          { req with versionMajor := versionNumber w.chars }) rest := by
  rw [← exists_word (C := fun l rest => Completes out (inState p .requestHttpVersionMinorStart,
    { req with versionMajor := versionNumber l }) rest)]
  simp only [← completes_major]
  refine ends_class (isDigit · = true)
    (fun c => (inState p .requestHttpVersionMajor, { req with versionMajor := versionNumber [c] }))
    (fun c hc => ?_) fun c hc => exists_error ?_
  · simp [step, inState, goOn, hc, versionNumber_singleton]
  · simp [step, inState, hc]

/-- The version after the point, from its second digit on. -/
theorem completes_minor {l : List Char} :
    Completes out
        (inState p .requestHttpVersionMinor, { req with versionMinor := versionNumber l }) bytes ↔
      ∃ w rest, bytes = w ++ '\r' :: rest ∧ (∀ c ∈ w, isDigit c = true) ∧
        Completes out (inState p .responseHttpVersionNewLine,
          { req with versionMinor := versionNumber (l ++ w) }) rest := by
  refine ends_until
    (fun l => (inState p .requestHttpVersionMinor, { req with versionMinor := versionNumber l }))
    (fun l => (inState p .responseHttpVersionNewLine, { req with versionMinor := versionNumber l }))
    (isDigit · = true) '\r' ?_ (by decide) (fun l => ?_) ?_
  · intro l c hc
    have hne : c ≠ '\r' := ne_of_class hc (by decide)
    simp [step, inState, goOn, hc, hne, versionNumber_append]
  · rfl
  · intro l c hc hne
    refine exists_error ?_
    simp [step, inState, hc, hne]

/-- The version after the point. -/
theorem completes_minorStart (p : HttpRequestParser) (req : Request) :
    Completes out (inState p .requestHttpVersionMinorStart, req) bytes ↔
      ∃ (w : Word isDigit) (rest : List Char), bytes = w.chars ++ '\r' :: rest ∧
        Completes out (inState p .responseHttpVersionNewLine,
          { req with versionMinor := versionNumber w.chars }) rest := by
  rw [← exists_word (C := fun l rest => Completes out (inState p .responseHttpVersionNewLine,
    { req with versionMinor := versionNumber l }) rest)]
  simp only [← completes_minor]
  refine ends_class (isDigit · = true)
    (fun c => (inState p .requestHttpVersionMinor, { req with versionMinor := versionNumber [c] }))
    (fun c hc => ?_) fun c hc => exists_error ?_
  · simp [step, inState, goOn, hc, versionNumber_singleton]
  · simp [step, inState, hc]

/-- The parser and the request while the header is read. -/
def headState (req : Request) (d : Head) (s : State) : HttpRequestParser × Request :=
  (⟨s, d.contentSize, [], 0, d.chunked⟩, { req with headers := d.headers })

/-- A request of which the request line has been read. -/
def lineRequest (method : Word isToken) (target : Target) (major minor : Word isDigit) : Request :=
  { Request.init with
    method := method.chars, uri := target.chars
    versionMajor := versionNumber major.chars, versionMinor := versionNumber minor.chars }

/-- The request line: it is all there is, or a header follows. -/
theorem completes_requestLine :
    Completes out (HttpRequestParser.init, Request.init) bytes ↔
      (∃ m : Short, bytes = m.text ∧ out = (m.parser, m.request)) ∨
        ∃ (method : Word isToken) (target : Target) (major minor : Word isDigit) (rest : List Char),
          bytes = method.chars ++ ' ' :: target.chars ++ " HTTP/".toList ++ major.chars ++ '.' ::
            minor.chars ++ '\r' :: '\n' :: rest ∧
          Completes out (headState (lineRequest method target major minor) Head.init
            .headerLineStart) rest := by
  constructor
  · intro h
    obtain ⟨method, _, rfl, hmethod⟩ := (completes_methodStart .init .init).1 h
    obtain ⟨target, ⟨rfl, rfl⟩ | ⟨_, rfl, htarget⟩⟩ :=
      (completes_uriStart .init { Request.init with method := method.chars }).1 hmethod
    · exact .inl ⟨⟨method, target⟩, by simp [Short.text], rfl⟩
    · obtain ⟨_, rfl, hhttp⟩ := (completes_http _ _).1 htarget
      obtain ⟨major, _, rfl, hmajor⟩ := (completes_majorStart _ _).1 hhttp
      obtain ⟨minor, _, rfl, hminor⟩ := (completes_minorStart _ _).1 hmajor
      obtain ⟨rest, rfl, hline⟩ := (completes_expect fun _ => rfl).1 hminor
      exact .inr ⟨method, target, major, minor, rest, by simp, hline⟩
  · rintro (⟨m, rfl, rfl⟩ | ⟨method, target, major, minor, rest, rfl, hline⟩)
    · refine (completes_methodStart .init .init).2
        ⟨m.method, m.target.chars ++ ['\r'], by simp [Short.text], ?_⟩
      exact (completes_uriStart .init { Request.init with method := m.method.chars }).2
        ⟨m.target, .inl ⟨rfl, rfl⟩⟩
    · let r₁ : Request := { Request.init with method := method.chars }
      let r₂ : Request := { r₁ with uri := target.chars }
      let r₃ : Request := { r₂ with versionMajor := versionNumber major.chars }
      have hnewLine : Completes out (inState .init .responseHttpVersionNewLine,
          lineRequest method target major minor) ('\n' :: rest) :=
        (completes_expect fun _ => rfl).2 ⟨rest, rfl, hline⟩
      have hminor := (completes_minorStart .init r₃).2 ⟨minor, _, rfl, hnewLine⟩
      have hmajor := (completes_majorStart .init r₂).2 ⟨major, _, rfl, hminor⟩
      have hhttp := (completes_http .init r₂).2 ⟨_, rfl, hmajor⟩
      have htarget := (completes_uriStart .init r₁).2 ⟨target, .inr ⟨_, rfl, hhttp⟩⟩
      have hmethod : Completes out (HttpRequestParser.init, Request.init) _ :=
        (completes_methodStart .init .init).2 ⟨method, _, rfl, htarget⟩
      simpa using hmethod

end Spinet.Http
