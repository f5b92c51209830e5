import Spinet.Http.RequestLine

/-!
# The header, as the parser accepts it

A line of the header begins a header or goes on with the last one, and the parser comes back to
`headerLineStart` after it. `completes_lines` says what it accepts from there: some lines, each of
which may come where it comes, and then the empty line with what follows it. -/

namespace Spinet.Http

open Scanner (ends_cons ends_goOn ends_until ends_collect ends_star not_ends_nil)

variable {req : Request} {out : HttpRequestParser × Request} {bytes : List Char} {d : Head}
  {hs : List HeaderItem} {h : HeaderItem}

/-- The last header is changed. -/
theorem modifyBack_append (f : HeaderItem → HeaderItem) :
    ({ req with headers := hs ++ [h] } : Request).modifyBack f =
      some { req with headers := hs ++ [f h] } := by
  simp [Request.modifyBack]

/-- A value ends, and what it says of the body is noted, if the body is not too long. -/
theorem completes_value_end (hlast : d.headers.getLast? = some h) :
    Completes out (headState req d .headerValue) ('\r' :: bytes) ↔
      ∃ d', Head.note req.method d h = some d' ∧
        Completes out (headState req d' .expectingNewline2) bytes := by
  have hstep : step (headState req d .headerValue) '\r' =
      lengthOfBody (headState req d .headerValue).1 (headState req d .headerValue).2 := rfl
  rw [Completes, ends_cons, hstep, lengthOfBody, Head.note]
  have hmethod : (headState req d .headerValue).2.method = req.method := rfl
  have hheaders : (headState req d .headerValue).2.headers.getLast? = some h := hlast
  rw [hmethod, hheaders]
  by_cases hbody : req.method = "POST".toList ∨ req.method = "PUT".toList
  · simp only [if_pos hbody]
    by_cases hlength : strcasecmp h.name "Content-Length".toList = true
    · simp only [if_pos hlength]
      by_cases hfits : toSize (atoi h.value) ≤ maxSize
      · simp only [dif_pos hfits, if_neg (Nat.not_lt.2 hfits), Option.some.injEq, exists_eq_left']
        rfl
      · simp only [dif_neg hfits, if_pos (Nat.lt_of_not_le hfits), done]
        simp [Completed]
    · simp only [if_neg hlength]
      by_cases hchunked : strcasecmp h.name "Transfer-Encoding".toList = true ∧
          strcasecmp h.value "chunked".toList = true
      · simp only [if_pos hchunked, Option.some.injEq, exists_eq_left']
        rfl
      · simp only [if_neg hchunked, Option.some.injEq, exists_eq_left']
        rfl
  · simp only [if_neg hbody, Option.some.injEq, exists_eq_left']
    rfl

/-- A value, from some of its bytes on. -/
theorem completes_value {name l : List Char} :
    Completes out (headState req { d with headers := hs ++ [⟨name, l⟩] } .headerValue) bytes ↔
      ∃ w rest d', bytes = w ++ '\r' :: '\n' :: rest ∧ (∀ c ∈ w, isText c = true) ∧
        Head.note req.method { d with headers := hs ++ [⟨name, l ++ w⟩] } ⟨name, l ++ w⟩ = some d' ∧
        Completes out (headState req d' .headerLineStart) rest := by
  have hloop : ∀ l c, isText c = true →
      step (headState req { d with headers := hs ++ [⟨name, l⟩] } .headerValue) c =
        .goOn (headState req { d with headers := hs ++ [⟨name, l ++ [c]⟩] } .headerValue) := by
    intro l c hc
    have hcr : c ≠ '\r' := ne_of_class hc (by decide)
    have hcontrol : isControl c = false := by simpa [isText] using hc
    simp [step, headState, goOnWithBack, modifyBack_append, goOn, hcr, hcontrol]
  refine (ends_collect
    (fun l => headState req { d with headers := hs ++ [⟨name, l⟩] } .headerValue)
    (isText · = true) hloop).trans ?_
  constructor
  · rintro ⟨w, c, rest, rfl, hw, hc, hends⟩
    have hcontrol : isControl c = true := by simpa [isText] using hc
    by_cases hcr : c = '\r'
    · subst hcr
      obtain ⟨d', hnote, hends'⟩ :=
        (completes_value_end (h := ⟨name, l ++ w⟩) (by simp)).1 hends
      obtain ⟨rest', rfl, hline⟩ := (completes_expect fun _ => rfl).1 hends'
      exact ⟨w, rest', d', rfl, hw, hnote, hline⟩
    · refine absurd hends (not_completes_error ?_)
      simp [step, headState, hcr, hcontrol]
  · rintro ⟨w, rest, d', rfl, hw, hnote, hline⟩
    refine ⟨w, '\r', '\n' :: rest, rfl, hw, by decide, ?_⟩
    refine (completes_value_end (h := ⟨name, l ++ w⟩) (by simp)).2 ⟨d', hnote, ?_⟩
    exact (completes_expect fun _ => rfl).2 ⟨rest, rfl, hline⟩

/-- The name of a header, from its second byte on, with the colon and the blank. -/
theorem completes_name {l : List Char} :
    Completes out (headState req { d with headers := hs ++ [⟨l, []⟩] } .headerName) bytes ↔
      ∃ w rest, bytes = w ++ ':' :: rest ∧ (∀ c ∈ w, isToken c = true) ∧
        Completes out
          (headState req { d with headers := hs ++ [⟨l ++ w, []⟩] } .spaceBeforeHeaderValue)
          rest := by
  refine ends_until
    (fun l => headState req { d with headers := hs ++ [⟨l, []⟩] } .headerName)
    (fun l => headState req { d with headers := hs ++ [⟨l, []⟩] } .spaceBeforeHeaderValue)
    (isToken · = true) ':' ?_ (by decide) (fun l => ?_) ?_
  · intro l c hc
    have hne : c ≠ ':' := ne_of_class hc (by decide)
    simp [step, headState, goOnWithBack, modifyBack_append, goOn, hc, hne]
  · rfl
  · intro l c hc hne
    refine exists_error ?_
    simp [step, headState, hc, hne]

/-- The blanks of a line that goes on with a header: after them the line ends, or the value goes
on. -/
theorem completes_lws :
    Completes out (headState req { d with headers := hs ++ [h] } .headerLws) bytes ↔
      ∃ w, (∀ c ∈ w, isBlank c = true) ∧
        ((∃ rest, bytes = w ++ '\r' :: '\n' :: rest ∧
            Completes out (headState req { d with headers := hs ++ [h] } .headerLineStart) rest) ∨
          ∃ c rest, bytes = w ++ c :: rest ∧ isText c = true ∧ c ≠ ' ' ∧
            Completes out (headState req
              { d with headers := hs ++ [{ h with value := h.value ++ [c] }] } .headerValue)
              rest) := by
  have hloop : ∀ (l : List Char) (c : Char), isBlank c = true →
      step (headState req { d with headers := hs ++ [h] } .headerLws) c =
        .goOn (headState req { d with headers := hs ++ [h] } .headerLws) := by
    intro l c hc
    have hcr : c ≠ '\r' := ne_of_class hc (by decide)
    have hblank : c = ' ' ∨ c = '\t' := by simpa [isBlank] using hc
    simp [step, headState, goOn, hcr, hblank]
  refine (ends_collect (fun _ => headState req { d with headers := hs ++ [h] } .headerLws)
    (isBlank · = true) hloop (l := [])).trans ?_
  constructor
  · rintro ⟨w, c, rest, rfl, hw, hc, hends⟩
    have hblank : ¬ (c = ' ' ∨ c = '\t') := by simpa [isBlank] using hc
    refine ⟨w, hw, ?_⟩
    by_cases hcr : c = '\r'
    · subst hcr
      obtain ⟨rest', rfl, hline⟩ :=
        (completes_expect fun _ => rfl).1 ((ends_goOn (by rfl)).1 hends)
      exact .inl ⟨rest', rfl, hline⟩
    · by_cases hcontrol : isControl c = true
      · refine absurd hends (not_completes_error ?_)
        simp [step, headState, hcr, hblank, hcontrol]
      · refine .inr ⟨c, rest, rfl, by simpa [isText] using hcontrol, fun hc => hblank (.inl hc), ?_⟩
        refine (ends_goOn ?_).1 hends
        simp [step, headState, goOnWithBack, modifyBack_append, goOn, hcr, hblank, hcontrol]
  · rintro ⟨w, hw, ⟨rest, rfl, hline⟩ | ⟨c, rest, rfl, hc, hspace, hvalue⟩⟩
    · refine ⟨w, '\r', '\n' :: rest, rfl, hw, by decide, (ends_goOn (by rfl)).2 ?_⟩
      exact (completes_expect fun _ => rfl).2 ⟨rest, rfl, hline⟩
    · have hcr : c ≠ '\r' := ne_of_class hc (by decide)
      have htab : c ≠ '\t' := ne_of_class hc (by decide)
      have hcontrol : isControl c = false := by simpa [isText] using hc
      refine ⟨w, c, rest, rfl, hw, by simp [isBlank, hspace, htab], (ends_goOn ?_).2 hvalue⟩
      simp [step, headState, goOnWithBack, modifyBack_append, goOn, hcr, hspace, htab, hcontrol]

/-- A line that begins a header. -/
theorem completes_field :
    (∃ c rest, bytes = c :: rest ∧ isToken c = true ∧
      Completes out (headState req { d with headers := hs ++ [⟨[c], []⟩] } .headerName) rest) ↔
      ∃ (f : Field) (d' : Head) (rest : List Char),
        Head.note req.method { d with headers := hs ++ [f.item] } f.item = some d' ∧
        bytes = (Line.field f).text ++ rest ∧
        Completes out (headState req d' .headerLineStart) rest := by
  simp only [completes_name]
  rw [exists_word (C := fun l rest => Completes out
    (headState req { d with headers := hs ++ [⟨l, []⟩] } .spaceBeforeHeaderValue) rest)]
  constructor
  · rintro ⟨name, _, rfl, hname⟩
    obtain ⟨_, rfl, hspace⟩ := (completes_expect fun _ => rfl).1 hname
    obtain ⟨w, rest, d', rfl, hw, hnote, hline⟩ := completes_value.1 hspace
    exact ⟨⟨name, ⟨w, hw⟩⟩, d', rest, hnote, by simp [Line.text], hline⟩
  · rintro ⟨f, d', rest, hnote, rfl, hline⟩
    refine ⟨f.name, ' ' :: (f.value.chars ++ '\r' :: '\n' :: rest), by simp [Line.text], ?_⟩
    refine (completes_expect fun _ => rfl).2 ⟨_, rfl, ?_⟩
    exact completes_value.2 ⟨_, rest, d', rfl, f.value.all, hnote, hline⟩

/-- A line that goes on with a header. -/
theorem completes_fold (hlast : d.headers = hs ++ [h]) :
    (∃ c rest, bytes = c :: rest ∧ isBlank c = true ∧
      Completes out (headState req d .headerLws) rest) ↔
      ∃ (f : Fold) (d' : Head) (rest : List Char), Head.read req.method d (.fold f) = some d' ∧
        bytes = (Line.fold f).text ++ rest ∧
        Completes out (headState req d' .headerLineStart) rest := by
  obtain ⟨_, contentSize, chunked, fits⟩ := d
  subst hlast
  have hread : ∀ f : Fold, Head.read req.method ⟨hs ++ [h], contentSize, chunked, fits⟩ (.fold f) =
      if f.value.chars = [] then some ⟨hs ++ [h], contentSize, chunked, fits⟩
      else Head.note req.method
        ⟨hs ++ [{ h with value := h.value ++ f.value.chars }], contentSize, chunked, fits⟩
        { h with value := h.value ++ f.value.chars } := by
    intro f
    simp [Head.read]
  constructor
  · rintro ⟨b, _, rfl, hb, hlws⟩
    obtain ⟨w, hw, ⟨rest, rfl, hline⟩ | ⟨c, _, rfl, hc, hspace, hvalue⟩⟩ :=
      (completes_lws (d := ⟨hs ++ [h], contentSize, chunked, fits⟩)).1 hlws
    · refine ⟨⟨⟨⟨b :: w, List.forall_mem_cons.2 ⟨hb, hw⟩⟩, List.cons_ne_nil _ _⟩, ⟨[], by simp⟩,
        by simp⟩, _, rest, hread _, by simp [Line.text], hline⟩
    · obtain ⟨v, rest, d', rfl, hv, hnote, hline⟩ :=
        (completes_value (d := ⟨hs ++ [h], contentSize, chunked, fits⟩)).1 hvalue
      refine ⟨⟨⟨⟨b :: w, List.forall_mem_cons.2 ⟨hb, hw⟩⟩, List.cons_ne_nil _ _⟩,
        ⟨c :: v, List.forall_mem_cons.2 ⟨hc, hv⟩⟩, by simpa using hspace⟩, d', rest, ?_,
        by simp [Line.text], hline⟩
      rw [hread, if_neg (List.cons_ne_nil _ _)]
      simpa using hnote
  · rintro ⟨⟨⟨⟨blanks, hblanks⟩, hne⟩, ⟨v, hv⟩, hspace⟩, d', rest, hd', rfl, hline⟩
    obtain ⟨b, w, rfl⟩ := List.exists_cons_of_ne_nil hne
    obtain ⟨hb, hw⟩ := List.forall_mem_cons.1 hblanks
    refine ⟨b, w ++ (v ++ '\r' :: '\n' :: rest), by simp [Line.text], hb, ?_⟩
    refine (completes_lws (d := ⟨hs ++ [h], contentSize, chunked, fits⟩)).2 ⟨w, hw, ?_⟩
    rw [hread] at hd'
    cases v with
    | nil =>
      cases hd'
      exact .inl ⟨rest, rfl, hline⟩
    | cons c v =>
      obtain ⟨hc, hv⟩ := List.forall_mem_cons.1 hv
      rw [if_neg (List.cons_ne_nil _ _)] at hd'
      refine .inr ⟨c, v ++ '\r' :: '\n' :: rest, rfl, hc, hspace c rfl, ?_⟩
      refine (completes_value (d := ⟨hs ++ [h], contentSize, chunked, fits⟩)).2
        ⟨v, rest, d', rfl, hv, ?_, hline⟩
      simpa using hd'

/-- The first byte of a line decides what the line is: the empty one, one that goes on with a
header, or one that begins a header. -/
theorem completes_lineStart :
    Completes out (headState req d .headerLineStart) bytes ↔
      (∃ rest, bytes = '\r' :: rest ∧ Completes out (headState req d .expectingNewline3) rest) ∨
      (d.headers ≠ [] ∧ ∃ c rest, bytes = c :: rest ∧ isBlank c = true ∧
        Completes out (headState req d .headerLws) rest) ∨
      ∃ c rest, bytes = c :: rest ∧ isToken c = true ∧
        Completes out (headState req { d with headers := d.headers ++ [⟨[c], []⟩] } .headerName)
          rest := by
  have htoken : ∀ c, isToken c = true → step (headState req d .headerLineStart) c =
      .goOn (headState req { d with headers := d.headers ++ [⟨[c], []⟩] } .headerName) := by
    intro c hc
    have hcr : c ≠ '\r' := ne_of_class hc (by decide)
    have hspace : c ≠ ' ' := ne_of_class hc (by decide)
    have htab : c ≠ '\t' := ne_of_class hc (by decide)
    simp [step, headState, goOn, hc, hcr, hspace, htab]
  have hblank : ∀ c, d.headers ≠ [] → isBlank c = true →
      step (headState req d .headerLineStart) c = .goOn (headState req d .headerLws) := by
    intro c hne hc
    have hcr : c ≠ '\r' := ne_of_class hc (by decide)
    have hor : c = ' ' ∨ c = '\t' := by simpa [isBlank] using hc
    simp [step, headState, goOn, hcr, hne, hor]
  constructor
  · intro h
    cases bytes with
    | nil => exact absurd h not_ends_nil
    | cons c rest =>
      by_cases hcr : c = '\r'
      · subst hcr
        exact .inl ⟨rest, rfl, (ends_goOn (by rfl)).1 h⟩
      by_cases hlws : d.headers ≠ [] ∧ isBlank c = true
      · exact .inr (.inl ⟨hlws.1, c, rest, rfl, hlws.2, (ends_goOn (hblank c hlws.1 hlws.2)).1 h⟩)
      by_cases hc : isToken c = true
      · exact .inr (.inr ⟨c, rest, rfl, hc, (ends_goOn (htoken c hc)).1 h⟩)
      · have hnot : ¬ (d.headers ≠ [] ∧ (c = ' ' ∨ c = '\t')) := by simpa [isBlank] using hlws
        refine absurd h (not_completes_error ?_)
        simp only [step, headState, if_neg hcr, if_neg hnot, hc, Bool.not_false, if_true]
  · rintro (⟨rest, rfl, h⟩ | ⟨hne, c, rest, rfl, hc, h⟩ | ⟨c, rest, rfl, hc, h⟩)
    · exact (ends_goOn (by rfl)).2 h
    · exact (ends_goOn (hblank c hne hc)).2 h
    · exact (ends_goOn (htoken c hc)).2 h

/-- One line of the header, or the empty line. -/
theorem completes_line (d : Head) (bytes : List Char) :
    Completes out (headState req d .headerLineStart) bytes ↔
      (∃ l d' rest, Head.read req.method d l = some d' ∧ bytes = Line.text l ++ rest ∧
        Completes out (headState req d' .headerLineStart) rest) ∨
      ∃ rest, bytes = '\r' :: rest ∧ Completes out (headState req d .expectingNewline3) rest := by
  rw [completes_lineStart, completes_field]
  constructor
  · rintro (h | ⟨hne, h⟩ | ⟨f, d', rest, hnote, hbytes, h⟩)
    · exact .inr h
    · have hlast := (List.dropLast_append_getLast hne).symm
      obtain ⟨f, d', rest, hread, hbytes, h'⟩ := (completes_fold hlast).1 h
      exact .inl ⟨.fold f, d', rest, hread, hbytes, h'⟩
    · exact .inl ⟨.field f, d', rest, hnote, hbytes, h⟩
  · rintro (⟨l, d', rest, hread, hbytes, h⟩ | h)
    · cases l with
      | field f => exact .inr (.inr ⟨f, d', rest, hread, hbytes, h⟩)
      | fold f =>
        have hne : d.headers ≠ [] := by
          intro hnil
          simp [Head.read, hnil] at hread
        have hlast := (List.dropLast_append_getLast hne).symm
        exact .inr (.inl ⟨hne, (completes_fold hlast).2 ⟨f, d', rest, hread, hbytes, h⟩⟩)
    · exact .inl h

/-- Every line has a byte. -/
theorem text_ne_nil (l : Line) : l.text ≠ [] := by
  cases l <;> simp [Line.text]

/-- The header: some lines, and the empty line. -/
theorem completes_lines :
    Completes out (headState req d .headerLineStart) bytes ↔
      ∃ (lines : List Line) (d' : Head) (rest : List Char),
        lines.foldlM (Head.read req.method) d = some d' ∧
        bytes = lines.flatMap Line.text ++ rest ∧
        ∃ rest', rest = '\r' :: rest' ∧ Completes out (headState req d' .expectingNewline3) rest' :=
  ends_star (fun d => headState req d .headerLineStart) Line.text (Head.read req.method)
    text_ne_nil completes_line

end Spinet.Http
