import Spinet.Http.Header

/-!
# The body, as the parser accepts it

After the empty line the parser reads as many bytes as the header has announced, or chunks, or
nothing. `completes_endOfHeaders` says what it accepts there: the bodies that the header announces,
in the sense of `Body.Framed`, each with its content. -/

namespace Spinet.Http

open Scanner (ends_cons ends_goOn ends_until ends_collect ends_count ends_star not_ends_nil
  not_ends_stop)

variable {p : HttpRequestParser} {req : Request} {out : HttpRequestParser × Request}
  {bytes : List Char} {n : ℕ} {b : Bool}

/-- A call that completes the request. -/
theorem completes_completed {s : HttpRequestParser × Request} {c : Char} {rest : List Char}
    {q : HttpRequestParser} {r : Request} (h : step s c = done q r .completed) :
    Completes out s (c :: rest) ↔ rest = [] ∧ out = (q, r) := by
  rw [Completes, ends_cons, h]
  constructor
  · rintro ⟨hrest, -, hout⟩
    exact ⟨hrest, hout.symm⟩
  · rintro ⟨hrest, hout⟩
    exact ⟨hrest, rfl, hout.symm⟩

/-! ## A body of a known length -/

/-- The parser and the request while a body of a known length is read. -/
def postState (req : Request) (b : Bool) (n : ℕ) (l : List Char) : HttpRequestParser × Request :=
  (⟨.post, n, [], 0, b⟩, { req with content := l })

/-- Every byte but the last. -/
theorem step_post (k : ℕ) (l : List Char) (c : Char) :
    step (postState req b (k + 2) l) c = .goOn (postState req b (k + 1) (l ++ [c])) := by
  simp only [step, postState, pushContent, decrement, goOn, Nat.succ_ne_zero, if_false]

/-- The last byte. -/
theorem step_post_last (l : List Char) (c : Char) :
    step (postState req b 1 l) c =
      done ⟨.post, 0, [], 0, b⟩ { req with content := l ++ [c] } .completed := by
  simp only [step, postState, pushContent, decrement, done, if_true]

/-- A body of a known length. -/
theorem completes_post (hpos : 0 < n) {l : List Char} :
    Completes out (postState req b n l) bytes ↔
      bytes.length = n ∧ out = (⟨.post, 0, [], 0, b⟩, { req with content := l ++ bytes }) := by
  obtain ⟨k, rfl⟩ : ∃ k, n = k + 1 := ⟨n - 1, by omega⟩
  refine (ends_count (postState req b) step_post).trans ?_
  constructor
  · rintro ⟨w, c, rest, rfl, rfl, hends⟩
    obtain ⟨rfl, rfl⟩ := (completes_completed (step_post_last _ c)).1 hends
    exact ⟨by simp, by simp⟩
  · rintro ⟨hlength, rfl⟩
    have hne : bytes ≠ [] := List.ne_nil_of_length_eq_add_one hlength
    have hlast := List.dropLast_append_getLast hne
    refine ⟨bytes.dropLast, bytes.getLast hne, [], hlast.symm, by simp [hlength], ?_⟩
    refine (completes_completed (step_post_last _ _)).2 ⟨rfl, ?_⟩
    rw [List.append_assoc, hlast]

/-! ## Chunks -/

/-- The parser and the request while a chunk is read. -/
def chunkState (req : Request) (n : ℕ) (b : Bool) (k : ℕ) (l : List Char) :
    HttpRequestParser × Request :=
  (⟨.chunkData, n, [], k, b⟩, { req with content := l })

/-- Every byte of a chunk but the last. -/
theorem step_chunkData (k : ℕ) (l : List Char) (c : Char) :
    step (chunkState req n b (k + 2) l) c = .goOn (chunkState req n b (k + 1) (l ++ [c])) := by
  simp only [step, chunkState, pushChunk, decrement, goOn, Nat.succ_ne_zero, if_false]

/-- The last byte of a chunk. -/
theorem step_chunkData_last (l : List Char) (c : Char) :
    step (chunkState req n b 1 l) c =
      .goOn (⟨.chunkDataNewLine1, n, [], 0, b⟩, { req with content := l ++ [c] }) := by
  simp only [step, chunkState, pushChunk, decrement, goOn, if_true]

/-- The bytes of a chunk, with what ends them. -/
theorem completes_chunkData {k : ℕ} (hpos : 0 < k) {l : List Char} :
    Completes out (chunkState req n b k l) bytes ↔
      ∃ data rest, bytes = data ++ '\r' :: '\n' :: rest ∧ data.length = k ∧
        Completes out (⟨.chunkSize, n, [], 0, b⟩, { req with content := l ++ data }) rest := by
  obtain ⟨k, rfl⟩ : ∃ j, k = j + 1 := ⟨k - 1, by omega⟩
  refine (ends_count (chunkState req n b) step_chunkData).trans ?_
  constructor
  · rintro ⟨w, c, _, rfl, rfl, hends⟩
    have hnewLine1 := (ends_goOn (step_chunkData_last _ c)).1 hends
    obtain ⟨_, rfl, hnewLine2⟩ := (completes_expect fun _ => rfl).1 hnewLine1
    obtain ⟨rest, rfl, hsize⟩ := (completes_expect fun _ => rfl).1 hnewLine2
    exact ⟨w ++ [c], rest, by simp, by simp, by rwa [← List.append_assoc]⟩
  · rintro ⟨data, rest, rfl, hlength, hsize⟩
    have hne : data ≠ [] := List.ne_nil_of_length_eq_add_one hlength
    have hlast := List.dropLast_append_getLast hne
    refine ⟨data.dropLast, data.getLast hne, '\r' :: '\n' :: rest, ?_, by simp [hlength], ?_⟩
    · conv_lhs => rw [← hlast]
      simp
    · refine (ends_goOn (step_chunkData_last _ _)).2 ?_
      rw [List.append_assoc, hlast]
      refine (completes_expect fun _ => rfl).2 ⟨_, rfl, ?_⟩
      exact (completes_expect fun _ => rfl).2 ⟨rest, rfl, hsize⟩

/-- The value of an extension. -/
theorem completes_extensionValue :
    Completes out (inState p .chunkExtensionValue, req) bytes ↔
      ∃ (v : Text isPlain) (rest : List Char), bytes = v.chars ++ '\r' :: rest ∧
        Completes out (inState p .chunkSizeNewLine, req) rest := by
  refine (ends_until (fun _ => (inState p .chunkExtensionValue, req))
    (fun _ => (inState p .chunkSizeNewLine, req)) (isPlain · = true) '\r' ?_ (by decide)
    (fun l => ?_) ?_ (l := [])).trans ⟨?_, ?_⟩
  · intro l c hc
    have hplain : c.isAlphanum = true ∨ c = ' ' := by simpa [isPlain] using hc
    simp [step, inState, goOn, hplain]
  · rfl
  · intro l c hc hne
    have hplain : ¬ (c.isAlphanum = true ∨ c = ' ') := by simpa [isPlain] using hc
    refine exists_error ?_
    simp [step, inState, expect, hplain, hne]
  · rintro ⟨w, rest, rfl, hw, h⟩
    exact ⟨⟨w, hw⟩, rest, rfl, h⟩
  · rintro ⟨v, rest, rfl, h⟩
    exact ⟨v.chars, rest, rfl, v.all, h⟩

/-- An extension, after the semicolon: it has a value or none. -/
theorem completes_extensionName :
    Completes out (inState p .chunkExtensionName, req) bytes ↔
      ∃ (e : Extension) (rest : List Char), ';' :: bytes = e.text ++ '\r' :: rest ∧
        Completes out (inState p .chunkSizeNewLine, req) rest := by
  have hloop : ∀ (l : List Char) (c : Char), isPlain c = true →
      step (inState p .chunkExtensionName, req) c =
        .goOn (inState p .chunkExtensionName, req) := by
    intro l c hc
    have hplain : c.isAlphanum = true ∨ c = ' ' := by simpa [isPlain] using hc
    simp [step, inState, goOn, hplain]
  refine (ends_collect (fun _ => (inState p .chunkExtensionName, req)) (isPlain · = true) hloop
    (l := [])).trans ⟨?_, ?_⟩
  · rintro ⟨w, c, rest, rfl, hw, hc, h⟩
    have hplain : ¬ (c.isAlphanum = true ∨ c = ' ') := by simpa [isPlain] using hc
    by_cases heq : c = '='
    · subst heq
      have hvalue : Completes out (inState p .chunkExtensionValue, req) rest :=
        (ends_goOn (by rfl)).1 h
      obtain ⟨v, rest', rfl, h'⟩ := completes_extensionValue.1 hvalue
      exact ⟨.value ⟨w, hw⟩ v, rest', by simp [Extension.text], h'⟩
    by_cases hcr : c = '\r'
    · subst hcr
      exact ⟨.name ⟨w, hw⟩, rest, rfl, (ends_goOn (by rfl)).1 h⟩
    · refine absurd h (not_completes_error ?_)
      simp [step, inState, expect, hplain, heq, hcr]
  · rintro ⟨e, rest, hbytes, h⟩
    cases e with
    | none =>
      have hhead := congrArg List.head? hbytes
      simp [Extension.text] at hhead
    | name n =>
      simp only [Extension.text, List.cons_append, List.cons.injEq, true_and] at hbytes
      exact ⟨n.chars, '\r', rest, hbytes, n.all, by decide, (ends_goOn (by rfl)).2 h⟩
    | value n v =>
      simp only [Extension.text, List.cons_append, List.append_assoc, List.cons.injEq,
        true_and] at hbytes
      refine ⟨n.chars, '=', _, hbytes, n.all, by decide, (ends_goOn (by rfl)).2 ?_⟩
      exact completes_extensionValue.2 ⟨v, rest, rfl, h⟩

/-- The line with the size of a chunk. -/
theorem completes_chunkSize :
    Completes out (⟨.chunkSize, n, [], 0, b⟩, req) bytes ↔
      ∃ (size : Text Char.isAlphanum) (e : Extension) (rest : List Char),
        bytes = size.chars ++ e.text ++ '\r' :: rest ∧
        Completes out (⟨.chunkSizeNewLine, n, size.chars, 0, b⟩, req) rest := by
  have hloop : ∀ (l : List Char) (c : Char), c.isAlphanum = true →
      step (⟨.chunkSize, n, l, 0, b⟩, req) c = .goOn (⟨.chunkSize, n, l ++ [c], 0, b⟩, req) := by
    intro l c hc
    simp [step, goOn, hc]
  refine (ends_collect (fun l => (HttpRequestParser.mk .chunkSize n l 0 b, req))
    (Char.isAlphanum · = true) hloop (l := [])).trans ⟨?_, ?_⟩
  · rintro ⟨w, c, rest, rfl, hw, hc, h⟩
    by_cases hsemi : c = ';'
    · subst hsemi
      have hname : Completes out (inState ⟨.chunkSize, n, w, 0, b⟩ .chunkExtensionName, req) rest :=
        (ends_goOn (by rfl)).1 h
      obtain ⟨e, rest', hbytes, h'⟩ := completes_extensionName.1 hname
      exact ⟨⟨w, hw⟩, e, rest', by rw [hbytes, List.append_assoc], h'⟩
    by_cases hcr : c = '\r'
    · subst hcr
      exact ⟨⟨w, hw⟩, .none, rest, by simp [Extension.text], (ends_goOn (by rfl)).1 h⟩
    · refine absurd h (not_completes_error ?_)
      simp [step, expect, hc, hsemi, hcr]
  · rintro ⟨size, e, rest, rfl, h⟩
    have hname : ∀ bytes, ';' :: bytes = e.text ++ '\r' :: rest →
        Completes out (⟨.chunkSize, n, size.chars, 0, b⟩, req) (';' :: bytes) := by
      intro bytes hbytes
      refine (ends_goOn (t := (inState ⟨.chunkSize, n, size.chars, 0, b⟩ .chunkExtensionName, req))
        (by rfl)).2 ?_
      exact completes_extensionName.2 ⟨e, rest, hbytes, h⟩
    cases he : e with
    | none =>
      subst he
      exact ⟨size.chars, '\r', rest, by simp [Extension.text], size.all, by decide,
        (ends_goOn (by rfl)).2 h⟩
    | name m =>
      subst he
      exact ⟨size.chars, ';', _, by simp [Extension.text], size.all, by decide, hname _ rfl⟩
    | value m v =>
      subst he
      exact ⟨size.chars, ';', m.chars ++ '=' :: (v.chars ++ '\r' :: rest),
        by simp [Extension.text], size.all, by decide, hname _ (by simp [Extension.text])⟩

/-- A number without a sign is not negative, and is at most the largest `long`. -/
theorem toSize_strtol {base : ℕ} {s : List Char} (hs : '-' ∉ s) :
    toSize (strtol base s) ≤ maxSize := by
  have hmax : maxSize = 2 ^ 63 - 1 := rfl
  have hbounds : 0 ≤ strtol base s ∧ strtol base s ≤ 2 ^ 63 - 1 := by
    rw [strtol]
    split
    · rename_i cs hcs
      exact absurd ((List.dropWhile_sublist _).mem (hcs ▸ List.mem_cons_self ..)) hs
    · omega
    · omega
  rw [toSize, Int.emod_eq_of_lt hbounds.1 (by omega)]
  omega

/-- The end of the line with the size of a chunk: the last chunk has none. -/
theorem completes_chunkSizeNewLine (size : Text Char.isAlphanum)
    (hfits : req.content.length ≤ maxSize) :
    Completes out (⟨.chunkSizeNewLine, n, size.chars, 0, b⟩, req) bytes ↔
      ∃ rest, bytes = '\n' :: rest ∧
        req.content.length + toSize (strtol 16 size.chars) ≤ maxSize ∧
        ((toSize (strtol 16 size.chars) = 0 ∧
            Completes out (⟨.chunkSizeNewLine2, n, [], 0, b⟩, req) rest) ∨
          (0 < toSize (strtol 16 size.chars) ∧
            Completes out (chunkState req n b (toSize (strtol 16 size.chars)) req.content)
              rest)) := by
  have hmax : maxSize = 2 ^ 63 - 1 := rfl
  have hdash : '-' ∉ size.chars := fun hmem => absurd (size.all _ hmem) (by decide)
  have hsize : toSize (strtol 16 size.chars) ≤ maxSize := toSize_strtol hdash
  generalize hk : toSize (strtol 16 size.chars) = k at *
  have hmod : (req.content.length + k) % 2 ^ 64 = req.content.length + k :=
    Nat.mod_eq_of_lt (by omega)
  constructor
  · intro h
    cases bytes with
    | nil => exact absurd h not_ends_nil
    | cons c rest =>
      by_cases hc : c = '\n'
      · subst hc
        rw [Completes, ends_cons] at h
        simp only [step, endOfChunkSize, hk, hmod, if_true] at h
        by_cases hsum : maxSize < req.content.length + k
        · simp [hsum, done, Completed] at h
        · refine ⟨rest, rfl, Nat.not_lt.1 hsum, ?_⟩
          simp only [if_neg hsum, goOn] at h
          rcases Nat.eq_zero_or_pos k with hzero | hpos
          · subst hzero
            exact .inl ⟨rfl, h⟩
          · simp only [if_neg (Nat.pos_iff_ne_zero.1 hpos)] at h
            exact .inr ⟨hpos, h⟩
      · refine absurd h (not_completes_error ?_)
        simp [step, hc]
  · rintro ⟨rest, rfl, hsum, h⟩
    rw [Completes, ends_cons]
    simp only [step, endOfChunkSize, hk, hmod, if_true, if_neg (Nat.not_lt.2 hsum), goOn]
    rcases h with ⟨hzero, h⟩ | ⟨hpos, h⟩
    · subst hzero
      exact h
    · simp only [if_neg (Nat.pos_iff_ne_zero.1 hpos)]
      exact h

/-- The value of a field of the trailer, with the end of its line. -/
theorem completes_trailerValue (hfits : req.content.length ≤ maxSize) :
    Completes out (⟨.chunkTrailerValue, n, [], 0, b⟩, req) bytes ↔
      ∃ (v : Text isPlain) (rest : List Char), bytes = v.chars ++ '\r' :: '\n' :: rest ∧
        Completes out (⟨.chunkSizeNewLine2, n, [], 0, b⟩, req) rest := by
  -- The end of the line is read as that of the size of a chunk, of which there is no digit.
  have hnewLine : ∀ bytes, Completes out (⟨.chunkSizeNewLine, n, [], 0, b⟩, req) bytes ↔
      ∃ rest, bytes = '\n' :: rest ∧
        Completes out (⟨.chunkSizeNewLine2, n, [], 0, b⟩, req) rest := by
    intro bytes
    have hzero : toSize (strtol 16 []) = 0 := rfl
    refine (completes_chunkSizeNewLine ⟨[], by simp⟩ hfits).trans ?_
    simp [hzero, hfits]
  refine (ends_until (fun _ => (HttpRequestParser.mk .chunkTrailerValue n [] 0 b, req))
    (fun _ => (HttpRequestParser.mk .chunkSizeNewLine n [] 0 b, req)) (isPlain · = true) '\r' ?_
    (by decide) (fun l => ?_) ?_ (l := [])).trans ⟨?_, ?_⟩
  · intro l c hc
    have hplain : c.isAlphanum = true ∨ c = ' ' := by simpa [isPlain] using hc
    simp [step, goOn, hplain]
  · rfl
  · intro l c hc hne
    have hplain : ¬ (c.isAlphanum = true ∨ c = ' ') := by simpa [isPlain] using hc
    refine exists_error ?_
    simp [step, expect, hplain, hne]
  · rintro ⟨w, _, rfl, hw, h⟩
    obtain ⟨rest, rfl, h'⟩ := (hnewLine _).1 h
    exact ⟨⟨w, hw⟩, rest, rfl, h'⟩
  · rintro ⟨v, rest, rfl, h⟩
    exact ⟨v.chars, _, rfl, v.all, (hnewLine _).2 ⟨rest, rfl, h⟩⟩

/-- The name of a field of the trailer, from its second byte on. -/
theorem completes_trailerName :
    Completes out (⟨.chunkTrailerName, n, [], 0, b⟩, req) bytes ↔
      ∃ w rest, bytes = w ++ ':' :: rest ∧ (∀ c ∈ w, Char.isAlphanum c = true) ∧
        Completes out (⟨.chunkTrailerValue, n, [], 0, b⟩, req) rest := by
  refine ends_until (fun _ => (HttpRequestParser.mk .chunkTrailerName n [] 0 b, req))
    (fun _ => (HttpRequestParser.mk .chunkTrailerValue n [] 0 b, req)) (Char.isAlphanum · = true)
    ':' ?_ (by decide) (fun l => ?_) ?_ (l := [])
  · intro l c hc
    simp [step, goOn, hc]
  · rfl
  · intro l c hc hne
    refine exists_error ?_
    simp [step, expect, hc, hne]

/-- One field of the trailer, or the end. -/
theorem completes_trailer (hfits : req.content.length ≤ maxSize) (bytes : List Char) :
    Completes out (⟨.chunkSizeNewLine2, n, [], 0, b⟩, req) bytes ↔
      (∃ t rest, bytes = Trailer.text t ++ rest ∧
        Completes out (⟨.chunkSizeNewLine2, n, [], 0, b⟩, req) rest) ∨
      (bytes = ['\r', '\n'] ∧ out = (⟨.chunkSizeNewLine3, n, [], 0, b⟩, req)) := by
  constructor
  · intro h
    cases bytes with
    | nil => exact absurd h not_ends_nil
    | cons c rest =>
      by_cases hcr : c = '\r'
      · subst hcr
        have hend : Completes out (⟨.chunkSizeNewLine3, n, [], 0, b⟩, req) rest :=
          (ends_goOn (by rfl)).1 h
        cases rest with
        | nil => exact absurd hend not_ends_nil
        | cons c rest =>
          by_cases hlf : c = '\n'
          · subst hlf
            obtain ⟨rfl, rfl⟩ := (completes_completed (by rfl)).1 hend
            exact .inr ⟨rfl, rfl⟩
          · refine absurd hend (not_completes_error ?_)
            simp [step, hlf]
      · by_cases halpha : c.isAlpha = true
        · have hname : Completes out (⟨.chunkTrailerName, n, [], 0, b⟩, req) rest :=
            (ends_goOn (by simp [step, goOn, hcr, halpha])).1 h
          obtain ⟨w, _, rfl, hw, hvalue⟩ := completes_trailerName.1 hname
          obtain ⟨v, rest', rfl, h'⟩ := (completes_trailerValue hfits).1 hvalue
          exact .inl ⟨⟨c, ⟨w, hw⟩, v, halpha⟩, rest', by simp [Trailer.text], h'⟩
        · refine absurd h (not_completes_error ?_)
          simp [step, hcr, halpha]
  · rintro (⟨t, rest, rfl, h⟩ | ⟨rfl, rfl⟩)
    · have hcr : t.first ≠ '\r' := ne_of_class t.first_alpha (by decide)
      have hvalue := (completes_trailerValue hfits).2 ⟨t.value, rest, rfl, h⟩
      have hname := completes_trailerName.2 ⟨t.others.chars, _, rfl, t.others.all, hvalue⟩
      have hfirst := (ends_goOn (s := (HttpRequestParser.mk .chunkSizeNewLine2 n [] 0 b, req))
        (a := t.first) (by simp [step, goOn, hcr, t.first_alpha])).2 hname
      simpa [Trailer.text] using hfirst
    · refine (ends_goOn (t := (HttpRequestParser.mk .chunkSizeNewLine3 n [] 0 b, req))
        (by rfl)).2 ?_
      exact (completes_completed (by rfl)).2 ⟨rfl, rfl⟩

/-- The trailer, with the empty line. -/
theorem completes_trailers (hfits : req.content.length ≤ maxSize) :
    Completes out (⟨.chunkSizeNewLine2, n, [], 0, b⟩, req) bytes ↔
      ∃ trailers : List Trailer,
        bytes = trailers.flatMap Trailer.text ++ ['\r', '\n'] ∧
          out = (⟨.chunkSizeNewLine3, n, [], 0, b⟩, req) := by
  -- A field of the trailer may come everywhere, and nothing is known after it.
  have hall : ∀ trailers : List Trailer,
      trailers.foldlM (fun _ _ => some ()) () = some () := by
    intro trailers
    induction trailers with
    | nil => rfl
    | cons t ts ih => exact ih
  have hitem : ∀ (u : Unit) (bytes : List Char),
      Completes out (⟨.chunkSizeNewLine2, n, [], 0, b⟩, req) bytes ↔
        (∃ t u' rest, some () = some u' ∧ bytes = Trailer.text t ++ rest ∧
          Completes out (⟨.chunkSizeNewLine2, n, [], 0, b⟩, req) rest) ∨
        (bytes = ['\r', '\n'] ∧ out = (⟨.chunkSizeNewLine3, n, [], 0, b⟩, req)) := by
    intro u bytes
    rw [completes_trailer hfits]
    simp
  refine (ends_star (fun _ : Unit => (HttpRequestParser.mk .chunkSizeNewLine2 n [] 0 b, req))
    Trailer.text (fun _ _ => some ()) (by simp [Trailer.text]) hitem (t := ())).trans ⟨?_, ?_⟩
  · rintro ⟨trailers, _, _, -, rfl, rfl, hout⟩
    exact ⟨trailers, rfl, hout⟩
  · rintro ⟨trailers, rfl, hout⟩
    exact ⟨trailers, (), _, hall trailers, rfl, rfl, hout⟩

/-- What has been received of a body in chunks. -/
structure Received where
  /-- The bytes. -/
  content : List Char
  /-- They fit into a vector. -/
  fits : content.length ≤ maxSize

/-- Nothing has been received. -/
def Received.init : Received := ⟨[], Nat.zero_le _⟩

/-- One more chunk; `none` if it does not fit. -/
def Received.read (t : Received) (k : Chunk) : Option Received :=
  if hfits : (t.content ++ k.data).length ≤ maxSize then some ⟨t.content ++ k.data, hfits⟩ else none

/-- Chunks are received, if together they fit. -/
theorem foldlM_read (ks : List Chunk) (t t' : Received) :
    ks.foldlM Received.read t = some t' ↔ t'.content = t.content ++ ks.flatMap Chunk.data := by
  induction ks generalizing t with
  | nil =>
    obtain ⟨content, hfits⟩ := t
    obtain ⟨content', hfits'⟩ := t'
    simp [eq_comm]
  | cons k ks ih =>
    rw [List.foldlM_cons, List.flatMap_cons, ← List.append_assoc, Received.read]
    by_cases hfits : (t.content ++ k.data).length ≤ maxSize
    · rw [dif_pos hfits]
      exact ih ⟨t.content ++ k.data, hfits⟩
    · rw [dif_neg hfits]
      refine iff_of_false (by simp) fun heq => ?_
      have hlength := t'.fits
      rw [heq, List.length_append] at hlength
      omega

/-- One chunk, or the last one. -/
theorem completes_chunk (t : Received) (bytes : List Char) :
    Completes out (⟨.chunkSize, n, [], 0, b⟩, { req with content := t.content }) bytes ↔
      (∃ k t' rest, t.read k = some t' ∧ bytes = Chunk.text k ++ rest ∧
        Completes out (⟨.chunkSize, n, [], 0, b⟩, { req with content := t'.content }) rest) ∨
      ∃ last : LastChunk, bytes = last.text ∧
        out = (⟨.chunkSizeNewLine3, n, [], 0, b⟩, { req with content := t.content }) := by
  have hmax : maxSize = 2 ^ 63 - 1 := rfl
  rw [completes_chunkSize]
  constructor
  · rintro ⟨size, e, _, rfl, h⟩
    obtain ⟨rest, rfl, hsum, ⟨hzero, h'⟩ | ⟨hpos, h'⟩⟩ :=
      (completes_chunkSizeNewLine size t.fits).1 h
    · obtain ⟨trailers, rfl, rfl⟩ := (completes_trailers t.fits).1 h'
      exact .inr ⟨⟨size, e, hzero, trailers⟩, by simp [LastChunk.text], rfl⟩
    · obtain ⟨data, rest', rfl, hlength, h''⟩ :=
        (completes_chunkData hpos).1 h'
      have hne : data ≠ [] := List.length_pos_iff.1 (hlength ▸ hpos)
      have hfits : (t.content ++ data).length ≤ maxSize := by
        rw [List.length_append, hlength]
        exact hsum
      refine .inl ⟨⟨size, e, data, hlength.symm, hne⟩, ⟨t.content ++ data, hfits⟩, rest', ?_,
        by simp [Chunk.text], h''⟩
      rw [Received.read, dif_pos hfits]
  · rintro (⟨k, t', rest, hread, rfl, h⟩ | ⟨last, rfl, rfl⟩)
    · have hpos : 0 < toSize (strtol 16 k.size.chars) := by
        rw [k.size_eq]
        exact List.length_pos_iff.2 k.data_ne
      have hcontent : t'.content = t.content ++ k.data := by
        simpa using (foldlM_read [k] t t').1 (by simp [hread])
      have hsum : t.content.length + toSize (strtol 16 k.size.chars) ≤ maxSize := by
        have hfits := t'.fits
        rwa [hcontent, List.length_append, ← k.size_eq] at hfits
      rw [hcontent] at h
      refine ⟨k.size, k.extension, '\n' :: (k.data ++ '\r' :: '\n' :: rest),
        by simp [Chunk.text], ?_⟩
      refine (completes_chunkSizeNewLine k.size t.fits).2 ⟨_, rfl, hsum, .inr ⟨hpos, ?_⟩⟩
      exact (completes_chunkData hpos).2
        ⟨k.data, rest, rfl, k.size_eq.symm, h⟩
    · refine ⟨last.size, last.extension, '\n' :: (last.trailers.flatMap Trailer.text ++
        ['\r', '\n']), by simp [LastChunk.text], ?_⟩
      refine (completes_chunkSizeNewLine last.size t.fits).2 ⟨_, rfl, ?_, .inl ⟨last.size_eq, ?_⟩⟩
      · rw [last.size_eq]
        exact t.fits
      · exact (completes_trailers t.fits).2 ⟨last.trailers, rfl, rfl⟩

/-- A body in chunks. -/
theorem completes_chunks (hcontent : req.content = []) :
    Completes out (⟨.chunkSize, n, [], 0, b⟩, req) bytes ↔
      ∃ (ks : List Chunk) (last : LastChunk), (ks.flatMap Chunk.data).length ≤ maxSize ∧
        bytes = (Body.chunks ks last).text ∧
        out = (⟨.chunkSizeNewLine3, n, [], 0, b⟩,
          { req with content := (Body.chunks ks last).content }) := by
  have hinit : req = { req with content := Received.init.content } := by
    cases req
    subst hcontent
    rfl
  have hne : ∀ k : Chunk, k.text ≠ [] := by
    intro k
    simp [Chunk.text]
  rw [hinit]
  refine (ends_star (fun t : Received =>
    (HttpRequestParser.mk .chunkSize n [] 0 b, { req with content := t.content })) Chunk.text
    Received.read hne completes_chunk (t := Received.init)).trans ⟨?_, ?_⟩
  · rintro ⟨ks, t, _, hread, rfl, last, rfl, rfl⟩
    have hcontent := (foldlM_read ks _ t).1 hread
    refine ⟨ks, last, ?_, rfl, ?_⟩
    · have hfits := t.fits
      rwa [hcontent] at hfits
    · rw [hcontent]
      rfl
  · rintro ⟨ks, last, hfits, rfl, rfl⟩
    refine ⟨ks, ⟨ks.flatMap Chunk.data, hfits⟩, _, ?_, rfl, last, rfl, rfl⟩
    exact (foldlM_read ks _ _).2 rfl

/-! ## The end of the header -/

/-- Whether the connection stays open is not a matter of the body. -/
theorem setKeepAlive_content (req : Request) : (setKeepAlive req).content = req.content := by
  rw [setKeepAlive]
  split
  · rfl
  · split <;> rfl

/-- A request that has been given no content. -/
theorem content_self (hcontent : req.content = []) : { req with content := [] } = req := by
  cases req
  subst hcontent
  rfl

/-- The byte behind the headers: what they say decides what comes next. -/
theorem step_headState {d : Head} {c : Char} (hcontent : req.content = []) :
    step (headState req d .expectingNewline3) c =
      if d.chunked then
        .goOn (⟨.chunkSize, d.contentSize, [], 0, true⟩,
          setKeepAlive { req with headers := d.headers })
      else if d.contentSize = 0 then
        done ⟨.expectingNewline3, 0, [], 0, false⟩ (setKeepAlive { req with headers := d.headers })
          (if c = '\n' then .completed else .error)
      else
        .goOn (postState (setKeepAlive { req with headers := d.headers }) false d.contentSize
          []) := by
  obtain ⟨headers, contentSize, chunked, fits⟩ := d
  have hself : { setKeepAlive { req with headers := headers } with content := [] } =
      setKeepAlive { req with headers := headers } :=
    content_self (by rw [setKeepAlive_content]; exact hcontent)
  cases chunked with
  | true => simp [step, headState, endOfHeaders, goOn]
  | false =>
    by_cases hzero : contentSize = 0
    · simp [step, headState, endOfHeaders, hzero]
    · simp [step, headState, endOfHeaders, goOn, postState, hself, hzero]

/-- After the header comes the body that it announces. -/
theorem completes_endOfHeaders {d : Head} (hcontent : req.content = []) :
    Completes out (headState req d .expectingNewline3) bytes ↔
      ∃ newline body, bytes = newline :: Body.text body ∧ body.Framed d newline ∧
        out = (body.parser d,
          { setKeepAlive { req with headers := d.headers } with content := body.content }) := by
  cases bytes with
  | nil => exact iff_of_false not_ends_nil (by rintro ⟨newline, body, hbytes, -⟩; cases hbytes)
  | cons c rest =>
    have hstep := fun c => step_headState (d := d) (c := c) hcontent
    have hr : (setKeepAlive { req with headers := d.headers }).content = [] := by
      rw [setKeepAlive_content]
      exact hcontent
    generalize setKeepAlive { req with headers := d.headers } = r at hstep hr ⊢
    -- The three kinds of bodies, as the headers announce them.
    by_cases hchunked : d.chunked = true
    · simp only [hchunked, if_true] at hstep
      refine (ends_goOn (hstep c)).trans ((completes_chunks hr).trans ⟨?_, ?_⟩)
      · rintro ⟨ks, last, hfits, rfl, hout⟩
        exact ⟨c, .chunks ks last, rfl, ⟨hchunked, hfits⟩, hout⟩
      · rintro ⟨newline, body, hbytes, hframed, hout⟩
        obtain ⟨rfl, rfl⟩ := List.cons.inj hbytes
        cases body with
        | empty => exact absurd hchunked (by simp [hframed.1])
        | sized data => exact absurd hchunked (by simp [hframed.1])
        | chunks ks last => exact ⟨ks, last, hframed.2, rfl, hout⟩
    · rw [Bool.not_eq_true] at hchunked
      by_cases hzero : d.contentSize = 0
      · simp only [hchunked, Bool.false_eq_true, if_false, hzero, if_true] at hstep
        constructor
        · intro h
          by_cases hc : c = '\n'
          · subst hc
            obtain ⟨rfl, rfl⟩ := (completes_completed (hstep _)).1 h
            exact ⟨'\n', .empty, rfl, ⟨hchunked, hzero, rfl⟩,
              congrArg (Prod.mk _) (content_self hr).symm⟩
          · refine absurd h (not_ends_stop (hstep c) ?_)
            rw [if_neg hc]
            exact not_completed_error
        · rintro ⟨newline, body, hbytes, hframed, rfl⟩
          obtain ⟨rfl, rfl⟩ := List.cons.inj hbytes
          cases body with
          | empty =>
            obtain ⟨-, -, rfl⟩ := hframed
            exact (completes_completed (hstep _)).2 ⟨rfl, congrArg (Prod.mk _) (content_self hr)⟩
          | sized data =>
            exact absurd (List.length_eq_zero_iff.1 (hframed.2.1.symm.trans hzero)) hframed.2.2
          | chunks ks last => exact absurd hframed.1 (by simp [hchunked])
      · simp only [hchunked, Bool.false_eq_true, if_false, hzero] at hstep
        refine (ends_goOn (hstep c)).trans
          ((completes_post (Nat.pos_of_ne_zero hzero)).trans ⟨?_, ?_⟩)
        · rintro ⟨hlength, hout⟩
          have hne : rest ≠ [] := by
            rintro rfl
            exact hzero hlength.symm
          exact ⟨c, .sized rest, rfl, ⟨hchunked, hlength.symm, hne⟩, hout⟩
        · rintro ⟨newline, body, hbytes, hframed, hout⟩
          obtain ⟨rfl, rfl⟩ := List.cons.inj hbytes
          cases body with
          | empty => exact absurd hframed.2.1 hzero
          | sized data => exact ⟨hframed.2.1.symm, hout⟩
          | chunks ks last => exact absurd hframed.1 (by simp [hchunked])

end Spinet.Http
