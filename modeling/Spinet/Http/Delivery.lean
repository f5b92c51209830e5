import Spinet.Http.Grammar

/-!
# Bodies arrive as they are sent

A client that follows the protocol writes the length of a body in decimal, or the body in chunks
with their sizes in hexadecimal. What it sends is then a request in the sense of `Sent`, and
the parser builds the body byte for byte: `sized_delivered` and `chunked_delivered` say so of every
body that is short enough, whatever its bytes are, and however the stream is cut on the way. -/

namespace Spinet.Http

open Numerals (digitValue numeral value valueFrom)

/-! ## Numerals -/

/-- What is read as a numeral is the number with which the string begins. -/
theorem digitsFrom_of_valueFrom {base m k : ℕ} {cs : List Char}
    (h : valueFrom base m cs = some k) : digitsFrom base m cs = k := by
  induction cs generalizing m with
  | nil => exact Option.some.inj h
  | cons c cs ih =>
    rw [valueFrom] at h
    rw [digitsFrom]
    cases hd : digitValue c with
    | none => simp [hd] at h
    | some d =>
      simp only [hd] at h ⊢
      by_cases hlt : d < base
      · rw [if_pos hlt] at h ⊢
        exact ih h
      · simp [hlt] at h

/-- A string of digits has no prefix. -/
theorem unsigned_of_digits {base : ℕ} {cs : List Char} (h : ∀ c ∈ cs, digitValue c ≠ none) :
    unsigned base cs = digitsFrom base 0 cs := by
  unfold unsigned
  split
  · exact absurd rfl (h 'x' (by simp))
  · exact absurd rfl (h 'X' (by simp))
  · rfl

/-- A string that begins with no blank and no sign is read from its first byte on. -/
theorem strtol_of_head {base : ℕ} {cs : List Char}
    (h : ∀ c ∈ cs.head?, isSpace c = false ∧ c ≠ '-' ∧ c ≠ '+') :
    strtol base cs = min (unsigned base cs : ℤ) (2 ^ 63 - 1) := by
  have hdrop : cs.dropWhile isSpace = cs := by
    cases cs with
    | nil => rfl
    | cons c cs => rw [List.dropWhile_cons, (h c rfl).1, if_neg Bool.false_ne_true]
  rw [strtol, hdrop]
  split
  · exact absurd rfl (h _ rfl).2.1
  · exact absurd rfl (h _ rfl).2.2
  · rfl

/-- What is said of every digit holds of every byte of a numeral. -/
theorem forall_mem_numeral {P : Char → Prop} (hP : ∀ d < 16, P (Nat.digitChar d)) {base n : ℕ}
    (hlt : 1 < base) (hbase : base ≤ 16) : ∀ c ∈ numeral base n, P c := by
  intro c hc
  obtain ⟨d, hd, rfl⟩ := Numerals.exists_digit_of_mem hlt hc
  exact hP d (Nat.lt_of_lt_of_le hd hbase)

/-- A numeral is read as the number that it writes. -/
theorem strtol_numeral {base n : ℕ} (hlt : 1 < base) (hbase : base ≤ 16) (hn : n ≤ maxSize) :
    strtol base (numeral base n) = n := by
  have hhead : ∀ c ∈ (numeral base n).head?, isSpace c = false ∧ c ≠ '-' ∧ c ≠ '+' := by
    intro c hc
    refine forall_mem_numeral (P := fun c => isSpace c = false ∧ c ≠ '-' ∧ c ≠ '+') (by decide) hlt
      hbase c (List.mem_of_mem_head? hc)
  have hdigits : ∀ c ∈ numeral base n, digitValue c ≠ none :=
    fun c => Numerals.digitValue_of_mem hlt hbase
  have hvalue : valueFrom base 0 (numeral base n) = some n := by
    have h := Numerals.value_numeral hlt hbase n
    rwa [value, if_neg Numerals.numeral_ne_nil] at h
  have hmax : maxSize = 2 ^ 63 - 1 := rfl
  rw [strtol_of_head hhead, unsigned_of_digits hdigits, digitsFrom_of_valueFrom hvalue]
  omega

/-- The size of a chunk is read as it is written. -/
theorem toSize_strtol_numeral {n : ℕ} (hn : n ≤ maxSize) :
    toSize (strtol 16 (numeral 16 n)) = n := by
  have hmax : maxSize = 2 ^ 63 - 1 := rfl
  rw [strtol_numeral (by decide) (by decide) hn, toSize]
  omega

/-- The length of a body is read as it is written, if it is an `int`. -/
theorem toSize_atoi_numeral {n : ℕ} (hn : n < 2 ^ 31) : toSize (atoi (numeral 10 n)) = n := by
  have hmax : maxSize = 2 ^ 63 - 1 := rfl
  rw [atoi, strtol_numeral (by decide) (by decide) (by omega), toInt,
    Int.bmod_eq_of_le (by omega) (by omega), toSize]
  omega

/-! ## Requests with a body -/

/-- Whether a header says nothing of the body. -/
def HeaderItem.Plain (h : HeaderItem) : Prop :=
  strcasecmp h.name "Content-Length".toList = false ∧
    strcasecmp h.name "Transfer-Encoding".toList = false

/-- The beginning of a request with a body, up to the headers that say nothing of it. -/
structure Preamble where
  /-- The method. -/
  method : Word isToken
  /-- The target. -/
  target : Target
  /-- The version before the point. -/
  major : Word isDigit
  /-- The version after the point. -/
  minor : Word isDigit
  /-- The headers. -/
  fields : List Field
  /-- The method has a body. -/
  method_body : method.chars = "POST".toList ∨ method.chars = "PUT".toList
  /-- The headers say nothing of the body. -/
  fields_plain : ∀ f ∈ fields, f.item.Plain

/-- A request with a body as it is sent: the header that announces the body is the last one. -/
def Preamble.text (h : Preamble) (last : Field) (body : List Char) : List Char :=
  h.method.chars ++ ' ' :: h.target.chars ++ " HTTP/".toList ++ h.major.chars ++ '.' ::
    h.minor.chars ++ '\r' :: '\n' :: (h.fields ++ [last]).flatMap (fun f => (Line.field f).text) ++
      '\r' :: '\n' :: body

/-- The request that is sent so. -/
def Preamble.request (h : Preamble) (last : Field) (data : List Char) : Request where
  method := h.method.chars
  uri := h.target.chars
  versionMajor := versionNumber h.major.chars
  versionMinor := versionNumber h.minor.chars
  headers := (h.fields ++ [last]).map Field.item
  content := data
  keepAlive := keepsAlive ((h.fields ++ [last]).map Field.item) (versionNumber h.major.chars)
    (versionNumber h.minor.chars)

/-- A plain header changes nothing of what is known of the body. -/
theorem note_of_plain {method : List Char} {d : Head} {h : HeaderItem} (hplain : h.Plain) :
    Head.note method d h = some d := by
  have hlength : ¬ strcasecmp h.name "Content-Length".toList = true := by
    rw [hplain.1]
    exact Bool.false_ne_true
  have hchunked : ¬ (strcasecmp h.name "Transfer-Encoding".toList = true ∧
      strcasecmp h.value "chunked".toList = true) := by
    rw [hplain.2]
    exact fun hboth => Bool.false_ne_true hboth.1
  rw [Head.note, if_neg hlength, if_neg hchunked, ite_self]

/-- Plain headers are only kept. -/
theorem foldlM_plain {method : List Char} (fields : List Field)
    (hplain : ∀ f ∈ fields, f.item.Plain) (d : Head) :
    (fields.map Line.field).foldlM (Head.read method) d =
      some { d with headers := d.headers ++ fields.map Field.item } := by
  induction fields generalizing d with
  | nil => simp
  | cons f fields ih =>
    obtain ⟨hf, hfields⟩ := List.forall_mem_cons.1 hplain
    have hread : Head.read method d (.field f) =
        some { d with headers := d.headers ++ [f.item] } := note_of_plain hf
    rw [List.map_cons, List.foldlM_cons, hread]
    simpa using ih hfields { d with headers := d.headers ++ [f.item] }

/-- If the last header announces a body, and the body that follows is this one, then the request has
been sent. -/
theorem Preamble.sent (h : Preamble) {last : Field} {d : Head} (body : Body)
    (hnote : Head.note h.method.chars
      { Head.init with headers := (h.fields ++ [last]).map Field.item } last.item = some d)
    (hheaders : d.headers = (h.fields ++ [last]).map Field.item) (hframed : body.Framed d '\n') :
    Sent (h.text last body.text) (h.request last body.content) := by
  have hread : ((h.fields ++ [last]).map Line.field).foldlM (Head.read h.method.chars) Head.init =
      some d := by
    rw [List.map_append, List.foldlM_append, foldlM_plain _ h.fields_plain]
    simpa [Head.init, Head.read] using hnote
  let m : Message :=
    ⟨h.method, h.target, h.major, h.minor, _, d, '\n', body, hread, hframed⟩
  have hrequest : m.request = h.request last body.content := by
    simp only [m, Message.request, Preamble.request, hheaders]
  have htext : m.text = h.text last body.text := by
    simp [m, Message.text, Preamble.text, List.flatMap_map]
  rw [← hrequest, ← htext]
  exact .message m

/-! ## A body of a known length -/

/-- The header that announces a length. -/
def contentLength (n : ℕ) : Field where
  name := ⟨⟨"Content-Length".toList, List.all_eq_true.1 rfl⟩, by decide⟩
  value := ⟨numeral 10 n, forall_mem_numeral (by decide) (by decide) (by decide)⟩

/-- A body that is announced with its length is sent as it is. -/
theorem sent_sized (h : Preamble) {data : List Char} (hlength : data.length < 2 ^ 31) :
    Sent (h.text (contentLength data.length) data)
      (h.request (contentLength data.length) data) := by
  have hmax : maxSize = 2 ^ 63 - 1 := rfl
  have hfits : data.length ≤ maxSize := by omega
  let d : Head :=
    ⟨(h.fields ++ [contentLength data.length]).map Field.item, data.length, false, hfits⟩
  have hnote : Head.note h.method.chars
      { Head.init with headers := (h.fields ++ [contentLength data.length]).map Field.item }
      (contentLength data.length).item = some d := by
    have hsize : toSize (atoi (contentLength data.length).item.value) = data.length :=
      toSize_atoi_numeral hlength
    have hname : strcasecmp (contentLength data.length).item.name "Content-Length".toList = true :=
      rfl
    rw [Head.note, if_pos h.method_body, if_pos hname, dif_pos (by rwa [hsize])]
    simp only [hsize, d, Head.init]
  by_cases hdata : data = []
  · have hempty := h.sent .empty hnote rfl (by subst hdata; exact ⟨rfl, rfl, rfl⟩)
    subst hdata
    exact hempty
  · exact h.sent (.sized data) hnote rfl ⟨rfl, rfl, hdata⟩

/-! ## A body in chunks -/

/-- The header that announces chunks. -/
def transferEncoding : Field where
  name := ⟨⟨"Transfer-Encoding".toList, List.all_eq_true.1 rfl⟩, by decide⟩
  value := ⟨"chunked".toList, List.all_eq_true.1 rfl⟩

/-- Writes a chunk. -/
def writeChunk (data : List Char) : List Char :=
  numeral 16 data.length ++ '\r' :: '\n' :: data ++ ['\r', '\n']

/-- Writes a body in chunks. -/
def writeChunks (datas : List (List Char)) : List Char :=
  datas.flatMap writeChunk ++ "0\r\n\r\n".toList

/-- What has been written is made of chunks. -/
theorem exists_chunks (datas : List (List Char)) (hne : ∀ data ∈ datas, data ≠ [])
    (hfits : datas.flatten.length ≤ maxSize) :
    ∃ ks : List Chunk, ks.flatMap Chunk.text = datas.flatMap writeChunk ∧
      ks.flatMap Chunk.data = datas.flatten := by
  induction datas with
  | nil => exact ⟨[], rfl, rfl⟩
  | cons data datas ih =>
    obtain ⟨hdata, hdatas⟩ := List.forall_mem_cons.1 hne
    rw [List.flatten_cons, List.length_append] at hfits
    obtain ⟨ks, htext, hcontent⟩ := ih hdatas (by omega)
    have hsize : ∀ c ∈ numeral 16 data.length, c.isAlphanum = true :=
      forall_mem_numeral (by decide) (by decide) (by decide)
    let k : Chunk := ⟨⟨numeral 16 data.length, hsize⟩, .none, data,
      toSize_strtol_numeral (by omega), hdata⟩
    refine ⟨k :: ks, ?_, ?_⟩
    · rw [List.flatMap_cons, htext, List.flatMap_cons]
      simp [k, Chunk.text, Extension.text, writeChunk]
    · rw [List.flatMap_cons, hcontent, List.flatten_cons]

/-- A body that is announced as such is sent in chunks. -/
theorem sent_chunked (h : Preamble) {datas : List (List Char)} (hne : ∀ data ∈ datas, data ≠ [])
    (hfits : datas.flatten.length ≤ maxSize) :
    Sent (h.text transferEncoding (writeChunks datas))
      (h.request transferEncoding datas.flatten) := by
  obtain ⟨ks, htext, hcontent⟩ := exists_chunks datas hne hfits
  let last : LastChunk := ⟨⟨['0'], List.all_eq_true.1 rfl⟩, .none, rfl, []⟩
  let d : Head := ⟨(h.fields ++ [transferEncoding]).map Field.item, 0, true, Nat.zero_le _⟩
  have hnote : Head.note h.method.chars
      { Head.init with headers := (h.fields ++ [transferEncoding]).map Field.item }
      transferEncoding.item = some d := by
    have hlength : ¬ strcasecmp transferEncoding.item.name "Content-Length".toList = true := by
      decide
    have hchunked : strcasecmp transferEncoding.item.name "Transfer-Encoding".toList = true ∧
        strcasecmp transferEncoding.item.value "chunked".toList = true := ⟨rfl, rfl⟩
    rw [Head.note, if_pos h.method_body, if_neg hlength, if_pos hchunked]
    rfl
  have hframed : (Body.chunks ks last).Framed d '\n' := ⟨rfl, by rwa [hcontent]⟩
  have hbody : (Body.chunks ks last).text = writeChunks datas := by
    rw [Body.text, htext]
    rfl
  have hsent := h.sent (.chunks ks last) hnote rfl hframed
  rwa [hbody, Body.content, hcontent] at hsent

/-! ## Delivery -/

/-- A body of less than two gigabytes that is announced with its length arrives as it is sent,
whatever its bytes are and however the stream is cut. -/
theorem sized_delivered (h : Preamble) (data rest : List Char) (pieces : List (List Char))
    (hlength : data.length < 2 ^ 31)
    (hstream : pieces.flatten = h.text (contentLength data.length) data ++ rest) :
    ∃ p, parsePieces .init .init pieces =
      ((p, h.request (contentLength data.length) data), .ok .parsingCompleted) :=
  completed_of_sent (sent_sized h hlength) hstream

/-- A request without other headers. -/
def post : Preamble where
  method := ⟨⟨"POST".toList, List.all_eq_true.1 rfl⟩, by decide⟩
  target := .root
  major := one
  minor := one
  fields := []
  method_body := .inl rfl
  fields_plain := by simp

/-- `sized_delivered`, where the stream is cut in the header and in the body. -/
theorem sized_delivered_post :
    ∃ p, parsePieces .init .init
        ["POST / HTTP/1.1\r\nContent-Le".toList, "ngth: 3\r\n\r\n\r".toList, "\n!".toList] =
      ((p, post.request (contentLength 3) "\r\n!".toList), .ok .parsingCompleted) :=
  sized_delivered post "\r\n!".toList [] _ (by decide) (by decide)

/-- What has come of a body follows the header. -/
theorem Preamble.text_append (h : Preamble) (last : Field) (data rest : List Char) :
    h.text last (data ++ rest) = h.text last data ++ rest := by
  simp [Preamble.text]

/-- One call completes the request if the whole body has come. -/
theorem parse_sized (h : Preamble) {n : ℕ} {data : List Char} (hn : n < 2 ^ 31)
    (hdata : n ≤ data.length) :
    ∃ p, parse .init .init (h.text (contentLength n) data) =
      ((p, h.request (contentLength n) (data.take n)), .ok .parsingCompleted) := by
  have hlength : (data.take n).length = n := List.length_take_of_le hdata
  have hsent : Sent (h.text (contentLength n) (data.take n))
      (h.request (contentLength n) (data.take n)) := by
    have hbound : (data.take n).length < 2 ^ 31 := by rwa [hlength]
    simpa only [hlength] using sent_sized h hbound
  have hstream : [h.text (contentLength n) data].flatten =
      h.text (contentLength n) (data.take n) ++ data.drop n := by
    rw [← h.text_append, List.take_append_drop]
    simp
  obtain ⟨p, hp⟩ := completed_of_sent hsent hstream
  rw [parsePieces_eq, List.flatten_singleton] at hp
  exact ⟨p, hp⟩

/-- If a byte of it is missing, the parser needs more. -/
theorem parse_sized_early (h : Preamble) {n : ℕ} {data : List Char} (hn : n < 2 ^ 31)
    (hdata : data.length < n) :
    ∃ s, parse .init .init (h.text (contentLength n) data) = (s, .ok .parsingIncompleted) := by
  -- Whatever the missing bytes are, with them the request would be complete.
  let missing := List.replicate (n - data.length) 'x'
  have hlength : (data ++ missing).length = n := by
    rw [List.length_append, List.length_replicate]
    omega
  have hbound : (data ++ missing).length < 2 ^ 31 := by rwa [hlength]
  have hsent := sent_sized h hbound
  rw [hlength, h.text_append] at hsent
  obtain ⟨p, hcompletes⟩ := sent_iff.1 hsent
  have hne : missing ≠ [] := by
    rw [Ne, List.replicate_eq_nil_iff]
    omega
  obtain ⟨s, hfeed⟩ := Scanner.Ends.feed_of_append hcompletes hne
  exact ⟨s, parse_of_goOn hfeed⟩

/-- A body that is sent in chunks arrives as it is, however it is divided into chunks and however
the stream is cut. -/
theorem chunked_delivered (h : Preamble) (datas : List (List Char)) (rest : List Char)
    (pieces : List (List Char)) (hne : ∀ data ∈ datas, data ≠ [])
    (hfits : datas.flatten.length ≤ maxSize)
    (hstream : pieces.flatten = h.text transferEncoding (writeChunks datas) ++ rest) :
    ∃ p, parsePieces .init .init pieces =
      ((p, h.request transferEncoding datas.flatten), .ok .parsingCompleted) :=
  completed_of_sent (sent_chunked h hne hfits) hstream

/-- `chunked_delivered`, where a chunk holds what looks like the end. -/
theorem chunked_delivered_post :
    ∃ p, parsePieces .init .init
        ["POST / HTTP/1.1\r\nTransfer-Encoding: chunked\r\n\r\n5\r\n0\r\n\r".toList,
          "\n\r\n1\r\n!\r\n0\r\n\r\nGET".toList] =
      ((p, post.request transferEncoding "0\r\n\r\n!".toList), .ok .parsingCompleted) :=
  chunked_delivered post ["0\r\n\r\n".toList, "!".toList] "GET".toList _ (by decide) (by decide)
    (by decide)

end Spinet.Http
