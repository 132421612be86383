import CourseWork.Lib.Snprintf
import CourseWork.Lib.Stdio
import CourseWork.WebServer.Request
import CourseWork.WebServer.Sendfile

/-!
# Sending replies

A reply is a header and a body. `send` gets each of them once and its result is dropped, so
that what a full socket does not take is lost. Only the loop over `sendfile` tries again.
-/

namespace CourseWork.WebServer
open CLib

/-- `HTTP_HEADER_SIZE`. -/
def httpHeaderSize : Nat := 8192

/-! ## Headers -/

/-- The first lines of `send_http_response`. -/
def statusLines (date : Bytes) (statusCode : Int) (statusText : Bytes) (bodyLen : Nat) : Bytes :=
  ascii "HTTP/1.1 " ++ printInt statusCode ++ ascii " " ++ statusText ++ ascii "\r\nDate: " ++
  date ++ ascii "\r\nServer: Simple HTTP Server\r\nConnection: close\r\n" ++
  ascii "Content-Length: " ++ Numeral.print 10 bodyLen ++ ascii "\r\n"

/-- The line for `content_type`. -/
def contentTypeLine (contentType : Bytes) : Bytes :=
  ascii "Content-Type: " ++ contentType ++ ascii "\r\n"

/-- The header of a file. -/
def fileHeader (date mimeType : Bytes) (stSize : Nat) : Bytes :=
  ascii "HTTP/1.1 200 OK\r\nDate: " ++ date ++
  ascii "\r\nServer: Simple HTTP Server\r\nContent-Type: " ++ mimeType ++
  ascii "\r\nContent-Length: " ++ Numeral.print 10 stSize ++ ascii "\r\nConnection: close\r\n\r\n"

/-- `header_len += snprintf (header + header_len, sizeof (header) - header_len, …)`. -/
def appendHeader (header : Bytes) (headerLen : Nat) (text : Bytes) : Option (Bytes × Nat) :=
  match snprintf header headerLen (sizeT (httpHeaderSize - headerLen)) text with
  | none => none
  | some (header, written) => some (header, headerLen + written)

/-- Some texts, one behind the other. -/
def appendHeaders (header : Bytes) (headerLen : Nat) : List Bytes → Option (Bytes × Nat)
  | [] => some (header, headerLen)
  | text :: texts =>
    match appendHeader header headerLen text with
    | none => none
    | some (header, headerLen) => appendHeaders header headerLen texts

/-- The parts of the header of `send_http_response`, with a line for the type if there is one. -/
def headerParts (date : Bytes) (statusCode : Int) (statusText : Bytes) (contentType : Option Bytes)
    (bodyLen : Nat) : List Bytes :=
  statusLines date statusCode statusText bodyLen ::
    ((contentType.map contentTypeLine).toList ++ [ascii "\r\n"])

/-! ## Sending -/

/-- `send` of the first `len` bytes of a memory, without a look at what it returns: a non-blocking
socket takes what it has room for. -/
def send (room : Nat) (mem : Bytes) (len : Nat) : Option Bytes :=
  if len ≤ mem.length then some ((mem.take len).take room) else none

/-- `send_http_response`: what the socket takes, if it has so much room at each call. -/
def sendHttpResponse (header date : Bytes) (rooms : Nat → Nat) (statusCode : Int)
    (statusText : Bytes) (contentType body : Option Bytes) (bodyLen : Nat) : Option Bytes := do
  let (header, headerLen) ←
    appendHeaders header 0 (headerParts date statusCode statusText contentType bodyLen)
  let accepted ← send (rooms 0) header headerLen
  match body with
  | some body =>
    if bodyLen > 0 then return accepted ++ (← send (rooms 1) body bodyLen) else return accepted
  | none => return accepted

/-- The branch of `handle_http_request` for a file that keeps its size: what the socket has taken
when the loop has ended within `k` iterations. -/
def sendFile (header date : Bytes) (rooms : Nat → Nat) (mimeType content : Bytes) (k : Nat) :
    Option Bytes := do
  let (header, headerLen) ←
    snprintf header 0 httpHeaderSize (fileHeader date mimeType content.length)
  let accepted ← send (rooms 0) header headerLen
  match loopAt content.length content.length (fun i => .room (rooms (i + 1))) k with
  | .left offset => return accepted ++ content.take offset
  | .sending _ => none

/-- What is sent for a request. The body of a response is given with its length. -/
inductive Reply
  | response (statusCode : Int) (statusText : Bytes) (contentType : Option Bytes) (body : Bytes)
  | file (mimeType content : Bytes)

/-- What the socket has taken when the connection is closed, within `k` iterations of the loop. -/
def Reply.closed (r : Reply) (header date : Bytes) (rooms : Nat → Nat) (k : Nat) : Option Bytes :=
  match r with
  | .response statusCode statusText contentType body =>
    sendHttpResponse header date rooms statusCode statusText contentType (some body) body.length
  | .file mimeType content => sendFile header date rooms mimeType content k

/-! ## Replies as they are meant -/

/-- The header. -/
def Reply.header (date : Bytes) : Reply → Bytes
  | .response statusCode statusText contentType body =>
    (headerParts date statusCode statusText contentType body.length).flatten
  | .file mimeType content => fileHeader date mimeType content.length

/-- The body, whose length is the `Content-Length` of the header. -/
def Reply.body : Reply → Bytes
  | .response _ _ _ body => body
  | .file _ content => content

/-- A connection is closed only when the whole reply was taken. -/
def Reply.Complete (r : Reply) (header date : Bytes) (rooms : Nat → Nat) : Prop :=
  ∀ k accepted, r.closed header date rooms k = some accepted → accepted = r.header date ++ r.body

/-- Each `send` finds room for all that it gets. -/
def Reply.Whole (r : Reply) (date : Bytes) (rooms : Nat → Nat) : Prop :=
  (r.header date).length ≤ rooms 0 ∧
    match r with
    | .response _ _ _ body => body.length ≤ rooms 1
    | .file _ _ => True

/-- The socket never takes the whole file, and the connection is not closed. -/
def Reply.Stalls (r : Reply) (rooms : Nat → Nat) : Prop :=
  match r with
  | .response _ _ _ _ => False
  | .file _ content => ∀ k, taken (fun i => .room (rooms (i + 1))) k < content.length

section Sending

variable {header date text mem content : Bytes} {rooms : Nat → Nat}

/-- A text is appended to a header if there is room behind it. -/
theorem appendHeader_filled (hbuffer : header.length = httpHeaderSize)
    (h : Filled header httpHeaderSize text mem) {new : Bytes}
    (hfits : (text ++ new).length < httpHeaderSize) :
    ∃ mem', appendHeader mem text.length new = some (mem', (text ++ new).length) ∧
      Filled header httpHeaderSize (text ++ new) mem' := by
  have hsize : httpHeaderSize = 8192 := rfl
  have hmax : intMax = 2147483647 := rfl
  rw [List.length_append] at hfits
  obtain ⟨mem', hprint, _, hheld⟩ := h.snprintf (Nat.le_of_eq hbuffer.symm)
    (show new.length ≤ intMax by omega)
  refine ⟨mem', ?_, (hheld (by omega)).1⟩
  have hroom : sizeT (httpHeaderSize - text.length) = httpHeaderSize - text.length := by
    rw [← Nat.cast_sub (by omega), sizeT_natCast (by omega)]
  rw [appendHeader, hroom, hprint, List.length_append]

theorem appendHeaders_filled (hbuffer : header.length = httpHeaderSize) {texts : List Bytes}
    (h : Filled header httpHeaderSize text mem)
    (hfits : (text ++ texts.flatten).length < httpHeaderSize) :
    ∃ mem', appendHeaders mem text.length texts = some (mem', (text ++ texts.flatten).length) ∧
      Filled header httpHeaderSize (text ++ texts.flatten) mem' := by
  induction texts generalizing text mem with
  | nil =>
    rw [List.flatten_nil, List.append_nil]
    exact ⟨mem, rfl, h⟩
  | cons new texts ih =>
    rw [List.flatten_cons, ← List.append_assoc] at hfits ⊢
    have hnew : (text ++ new).length < httpHeaderSize := by
      rw [List.length_append] at hfits
      omega
    obtain ⟨mem', happend, hfilled⟩ := appendHeader_filled hbuffer h hnew
    rw [appendHeaders, happend]
    exact ih hfilled hfits

/-- `send` of a text in a memory. -/
theorem send_prefix (h : text <+: mem) (room : Nat) :
    send room mem text.length = some (text.take room) := by
  rw [send, if_pos h.length_le, ← List.prefix_iff_eq_take.mp h]

theorem take_append_take_eq_iff {s t : Bytes} {m n : Nat} :
    s.take m ++ t.take n = s ++ t ↔ s.length ≤ m ∧ t.length ≤ n := by
  constructor
  · intro h
    have hlen := congrArg List.length h
    simp only [List.length_append, List.length_take] at hlen
    omega
  · rintro ⟨hs, ht⟩
    rw [List.take_of_length_le hs, List.take_of_length_le ht]

/-- What is taken of a response. -/
theorem closed_response (hbuffer : header.length = httpHeaderSize) {statusCode : Int}
    {statusText body : Bytes} {contentType : Option Bytes}
    (hfits : ((Reply.response statusCode statusText contentType body).header date).length <
      httpHeaderSize) (rooms : Nat → Nat) (k : Nat) :
    (Reply.response statusCode statusText contentType body).closed header date rooms k =
      some (((Reply.response statusCode statusText contentType body).header date).take (rooms 0) ++
        body.take (rooms 1)) := by
  rw [Reply.header] at hfits ⊢
  rw [← List.nil_append (headerParts _ _ _ _ _).flatten] at hfits
  obtain ⟨mem', hheader, hfilled⟩ :=
    appendHeaders_filled hbuffer (Filled.nil header httpHeaderSize) hfits
  rw [List.nil_append, List.length_nil] at hheader
  rw [List.nil_append] at hfilled
  rw [Reply.closed, sendHttpResponse, hheader]
  simp only [bind, pure, Option.bind_some, send_prefix hfilled.initial,
    send_prefix (List.prefix_refl body)]
  split
  · rfl
  · next hempty =>
    have hnil : body = [] := List.length_eq_zero_iff.mp (by omega)
    rw [hnil, List.take_nil, List.append_nil]

/-- What is taken of a file. -/
theorem closed_file (hbuffer : header.length = httpHeaderSize) {mimeType : Bytes}
    (hfits : (fileHeader date mimeType content.length).length < httpHeaderSize)
    (rooms : Nat → Nat) (k : Nat) :
    (Reply.file mimeType content).closed header date rooms k =
      if content.length ≤ taken (fun i => .room (rooms (i + 1))) k then
        some ((fileHeader date mimeType content.length).take (rooms 0) ++ content)
      else none := by
  have hsize : httpHeaderSize = 8192 := rfl
  have hmax : intMax = 2147483647 := rfl
  obtain ⟨mem', hprint, _, hheld⟩ := (Filled.nil header httpHeaderSize).snprintf
    (Nat.le_of_eq hbuffer.symm)
    (show (fileHeader date mimeType content.length).length ≤ intMax by omega)
  rw [List.length_nil, Nat.sub_zero] at hprint hheld
  rw [List.nil_append] at hheld
  have hsend := send_prefix (hheld hfits).1.initial (rooms 0)
  rw [Reply.closed, sendFile, hprint]
  simp only [bind, pure, Option.bind_some, hsend]
  rw [loopAt_eq (fun i _ => Answer.noConfusion), Nat.min_self, Loop.test]
  by_cases hall : content.length ≤ taken (fun i => .room (rooms (i + 1))) k
  · rw [if_pos hall, Nat.min_eq_right hall, if_neg (Nat.lt_irrefl _)]
    dsimp only
    rw [List.take_length]
  · rw [if_neg hall, if_pos (by omega)]

end Sending

/-! ## The replies of the program -/

/-- The texts of the errors. -/
def statusText (code : Nat) : Bytes :=
  if code = 400 then ascii "400 Bad Request"
  else if code = 403 then ascii "403 Forbidden"
  else if code = 404 then ascii "404 Not Found"
  else if code = 405 then ascii "405 Method Not Allowed"
  else ascii "500 Internal Server Error"

/-- The reply to a request: `html` is the page of `generate_file_list`, if it returned 0, and
`content` is what is in the file. -/
def Response.reply (html : Option Bytes) (content : Bytes) : Response → Reply
  | .status code => .response code (statusText code) (some (ascii "text/html")) (statusText code)
  | .listing _ =>
    match html with
    | some html => .response 200 (ascii "OK") (some (ascii "text/html")) (cstr html)
    | none => .response 500 (statusText 500) (some (ascii "text/html")) (statusText 500)
  | .file _ mimeType => .file mimeType content

section Replies

variable {date : Bytes}

/-- The header of a response, up to the texts that are filled in. -/
theorem length_response_header_le (date statusText contentType body : Bytes) (statusCode : Int) :
    ((Reply.response statusCode statusText (some contentType) body).header date).length ≤
      (printInt statusCode).length + statusText.length + date.length +
        (Numeral.print 10 body.length).length + contentType.length + 120 := by
  have hversion : (ascii "HTTP/1.1 ").length = 9 := by
    rw [ascii_ofList]
    rfl
  have hspace : (ascii " ").length = 1 := rfl
  have hdate : (ascii "\r\nDate: ").length = 8 := by
    rw [ascii_ofList]
    rfl
  have hserver :
      (ascii "\r\nServer: Simple HTTP Server\r\nConnection: close\r\n").length = 49 := by
    rw [ascii_ofList]
    rfl
  have hlength : (ascii "Content-Length: ").length = 16 := by
    rw [ascii_ofList]
    rfl
  have hend : (ascii "\r\n").length = 2 := rfl
  have htype : (ascii "Content-Type: ").length = 14 := by
    rw [ascii_ofList]
    rfl
  simp only [Reply.header, headerParts, statusLines, contentTypeLine, Option.map_some,
    Option.toList_some, List.flatten_cons, List.flatten_append, List.flatten_nil,
    List.length_append, List.length_nil]
  omega

theorem length_fileHeader_le (date mimeType : Bytes) (stSize : Nat) :
    (fileHeader date mimeType stSize).length ≤
      date.length + mimeType.length + (Numeral.print 10 stSize).length + 140 := by
  have hdate : (ascii "HTTP/1.1 200 OK\r\nDate: ").length = 23 := by
    rw [ascii_ofList]
    rfl
  have htype : (ascii "\r\nServer: Simple HTTP Server\r\nContent-Type: ").length = 44 := by
    rw [ascii_ofList]
    rfl
  have hlength : (ascii "\r\nContent-Length: ").length = 18 := by
    rw [ascii_ofList]
    rfl
  have hend : (ascii "\r\nConnection: close\r\n\r\n").length = 23 := by
    rw [ascii_ofList]
    rfl
  simp only [fileHeader, List.length_append]
  omega

theorem length_getMimeType_le (filename : Bytes) : (getMimeType filename).length ≤ 24 := by
  have hstream : (ascii "application/octet-stream").length ≤ 24 := by
    rw [ascii_ofList]
    decide
  have htypes : ∀ entry ∈ mimeTypes, entry.2.length ≤ 24 := by decide +kernel
  unfold getMimeType
  split
  · dsimp only
    cases hlookup : mimeTypes.lookup _ with
    | none => exact hstream
    | some mimeType =>
      obtain ⟨_, _, hsplit, _⟩ := List.lookup_eq_some_iff.mp hlookup
      exact htypes _ (hsplit ▸ List.mem_append_right _ List.mem_cons_self)
  · exact hstream

/-- The statuses of `handle_http_request`, and the types of the files it sends. -/
theorem handle_cases (w : PathTree.World) (short : Shortage) (req : HttpRequest)
    (request baseDir : Bytes) :
    (∃ code ∈ [400, 403, 404, 405, 500],
        handleHttpRequest w short req request baseDir = .status code) ∨
      (∃ dir, handleHttpRequest w short req request baseDir = .listing dir) ∨
        ∃ path filename, handleHttpRequest w short req request baseDir =
          .file path (getMimeType filename) := by
  unfold handleHttpRequest
  split
  · exact .inl ⟨400, by decide, rfl⟩
  · split
    · exact .inl ⟨405, by decide, rfl⟩
    · split
      · exact .inl ⟨403, by decide, rfl⟩
      · unfold serve
        split
        · exact .inl ⟨404, by decide, rfl⟩
        · split
          · exact .inl ⟨404, by decide, rfl⟩
          · split
            · exact .inl ⟨403, by decide, rfl⟩
            · split
              · split
                · exact .inl ⟨500, by decide, rfl⟩
                · exact .inr (.inl ⟨_, rfl⟩)
              · split
                · exact .inl ⟨404, by decide, rfl⟩
                · exact .inr (.inr ⟨_, _, rfl⟩)

/-- Whatever is asked for, the header of the reply fits into its array. -/
theorem handle_header_lt (w : PathTree.World) (short : Shortage) (req : HttpRequest)
    (request baseDir : Bytes) {html : Option Bytes} {content : Bytes} (hdate : date.length ≤ 64)
    (hhtml : ∀ page ∈ html, page.length < 10 ^ 20) (hcontent : content.length < 10 ^ 20) :
    (((handleHttpRequest w short req request baseDir).reply html content).header
      date).length < httpHeaderSize := by
  have hsize : httpHeaderSize = 8192 := rfl
  have hprint {n : Nat} (hn : n < 10 ^ 20) : (Numeral.print 10 n).length ≤ 20 :=
    Numeral.length_print_le (by decide) (by decide) hn
  have htype : (ascii "text/html").length = 9 := by
    rw [ascii_ofList]
    rfl
  have herror : ∀ code ∈ [400, 403, 404, 405, 500],
      (printInt (code : Nat)).length ≤ 3 ∧ (statusText code).length ≤ 25 := by decide +kernel
  have hresponse {code : Nat} (hcode : code ∈ [400, 403, 404, 405, 500]) :
      ((Reply.response code (statusText code) (some (ascii "text/html"))
        (statusText code)).header date).length < httpHeaderSize := by
    obtain ⟨hcode, htext⟩ := herror code hcode
    have hbody := hprint (n := (statusText code).length) (by omega)
    have hle := length_response_header_le date (statusText code) (ascii "text/html")
      (statusText code) code
    omega
  rcases handle_cases w short req request baseDir with
    ⟨code, hcode, h⟩ | ⟨dir, h⟩ | ⟨path, filename, h⟩
  · rw [h]
    exact hresponse hcode
  · rw [h]
    cases html with
    | none => exact hresponse (by decide)
    | some html =>
      have hok : (printInt 200).length ≤ 3 ∧ (ascii "OK").length ≤ 2 := by decide +kernel
      have hbody := hprint ((cstr_isPrefix html).length_le.trans_lt (hhtml html rfl))
      have hle := length_response_header_le date (ascii "OK") (ascii "text/html") (cstr html) 200
      rw [Response.reply]
      omega
  · rw [h, Response.reply, Reply.header]
    have hbody := hprint hcontent
    have hmime := length_getMimeType_le filename
    have hle := length_fileHeader_le date (getMimeType filename) content.length
    omega

end Replies

/-- The answer to a request that cannot be parsed. -/
def badRequest : Reply := (Response.status 400).reply none []

/-- The date of the examples. -/
def someDate : Bytes := ascii "Thu, 01 Jan 1970 00:00:00 GMT"

theorem badRequest_header_lt : (badRequest.header someDate).length < httpHeaderSize := by
  have hdate : someDate.length ≤ 64 := by
    rw [someDate, ascii_ofList]
    decide
  have hcontent : ([] : Bytes).length < 10 ^ 20 := by decide
  have hhtml : ∀ page ∈ (none : Option Bytes), page.length < 10 ^ 20 := fun _ h => by cases h
  have hcwd : ∀ n ∈ ([] : List PathTree.Name), n ≠ [] ∧ 47 ∉ n := fun _ h =>
    absurd h List.not_mem_nil
  exact handle_header_lt ⟨.file true, [], some 4096, hcwd⟩ ⟨false, false⟩ ⟨[]⟩ [] [] hdate hhtml
    hcontent

/-! ## Completeness -/

/-- The connection is closed unless the socket stalls, and a connection is closed only after the
whole reply was taken exactly if each `send` finds room, or the socket stalls. -/
theorem reply_complete_iff (r : Reply) (header date : Bytes) (rooms : Nat → Nat)
    (hbuffer : header.length = httpHeaderSize) (hfits : (r.header date).length < httpHeaderSize) :
    ((∃ k accepted, r.closed header date rooms k = some accepted) ↔ ¬r.Stalls rooms) ∧
      (r.Complete header date rooms ↔ r.Whole date rooms ∨ r.Stalls rooms) := by
  cases r with
  | response statusCode statusText contentType body =>
    have hclosed := closed_response hbuffer hfits rooms
    refine ⟨⟨fun _ => id, fun _ => ⟨0, _, hclosed 0⟩⟩, ?_⟩
    rw [Reply.Complete, Reply.Whole, Reply.Stalls, or_false, Reply.body,
      ← take_append_take_eq_iff]
    constructor
    · intro hcomplete
      exact hcomplete 0 _ (hclosed 0)
    · intro hwhole k accepted haccepted
      rw [hclosed k] at haccepted
      rw [← Option.some.inj haccepted]
      exact hwhole
  | file mimeType content =>
    have hclosed := closed_file hbuffer hfits rooms
    have hwhole : (fileHeader date mimeType content.length).take (rooms 0) ++ content =
        fileHeader date mimeType content.length ++ content ↔
          (fileHeader date mimeType content.length).length ≤ rooms 0 := by
      rw [List.append_left_inj, List.take_eq_self_iff]
    rw [Reply.Complete, Reply.Whole, Reply.Stalls, Reply.header, Reply.body, and_true, ← hwhole]
    constructor
    · constructor
      · rintro ⟨k, accepted, haccepted⟩ hstalls
        rw [hclosed k, if_neg (Nat.not_le.mpr (hstalls k))] at haccepted
        cases haccepted
      · intro hstalls
        obtain ⟨k, hk⟩ := not_forall.mp hstalls
        exact ⟨k, _, (hclosed k).trans (if_pos (Nat.not_lt.mp hk))⟩
    · constructor
      · intro hcomplete
        by_cases hstalls : ∀ k, taken (fun i => .room (rooms (i + 1))) k < content.length
        · exact .inr hstalls
        · obtain ⟨k, hk⟩ := not_forall.mp hstalls
          exact .inl (hcomplete k _ ((hclosed k).trans (if_pos (Nat.not_lt.mp hk))))
      · intro h k accepted haccepted
        rw [hclosed k] at haccepted
        split at haccepted
        · next hall =>
          rw [← Option.some.inj haccepted]
          exact h.resolve_right fun hstalls => absurd (hstalls k) (Nat.not_lt.mpr hall)
        · cases haccepted

/-- A socket with room for all that it gets. -/
theorem reply_complete_iff_roomy :
    badRequest.Complete (List.replicate 8192 0) someDate fun _ => 8192 := by
  have hwhole : badRequest.Whole someDate fun _ => 8192 :=
    ⟨Nat.le_of_lt badRequest_header_lt, show (statusText 400).length ≤ 8192 by decide⟩
  exact (reply_complete_iff badRequest (List.replicate 8192 0) someDate (fun _ => 8192)
    List.length_replicate badRequest_header_lt).2.mpr (.inl hwhole)

/-- A socket that has room for four bytes of the body: the rest is lost. -/
theorem badRequest_cut : ¬badRequest.Complete (List.replicate 8192 0) someDate
    fun k => if k = 0 then 8192 else 4 := by
  intro hcomplete
  have hall := hcomplete 0 _ (closed_response List.length_replicate badRequest_header_lt _ 0)
  have hbody := (take_append_take_eq_iff.mp hall).2
  exact absurd hbody (by decide)

end CourseWork.WebServer
