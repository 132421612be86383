import CourseWork.Lib.Http
import CourseWork.WebServer.Replies
import CourseWork.WebServer.StaleMemory

/-!
# What a client reads

The bytes that the socket has taken when the server closes it, read as a response: it says what
`handle_http_request` has decided, or its length shows that it was cut. A readable file below
the served directory comes back as it is.
-/

namespace CourseWork.WebServer
open CLib PathTree

/-! ## Replies as responses -/

/-- `Date`, and `Server`. -/
def firstFields (date : Bytes) : List (Bytes × Bytes) :=
  [(ascii "Date", date), (ascii "Server", ascii "Simple HTTP Server")]

/-- The response that a reply is meant to be. -/
def Reply.message (date : Bytes) : Reply → Http.Message
  | .response statusCode statusText contentType body =>
    ⟨statusCode.natAbs, statusText, firstFields date ++
      [(ascii "Connection", ascii "close"),
        (ascii "Content-Length", Numeral.print 10 body.length)] ++
      (contentType.map fun t => (ascii "Content-Type", t)).toList, body⟩
  | .file mimeType content =>
    ⟨200, ascii "OK", firstFields date ++
      [(ascii "Content-Type", mimeType),
        (ascii "Content-Length", Numeral.print 10 content.length),
        (ascii "Connection", ascii "close")], content⟩

/-- The texts that are filled into the header stay in their lines. -/
def Reply.Inline : Reply → Prop
  | .response statusCode statusText contentType _ =>
    (100 ≤ statusCode ∧ statusCode < 1000) ∧ 13 ∉ statusText ∧
      ∀ t ∈ contentType, Http.PlainValue t
  | .file mimeType _ => Http.PlainValue mimeType

section Messages

variable {date : Bytes}

theorem head_texts :
    ascii "\r\n" = [13, 10] ∧ ascii " " = [32] ∧
    ascii "\r\nDate: " = [13, 10] ++ (ascii "Date" ++ [58, 32]) ∧
    ascii "\r\nServer: Simple HTTP Server\r\nConnection: close\r\n" =
      [13, 10] ++ (Http.fieldLine (ascii "Server", ascii "Simple HTTP Server") ++
        Http.fieldLine (ascii "Connection", ascii "close")) ∧
    ascii "Content-Length: " = ascii "Content-Length" ++ [58, 32] ∧
    ascii "Content-Type: " = ascii "Content-Type" ++ [58, 32] :=
  ⟨rfl, rfl, rfl, rfl, rfl, rfl⟩

theorem file_texts :
    ascii "HTTP/1.1 200 OK\r\nDate: " =
      ascii "HTTP/1.1 " ++ (Numeral.print 10 200 ++ 32 :: (ascii "OK" ++
        ([13, 10] ++ (ascii "Date" ++ [58, 32])))) ∧
    ascii "\r\nServer: Simple HTTP Server\r\nContent-Type: " =
      [13, 10] ++ (Http.fieldLine (ascii "Server", ascii "Simple HTTP Server") ++
        (ascii "Content-Type" ++ [58, 32])) ∧
    ascii "\r\nContent-Length: " = [13, 10] ++ (ascii "Content-Length" ++ [58, 32]) ∧
    ascii "\r\nConnection: close\r\n\r\n" =
      [13, 10] ++ (Http.fieldLine (ascii "Connection", ascii "close") ++ [13, 10]) := by
  have hstatus : Numeral.print 10 200 = [50, 48, 48] := by decide
  rw [hstatus]
  exact ⟨rfl, rfl, rfl, rfl⟩

/-- The header of a reply is the head of the response. -/
theorem header_eq_head {r : Reply} (h : r.Inline) :
    r.header date = Http.head (r.message date) := by
  obtain ⟨hend, hspace, hdate, hserver, hlength, htype⟩ := head_texts
  cases r with
  | response statusCode statusText contentType body =>
    obtain ⟨⟨hlow, _⟩, _⟩ := h
    have hcode : printInt statusCode = Numeral.print 10 statusCode.natAbs := if_neg (by omega)
    cases contentType <;>
    simp only [Reply.header, headerParts, statusLines, contentTypeLine, Reply.message, firstFields,
      Http.head, Http.crlf, Http.fieldLine, hcode, hend, hspace, hdate, hserver, hlength, htype,
      Option.map_none, Option.map_some, Option.toList_none, Option.toList_some, List.flatten_cons,
      List.flatten_nil, List.flatMap_cons, List.flatMap_nil,
      List.append_assoc, List.cons_append, List.nil_append, List.append_nil]
  | file mimeType content =>
    obtain ⟨hstart, hserver, hlength, hclose⟩ := file_texts
    simp only [Reply.header, fileHeader, Reply.message, firstFields,
      Http.head, Http.crlf, Http.fieldLine, hstart, hserver, hlength, hclose,
      List.flatMap_cons, List.flatMap_nil, List.append_assoc, List.cons_append, List.nil_append,
      List.append_nil]

theorem plainValue_print (n : Nat) : Http.PlainValue (Numeral.print 10 n) := by
  have hdigit {c : UInt8} (hc : c ∈ Numeral.print 10 n) : Numeral.isDigit 10 c = true :=
    Numeral.isDigit_of_mem_print (by decide) (by decide) hc
  constructor
  · intro hmem
    exact absurd (hdigit hmem) (by decide)
  · intro hhead
    exact absurd (hdigit (List.mem_of_mem_head? hhead)) (by decide)

theorem message_plain {r : Reply} (h : r.Inline) (hdate : Http.PlainValue date) :
    (r.message date).Plain := by
  have hnames : Http.PlainName (ascii "Date") ∧ Http.PlainName (ascii "Server") ∧
      Http.PlainName (ascii "Connection") ∧ Http.PlainName (ascii "Content-Length") ∧
      Http.PlainName (ascii "Content-Type") := by decide
  have hfirst : ∀ f ∈ firstFields date, Http.PlainField f :=
    List.forall_mem_cons.mpr ⟨⟨hnames.1, hdate⟩,
      List.forall_mem_singleton.mpr ⟨hnames.2.1, by decide⟩⟩
  have hclose : Http.PlainField (ascii "Connection", ascii "close") := ⟨hnames.2.2.1, by decide⟩
  have hlength (n : Nat) : Http.PlainField (ascii "Content-Length", Numeral.print 10 n) :=
    ⟨hnames.2.2.2.1, plainValue_print n⟩
  have htype {t : Bytes} (ht : Http.PlainValue t) : Http.PlainField (ascii "Content-Type", t) :=
    ⟨hnames.2.2.2.2, ht⟩
  cases r with
  | response statusCode statusText contentType body =>
    obtain ⟨⟨hlow, hhigh⟩, htext, hcontent⟩ := h
    refine ⟨show 100 ≤ statusCode.natAbs ∧ statusCode.natAbs < 1000 by omega, htext, ?_, rfl⟩
    refine List.forall_mem_append.mpr ⟨List.forall_mem_append.mpr ⟨hfirst, ?_⟩, ?_⟩
    · exact List.forall_mem_cons.mpr ⟨hclose, List.forall_mem_singleton.mpr (hlength _)⟩
    · intro f hf
      obtain ⟨t, ht, rfl⟩ := Option.map_eq_some_iff.mp (Option.mem_toList.mp hf)
      exact htype (hcontent t ht)
  | file mimeType content =>
    refine ⟨show 100 ≤ 200 ∧ 200 < 1000 by decide, show 13 ∉ ascii "OK" by decide, ?_, rfl⟩
    exact List.forall_mem_append.mpr ⟨hfirst, List.forall_mem_cons.mpr ⟨htype h,
      List.forall_mem_cons.mpr ⟨hlength _, List.forall_mem_singleton.mpr hclose⟩⟩⟩

/-- What is taken of a reply whose header is taken: the body may be cut. -/
theorem closed_cut {r : Reply} {header accepted : Bytes} {rooms : Nat → Nat} {k : Nat}
    (hbuffer : header.length = httpHeaderSize) (hfits : (r.header date).length < httpHeaderSize)
    (hroom : (r.header date).length ≤ rooms 0)
    (hclosed : r.closed header date rooms k = some accepted) :
    ∃ body, accepted = r.header date ++ body ∧
      (r.Whole date rooms → body = r.body) ∧
        (¬r.Whole date rooms → body.length ≠ r.body.length) := by
  cases r with
  | response statusCode statusText contentType body =>
    rw [closed_response hbuffer hfits, List.take_of_length_le hroom] at hclosed
    refine ⟨body.take (rooms 1), (Option.some.inj hclosed).symm, ?_, ?_⟩
    · exact fun hwhole => List.take_of_length_le hwhole.2
    · intro hcut hlength
      rw [List.length_take, Reply.body] at hlength
      exact hcut ⟨hroom, show body.length ≤ rooms 1 from by omega⟩
  | file mimeType content =>
    rw [closed_file hbuffer hfits] at hclosed
    split at hclosed
    · rw [Reply.header, List.take_of_length_le hroom] at *
      exact ⟨content, (Option.some.inj hclosed).symm, fun _ => rfl,
        fun hcut => absurd ⟨hroom, trivial⟩ hcut⟩
    · cases hclosed

/-- The client reads the response, or misses a part of its body. -/
theorem parse_closed {r : Reply} (hinline : r.Inline) {header accepted : Bytes}
    {rooms : Nat → Nat} {k : Nat} (hdate : Http.PlainValue date)
    (hbuffer : header.length = httpHeaderSize) (hfits : (r.header date).length < httpHeaderSize)
    (hroom : (r.header date).length ≤ rooms 0)
    (hclosed : r.closed header date rooms k = some accepted) :
    (r.Whole date rooms → Http.parse accepted = some (r.message date)) ∧
      (¬r.Whole date rooms → Http.parse accepted = none) := by
  obtain ⟨body, rfl, hwhole, hcut⟩ := closed_cut hbuffer hfits hroom hclosed
  have hbody : (r.message date).body = r.body := by cases r <;> rfl
  rw [header_eq_head hinline, Http.parse_head (message_plain hinline hdate), hbody]
  constructor
  · intro h
    rw [hwhole h, if_pos rfl, ← hbody]
  · intro h
    exact if_neg (hcut h)

end Messages

/-! ## What is read -/

/-- The status of a response: `html` is the page of `generate_file_list`, if there is one. -/
def Response.code (html : Option Bytes) : Response → Nat
  | .status code => code
  | .listing _ => if html.isSome then 200 else 500
  | .file _ _ => 200

/-- The body of a response. -/
def Response.text (html : Option Bytes) (content : Bytes) : Response → Bytes
  | .status code => statusText code
  | .listing _ => (html.map cstr).getD (statusText 500)
  | .file _ _ => content

/-- The type of the body. -/
def Response.contentType : Response → Bytes
  | .status _ => ascii "text/html"
  | .listing _ => ascii "text/html"
  | .file _ mimeType => mimeType

/-- A client is told what was decided. -/
structure Response.Shows (r : Response) (html : Option Bytes) (content : Bytes)
    (m : Http.Message) : Prop where
  status : m.status = r.code html
  body : m.body = r.text html content
  contentType : m.fields.lookup (ascii "Content-Type") = some r.contentType
  closes : m.fields.lookup (ascii "Connection") = some (ascii "close")

section Reading

variable {date : Bytes}

theorem plainValue_getMimeType (filename : Bytes) : Http.PlainValue (getMimeType filename) := by
  have hstream : Http.PlainValue (ascii "application/octet-stream") := by decide +kernel
  have htypes : ∀ entry ∈ mimeTypes, Http.PlainValue entry.2 := by decide +kernel
  unfold getMimeType
  split
  · dsimp only
    cases hlookup : mimeTypes.lookup _ with
    | none => exact hstream
    | some mimeType =>
      obtain ⟨_, _, hsplit, _⟩ := List.lookup_eq_some_iff.mp hlookup
      exact htypes _ (hsplit ▸ List.mem_append_right _ List.mem_cons_self)
  · exact hstream

theorem handle_inline (w : World) (short : Shortage) (req : HttpRequest)
    (request baseDir : Bytes) (html : Option Bytes) (content : Bytes) :
    ((handleHttpRequest w short req request baseDir).reply html content).Inline := by
  have htype : Http.PlainValue (ascii "text/html") := by decide +kernel
  have hresponse {code : Nat} {text body : Bytes} (hcode : 100 ≤ code ∧ code < 1000)
      (htext : 13 ∉ text) :
      (Reply.response code text (some (ascii "text/html")) body).Inline :=
    ⟨⟨by omega, by omega⟩, htext, fun t ht => Option.some.inj ht ▸ htype⟩
  have herror : ∀ code ∈ [400, 403, 404, 405, 500],
      (100 ≤ code ∧ code < 1000) ∧ 13 ∉ statusText code := by decide +kernel
  rcases handle_cases w short req request baseDir with
    ⟨code, hcode, h⟩ | ⟨dir, h⟩ | ⟨path, filename, h⟩
  · rw [h]
    exact hresponse (herror code hcode).1 (herror code hcode).2
  · rw [h]
    cases html with
    | none => exact @hresponse 500 _ _ (by decide) (herror 500 (by decide)).2
    | some html => exact @hresponse 200 _ _ (by decide) (by decide)
  · rw [h]
    exact plainValue_getMimeType filename

theorem shows_message (r : Response) (html : Option Bytes) (content : Bytes) :
    r.Shows html content ((r.reply html content).message date) := by
  cases r with
  | status code => exact ⟨rfl, rfl, rfl, rfl⟩
  | listing dir => cases html <;> exact ⟨rfl, rfl, rfl, rfl⟩
  | file path mimeType => exact ⟨rfl, rfl, rfl, rfl⟩

/-- Whatever is asked for: if the socket takes the header, the client reads what the server has
decided, or it can tell that a part of the body was lost. -/
theorem reply_read (w : World) (short : Shortage) (req : HttpRequest)
    (request baseDir : Bytes) {html : Option Bytes} {content header accepted : Bytes}
    {rooms : Nat → Nat} {k : Nat} (hdate : Http.PlainValue date ∧ date.length ≤ 64)
    (hhtml : ∀ page ∈ html, page.length < 10 ^ 20) (hcontent : content.length < 10 ^ 20)
    (hbuffer : header.length = httpHeaderSize) {r : Response} {reply : Reply}
    (hr : handleHttpRequest w short req request baseDir = r)
    (hreply : r.reply html content = reply) (hroom : (reply.header date).length ≤ rooms 0)
    (hclosed : reply.closed header date rooms k = some accepted) :
    (reply.Whole date rooms → ∃ m, Http.parse accepted = some m ∧ r.Shows html content m) ∧
      (¬reply.Whole date rooms → Http.parse accepted = none) := by
  subst hr hreply
  have hread := parse_closed (handle_inline w short req request baseDir html content)
    hdate.1 hbuffer (handle_header_lt w short req request baseDir hdate.2 hhtml hcontent)
    hroom hclosed
  exact ⟨fun hwhole => ⟨_, hread.1 hwhole, shows_message _ _ _⟩, hread.2⟩

end Reading

theorem someDate_plain : Http.PlainValue someDate ∧ someDate.length ≤ 64 := by
  rw [someDate, ascii_ofList]
  decide

/-- An empty request is refused, and the client reads why. -/
theorem reply_read_empty : ∃ accepted m,
    badRequest.closed (List.replicate 8192 0) someDate (fun _ => 8192) 0 = some accepted ∧
      Http.parse accepted = some m ∧ (Response.status 400).Shows none [] m := by
  have hbuffer : (List.replicate 8192 0 : Bytes).length = httpHeaderSize := List.length_replicate
  have hclosed := closed_response hbuffer badRequest_header_lt (fun _ => 8192) 0
  have hroom : (badRequest.header someDate).length ≤ 8192 := Nat.le_of_lt badRequest_header_lt
  have hcwd : ∀ n ∈ ([] : List Name), n ≠ [] ∧ 47 ∉ n := List.forall_mem_nil _
  have hread := (reply_read ⟨.file true, [], some 4096, hcwd⟩ ⟨false, false⟩ ⟨[]⟩ [] []
    someDate_plain (fun _ h => by cases h) (show ([] : Bytes).length < 10 ^ 20 by decide) hbuffer
    rfl rfl hroom
    hclosed).1
  obtain ⟨m, hparse, hshows⟩ := hread ⟨hroom, show (statusText 400).length ≤ 8192 by decide⟩
  exact ⟨_, m, hclosed, hparse, hshows⟩

/-! ## Files -/

/-- A request for a path. -/
def getRequest (path rest : Bytes) : Bytes :=
  ascii "GET" ++ 32 :: (path ++ 32 :: (ascii "HTTP/1.1" ++ 13 :: 10 :: rest))

/-- Names that stand in a request as they are. -/
structure Requestable (path : List Name) : Prop where
  names : Names path
  dots : ∀ n ∈ path, n ≠ ascii "." ∧ n ≠ ascii ".."
  plain : ∀ n ∈ path, ∀ c ∈ n, c ≠ 0 ∧ isSpace c = false
  length : (flat path).length < pathLen - 1

section Files

variable {path dirs : List Name} {name : Name} {w : World} {baseDir : Bytes} {b : List Name}

theorem scanString_append {width : Nat} {word : Bytes} {c : UInt8} (h : IsWord word)
    (hlen : word.length ≤ width) (hc : isSpace c = true) (rest : Bytes) :
    scanString width (word ++ c :: rest) = some (word, c :: rest) :=
  scanWord_append h hlen hc rest

theorem scanString_space (width : Nat) (s : Bytes) :
    scanString width (32 :: s) = scanString width s := by
  have hspace : (32 :: s : Bytes).dropWhile isSpace = s.dropWhile isSpace :=
    List.dropWhile_cons_of_pos (by decide)
  rw [scanString, scanString, hspace]

theorem requestTokens_getRequest {text : Bytes} (hword : IsWord text) (hnul : 0 ∉ text)
    (hlen : text.length ≤ 1023) (rest : Bytes) :
    requestTokens (getRequest text rest) = some ⟨ascii "GET", text, ascii "HTTP/1.1"⟩ := by
  have hline : 0 ∉ ascii "GET" ++ 32 :: (text ++ 32 :: (ascii "HTTP/1.1" ++ [13])) := by
    simp only [List.mem_append, List.mem_cons, not_or]
    exact ⟨by decide, by decide, hnul, by decide, by decide, by decide⟩
  have hcstr : cstr (getRequest text rest) =
      ascii "GET" ++ 32 :: (text ++ 32 :: (ascii "HTTP/1.1" ++ 13 :: cstr (10 :: rest))) := by
    have hrequest : getRequest text rest =
        (ascii "GET" ++ 32 :: (text ++ 32 :: (ascii "HTTP/1.1" ++ [13]))) ++ 10 :: rest := by
      simp only [getRequest, List.append_assoc, List.cons_append, List.nil_append]
    have hshown : ∀ c ∈ ascii "GET" ++ 32 :: (text ++ 32 :: (ascii "HTTP/1.1" ++ [13])),
        (c != 0) = true := fun c hc => bne_iff_ne.mpr (ne_of_mem_of_not_mem hc hline)
    rw [hrequest, cstr, List.takeWhile_append_of_pos hshown]
    simp only [cstr, List.append_assoc, List.cons_append, List.nil_append]
  have hget : IsWord (ascii "GET") := by decide +kernel
  have hversion : IsWord (ascii "HTTP/1.1") := by decide +kernel
  simp only [requestTokens, hcstr, bind, pure]
  rw [scanString_append hget (by decide) (by decide), Option.bind_some, scanString_space,
    scanString_append hword hlen (by decide), Option.bind_some, scanString_space,
    scanString_append hversion (by decide) (by decide), Option.bind_some]

/-- The arrays hold the words of a request for a path. -/
theorem parse_getRequest {req : HttpRequest} (hmem : httpRequestSize ≤ req.mem.length)
    {text : Bytes} (hword : IsWord text) (hnul : 0 ∉ text) (hlen : text.length < pathLen - 1)
    (rest : Bytes) :
    ∃ req', parseHttpRequest (getRequest text rest) req = some req' ∧
      req'.method = ascii "GET" ∧ req'.path = text := by
  have htokens := requestTokens_getRequest hword hnul (Nat.le_of_lt hlen) rest
  have hparse : parseHttpRequest (getRequest text rest) req =
      some (Tokens.fill ⟨ascii "GET", text, ascii "HTTP/1.1"⟩ req) := by
    rw [parseHttpRequest_eq, htokens]
    rfl
  have hsettled : Settled (getRequest text rest) req := by
    intro tokens hsome
    obtain rfl := Option.some.inj (htokens.symm.trans hsome)
    have hwords : (ascii "GET").length < methodLen - 1 ∧
        (ascii "HTTP/1.1").length < protocolLen - 1 := by decide
    exact ⟨.inl hwords.1, .inl hlen, .inl hwords.2⟩
  obtain ⟨hmethod, hpath, _⟩ := (exact_iff_settled hmem).mpr hsettled _ _ hparse htokens
  exact ⟨_, hparse, hmethod.cstr_drop, hpath.cstr_drop⟩

theorem Requestable.mem_flat (h : Requestable path) {c : UInt8} (hc : c ∈ flat path) :
    c ≠ 0 ∧ isSpace c = false := by
  obtain ⟨n, hn, hmem⟩ := List.mem_flatMap.mp hc
  rcases List.mem_cons.mp hmem with rfl | hmem
  · exact ⟨by decide, by decide⟩
  · exact h.plain n hn c hmem

/-- The extension is the one of the last name. -/
theorem getMimeType_name (text name : Bytes) :
    getMimeType (text ++ 47 :: name) = getMimeType name := by
  have hrev : (text ++ 47 :: name).reverse = name.reverse ++ 47 :: text.reverse := by
    rw [List.reverse_append, List.reverse_cons, List.append_assoc, List.singleton_append]
  by_cases hdot : 46 ∈ name
  · have hall : 46 ∈ text ++ 47 :: name :=
      List.mem_append_right _ (List.mem_cons_of_mem _ hdot)
    have hstop : (name.reverse.takeWhile (· != 46)).length ≠ name.reverse.length := by
      intro hlength
      have hself := (List.takeWhile_prefix (· != 46)).eq_of_length hlength
      have hne := List.takeWhile_eq_self_iff.mp hself 46 (List.mem_reverse.mpr hdot)
      exact absurd hne (by decide)
    rw [getMimeType, getMimeType, if_pos hall, if_pos hdot, hrev, List.takeWhile_append,
      if_neg hstop]
  · rw [getMimeType, getMimeType, if_neg hdot]
    split
    · have hkeys : ∀ entry ∈ mimeTypes, 47 ∉ entry.1 := by decide +kernel
      have hpass : ∀ c ∈ name.reverse ++ [47], (c != 46) = true := by
        intro c hc
        rcases List.mem_append.mp hc with hc | hc
        · exact bne_iff_ne.mpr (ne_of_mem_of_not_mem (List.mem_reverse.mp hc) hdot)
        · rw [List.mem_singleton.mp hc]
          decide
      -- The text behind the last dot goes back over a slash.
      have hslash : 47 ∈ 46 :: ((text ++ 47 :: name).reverse.takeWhile (· != 46)).reverse := by
        rw [hrev, List.append_cons, List.takeWhile_append_of_pos hpass]
        exact List.mem_cons_of_mem _ (List.mem_reverse.mpr (List.mem_append_left _
          (List.mem_append_right _ (List.mem_singleton_self _))))
      have hnone : mimeTypes.lookup
          (46 :: ((text ++ 47 :: name).reverse.takeWhile (· != 46)).reverse) = none := by
        rw [List.lookup_eq_none_iff]
        intro entry hentry
        exact bne_iff_ne.mpr (ne_of_mem_of_not_mem' hslash (hkeys entry hentry))
      dsimp only
      rw [hnone]
      rfl
    · rfl

/-- An entry below the base may be asked for. -/
theorem isSafePath_below {t : Tree} (hbase : w.realpath baseDir = some b)
    (hpath : Requestable path) (hne : path ≠ []) (hfind : w.root.find (b ++ path) = some t)
    (hfits : w.fits (pathText (b ++ path)) = true)
    (hshort : baseDir.length + (flat path).length < maxPathLen * 2 - 1) :
    isSafePath w baseDir (flat path) = true := by
  have hwhole : truncated (baseDir ++ 47 :: flat path) = baseDir ++ 47 :: flat path :=
    List.take_of_length_le (by rw [List.length_append, List.length_cons]; omega)
  have hrequested := realpath_append_flat hbase hpath.names hpath.dots hfind hne hfits
  have hb := resolve_eq_some (resolve_of_realpath hbase)
  have ho := resolve_eq_some (resolve_of_realpath hrequested)
  rw [isSafePath, hbase, hwhole, hrequested]
  exact decide_eq_true ((pathText_prefix_iff (hb ▸ names_normal w _) (ho ▸ names_normal w _)).mpr
    (.inl (List.prefix_append _ _)))

/-- A request for a readable file below the base opens it, if no path is too long. -/
theorem handle_file {req : HttpRequest} (hmem : httpRequestSize ≤ req.mem.length)
    (hbase : w.realpath baseDir = some b) (hpath : Requestable (dirs ++ [name]))
    (hfile : w.root.find (b ++ (dirs ++ [name])) = some (.file true))
    (hreal : w.fits (pathText (b ++ (dirs ++ [name]))) = true)
    (hfits : w.fits (baseDir ++ flat (dirs ++ [name])) = true)
    (hshort : baseDir.length + (flat (dirs ++ [name])).length < maxPathLen * 2 - 1)
    {short : Shortage} (hopen : short.openFile = false) (rest : Bytes) :
    handleHttpRequest w short req (getRequest (flat (dirs ++ [name])) rest) baseDir =
      .file (b ++ (dirs ++ [name])) (getMimeType name) := by
  have hlast : name ∈ dirs ++ [name] := List.mem_append_right _ (List.mem_singleton_self _)
  obtain ⟨n, path, hcons⟩ := List.exists_cons_of_ne_nil (List.ne_nil_of_mem hlast)
  have hslash : flat (dirs ++ [name]) = 47 :: (n ++ flat path) := by rw [hcons, flat_cons]
  have hn : n ≠ [] := (hpath.names n (hcons ▸ List.mem_cons_self)).1
  have hword : IsWord (flat (dirs ++ [name])) :=
    ⟨hslash ▸ List.cons_ne_nil _ _, fun c hc => (hpath.mem_flat hc).2⟩
  obtain ⟨req', hparse, hmethod, htext⟩ :=
    parse_getRequest hmem hword (fun hc => (hpath.mem_flat hc).1 rfl) hpath.length rest
  have hsafe := isSafePath_below hbase hpath (List.ne_nil_of_mem hlast) hfile hreal hshort
  have hlookup : w.lookup (baseDir ++ flat (dirs ++ [name])) = some (b ++ (dirs ++ [name])) :=
    (if_pos hfits).trans
      (resolve_append_flat (resolve_of_realpath hbase) hpath.names hpath.dots hfile)
  have hwhole : truncated (baseDir ++ flat (dirs ++ [name])) = baseDir ++ flat (dirs ++ [name]) :=
    List.take_of_length_le (by rw [List.length_append]; omega)
  have hroot : flat (dirs ++ [name]) ≠ ascii "/" := by
    intro hroot
    have hrest := (List.cons.inj (hslash.symm.trans hroot)).2
    exact hn (List.append_eq_nil_iff.mp hrest).1
  have htype : getMimeType (baseDir ++ flat (dirs ++ [name])) = getMimeType name := by
    rw [flat_append, flat_cons, flat_nil, List.append_nil, ← List.append_assoc]
    exact getMimeType_name _ _
  rw [handleHttpRequest, hparse]
  dsimp only
  rw [if_neg (not_not.mpr hmethod), htext, hsafe, if_neg (by decide), filePath, if_neg hroot,
    hwhole, serve, hlookup]
  dsimp only
  rw [hfile]
  dsimp only
  rw [if_neg (by decide), if_neg (by decide), hopen, if_neg (by decide), htype]

/-- A readable file below the served directory is read as it is, with the type of its name:
no path is too long, the file is opened, the header is taken at once, and the connection is
closed. -/
theorem file_served {req : HttpRequest} (hmem : httpRequestSize ≤ req.mem.length)
    (hbase : w.realpath baseDir = some b) (hpath : Requestable (dirs ++ [name]))
    (hfile : w.root.find (b ++ (dirs ++ [name])) = some (.file true))
    (hreal : w.fits (pathText (b ++ (dirs ++ [name]))) = true)
    (hfits : w.fits (baseDir ++ flat (dirs ++ [name])) = true)
    (hshort : baseDir.length + (flat (dirs ++ [name])).length < maxPathLen * 2 - 1)
    {short : Shortage} (hopen : short.openFile = false) (rest : Bytes) {html : Option Bytes}
    {content header date accepted : Bytes} {rooms : Nat → Nat} {k : Nat}
    (hdate : Http.PlainValue date ∧ date.length ≤ 64) (hcontent : content.length < 10 ^ 20)
    (hbuffer : header.length = httpHeaderSize) {r : Reply}
    (hreply : (handleHttpRequest w short req (getRequest (flat (dirs ++ [name])) rest)
      baseDir).reply html content = r)
    (hroom : (r.header date).length ≤ rooms 0)
    (hclosed : r.closed header date rooms k = some accepted) :
    ∃ m, Http.parse accepted = some m ∧ m.status = 200 ∧ m.body = content ∧
      m.fields.lookup (ascii "Content-Type") = some (getMimeType name) := by
  rw [handle_file hmem hbase hpath hfile hreal hfits hshort hopen] at hreply
  subst hreply
  have hprint : (Numeral.print 10 content.length).length ≤ 20 :=
    Numeral.length_print_le (by decide) (by decide) hcontent
  have hlength := length_fileHeader_le date (getMimeType name) content.length
  have hmime := length_getMimeType_le name
  have hsize : httpHeaderSize = 8192 := rfl
  have hread := parse_closed (r := .file (getMimeType name) content)
    (plainValue_getMimeType name) hdate.1 hbuffer
    (show (fileHeader date (getMimeType name) content.length).length < httpHeaderSize by omega)
    hroom hclosed
  exact ⟨_, hread.1 ⟨hroom, trivial⟩, rfl, rfl, rfl⟩

theorem requestable_index : Requestable ([ascii "docs"] ++ [ascii "index.html"]) where
  names := show ∀ n ∈ _, n ≠ [] ∧ 47 ∉ n by decide +kernel
  dots := by decide +kernel
  plain := by decide +kernel
  length := by decide +kernel

/-- The page `docs/index.html` of the site, over a socket that takes it in two steps. -/
theorem file_served_site : ∃ accepted m,
    (Reply.file (ascii "text/html") (ascii "hello")).closed (List.replicate 8192 0) someDate
        (fun k => if k = 0 then 8192 else 3) 2 = some accepted ∧
      Http.parse accepted = some m ∧ m.status = 200 ∧ m.body = ascii "hello" ∧
      m.fields.lookup (ascii "Content-Type") = some (ascii "text/html") := by
  have hmem : httpRequestSize ≤ (HttpRequest.mk (List.replicate 1056 0)).mem.length :=
    Nat.le_of_eq List.length_replicate.symm
  have hbuffer : (List.replicate 8192 0 : Bytes).length = httpHeaderSize := List.length_replicate
  have hbase : siteWorld.realpath (ascii "/srv/./docs/..") = some [ascii "srv"] := by
    decide +kernel
  have hfile : siteWorld.root.find ([ascii "srv"] ++ ([ascii "docs"] ++ [ascii "index.html"])) =
      some (.file true) := rfl
  have hreal : siteWorld.fits (pathText ([ascii "srv"] ++
      ([ascii "docs"] ++ [ascii "index.html"]))) = true := by decide +kernel
  have hfits : siteWorld.fits (ascii "/srv/./docs/.." ++
      flat ([ascii "docs"] ++ [ascii "index.html"])) = true := by decide +kernel
  have hshort : (ascii "/srv/./docs/..").length +
      (flat ([ascii "docs"] ++ [ascii "index.html"])).length < maxPathLen * 2 - 1 := by
    decide +kernel
  have htype : getMimeType (ascii "index.html") = ascii "text/html" := by decide +kernel
  have hopen : (Shortage.mk false false).openFile = false := rfl
  have hreply := congrArg (Response.reply none (ascii "hello"))
    (handle_file hmem hbase requestable_index hfile hreal hfits hshort hopen [])
  rw [htype] at hreply
  have hheader : (fileHeader someDate (ascii "text/html") (ascii "hello").length).length <
      httpHeaderSize := by decide +kernel
  have hroom : (fileHeader someDate (ascii "text/html") (ascii "hello").length).length ≤ 8192 :=
    Nat.le_of_lt hheader
  have hclosed := closed_file hbuffer hheader (fun k => if k = 0 then 8192 else 3) 2
  rw [if_pos (by decide)] at hclosed
  obtain ⟨m, hparse, hstatus, hbody, hmime⟩ := file_served hmem hbase requestable_index hfile
    hreal hfits hshort hopen [] someDate_plain (by decide) hbuffer hreply hroom hclosed
  exact ⟨_, m, hclosed, hparse, hstatus, hbody, htype ▸ hmime⟩

end Files

end CourseWork.WebServer
