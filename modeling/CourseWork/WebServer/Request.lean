import CourseWork.Lib.PathTree

/-!
# Requests of the web server

`handle_http_request` with its parser and its check of the path, in a tree of files without
links.
-/

namespace CourseWork.WebServer
open CLib PathTree

/-- `METHOD_LEN`. -/
def methodLen : Nat := 16

/-- `PATH_LEN`. -/
def pathLen : Nat := 1024

/-- `PROTOCOL_LEN`. -/
def protocolLen : Nat := 16

/-- `MAX_PATH_LEN`. -/
def maxPathLen : Nat := 4096

/-! ## Parsing -/

/-- A conversion `%ws` of `sscanf`: the word, and what is behind it. -/
def scanString (width : Nat) (s : Bytes) : Option (Bytes × Bytes) :=
  let s := s.dropWhile isSpace
  let word := (s.takeWhile (!isSpace ·)).take width
  if word = [] then none else some (word, s.drop word.length)

/-- `strncpy` of `n` bytes to position `pos` of the memory. -/
def strncpy (mem : Bytes) (pos : Nat) (src : Bytes) (n : Nat) : Bytes :=
  mem.take pos ++ (src.take n ++ List.replicate (n - src.length) 0) ++ mem.drop (pos + n)

/-- `http_request_t` and the memory behind it. -/
structure HttpRequest where
  mem : Bytes

/-- The string in `method`. -/
def HttpRequest.method (req : HttpRequest) : Bytes := cstr req.mem

/-- The string in `path`. -/
def HttpRequest.path (req : HttpRequest) : Bytes := cstr (req.mem.drop methodLen)

/-- `parse_http_request` into a struct whose memory holds anything. -/
def parseHttpRequest (request : Bytes) (req : HttpRequest) : Option HttpRequest := do
  let (method, rest) ← scanString 15 (cstr request)
  let (path, rest) ← scanString 1023 rest
  let (protocol, _) ← scanString 15 rest
  let mem := strncpy req.mem 0 method (methodLen - 1)
  let mem := strncpy mem methodLen path (pathLen - 1)
  let mem := strncpy mem (methodLen + pathLen) protocol (protocolLen - 1)
  return ⟨mem⟩

/-! ## Paths -/

/-- A buffer of `MAX_PATH_LEN * 2` bytes holds what fits in front of its NUL. -/
def truncated (path : Bytes) : Bytes := path.take (maxPathLen * 2 - 1)

/-- `file_path` of `handle_http_request`. -/
def filePath (baseDir path : Bytes) : Bytes :=
  if path = ascii "/" then truncated baseDir else truncated (baseDir ++ path)

/-- `is_safe_path`. -/
def isSafePath (w : World) (baseDir requestedPath : Bytes) : Bool :=
  match w.realpath baseDir with
  | none => false
  | some realBase =>
    match w.realpath (truncated (baseDir ++ 47 :: requestedPath)) with
    | none => false
    | some realRequested => pathText realBase <+: pathText realRequested

/-- The types by extension. -/
def mimeTypes : List (Bytes × Bytes) :=
  [(ascii ".html", ascii "text/html"), (ascii ".htm", ascii "text/html"),
    (ascii ".css", ascii "text/css"), (ascii ".js", ascii "application/javascript"),
    (ascii ".jpg", ascii "image/jpeg"), (ascii ".jpeg", ascii "image/jpeg"),
    (ascii ".png", ascii "image/png"), (ascii ".gif", ascii "image/gif"),
    (ascii ".txt", ascii "text/plain"), (ascii ".c", ascii "text/plain"),
    (ascii ".conf", ascii "text/plain"), (ascii ".h", ascii "text/plain"),
    (ascii ".json", ascii "application/json"), (ascii ".pdf", ascii "application/pdf")]

/-- `get_mime_type`: the extension starts at the last dot. -/
def getMimeType (filename : Bytes) : Bytes :=
  if 46 ∈ filename then
    let ext := 46 :: (filename.reverse.takeWhile (· != 46)).reverse
    (mimeTypes.lookup ext).getD (ascii "application/octet-stream")
  else ascii "application/octet-stream"

/-! ## Handling -/

/-- What `handle_http_request` does: an error status, a listing of an opened directory, or an
opened file with its type. -/
inductive Response
  | status (code : Nat)
  | listing (dir : List Name)
  | file (path : List Name) (mimeType : Bytes)
  deriving DecidableEq

/-- The object that was opened. -/
def Response.opened : Response → Option (List Name)
  | .status _ => none
  | .listing dir => some dir
  | .file path _ => some path

/-- Whether `malloc` fails, and `open` or `opendir`, for a want of memory or descriptors. -/
structure Shortage where
  malloc : Bool
  openFile : Bool

/-- `handle_http_request` behind its check of the path: `stat`, `access`, and `open` or the
`opendir` of `generate_file_list`. -/
def serve (w : World) (short : Shortage) (path : Bytes) : Response :=
  match w.lookup path with
  | none => .status 404
  | some o =>
    match w.root.find o with
    | none => .status 404
    | some t =>
      if !t.readable then .status 403
      else if t.isDirectory then
        if short.malloc || short.openFile then .status 500 else .listing o
      else if short.openFile then .status 404
      else .file o (getMimeType path)

/-- `handle_http_request`. The memory of its `req` holds anything. -/
def handleHttpRequest (w : World) (short : Shortage) (req : HttpRequest)
    (request baseDir : Bytes) : Response :=
  match parseHttpRequest request req with
  | none => .status 400
  | some req =>
    if req.method ≠ ascii "GET" then .status 405
    else if !isSafePath w baseDir req.path then .status 403
    else serve w short (filePath baseDir req.path)

end CourseWork.WebServer
