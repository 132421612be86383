import CourseWork.WebServer.Request

/-!
# Requests in used memory

The struct that `parse_http_request` fills lies on the stack, and `strncpy` gets one byte less
than each array has. A token that is as long as its conversion allows leaves the last byte of
its array as it was.
-/

namespace CourseWork.WebServer
open CLib PathTree

/-- `sizeof (http_request_t)`. -/
def httpRequestSize : Nat := methodLen + pathLen + protocolLen

/-- What the three conversions of `sscanf` read. -/
structure Tokens where
  method : Bytes
  path : Bytes
  protocol : Bytes
  deriving DecidableEq

/-- `sscanf (request, "%15s %1023s %15s", …)`. -/
def requestTokens (request : Bytes) : Option Tokens := do
  let (method, rest) ← scanString 15 (cstr request)
  let (path, rest) ← scanString 1023 rest
  let (protocol, _) ← scanString 15 rest
  return ⟨method, path, protocol⟩

/-- The array of `len` bytes at `pos` of the struct holds the string, with its end. -/
def HttpRequest.Holds (req : HttpRequest) (pos len : Nat) (s : Bytes) : Prop :=
  0 ∈ (req.mem.drop pos).take len ∧ cstr ((req.mem.drop pos).take len) = s

/-- After a successful parse the three arrays hold the tokens. -/
def Exact (request : Bytes) (req : HttpRequest) : Prop :=
  ∀ req' tokens, parseHttpRequest request req = some req' → requestTokens request = some tokens →
    req'.Holds 0 methodLen tokens.method ∧ req'.Holds methodLen pathLen tokens.path ∧
      req'.Holds (methodLen + pathLen) protocolLen tokens.protocol

/-- The request is answered in the same way over both memories, whatever the files are. -/
def SameDecisions (request : Bytes) (req₁ req₂ : HttpRequest) : Prop :=
  ∀ w short baseDir,
    handleHttpRequest w short req₁ request baseDir =
      handleHttpRequest w short req₂ request baseDir

/-- The token leaves room for a NUL, or the last byte of its array is zero already. -/
def HttpRequest.Ended (req : HttpRequest) (pos len : Nat) (token : Bytes) : Prop :=
  token.length < len - 1 ∨ req.mem[pos + (len - 1)]? = some 0

/-- No token lets a byte show that was in the struct before. -/
def Settled (request : Bytes) (req : HttpRequest) : Prop :=
  ∀ tokens, requestTokens request = some tokens →
    req.Ended 0 methodLen tokens.method ∧ req.Ended methodLen pathLen tokens.path ∧
      req.Ended (methodLen + pathLen) protocolLen tokens.protocol

/-! ## Copies -/

section Copies

variable {mem src : Bytes} {pos n : Nat}

theorem length_strncpy (h : pos + n ≤ mem.length) :
    (strncpy mem pos src n).length = mem.length := by
  simp only [strncpy, List.length_append, List.length_take, List.length_replicate, List.length_drop]
  omega

/-- The copied range. -/
theorem strncpy_inside (h : pos + n ≤ mem.length) {i : Nat} (hi : i < n) :
    (strncpy mem pos src n)[pos + i]? = (src.take n ++ List.replicate (n - src.length) 0)[i]? := by
  have hpos : (mem.take pos).length = pos := List.length_take_of_le (by omega)
  have hlen : (src.take n ++ List.replicate (n - src.length) (0 : UInt8)).length = n := by
    simp only [List.length_append, List.length_take, List.length_replicate]
    omega
  rw [strncpy, List.append_assoc, List.getElem?_append_right (by omega), hpos,
    Nat.add_sub_cancel_left, List.getElem?_append_left (by omega)]

/-- Nothing else is changed. -/
theorem strncpy_outside (h : pos + n ≤ mem.length) {i : Nat} (hi : i < pos ∨ pos + n ≤ i) :
    (strncpy mem pos src n)[i]? = mem[i]? := by
  have hpos : (mem.take pos).length = pos := List.length_take_of_le (by omega)
  have hlen : (src.take n ++ List.replicate (n - src.length) (0 : UInt8)).length = n := by
    simp only [List.length_append, List.length_take, List.length_replicate]
    omega
  rcases hi with hi | hi
  · rw [strncpy, List.append_assoc, List.getElem?_append_left (by omega),
      List.getElem?_take_of_lt hi]
  · rw [strncpy, List.getElem?_append_right (by rw [List.length_append]; omega), List.length_append,
      hpos, hlen, List.getElem?_drop]
    congr 1
    omega

/-- Copies into other arrays do not touch an array. -/
theorem holds_strncpy_of_disjoint (h : pos + n ≤ mem.length) {q len : Nat}
    (hdisjoint : q + len ≤ pos ∨ pos + n ≤ q) (s : Bytes) :
    HttpRequest.Holds ⟨strncpy mem pos src n⟩ q len s ↔ HttpRequest.Holds ⟨mem⟩ q len s := by
  have harray : ((strncpy mem pos src n).drop q).take len = (mem.drop q).take len := by
    refine List.ext_getElem? fun i => ?_
    simp only [List.getElem?_take, List.getElem?_drop]
    split
    · rw [strncpy_outside h (by omega)]
    · rfl
  rw [HttpRequest.Holds, HttpRequest.Holds, harray]

/-- The array of a copied token is the token, zeros, and one byte that was there before. -/
theorem array_strncpy (hsrc : src.length ≤ n) {last : UInt8} (hlast : mem[pos + n]? = some last) :
    ((strncpy mem pos src n).drop pos).take (n + 1) =
      src ++ List.replicate (n - src.length) 0 ++ [last] := by
  have hlen : pos + n < mem.length := (List.getElem?_eq_some_iff.mp hlast).1
  refine List.ext_getElem? fun i => ?_
  have hcopy : (src.take n ++ List.replicate (n - src.length) (0 : UInt8)).length = n := by
    simp only [List.length_append, List.length_take, List.length_replicate]
    omega
  rw [List.take_of_length_le hsrc] at hcopy
  rw [List.getElem?_take, List.getElem?_drop]
  rcases Nat.lt_trichotomy i n with hi | rfl | hi
  · rw [if_pos (by omega), strncpy_inside (by omega) hi, List.take_of_length_le hsrc]
    exact (List.getElem?_append_left (by omega)).symm
  · rw [if_pos (by omega), strncpy_outside (by omega) (.inr (Nat.le_refl _)), hlast,
      List.getElem?_append_right (by omega), hcopy, Nat.sub_self]
    rfl
  · rw [if_neg (by omega), eq_comm, List.getElem?_eq_none_iff, List.length_append, hcopy]
    exact hi

/-- An array holds the token that was copied into it exactly if it is ended. -/
theorem holds_strncpy_iff (hsrc : src.length ≤ n) (hnul : 0 ∉ src) (h : pos + n < mem.length) :
    HttpRequest.Holds ⟨strncpy mem pos src n⟩ pos (n + 1) src ↔
      HttpRequest.Ended ⟨mem⟩ pos (n + 1) src := by
  have hlast : mem[pos + n]? = some mem[pos + n] := List.getElem?_eq_getElem h
  rw [HttpRequest.Holds, HttpRequest.Ended, array_strncpy hsrc hlast, Nat.add_sub_cancel, hlast,
    Option.some.injEq]
  by_cases hshort : src.length < n
  · obtain ⟨k, hk⟩ : ∃ k, n - src.length = k + 1 := ⟨n - src.length - 1, by omega⟩
    rw [hk, List.replicate_succ, List.append_assoc, List.cons_append]
    exact iff_of_true ⟨List.mem_append_right _ List.mem_cons_self, cstr_append_nul hnul _⟩
      (.inl hshort)
  · rw [Nat.sub_eq_zero_of_le (by omega), List.replicate_zero, List.append_nil]
    constructor
    · rintro ⟨hmem, _⟩
      rcases List.mem_append.mp hmem with hmem | hmem
      · exact absurd hmem hnul
      · exact .inr (List.mem_singleton.mp hmem).symm
    · intro hended
      have hzero := hended.resolve_left hshort
      rw [hzero]
      exact ⟨List.mem_append_right _ List.mem_cons_self, cstr_append_nul hnul []⟩

end Copies

/-! ## Tokens -/

section Tokens

variable {request : Bytes} {tokens : Tokens} {req req' : HttpRequest}

/-- What a conversion reads of a string is no longer than its width and has no NUL. -/
theorem scanString_some {width : Nat} {s word rest : Bytes}
    (h : scanString width s = some (word, rest)) (hs : 0 ∉ s) :
    word.length ≤ width ∧ 0 ∉ word ∧ 0 ∉ rest := by
  rw [scanString] at h
  split at h
  · cases h
  · cases h
    have hdrop : 0 ∉ s.dropWhile isSpace := fun hmem =>
      hs ((List.dropWhile_sublist _).subset hmem)
    refine ⟨List.length_take_le _ _, fun hmem => hdrop ?_, fun hmem => hdrop ?_⟩
    · exact (List.takeWhile_prefix _).subset (List.mem_of_mem_take hmem)
    · exact List.mem_of_mem_drop hmem

theorem requestTokens_bounds (h : requestTokens request = some tokens) :
    (tokens.method.length ≤ methodLen - 1 ∧ 0 ∉ tokens.method) ∧
      (tokens.path.length ≤ pathLen - 1 ∧ 0 ∉ tokens.path) ∧
        (tokens.protocol.length ≤ protocolLen - 1 ∧ 0 ∉ tokens.protocol) := by
  simp only [requestTokens, bind, Option.bind_eq_some_iff, pure, Option.some.injEq,
    Prod.exists] at h
  obtain ⟨method, rest₁, hmethod, path, rest₂, hpath, protocol, rest₃, hprotocol, rfl⟩ := h
  obtain ⟨hlen₁, hnul₁, hrest₁⟩ := scanString_some hmethod (not_mem_cstr request)
  obtain ⟨hlen₂, hnul₂, hrest₂⟩ := scanString_some hpath hrest₁
  obtain ⟨hlen₃, hnul₃, _⟩ := scanString_some hprotocol hrest₂
  exact ⟨⟨hlen₁, hnul₁⟩, ⟨hlen₂, hnul₂⟩, hlen₃, hnul₃⟩

/-- The struct after the three copies. -/
def Tokens.fill (tokens : Tokens) (req : HttpRequest) : HttpRequest :=
  let mem := strncpy req.mem 0 tokens.method (methodLen - 1)
  let mem := strncpy mem methodLen tokens.path (pathLen - 1)
  ⟨strncpy mem (methodLen + pathLen) tokens.protocol (protocolLen - 1)⟩

theorem parseHttpRequest_eq (request : Bytes) (req : HttpRequest) :
    parseHttpRequest request req = (requestTokens request).map (·.fill req) := by
  rw [parseHttpRequest, requestTokens]
  cases scanString 15 (cstr request) with
  | none => rfl
  | some x =>
    obtain ⟨method, rest⟩ := x
    simp only [bind, Option.bind_some]
    cases scanString 1023 rest with
    | none => rfl
    | some x =>
      obtain ⟨path, rest⟩ := x
      simp only [Option.bind_some]
      cases scanString 15 rest <;> rfl

/-- Each array holds its token exactly if it is ended. -/
theorem fill_holds_iff (hsize : httpRequestSize ≤ req.mem.length)
    (h : requestTokens request = some tokens) :
    ((tokens.fill req).Holds 0 methodLen tokens.method ∧
        (tokens.fill req).Holds methodLen pathLen tokens.path ∧
          (tokens.fill req).Holds (methodLen + pathLen) protocolLen tokens.protocol) ↔
      req.Ended 0 methodLen tokens.method ∧ req.Ended methodLen pathLen tokens.path ∧
        req.Ended (methodLen + pathLen) protocolLen tokens.protocol := by
  obtain ⟨⟨hlen₁, hnul₁⟩, ⟨hlen₂, hnul₂⟩, hlen₃, hnul₃⟩ := requestTokens_bounds h
  have hsize' : 1056 ≤ req.mem.length := hsize
  have hmethod : methodLen = 15 + 1 := rfl
  have hpath : pathLen = 1023 + 1 := rfl
  have hprotocol : protocolLen = 15 + 1 := rfl
  obtain ⟨mem⟩ := req
  dsimp only at hsize'
  rw [hmethod] at hlen₁
  rw [hpath] at hlen₂
  rw [hprotocol] at hlen₃
  simp only [Tokens.fill, hmethod, hpath, hprotocol, Nat.add_sub_cancel]
  -- The memory after the first copy and after the second one.
  have hmem₁ : (strncpy mem 0 tokens.method 15).length = mem.length := length_strncpy (by omega)
  have hmem₂ : (strncpy (strncpy mem 0 tokens.method 15) (15 + 1) tokens.path 1023).length =
      mem.length := (length_strncpy (by omega)).trans hmem₁
  have hended (pos len : Nat) (token : Bytes) (hpos : 15 + 1 ≤ pos) :
      HttpRequest.Ended ⟨strncpy mem 0 tokens.method 15⟩ pos (len + 1) token ↔
        HttpRequest.Ended ⟨mem⟩ pos (len + 1) token := by
    rw [HttpRequest.Ended, HttpRequest.Ended]
    dsimp only
    rw [strncpy_outside (by omega) (.inr (by omega))]
  refine and_congr ?_ (and_congr ?_ ?_)
  · rw [holds_strncpy_of_disjoint (by omega) (.inl (by omega)),
      holds_strncpy_of_disjoint (by omega) (.inl (by omega)),
      holds_strncpy_iff hlen₁ hnul₁ (by omega)]
  · rw [holds_strncpy_of_disjoint (by omega) (.inl (by omega)),
      holds_strncpy_iff hlen₂ hnul₂ (by omega), hended _ _ _ (by omega)]
  · rw [holds_strncpy_iff hlen₃ hnul₃ (by omega), ← hended _ _ _ (by omega),
      HttpRequest.Ended, HttpRequest.Ended]
    dsimp only
    rw [strncpy_outside (by omega) (.inr (by omega))]

/-- The arrays hold the tokens exactly if the memory is settled. -/
theorem exact_iff_settled (hsize : httpRequestSize ≤ req.mem.length) :
    Exact request req ↔ Settled request req := by
  constructor
  · intro hexact tokens htokens
    have hparse : parseHttpRequest request req = some (tokens.fill req) := by
      rw [parseHttpRequest_eq, htokens]
      rfl
    exact (fill_holds_iff hsize htokens).mp (hexact _ _ hparse htokens)
  · intro hsettled req' tokens hparse htokens
    rw [parseHttpRequest_eq, htokens] at hparse
    obtain rfl := Option.some.inj hparse
    exact (fill_holds_iff hsize htokens).mpr (hsettled tokens htokens)

/-- A string that ends inside of its array is what is read at the array. -/
theorem HttpRequest.Holds.cstr_drop {pos len : Nat} {s : Bytes} (h : req.Holds pos len s) :
    cstr (req.mem.drop pos) = s := by
  obtain ⟨hnul, hs⟩ := h
  obtain ⟨text, rest, harray, hfree⟩ := List.eq_append_cons_of_mem hnul
  rw [harray, cstr_append_nul hfree] at hs
  rw [← List.take_append_drop len (req.mem.drop pos), harray, List.append_assoc, List.cons_append,
    cstr_append_nul hfree, hs]

/-- With the tokens in their arrays, only the tokens decide. -/
theorem sameDecisions_of_exact {req₁ req₂ : HttpRequest} (h₁ : Exact request req₁)
    (h₂ : Exact request req₂) : SameDecisions request req₁ req₂ := by
  intro w short baseDir
  rw [handleHttpRequest, handleHttpRequest, parseHttpRequest_eq, parseHttpRequest_eq]
  cases htokens : requestTokens request with
  | none => rfl
  | some tokens =>
    have hparse (req : HttpRequest) : parseHttpRequest request req = some (tokens.fill req) := by
      rw [parseHttpRequest_eq, htokens]
      rfl
    obtain ⟨hmethod₁, hpath₁, _⟩ := h₁ _ _ (hparse req₁) htokens
    obtain ⟨hmethod₂, hpath₂, _⟩ := h₂ _ _ (hparse req₂) htokens
    have hmethod : (tokens.fill req₁).method = (tokens.fill req₂).method :=
      hmethod₁.cstr_drop.trans hmethod₂.cstr_drop.symm
    have hpath : (tokens.fill req₁).path = (tokens.fill req₂).path :=
      hpath₁.cstr_drop.trans hpath₂.cstr_drop.symm
    simp only [Option.map_some, hmethod, hpath]

/-- Over two memories the arrays hold the tokens, and the request is answered in the same way,
exactly if both memories are settled. -/
theorem request_ignores_memory_iff (request : Bytes) (req₁ req₂ : HttpRequest)
    (h₁ : httpRequestSize ≤ req₁.mem.length) (h₂ : httpRequestSize ≤ req₂.mem.length) :
    (Exact request req₁ ∧ Exact request req₂ ∧ SameDecisions request req₁ req₂) ↔
      Settled request req₁ ∧ Settled request req₂ := by
  rw [exact_iff_settled h₁, exact_iff_settled h₂]
  constructor
  · rintro ⟨hsettled₁, hsettled₂, _⟩
    exact ⟨hsettled₁, hsettled₂⟩
  · rintro ⟨hsettled₁, hsettled₂⟩
    exact ⟨hsettled₁, hsettled₂, sameDecisions_of_exact ((exact_iff_settled h₁).mpr hsettled₁)
      ((exact_iff_settled h₂).mpr hsettled₂)⟩

/-- A short request over zeros and over letters. -/
theorem request_ignores_memory_iff_short :
    Exact (ascii "GET / HTTP/1.1\r\n\r\n") ⟨List.replicate 1056 0⟩ ∧
      Exact (ascii "GET / HTTP/1.1\r\n\r\n") ⟨List.replicate 1056 121⟩ ∧
        SameDecisions (ascii "GET / HTTP/1.1\r\n\r\n") ⟨List.replicate 1056 0⟩
          ⟨List.replicate 1056 121⟩ := by
  have hsettled (req : HttpRequest) : Settled (ascii "GET / HTTP/1.1\r\n\r\n") req := by
    intro tokens htokens
    obtain rfl := Option.some.inj <| htokens.symm.trans
      (show requestTokens (ascii "GET / HTTP/1.1\r\n\r\n") =
        some ⟨ascii "GET", ascii "/", ascii "HTTP/1.1"⟩ by
          decide +kernel)
    exact ⟨.inl (by decide), .inl (by decide), .inl (by decide)⟩
  have hsize (c : UInt8) : httpRequestSize ≤ (List.replicate 1056 c).length := by
    rw [List.length_replicate]
    exact Nat.le_refl _
  exact (request_ignores_memory_iff _ ⟨_⟩ ⟨_⟩ (hsize 0) (hsize 121)).mpr ⟨hsettled _, hsettled _⟩

/-- The root as the current directory has no names in its path. -/
theorem root_names : ∀ n ∈ ([] : List Bytes), n ≠ [] ∧ 47 ∉ n :=
  List.forall_mem_nil _

/-- A file and a directory with a page in the directory `/srv`. -/
def siteWorld : World where
  root := .directory true [(ascii "srv", .directory true [(ascii "x", .file true),
    (ascii "docs", .directory true [(ascii "index.html", .file true)])])]
  cwd := []
  pathMax := some 4096
  cwd_names := root_names

/-- A request for `x`, with slashes up to the longest path that `%1023s` reads. -/
def longRequest : Bytes := ascii "GET " ++ List.replicate 1022 47 ++ ascii "x HTTP/1.1\r\n\r\n"

/-- The request opens the file over zeros, and fails over letters. -/
theorem longRequest_depends_on_memory :
    ¬SameDecisions longRequest ⟨List.replicate 1056 0⟩ ⟨List.replicate 1056 121⟩ := by
  intro hsame
  have hzeros : handleHttpRequest siteWorld ⟨false, false⟩ ⟨List.replicate 1056 0⟩ longRequest
      (ascii "/srv") = .file [ascii "srv", ascii "x"] (ascii "application/octet-stream") := by
    decide +kernel
  have hletters : handleHttpRequest siteWorld ⟨false, false⟩ ⟨List.replicate 1056 121⟩ longRequest
      (ascii "/srv") = .status 403 := by
    decide +kernel
  rw [hsame, hletters] at hzeros
  cases hzeros

end Tokens

end CourseWork.WebServer
