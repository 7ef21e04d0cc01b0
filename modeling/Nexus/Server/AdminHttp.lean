import Nexus.Ingress.Http

/-!
# Reading a request from a connection

`read_http_request` of `server/admin_http.cpp`: it receives until the blank line after the headers,
then for as many bytes as its own `parse_content_length` says, and hands them to the parser of
`ingress/http.cpp`. What arrives is the list of the receives, each of them not empty, and then the
end of the stream.

* `atOnce`: what the whole stream gives, with no word of receives.
* `read_cases`: a connection gives that, unless the check of the size between two receives
  (`headerCap`) stops it.
* `atOnce_lengths`: what the reader and the parser take for the length of the body, in terms of the
  request.
-/

namespace Nexus.Http

open Lib

/-! ## The reader -/

/-- What a line says about the length of the body, if it is a `Content-Length`. -/
def contentLengthOf (line : Bytes) : Option Nat :=
  match splitHeader line with
  | none => none
  | some (name, value) =>
    if isContentLength name then
      some (match fromChars value with
        | some (length, _) => length
        | none => 0)
    else none

/-- `parse_content_length`: the first line decides. -/
def parseContentLength (headers : Bytes) : Nat :=
  ((splitOn crlf headers).findSome? contentLengthOf).getD 0

/-- The first loop: up to the blank line. -/
def readHead (headerCap : Nat) (buf : Bytes) : List Bytes → Expected (Nat × Bytes × List Bytes)
  | [] =>
    match find blankLine buf with
    | some headerEnd => .ok (headerEnd, buf, [])
    | none =>
      if headerCap < buf.length then invalid "cabeceras HTTP demasiado grandes"
      else if buf = [] then makeError .shutdown "el par cerró sin enviar datos"
      else invalid "petición HTTP truncada"
  | chunk :: recvs =>
    match find blankLine buf with
    | some headerEnd => .ok (headerEnd, buf, chunk :: recvs)
    | none =>
      if headerCap < buf.length then invalid "cabeceras HTTP demasiado grandes"
      else readHead headerCap (buf ++ chunk) recvs

/-- The second loop: up to `total` bytes. -/
def readBody (total : Nat) (buf : Bytes) : List Bytes → Expected Bytes
  | [] => if total ≤ buf.length then .ok buf else invalid "cuerpo HTTP truncado"
  | chunk :: recvs =>
    if total ≤ buf.length then .ok buf else readBody total (buf ++ chunk) recvs

def headerCap (limits : HttpParseLimits) : Nat :=
  (limits.maxRequestLine + limits.maxHeaderBytes) % 2 ^ 64

/-- Where the reader takes the message to end. -/
def messageEnd (headerEnd contentLength : Nat) : Nat := (headerEnd + 4 + contentLength) % 2 ^ 64

def readHttpRequest (limits : HttpParseLimits) (recvs : List Bytes) : Expected HttpRequest :=
  (readHead (headerCap limits) [] recvs).bind fun (headerEnd, buf, recvs) =>
    let contentLength := parseContentLength (buf.take headerEnd)
    if limits.maxBody < contentLength then invalid "cuerpo HTTP excede el límite"
    else
      let total := messageEnd headerEnd contentLength
      (readBody total buf recvs).bind fun buf => parseRequest (buf.take total) limits

/-! ## The whole stream -/

/-- What the bytes of the stream give, however they come in. -/
def atOnce (limits : HttpParseLimits) (s : Bytes) : Expected HttpRequest :=
  match find blankLine s with
  | none =>
    if s = [] then makeError .shutdown "el par cerró sin enviar datos"
    else invalid "petición HTTP truncada"
  | some headerEnd =>
    let contentLength := parseContentLength (s.take headerEnd)
    let total := messageEnd headerEnd contentLength
    if limits.maxBody < contentLength then invalid "cuerpo HTTP excede el límite"
    else if s.length < total then invalid "cuerpo HTTP truncado"
    else parseRequest (s.take total) limits

/-- The request, or the code of the error. -/
def outcome (x : Expected HttpRequest) : Except ErrorCode HttpRequest := x.mapError Error.code

variable {limits : HttpParseLimits} {s : Bytes} {recvs : List Bytes} {req : HttpRequest} {i n : Nat}
  {headers : List (Bytes × Bytes)} {raw : Bytes} {lineEnd : Nat}

theorem outcome_of_invalid {x : Expected HttpRequest} (h : Invalid x) (hx : ∀ req, x ≠ .ok req) :
    outcome x = .error .invalidArgument := by
  cases x with
  | error e => exact congrArg Except.error (h e rfl)
  | ok req => exact absurd rfl (hx req)

/-- The three ways out of the first loop. -/
theorem readHead_cases (cap : Nat) (buf : Bytes) (recvs : List Bytes) :
    (∃ m n, readHead cap buf recvs = invalid m ∧ cap < n ∧ n ≤ (buf ++ recvs.flatten).length ∧
      find blankLine ((buf ++ recvs.flatten).take n) = none) ∨
    (find blankLine (buf ++ recvs.flatten) = none ∧ readHead cap buf recvs =
      if buf ++ recvs.flatten = [] then makeError .shutdown "el par cerró sin enviar datos"
      else invalid "petición HTTP truncada") ∨
    ∃ i buf' recvs', find blankLine (buf ++ recvs.flatten) = some i ∧
      readHead cap buf recvs = .ok (i, buf', recvs') ∧
      buf' ++ recvs'.flatten = buf ++ recvs.flatten ∧ i + 4 ≤ buf'.length := by
  induction recvs generalizing buf with
  | nil =>
    simp only [List.flatten_nil, List.append_nil, readHead]
    cases hfind : find blankLine buf with
    | some i =>
      exact .inr (.inr ⟨i, buf, [], rfl, rfl, by simp, length_le_of_find (by decide) hfind⟩)
    | none =>
      dsimp only
      split
      · rename_i hcap
        exact .inl ⟨_, buf.length, rfl, hcap, Nat.le_refl _, by rwa [List.take_length]⟩
      · exact .inr (.inl ⟨rfl, rfl⟩)
  | cons chunk recvs ih =>
    have ih := ih (buf ++ chunk)
    simp only [List.flatten_cons, ← List.append_assoc, readHead]
    cases hfind : find blankLine buf with
    | some i =>
      refine .inr (.inr ⟨i, buf, chunk :: recvs, ?_, rfl, by simp,
        length_le_of_find (by decide) hfind⟩)
      rw [List.append_assoc]
      exact find_append (by decide) hfind _
    | none =>
      dsimp only
      split
      · rename_i hcap
        refine .inl ⟨_, buf.length, rfl, hcap, by simp, ?_⟩
        rwa [List.append_assoc, List.take_left]
      · exact ih

theorem readBody_cases (total : Nat) (buf : Bytes) (recvs : List Bytes) :
    (total ≤ (buf ++ recvs.flatten).length ∧ ∃ buf', readBody total buf recvs = .ok buf' ∧
      buf'.take total = (buf ++ recvs.flatten).take total) ∨
    (buf ++ recvs.flatten).length < total ∧
      readBody total buf recvs = invalid "cuerpo HTTP truncado" := by
  induction recvs generalizing buf with
  | nil =>
    simp only [List.flatten_nil, List.append_nil, readBody]
    grind
  | cons chunk recvs ih =>
    have ih := ih (buf ++ chunk)
    simp only [List.flatten_cons, ← List.append_assoc, readBody]
    split
    · rename_i hle
      refine .inl ⟨by simp; omega, buf, rfl, ?_⟩
      rw [List.append_assoc, List.take_append_of_le_length hle]
    · exact ih

/-- A connection gives what the stream gives at once, or the check of the size stops it. -/
theorem read_cases (limits : HttpParseLimits) (recvs : List Bytes) :
    readHttpRequest limits recvs = atOnce limits recvs.flatten ∨
    (∃ m, readHttpRequest limits recvs = invalid m) ∧ recvs.flatten ≠ [] ∧
      ∀ i, find blankLine recvs.flatten = some i → headerCap limits < i + 3 := by
  have hhead := readHead_cases (headerCap limits) [] recvs
  rw [List.nil_append] at hhead
  unfold readHttpRequest atOnce
  generalize recvs.flatten = s at hhead
  rcases hhead with ⟨m, n, hread, hcap, hn, hnone⟩ | ⟨hnone, hread⟩ |
    ⟨i, buf', recvs', hfind, hread, rfl, hi⟩
  · right
    refine ⟨⟨m, by rw [hread]; rfl⟩, fun hnil => ?_, fun i hi => ?_⟩
    · rw [hnil, List.length_nil] at hn
      omega
    · rw [find_take (by decide) hi] at hnone
      have hlen : blankLine.length = 4 := rfl
      split at hnone <;> simp_all
      omega
  · left
    rw [hread, hnone]
    dsimp only
    split <;> rfl
  · left
    have htake : (buf' ++ recvs'.flatten).take i = buf'.take i :=
      List.take_append_of_le_length (by omega)
    rw [hread, hfind]
    simp only [Except.bind, htake]
    split
    · rfl
    · rcases readBody_cases (messageEnd i (parseContentLength (buf'.take i))) buf' recvs' with
        ⟨hle, buf'', hbody, hsame⟩ | ⟨hlt, hbody⟩
      · rw [hbody, if_neg (by omega), ← hsame]
      · rw [hbody, if_pos hlt]
        rfl

/-- An error of a stream that is not empty. -/
theorem invalid_atOnce (hs : s ≠ []) : Invalid (atOnce limits s) := by
  unfold atOnce
  split
  · rw [if_neg hs]
    exact invalid_invalid _
  · dsimp only
    split
    · exact invalid_invalid _
    split
    · exact invalid_invalid _
    · exact invalid_parseRequest _ _

/-- The check of the size cannot tell: the blank line ends at most one byte after `header_cap`, or
the stream is no request anyway. -/
def WithinCap (limits : HttpParseLimits) (s : Bytes) : Prop :=
  (∀ i, find blankLine s = some i → i + 3 ≤ headerCap limits) ∨ ∀ req, atOnce limits s ≠ .ok req

theorem outcome_read (hcap : WithinCap limits recvs.flatten) :
    outcome (readHttpRequest limits recvs) = outcome (atOnce limits recvs.flatten) := by
  rcases read_cases limits recvs with heq | ⟨⟨m, hread⟩, hnil, hover⟩
  · rw [heq]
  · have hrej : ∀ req, atOnce limits recvs.flatten ≠ .ok req := by
      rcases hcap with hwithin | hrej
      · intro req
        unfold atOnce invalid makeError
        split
        · rw [if_neg hnil]
          exact fun h => by cases h
        · rename_i i hi
          have h₁ := hover i hi
          have h₂ := hwithin i hi
          omega
      · exact hrej
    rw [hread, outcome_of_invalid (invalid_atOnce hnil) hrej]
    rfl

/-- A request for which the check matters: its line and its headers are as long as they may be. -/
def tightLimits : HttpParseLimits := { maxRequestLine := 12, maxHeaderBytes := 3 }

def tightRequest : Bytes := ascii "G / HTTP/1.1\r\na:b\r\n\r\n"

theorem parseContentLength_lt (head : Bytes) : parseContentLength head < 2 ^ 64 := by
  unfold parseContentLength
  cases hfind : (splitOn crlf head).findSome? contentLengthOf with
  | none => exact Nat.two_pow_pos 64
  | some n =>
    obtain ⟨line, -, hline⟩ := List.exists_of_findSome?_eq_some hfind
    unfold contentLengthOf fromChars at hline
    grind

/-- The header lines, as the reader looks at them. -/
theorem findSome_contentLengthOf {lines : List Bytes}
    (hlines : lines.map splitHeader = headers.map some)
    (hvalid : ∀ name value, (name, value) ∈ headers → isContentLength name →
      fromChars value = some (decimal value, [])) :
    lines.findSome? contentLengthOf = (contentLengths headers).head? := by
  induction lines generalizing headers with
  | nil =>
    obtain rfl : headers = [] := by simpa using hlines.symm
    rfl
  | cons line lines ih =>
    cases headers with
    | nil => cases hlines
    | cons header headers =>
      obtain ⟨name, value⟩ := header
      simp only [List.map_cons, List.cons.injEq] at hlines
      have ih := ih hlines.2 fun name value h => hvalid name value (.tail _ h)
      have hhere := hvalid name value (.head _)
      rw [List.findSome?_cons, contentLengths_cons, ih, contentLengthOf, hlines.1]
      dsimp only
      by_cases hname : isContentLength name <;> simp [hname, hhere]

/-- The blank line starts at the end of a line, and two ends of lines do not overlap. -/
theorem lineEnd_cases (hblank : find blankLine raw = some i)
    (hline : find crlf raw = some lineEnd) : lineEnd = i ∨ lineEnd + 2 ≤ i := by
  obtain ⟨⟨rest, hi⟩, -⟩ := (find_eq_some_iff (by decide)).mp hblank
  obtain ⟨⟨rest', hend⟩, hfirst⟩ := (find_eq_some_iff (by decide)).mp hline
  have hle : lineEnd ≤ i := by
    refine Nat.le_of_not_lt fun hlt => hfirst i hlt ⟨13 :: 10 :: rest, ?_⟩
    rw [← hi]
    rfl
  have hne : lineEnd + 1 ≠ i := by
    intro heq
    rw [← heq, ← List.drop_drop, ← hend] at hi
    simp [blankLine, crlf] at hi
  omega

/-- The lines before the blank line. -/
theorem splitOn_head (hblank : find blankLine raw = some i)
    (hline : find crlf raw = some lineEnd) (hpos : 0 < lineEnd) :
    splitOn crlf (raw.take i) =
      raw.take lineEnd :: splitOn crlf ((raw.take i).drop (lineEnd + 2)) := by
  have hlen := length_le_of_find (by decide) hblank
  have hne : raw.take i ≠ [] := by
    have := lineEnd_cases hblank hline
    intro hnil
    have := congrArg List.length hnil
    rw [List.length_take, List.length_nil] at this
    omega
  rw [splitOn, dif_neg hne, find_take (by decide) hline]
  rcases lineEnd_cases hblank hline with rfl | hle
  · have hnil : (raw.take lineEnd).drop (lineEnd + 2) = [] := List.drop_eq_nil_of_le (by simp)
    rw [if_neg (by simp [crlf]), hnil, splitOn, dif_pos rfl]
  · rw [if_pos (by simpa [crlf] using hle)]
    simp only [List.take_take]
    rw [Nat.min_eq_left (by omega)]
    rfl

theorem length_of_takeBody {contentLength : Option Nat} {rest body : Bytes}
    (h : takeBody limits contentLength rest = .ok body) :
    body.length = contentLength.getD rest.length := by
  unfold takeBody invalid makeError at h
  grind

theorem requestLine_length_pos (req : HttpRequest) : 0 < req.requestLine.length := by
  simp [HttpRequest.requestLine]

/-- What the two parsers can take for the length: the reader also looks at the request line. -/
def HttpRequest.lengths (req : HttpRequest) : List Nat :=
  (contentLengthOf req.requestLine).toList ++ contentLengths req.headers

/-- The message, as the parser sees it and as the reader does. -/
theorem parseRequest_lengths (h : parseRequest raw limits = .ok req) :
    ∃ i, find blankLine raw = some i ∧
      parseContentLength (raw.take i) = req.lengths.head?.getD 0 ∧
      req.body.length = (contentLengths req.headers).getLast?.getD (raw.length - (i + 4)) ∧
      ∀ name value, (name, value) ∈ req.headers → isContentLength name →
        fromChars value = some (decimal value, []) := by
  obtain ⟨lineEnd, headersEnd, contentLength, hline, hreq, hend, hheaders, hbody⟩ :=
    parseRequest_eq_ok h
  cases hblank : find blankLine raw with
  | none =>
    rw [find_drop_none (by decide) hblank] at hend
    cases hend
  | some i =>
    have hle : lineEnd ≤ i := by
      have := lineEnd_cases hblank hline
      omega
    rw [find_drop (by decide) hblank hle] at hend
    obtain rfl : i - lineEnd + lineEnd = headersEnd := Option.some.inj hend
    rw [Nat.sub_add_cancel hle] at hheaders hbody
    have hpos : 0 < lineEnd := by
      have hlen := requestLine_length_pos req
      rw [hreq, List.length_take] at hlen
      omega
    obtain ⟨added, hadded, hlines, hvalid, hlast⟩ := parseHeaders_eq_ok hheaders
    rw [List.nil_append] at hadded
    subst hadded
    refine ⟨i, rfl, ?_, ?_, hvalid⟩
    · rw [parseContentLength, splitOn_head hblank hline hpos, List.findSome?_cons,
        findSome_contentLengthOf hlines hvalid, ← hreq, HttpRequest.lengths]
      cases contentLengthOf req.requestLine <;> rfl
    · rw [length_of_takeBody hbody, hlast, Option.or_none, List.length_drop]

/-- The reader goes by the first number, the parser by the last one of a header. -/
theorem atOnce_lengths (h : atOnce limits s = .ok req) :
    ∃ i, find blankLine s = some i ∧
      parseContentLength (s.take i) = req.lengths.head?.getD 0 ∧
      req.body.length = (contentLengths req.headers).getLast?.getD (req.lengths.head?.getD 0) ∧
      ∀ name value, (name, value) ∈ req.headers → isContentLength name →
        fromChars value = some (decimal value, []) := by
  unfold atOnce invalid makeError at h
  split at h
  · split at h <;> cases h
  rename_i i hfind
  dsimp only at h
  split at h
  · cases h
  split at h
  · cases h
  rename_i hlen
  obtain ⟨j, hblank, hfirst, hbody, hvalid⟩ := parseRequest_lengths h
  have hcut := find_take (by decide) hfind (messageEnd i (parseContentLength (s.take i)))
  rw [hblank] at hcut
  have htotal : i + blankLine.length ≤ messageEnd i (parseContentLength (s.take i)) := by
    refine Decidable.byContradiction fun hgt => ?_
    rw [if_neg hgt] at hcut
    cases hcut
  obtain rfl : j = i := by
    rw [if_pos htotal] at hcut
    exact Option.some.inj hcut
  have hfour : blankLine.length = 4 := rfl
  -- The message does not wrap around: its blank line would be cut off.
  have hmod : messageEnd j (parseContentLength (s.take j)) =
      j + 4 + parseContentLength (s.take j) := by
    have := parseContentLength_lt (s.take j)
    unfold messageEnd at htotal ⊢
    omega
  rw [List.take_take, Nat.min_eq_left (by omega)] at hfirst
  refine ⟨j, hfind, hfirst, ?_, hvalid⟩
  rw [hbody, List.length_take, Nat.min_eq_left (by omega), hmod, Nat.add_sub_cancel_left, hfirst]

/-- What a message with one meaning is: every `Content-Length` is the length of the body in
decimals, there is no body without one, and the reader takes the same length. -/
def Unambiguous (s : Bytes) (req : HttpRequest) : Prop :=
  (∀ name value, (name, value) ∈ req.headers → isContentLength name →
    value ≠ [] ∧ value.all isDigit ∧ decimal value = req.body.length) ∧
  (contentLengths req.headers = [] → req.body = []) ∧
  ∃ i, find blankLine s = some i ∧ parseContentLength (s.take i) = req.body.length

theorem mem_contentLengths :
    n ∈ contentLengths headers ↔
      ∃ name value, (name, value) ∈ headers ∧ isContentLength name ∧ n = decimal value := by
  simp only [contentLengths, List.mem_filterMap]
  grind

/-- One number for the first and for the last. -/
theorem lengths_agree_iff {first : Option Nat} {rest : List Nat}
    (hn : n = rest.getLast?.getD ((first.toList ++ rest).head?.getD 0)) :
    (∀ m ∈ rest, m = n) ∧ (rest = [] → n = 0) ∧ (first.toList ++ rest).head?.getD 0 = n ↔
      (∀ m ∈ first.toList ++ rest, ∀ m' ∈ first.toList ++ rest, m = m') ∧
      (rest = [] → ∀ m ∈ first.toList ++ rest, m = 0) := by
  rcases List.eq_nil_or_concat rest with rfl | ⟨rest', last, rfl⟩
  · cases first <;> simp_all
  · obtain rfl : n = last := by simpa using hn
    simp only [List.concat_eq_append, List.append_eq_nil_iff, List.cons_ne_nil, and_false,
      false_implies, true_and, and_true]
    constructor
    · rintro ⟨hrest, hfirst⟩
      have hall : ∀ m ∈ first.toList ++ (rest' ++ [n]), m = n := by
        cases first with
        | none => exact hrest
        | some m => exact List.forall_mem_cons.mpr ⟨hfirst, hrest⟩
      exact fun m hm m' hm' => (hall m hm).trans (hall m' hm').symm
    · intro hall
      have hlast : n ∈ first.toList ++ (rest' ++ [n]) := by simp
      refine ⟨fun m hm => hall m (List.mem_append_right _ hm) n hlast, ?_⟩
      cases hhead : (first.toList ++ (rest' ++ [n])).head? with
      | none => simp at hhead
      | some m => exact hall m (List.mem_of_head? hhead) n hlast

/-- **The length of the body**: one meaning is for all numbers to be one, and for the request line
to have none that asks for a body. -/
theorem read_unambiguous_iff (limits : HttpParseLimits) (recvs : List Bytes) (req : HttpRequest)
    (h : readHttpRequest limits recvs = .ok req) :
    Unambiguous recvs.flatten req ↔ (∀ m ∈ req.lengths, ∀ n ∈ req.lengths, m = n) ∧
      (contentLengths req.headers = [] → ∀ n ∈ req.lengths, n = 0) := by
  have hat : atOnce limits recvs.flatten = .ok req := by
    rcases read_cases limits recvs with heq | ⟨⟨m, hread⟩, -⟩
    · rw [← heq, h]
    · rw [hread] at h
      cases h
  obtain ⟨i, hfind, hfirst, hbody, hvalid⟩ := atOnce_lengths hat
  rw [HttpRequest.lengths, ← lengths_agree_iff hbody, Unambiguous]
  refine and_congr ?_ (and_congr (by rw [List.length_eq_zero_iff]) ?_)
  · simp only [mem_contentLengths]
    constructor
    · rintro hall m ⟨name, value, hmem, hname, rfl⟩
      exact (hall name value hmem hname).2.2
    · intro hall name value hmem hname
      obtain ⟨hne, hdigits, -⟩ := fromChars_eq_some_nil (hvalid name value hmem hname)
      exact ⟨hne, hdigits, hall _ ⟨name, value, hmem, hname, rfl⟩⟩
  · simp only [hfind, Option.some.injEq, exists_eq_left', hfirst, HttpRequest.lengths]

def postRequest (contentLengths : String) (body : String) : Bytes :=
  ascii "POST / HTTP/1.1\r\n" ++ ascii contentLengths ++ ascii "\r\n" ++ ascii body

theorem read_unambiguous_iff_post :
    ∃ req, readHttpRequest {} [postRequest "Content-Length: 3\r\n" "abc"] = .ok req ∧
      Unambiguous [postRequest "Content-Length: 3\r\n" "abc"].flatten req := by
  refine ⟨{
      method := .post, methodText := ascii "POST", target := ascii "/", version := ascii "HTTP/1.1"
      headers := [(ascii "Content-Length", ascii "3")], body := ascii "abc" },
    by decide +kernel, ?_⟩
  exact (read_unambiguous_iff {} _ _ (by decide +kernel)).mpr (by decide +kernel)

/-- Two numbers: the reader takes five bytes, the request has three of them; or the number stands
in the request line, and no header has one. -/
theorem read_ambiguous :
    (∃ req, readHttpRequest {} [postRequest "Content-Length: 5\r\nContent-Length: 3\r\n" "abcde"] =
      .ok req ∧ contentLengths req.headers = [5, 3] ∧ req.body = ascii "abc") ∧
    ∃ req, readHttpRequest {} [ascii "Content-Length: 5 HTTP/1.1\r\n\r\nabcde"] = .ok req ∧
      req.headers = [] ∧ req.body = ascii "abcde" := by
  refine ⟨⟨{
      method := .post, methodText := ascii "POST", target := ascii "/", version := ascii "HTTP/1.1"
      headers := [(ascii "Content-Length", ascii "5"), (ascii "Content-Length", ascii "3")]
      body := ascii "abc" }, ?_⟩, {
      methodText := ascii "Content-Length:", target := ascii "5", version := ascii "HTTP/1.1"
      body := ascii "abcde" }, ?_⟩ <;> decide +kernel

end Nexus.Http
