import Mathlib.Data.List.TakeWhile
import Nexus.Common
import Nexus.Lib.LittleEndian
import Nexus.Lib.Search

/-!
# HTTP requests

The parser of `ingress/http.cpp`. Texts are bytes. `std::tolower` is taken in the C locale, where it
is what the connection reader (`server/admin_http.cpp`) has of its own.

Every error of the parser has the code `InvalidArgument` (`invalid_parseRequest`), and a request
that is accepted says where its parts are in the text (`parseRequest_eq_ok`).
-/

namespace Nexus.Http

open Lib List

def ascii (s : String) : Bytes := s.toList.map Char.toUInt8

def crlf : Bytes := [13, 10]

/-- The end of the headers. -/
def blankLine : Bytes := [13, 10, 13, 10]

def toLower (c : UInt8) : UInt8 := if 65 ≤ c ∧ c ≤ 90 then c + 32 else c

def iequals (a b : Bytes) : Bool := a.map toLower = b.map toLower

def isSpace (c : UInt8) : Bool := c = 32 ∨ c = 9

def trim (s : Bytes) : Bytes := ((s.dropWhile isSpace).reverse.dropWhile isSpace).reverse

def isDigit (c : UInt8) : Bool := 48 ≤ c ∧ c ≤ 57

/-- The number that the digits stand for. -/
def decimal (digits : Bytes) : Nat := digits.foldl (fun n c => 10 * n + (c.toNat - 48)) 0

/-- `std::from_chars` for a `size_t`: the number, and what follows its digits. -/
def fromChars (s : Bytes) : Option (Nat × Bytes) :=
  let digits := s.takeWhile isDigit
  if digits = [] ∨ 2 ^ 64 ≤ decimal digits then none
  else some (decimal digits, s.dropWhile isDigit)

inductive HttpMethod
  | get | head | post | put | delete | patch | options | unknown
  deriving DecidableEq

structure HttpRequest where
  method : HttpMethod := .unknown
  methodText : Bytes := []
  target : Bytes := []
  version : Bytes := []
  headers : List (Bytes × Bytes) := []
  body : Bytes := []
  deriving DecidableEq

structure HttpParseLimits where
  maxRequestLine : Nat := 8192
  maxHeaders : Nat := 100
  maxHeaderBytes : Nat := 16384
  maxBody : Nat := 2 ^ 20

def invalid {α : Type} (message : String) : Expected α := makeError .invalidArgument message

def parseMethod (token : Bytes) : HttpMethod :=
  if token = ascii "GET" then .get
  else if token = ascii "HEAD" then .head
  else if token = ascii "POST" then .post
  else if token = ascii "PUT" then .put
  else if token = ascii "DELETE" then .delete
  else if token = ascii "PATCH" then .patch
  else if token = ascii "OPTIONS" then .options
  else .unknown

def parseRequestLine (line : Bytes) : Expected HttpRequest :=
  match find [32] line with
  | none => invalid "línea de petición HTTP malformada"
  | some sp1 =>
    let rest := line.drop (sp1 + 1)
    match find [32] rest with
    | none => invalid "línea de petición HTTP malformada"
    | some sp2 =>
      let method := line.take sp1
      let target := rest.take sp2
      let version := rest.drop (sp2 + 1)
      if method = [] ∨ target = [] ∨ ¬ (ascii "HTTP/").isPrefixOf version then
        invalid "línea de petición HTTP inválida"
      else .ok { method := parseMethod method, methodText := method, target, version }

/-- The name and the value of a header line. -/
def splitHeader (line : Bytes) : Option (Bytes × Bytes) :=
  (find [58] line).map fun colon => (trim (line.take colon), trim (line.drop (colon + 1)))

def isContentLength (name : Bytes) : Bool := iequals name (ascii "content-length")

/-- `parse_headers`, over the lines of the block. -/
def parseHeaders (limits : HttpParseLimits) :
    List Bytes → List (Bytes × Bytes) → Option Nat → Expected (List (Bytes × Bytes) × Option Nat)
  | [], headers, contentLength => .ok (headers, contentLength)
  | line :: lines, headers, contentLength =>
    match splitHeader line with
    | none => invalid "cabecera HTTP sin ':'"
    | some (name, value) =>
      if name = [] then invalid "cabecera HTTP con nombre vacío"
      else if limits.maxHeaders ≤ headers.length then invalid "demasiadas cabeceras HTTP"
      else if isContentLength name then
        match fromChars value with
        | some (len, []) => parseHeaders limits lines (headers ++ [(name, value)]) (some len)
        | _ => invalid "Content-Length inválido"
      else parseHeaders limits lines (headers ++ [(name, value)]) contentLength

/-- The body, by the last `Content-Length`, or all that there is. -/
def takeBody (limits : HttpParseLimits) (contentLength : Option Nat) (body : Bytes) :
    Expected Bytes :=
  match contentLength with
  | some len =>
    if limits.maxBody < len then invalid "cuerpo HTTP excede el máximo"
    else if body.length < len then invalid "cuerpo HTTP incompleto"
    else .ok (body.take len)
  | none =>
    if limits.maxBody < body.length then invalid "cuerpo HTTP excede el máximo" else .ok body

def parseRequest (raw : Bytes) (limits : HttpParseLimits) : Expected HttpRequest :=
  match find crlf raw with
  | none => invalid "petición HTTP sin línea de petición"
  | some lineEnd =>
    if limits.maxRequestLine < lineEnd then invalid "línea de petición HTTP demasiado larga"
    else
      (parseRequestLine (raw.take lineEnd)).bind fun req =>
        match (find blankLine (raw.drop lineEnd)).map (· + lineEnd) with
        | none => invalid "petición HTTP sin fin de cabeceras"
        | some headersEnd =>
          let blockStart := lineEnd + 2
          let block := (raw.take headersEnd).drop blockStart
          if limits.maxHeaderBytes < block.length then invalid "cabeceras HTTP demasiado grandes"
          else
            (parseHeaders limits (splitOn crlf block) [] none).bind fun (headers, contentLength) =>
              (takeBody limits contentLength (raw.drop (headersEnd + 4))).map fun body =>
                { req with headers, body }

/-! ## What the parser gives -/

/-- An error of the parser. -/
def Invalid {α : Type} (x : Expected α) : Prop := ∀ e, x = .error e → e.code = .invalidArgument

theorem invalid_ok {α : Type} (a : α) : Invalid (.ok a : Expected α) := nofun

theorem invalid_invalid {α : Type} (message : String) : Invalid (invalid message : Expected α) := by
  rintro e ⟨⟩
  rfl

theorem invalid_bind {α β : Type} {x : Expected α} {f : α → Expected β} (hx : Invalid x)
    (hf : ∀ a, Invalid (f a)) : Invalid (x.bind f) := by
  cases x with
  | error e => exact fun e' h => hx e' (by cases h; rfl)
  | ok a => exact hf a

theorem invalid_parseRequestLine (line : Bytes) : Invalid (parseRequestLine line) := by
  intro e h
  unfold parseRequestLine invalid makeError at h
  grind

theorem invalid_parseHeaders (limits : HttpParseLimits) (lines : List Bytes)
    (headers : List (Bytes × Bytes)) (contentLength : Option Nat) :
    Invalid (parseHeaders limits lines headers contentLength) := by
  induction lines generalizing headers contentLength with
  | nil => exact invalid_ok _
  | cons line lines ih =>
    unfold parseHeaders
    repeat' split
    all_goals first | exact invalid_invalid _ | exact ih _ _

theorem invalid_takeBody (limits : HttpParseLimits) (contentLength : Option Nat) (body : Bytes) :
    Invalid (takeBody limits contentLength body) := by
  unfold takeBody
  repeat' split
  all_goals first | exact invalid_invalid _ | exact invalid_ok _

theorem invalid_parseRequest (raw : Bytes) (limits : HttpParseLimits) :
    Invalid (parseRequest raw limits) := by
  unfold parseRequest
  split
  · exact invalid_invalid _
  split
  · exact invalid_invalid _
  refine invalid_bind (invalid_parseRequestLine _) fun req => ?_
  split
  · exact invalid_invalid _
  dsimp only
  split
  · exact invalid_invalid _
  refine invalid_bind (invalid_parseHeaders _ _ _ _) fun res => ?_
  exact invalid_bind (invalid_takeBody _ _ _) fun body => invalid_ok _

/-- The line that the request starts with. -/
def HttpRequest.requestLine (req : HttpRequest) : Bytes :=
  req.methodText ++ 32 :: (req.target ++ 32 :: req.version)

/-- The numbers of the `Content-Length` headers. -/
def contentLengths (headers : List (Bytes × Bytes)) : List Nat :=
  headers.filterMap fun h => if isContentLength h.1 then some (decimal h.2) else none

theorem eq_of_find_singleton {c : UInt8} {s : Bytes} {i : Nat} (h : find [c] s = some i) :
    s = s.take i ++ c :: s.drop (i + 1) := by
  obtain ⟨⟨rest, hrest⟩, -⟩ := (find_eq_some_iff (by simp)).mp h
  conv => lhs; rw [← take_append_drop i s, ← hrest]
  rw [← drop_drop, ← hrest]
  rfl

variable {req : HttpRequest}

theorem parseRequestLine_eq_ok {line : Bytes}
    (h : parseRequestLine line = .ok req) : req.requestLine = line := by
  unfold parseRequestLine invalid makeError at h
  split at h
  · cases h
  rename_i sp1 hsp1
  dsimp only at h
  split at h
  · cases h
  rename_i sp2 hsp2
  split at h
  · cases h
  cases h
  rw [HttpRequest.requestLine, ← eq_of_find_singleton hsp2, ← eq_of_find_singleton hsp1]

/-- A number that fills its field. -/
theorem fromChars_eq_some_nil {value : Bytes} {len : Nat} (h : fromChars value = some (len, [])) :
    value ≠ [] ∧ value.all isDigit ∧ len = decimal value := by
  unfold fromChars at h
  dsimp only at h
  split at h
  · cases h
  · rename_i hdigits
    obtain ⟨hlen, hrest⟩ := Prod.mk.injEq .. ▸ Option.some.inj h
    have hall : ∀ c ∈ value, isDigit c := dropWhile_eq_nil_iff.mp hrest
    rw [takeWhile_eq_self_iff.mpr hall] at hlen hdigits
    exact ⟨fun hnil => hdigits (.inl hnil), all_eq_true.mpr hall, hlen.symm⟩

theorem contentLengths_cons (name value : Bytes) (headers : List (Bytes × Bytes)) :
    contentLengths ((name, value) :: headers) =
      if isContentLength name then decimal value :: contentLengths headers
      else contentLengths headers := by
  unfold contentLengths
  rw [filterMap_cons]
  split <;> simp_all

variable {limits : HttpParseLimits}

/-- What `parse_headers` adds for the lines. -/
theorem parseHeaders_eq_ok {lines : List Bytes}
    {headers headers' : List (Bytes × Bytes)} {contentLength contentLength' : Option Nat}
    (h : parseHeaders limits lines headers contentLength = .ok (headers', contentLength')) :
    ∃ added, headers' = headers ++ added ∧ lines.map splitHeader = added.map some ∧
      (∀ name value, (name, value) ∈ added → isContentLength name →
        fromChars value = some (decimal value, [])) ∧
      contentLength' = (contentLengths added).getLast?.or contentLength := by
  induction lines generalizing headers contentLength with
  | nil =>
    cases h
    exact ⟨[], by simp [contentLengths]⟩
  | cons line lines ih =>
    unfold parseHeaders invalid makeError at h
    split at h
    · cases h
    rename_i name value hsplit
    split at h
    · cases h
    split at h
    · cases h
    split at h
    · rename_i hname
      split at h
      · rename_i len hlen
        obtain ⟨added, rfl, hlines, hvalid, rfl⟩ := ih h
        obtain ⟨-, -, rfl⟩ := fromChars_eq_some_nil hlen
        refine ⟨(name, value) :: added, by simp, by simp [hsplit, hlines], by grind, ?_⟩
        rw [contentLengths_cons, if_pos hname, getLast?_cons]
        cases (contentLengths added).getLast? <;> rfl
      · cases h
    · rename_i hname
      obtain ⟨added, rfl, hlines, hvalid, rfl⟩ := ih h
      refine ⟨(name, value) :: added, by simp, by simp [hsplit, hlines], by grind, ?_⟩
      rw [contentLengths_cons, if_neg hname]

/-- The parts of a request that is accepted. -/
theorem parseRequest_eq_ok {raw : Bytes} (h : parseRequest raw limits = .ok req) :
    ∃ lineEnd headersEnd contentLength, find crlf raw = some lineEnd ∧
      req.requestLine = raw.take lineEnd ∧
      (find blankLine (raw.drop lineEnd)).map (· + lineEnd) = some headersEnd ∧
      parseHeaders limits (splitOn crlf ((raw.take headersEnd).drop (lineEnd + 2))) [] none =
        .ok (req.headers, contentLength) ∧
      takeBody limits contentLength (raw.drop (headersEnd + 4)) = .ok req.body := by
  unfold parseRequest invalid makeError at h
  split at h
  · cases h
  rename_i lineEnd hline
  split at h
  · cases h
  obtain ⟨req₀, hreq, h⟩ := exists_of_bind_eq_ok h
  split at h
  · cases h
  rename_i headersEnd hend
  dsimp only at h
  split at h
  · cases h
  obtain ⟨⟨headers, contentLength⟩, hheaders, h⟩ := exists_of_bind_eq_ok h
  obtain ⟨body, hbody, rfl⟩ := exists_of_map_eq_ok h
  have hline' := parseRequestLine_eq_ok hreq
  exact ⟨lineEnd, headersEnd, contentLength, hline, hline', hend, hheaders, hbody⟩

end Nexus.Http
