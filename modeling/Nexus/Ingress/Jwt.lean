import Nexus.Ingress.Base64
import Nexus.Ingress.JsonValue

/-!
# JSON web tokens

`JwtVerifier::verify` of `ingress/jwt.cpp`. The MAC is a parameter: nothing here depends on what
HMAC-SHA256 computes. The sums of seconds are those of `int64_t`, which wrap around.
-/

namespace Nexus.Jwt

open Lib Json List
open Base64 (base64urlDecode)
open Http (ascii eq_of_find_singleton)

/-! ## The verifier -/

structure Principal where
  subject : Bytes := []
  roles : List Bytes := []
  deriving DecidableEq

structure JwtOptions where
  issuer : Bytes := []
  audience : Bytes := []
  leewaySeconds : Int := 0
  requireExp : Bool := true

def reject {α : Type} (why : String) : Expected α := makeError .invalidArgument ("JWT: " ++ why)

/-- The value that a sum has as an `int64_t`. -/
def int64 (n : Int) : Int := n.bmod (2 ^ 64)

def constantTimeEqual (lhs rhs : Bytes) : Bool :=
  lhs.length = rhs.length ∧ (lhs.zipWith (· ^^^ ·) rhs).foldl (· ||| ·) 0 = 0

/-- The segment, which has to be a JSON object. -/
def decodeJsonSegment (segment : Bytes) (what : String) : Expected JsonValue :=
  match base64urlDecode segment with
  | .error _ => reject (what ++ " no es base64url")
  | .ok bytes =>
    match parseJson bytes with
    | .error _ => reject (what ++ " no es JSON")
    | .ok (.object members) => .ok (.object members)
    | .ok _ => reject (what ++ " no es un objeto JSON")

/-- `as_int64` of a member, if it is a number. -/
def timeOf (payload : JsonValue) (name : String) : Option Int :=
  match payload.find (ascii name) with
  | some (.number q) => some (q.num.tdiv q.den)
  | _ => none

def checkTemporal (payload : JsonValue) (now : Int) (options : JwtOptions) : Expected Unit :=
  let leeway := options.leewaySeconds
  if options.requireExp ∧ timeOf payload "exp" = none then reject "falta el claim 'exp'"
  else if ∃ exp ∈ timeOf payload "exp", int64 (exp + leeway) < now then reject "token expirado"
  else if ∃ nbf ∈ timeOf payload "nbf", int64 (now + leeway) < nbf then
    reject "token aún no válido (nbf)"
  else if ∃ iat ∈ timeOf payload "iat", int64 (now + leeway) < iat then
    reject "token emitido en el futuro (iat)"
  else .ok ()

def isText (text : Bytes) : JsonValue → Bool
  | .string s => s = text
  | _ => false

def checkIssuerAudience (payload : JsonValue) (options : JwtOptions) : Expected Unit :=
  if options.issuer ≠ [] ∧ ¬ (payload.find (ascii "iss")).any (isText options.issuer) then
    reject "emisor (iss) no autorizado"
  else if options.audience = [] then .ok ()
  else
    match payload.find (ascii "aud") with
    | none => reject "falta la audiencia (aud)"
    | some (.array items) =>
      if items.any (isText options.audience) then .ok ()
      else reject "audiencia (aud) no autorizada"
    | some aud =>
      if isText options.audience aud then .ok () else reject "audiencia (aud) no autorizada"

def textOf : JsonValue → Option Bytes
  | .string s => some s
  | _ => none

def buildPrincipal (payload : JsonValue) : Principal where
  subject := ((payload.find (ascii "sub")).bind textOf).getD []
  roles :=
    match payload.find (ascii "roles") with
    | some (.array roles) => roles.filterMap textOf
    | _ => []

/-- The three parts of a token. -/
def splitToken (token : Bytes) : Expected (Bytes × Bytes × Bytes) :=
  match find [46] token with
  | none => reject "formato inválido (faltan '.')"
  | some first =>
    let rest := token.drop (first + 1)
    match find [46] rest with
    | none => reject "formato inválido (faltan '.')"
    | some second =>
      let signature := rest.drop (second + 1)
      if find [46] signature ≠ none then reject "formato inválido (sobran '.')"
      else .ok (token.take first, rest.take second, signature)

def checkHeader (header : Bytes) : Expected Unit :=
  (decodeJsonSegment header "cabecera").bind fun json =>
    if (json.find (ascii "alg")).any (isText (ascii "HS256")) then .ok ()
    else reject "algoritmo no soportado (se exige HS256)"

def checkSignature (mac signature : Bytes) : Expected Unit :=
  match base64urlDecode signature with
  | .error _ => reject "firma no es base64url"
  | .ok provided => if constantTimeEqual mac provided then .ok () else reject "firma inválida"

def readPayload (payload : Bytes) (now : Int) (options : JwtOptions) : Expected Principal :=
  (decodeJsonSegment payload "payload").bind fun json =>
    (checkTemporal json now options).bind fun _ =>
      (checkIssuerAudience json options).bind fun _ => .ok (buildPrincipal json)

def verify (hmac : Bytes → Bytes → Bytes) (secret : Bytes) (options : JwtOptions) (token : Bytes)
    (now : Int) : Expected Principal :=
  (splitToken token).bind fun (header, payload, signature) =>
    (checkHeader header).bind fun _ =>
      (checkSignature (hmac secret (header ++ 46 :: payload)) signature).bind fun _ =>
        readPayload payload now options

/-! ## Soundness -/

variable {c : UInt8} {options : JwtOptions} {signature token secret s : Bytes} {payload : JsonValue}
  {hmac : Bytes → Bytes → Bytes} {now n : Int} {principal : Principal} {text a : Bytes}

theorem find_singleton_eq_none : find [c] s = none ↔ c ∉ s := by
  induction s with
  | nil => simp [find]
  | cons a s ih => by_cases hc : c = a <;> simp [find, hc, ih]

theorem not_mem_take_of_find {i : Nat} (h : find [c] s = some i) :
    c ∉ s.take i := by
  rw [← find_singleton_eq_none, find_take (by simp) h]
  exact if_neg (by simp)

theorem foldl_or_eq_zero {l : Bytes} {acc : UInt8} :
    l.foldl (· ||| ·) acc = 0 ↔ acc = 0 ∧ ∀ x ∈ l, x = 0 := by
  induction l generalizing acc with
  | nil => simp
  | cons x l ih => simp [ih, UInt8.or_eq_zero_iff, and_assoc]

theorem constantTimeEqual_iff {lhs rhs : Bytes} : constantTimeEqual lhs rhs ↔ lhs = rhs := by
  simp only [constantTimeEqual, foldl_or_eq_zero, true_and, decide_eq_true_eq]
  induction lhs generalizing rhs with
  | nil => cases rhs <;> simp
  | cons a lhs ih =>
    cases rhs with
    | nil => simp
    | cons b rhs =>
      simp only [length_cons, Nat.add_right_cancel_iff, zipWith_cons_cons,
        forall_mem_cons, UInt8.xor_eq_zero_iff, cons.injEq, ← ih]
      tauto

/-- The parts of a token. -/
structure Parts (token header payload signature : Bytes) : Prop where
  eq : token = header ++ 46 :: (payload ++ 46 :: signature)
  header : 46 ∉ header
  payload : 46 ∉ payload
  signature : 46 ∉ signature

theorem splitToken_eq_ok {header payload : Bytes}
    (h : splitToken token = .ok (header, payload, signature)) :
    Parts token header payload signature := by
  unfold splitToken reject makeError at h
  split at h
  · cases h
  rename_i first hfirst
  dsimp only at h
  split at h
  · cases h
  rename_i second hsecond
  split at h
  · cases h
  rename_i hthird
  cases h
  refine ⟨?_, not_mem_take_of_find hfirst, not_mem_take_of_find hsecond,
    find_singleton_eq_none.mp (Decidable.not_not.mp hthird)⟩
  rw [← eq_of_find_singleton hsecond, ← eq_of_find_singleton hfirst]

theorem isText_iff {v : JsonValue} : isText text v ↔ v = .string text := by
  cases v <;> simp [isText]

theorem any_isText_iff {v : Option JsonValue} :
    v.any (isText text) ↔ v = some (.string text) := by
  cases v <;> simp [isText_iff]

/-- The times of the payload are in order, in integers. -/
def TimesOk (payload : JsonValue) (now : Int) (options : JwtOptions) : Prop :=
  (options.requireExp → ∃ q, payload.find (ascii "exp") = some (.number q)) ∧
  ∀ n : Int, n.natAbs ≤ 2 ^ 53 →
    (payload.find (ascii "exp") = some (.number n) → now ≤ n + options.leewaySeconds) ∧
    (payload.find (ascii "nbf") = some (.number n) → n ≤ now + options.leewaySeconds) ∧
    (payload.find (ascii "iat") = some (.number n) → n ≤ now + options.leewaySeconds)

/-- The payload has the issuer and the audience of the options. -/
def AuthorityOk (payload : JsonValue) (options : JwtOptions) : Prop :=
  (options.issuer ≠ [] → payload.find (ascii "iss") = some (.string options.issuer)) ∧
  (options.audience ≠ [] → payload.find (ascii "aud") = some (.string options.audience) ∨
    ∃ items, payload.find (ascii "aud") = some (.array items) ∧ .string options.audience ∈ items)

theorem timeOf_eq_some {name : String}
    (h : payload.find (ascii name) = some (.number n)) : timeOf payload name = some n := by
  simp [timeOf, h]

theorem int64_eq (h : -2 ^ 63 ≤ n ∧ n < 2 ^ 63) : int64 n = n :=
  Int.bmod_eq_of_le_mul_two (by omega) (by omega)

/-- The sums that the verifier makes are in the range of `int64_t`. -/
def InRange (options : JwtOptions) (now : Int) : Prop :=
  -2 ^ 63 + 2 ^ 53 ≤ options.leewaySeconds ∧ options.leewaySeconds < 2 ^ 63 - 2 ^ 53 ∧
  -2 ^ 63 ≤ now + options.leewaySeconds ∧ now + options.leewaySeconds < 2 ^ 63

instance (options : JwtOptions) (now : Int) : Decidable (InRange options now) :=
  inferInstanceAs (Decidable (_ ∧ _))

theorem checkTemporal_eq_ok
    (h : checkTemporal payload now options = .ok ()) (hrange : InRange options now) :
    TimesOk payload now options := by
  obtain ⟨hlow, hhigh, hnow⟩ := hrange
  unfold checkTemporal reject makeError at h
  simp only [int64_eq hnow] at h
  split at h
  · cases h
  rename_i hexp
  split at h
  · cases h
  rename_i hexpired
  split at h
  · cases h
  rename_i hnbf
  split at h
  · cases h
  rename_i hiat
  refine ⟨fun hrequire => ?_, fun n hn => ⟨fun hfind => ?_, fun hfind => ?_, fun hfind => ?_⟩⟩
  · have htime : timeOf payload "exp" ≠ none := fun hnone => hexp ⟨hrequire, hnone⟩
    unfold timeOf at htime
    split at htime
    · exact ⟨_, by assumption⟩
    · exact absurd rfl htime
  · refine Int.not_lt.mp fun hlt => hexpired ⟨n, timeOf_eq_some hfind, ?_⟩
    rwa [int64_eq (by omega)]
  · exact Int.not_lt.mp fun hlt => hnbf ⟨n, timeOf_eq_some hfind, hlt⟩
  · exact Int.not_lt.mp fun hlt => hiat ⟨n, timeOf_eq_some hfind, hlt⟩

theorem checkIssuerAudience_eq_ok
    (h : checkIssuerAudience payload options = .ok ()) : AuthorityOk payload options := by
  unfold checkIssuerAudience reject makeError at h
  split at h
  · cases h
  rename_i hiss
  refine ⟨fun hne => ?_, fun hne => ?_⟩
  · exact any_isText_iff.mp (Decidable.not_not.mp fun hnot => hiss ⟨hne, hnot⟩)
  · rw [if_neg hne] at h
    split at h
    · cases h
    · rename_i items haud
      split at h
      · rename_i hany
        obtain ⟨v, hv, htext⟩ := any_eq_true.mp hany
        exact .inr ⟨items, haud, isText_iff.mp htext ▸ hv⟩
      · cases h
    · rename_i aud _ haud
      split at h
      · rename_i htext
        exact .inl (isText_iff.mp htext ▸ haud)
      · cases h

theorem readPayload_eq_ok {payload : Bytes} (h : readPayload payload now options = .ok principal) :
    ∃ json, decodeJsonSegment payload "payload" = .ok json ∧
      checkTemporal json now options = .ok () ∧ checkIssuerAudience json options = .ok () ∧
      principal = buildPrincipal json := by
  obtain ⟨json, hjson, h⟩ := exists_of_bind_eq_ok h
  obtain ⟨⟨⟩, htimes, h⟩ := exists_of_bind_eq_ok h
  obtain ⟨⟨⟩, hauthority, h⟩ := exists_of_bind_eq_ok h
  exact ⟨json, hjson, htimes, hauthority, (Except.ok.inj h).symm⟩

theorem checkSignature_eq_ok {mac : Bytes} (h : checkSignature mac signature = .ok ()) :
    base64urlDecode signature = .ok mac := by
  unfold checkSignature reject makeError at h
  split at h
  · cases h
  rename_i provided hprovided
  split at h
  · rename_i heq
    rw [hprovided, constantTimeEqual_iff.mp heq]
  · cases h

theorem cut_unique {a' b b' : Bytes} (ha : c ∉ a) (ha' : c ∉ a')
    (h : a ++ c :: b = a' ++ c :: b') : a = a' ∧ b = b' := by
  induction a generalizing a' with
  | nil => cases a' <;> simp_all
  | cons x a ih =>
    cases a' with
    | nil =>
      obtain ⟨rfl, -⟩ := cons.inj h
      exact absurd mem_cons_self ha
    | cons x' a' => grind

theorem Parts.payload_eq {header header' payload payload' signature' : Bytes}
    (h : Parts token header payload signature) (h' : Parts token header' payload' signature') :
    payload = payload' := by
  obtain ⟨-, hrest⟩ := cut_unique h.header h'.header (h.eq.symm.trans h'.eq)
  exact (cut_unique h.payload h'.payload hrest).1

theorem verify_eq_ok (h : verify hmac secret options token now = .ok principal) :
    ∃ header payload signature, Parts token header payload signature ∧
      checkHeader header = .ok () ∧
      base64urlDecode signature = .ok (hmac secret (header ++ 46 :: payload)) ∧
      readPayload payload now options = .ok principal := by
  obtain ⟨⟨header, payload, signature⟩, hsplit, h⟩ := exists_of_bind_eq_ok h
  obtain ⟨⟨⟩, hheader, h⟩ := exists_of_bind_eq_ok h
  obtain ⟨⟨⟩, hsignature, h⟩ := exists_of_bind_eq_ok h
  exact ⟨header, payload, signature, splitToken_eq_ok hsplit, hheader,
    checkSignature_eq_ok hsignature, h⟩

/-- What a token is that authenticates the principal: three parts, the last one the MAC of the first
two, with members that satisfy the options; and every verifier that accepts a token with this
payload gives this principal. -/
def Authentic (hmac : Bytes → Bytes → Bytes) (secret : Bytes) (options : JwtOptions)
    (token : Bytes) (now : Int) (principal : Principal) : Prop :=
  ∃ header payload signature headerJson payloadJson, Parts token header payload signature ∧
    base64urlDecode signature = .ok (hmac secret (header ++ 46 :: payload)) ∧
    decodeJsonSegment header "cabecera" = .ok headerJson ∧
    headerJson.find (ascii "alg") = some (.string (ascii "HS256")) ∧
    decodeJsonSegment payload "payload" = .ok payloadJson ∧
    TimesOk payloadJson now options ∧ AuthorityOk payloadJson options ∧
    ∀ secret' options' token' now' header' signature' principal',
      Parts token' header' payload signature' →
      verify hmac secret' options' token' now' = .ok principal' → principal' = principal

/-- The segments of `alg: HS256` and `exp: -1`. -/
def headerSegment : Bytes := ascii "eyJhbGciOiJIUzI1NiJ9"

def payloadSegment : Bytes := ascii "eyJleHAiOi0xfQ"

theorem find_append_cons (h : c ∉ a) (b : Bytes) :
    find [c] (a ++ c :: b) = some a.length := by
  induction a with
  | nil => simp [find]
  | cons x a ih => simp_all [find]

/-- With a leeway of `INT64_MIN` the sum for `exp` wraps around to the last second there is: a token
that expired at -1 passes at 0, whatever the MAC is. -/
theorem verify_wrapped (hdots : 46 ∉ signature)
    (hsigned : base64urlDecode signature =
      .ok (hmac secret (headerSegment ++ 46 :: payloadSegment))) :
    verify hmac secret { leewaySeconds := -2 ^ 63 }
      (headerSegment ++ 46 :: (payloadSegment ++ 46 :: signature)) 0 = .ok {} := by
  have hsplit : splitToken (headerSegment ++ 46 :: (payloadSegment ++ 46 :: signature)) =
      .ok (headerSegment, payloadSegment, signature) := by
    simp [splitToken, find_append_cons (show 46 ∉ headerSegment by decide),
      find_append_cons (show 46 ∉ payloadSegment by decide), find_singleton_eq_none.mpr hdots]
  have hheader : checkHeader headerSegment = .ok () := by decide +kernel
  have hread : readPayload payloadSegment 0 { leewaySeconds := -2 ^ 63 } = .ok {} := by
    decide +kernel
  simpa [verify, hsplit, hheader, checkSignature, hsigned, constantTimeEqual_iff.mpr, Except.bind]
    using hread

end Nexus.Jwt
