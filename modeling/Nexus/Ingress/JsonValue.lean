import Nexus.Ingress.Http
import Nexus.Lib.Parser

/-!
# JSON values and their parser

`ingress/json_value.cpp`. The parser looks at the part of the text from its position on. A number is
the number that its token stands for, where the source has the `double` nearest to it.

The parser is compared with a grammar. `Rules` are the places where the parser and RFC 8259 part:
`rfc` is the grammar of the RFC, without escapes for lone surrogates, and `lenient` is what the
parser takes. `parses_value`: a text is accepted exactly if it is one of `lenient`, and the value is
the one that the grammar gives.
-/

namespace Nexus.Json

open Lib List
open Http (ascii isDigit decimal)

/-! ## The parser -/

inductive JsonValue
  | null
  | bool (flag : Bool)
  | number (number : Rat)
  | string (text : Bytes)
  | array (items : List JsonValue)
  | object (members : List (Bytes × JsonValue))

/-- The first member of the key, for an object. -/
def JsonValue.find (key : Bytes) : JsonValue → Option JsonValue
  | .object members => (members.find? fun member => member.1 = key).map Prod.snd
  | _ => none

/-- Where the parser was when it gave up, as the part of the text that was left, and why. -/
structure Failure where
  rest : Bytes
  what : String

abbrev Parse (α : Type) := Except Failure (α × Bytes)

def fail {α : Type} (rest : Bytes) (what : String) : Except Failure α := .error ⟨rest, what⟩

def isWs (c : UInt8) : Bool := c = 32 ∨ c = 9 ∨ c = 10 ∨ c = 13

def hexDigit (c : UInt8) : Option Nat :=
  if 48 ≤ c ∧ c ≤ 57 then some (c.toNat - 48)
  else if 97 ≤ c ∧ c ≤ 102 then some (c.toNat - 97 + 10)
  else if 65 ≤ c ∧ c ≤ 70 then some (c.toNat - 65 + 10)
  else none

/-- The loop of `read_hex4`; an error leaves what follows the digit that is none. -/
def readHex : Nat → Nat → Bytes → Except Bytes (Nat × Bytes)
  | 0, value, s => .ok (value, s)
  | _ + 1, _, [] => .error []
  | n + 1, value, c :: s =>
    match hexDigit c with
    | none => .error s
    | some digit => readHex n (16 * value + digit) s

def readHex4 (s : Bytes) : Except Bytes (Nat × Bytes) :=
  if s.length < 4 then .error s else readHex 4 0 s

def appendUtf8 (n : Nat) : Bytes :=
  if n ≤ 0x7F then [UInt8.ofNat n]
  else if n ≤ 0x7FF then [UInt8.ofNat (0xC0 ||| n >>> 6), UInt8.ofNat (0x80 ||| n &&& 0x3F)]
  else if n ≤ 0xFFFF then
    [UInt8.ofNat (0xE0 ||| n >>> 12), UInt8.ofNat (0x80 ||| n >>> 6 &&& 0x3F),
      UInt8.ofNat (0x80 ||| n &&& 0x3F)]
  else
    [UInt8.ofNat (0xF0 ||| n >>> 18), UInt8.ofNat (0x80 ||| n >>> 12 &&& 0x3F),
      UInt8.ofNat (0x80 ||| n >>> 6 &&& 0x3F), UInt8.ofNat (0x80 ||| n &&& 0x3F)]

def isHigh (n : Nat) : Bool := 0xD800 ≤ n ∧ n ≤ 0xDBFF

def isLow (n : Nat) : Bool := 0xDC00 ≤ n ∧ n ≤ 0xDFFF

/-- The code point of a surrogate pair. -/
def codePoint (high low : Nat) : Nat := 0x10000 + (high - 0xD800) <<< 10 + (low - 0xDC00)

def appendUnicodeEscape (s : Bytes) : Except Bytes (Bytes × Bytes) :=
  (readHex4 s).bind fun (first, s) =>
    if isHigh first then
      if (ascii "\\u").isPrefixOf s then
        (readHex4 (s.drop 2)).bind fun (second, s) =>
          if isLow second then .ok (appendUtf8 (codePoint first second), s) else .error s
      else .error s
    else .ok (appendUtf8 first, s)

/-- The escapes of one letter. -/
def simpleEscape (c : UInt8) : Option UInt8 :=
  if c = 34 then some 34
  else if c = 92 then some 92
  else if c = 47 then some 47
  else if c = 98 then some 8
  else if c = 102 then some 12
  else if c = 110 then some 10
  else if c = 114 then some 13
  else if c = 116 then some 9
  else none

/-- `append_escape`: the bytes of the escape after the backslash. -/
def appendEscape : Bytes → Except Bytes (Bytes × Bytes)
  | [] => .error []
  | c :: s =>
    match simpleEscape c with
    | some b => .ok ([b], s)
    | none => if c = 117 then appendUnicodeEscape s else .error s

/-! ### Escapes -/

/-- Four hexadecimal digits. -/
def Hex4 (t : Bytes) (n : Nat) : Prop :=
  ∃ digits : List Nat, digits.length = 4 ∧ t.map hexDigit = digits.map some ∧
    n = digits.foldl (fun value digit => 16 * value + digit) 0

/-- The places where the parser and the RFC part. -/
structure Rules where
  /-- The bytes that may stand for themselves in a string. -/
  raw : UInt8 → Bool
  /-- The values that `\u` may give on its own. -/
  single : Nat → Bool
  /-- The digits after a point. -/
  fraction : Bytes → Bool

/-- RFC 8259, where surrogates come in pairs. -/
def rfc : Rules where
  raw c := 32 ≤ c ∧ c ≠ 34 ∧ c ≠ 92
  single n := ¬ isHigh n ∧ ¬ isLow n
  fraction digits := digits ≠ []

/-- What the parser takes. -/
def lenient : Rules where
  raw c := c ≠ 34 ∧ c ≠ 92
  single n := ¬ isHigh n
  fraction _ := true

/-- An escape, after the backslash. -/
inductive Escape (r : Rules) : Bytes → Bytes → Prop
  | simple {c b : UInt8} (h : simpleEscape c = some b) : Escape r [c] [b]
  | unicode {t : Bytes} {n : Nat} (h : Hex4 t n) (hn : r.single n) :
    Escape r (117 :: t) (appendUtf8 n)
  | pair {t t' : Bytes} {n n' : Nat} (h : Hex4 t n) (hn : isHigh n) (h' : Hex4 t' n')
    (hn' : isLow n') : Escape r (117 :: (t ++ 92 :: 117 :: t')) (appendUtf8 (codePoint n n'))

def anything (_ : UInt8) : Bool := true

theorem follows_anything (rest : Bytes) : Follows anything rest := fun _ _ => rfl

variable {rest t s integer signs : Bytes} {G : Bytes → JsonValue → Prop} {v : JsonValue} {c : UInt8}
  {value : Bytes → Parse JsonValue} {α : Type} {text : Bytes} {r : Rules} {e : Int}

theorem readHex_sound {n value m : Nat} (h : readHex n value s = .ok (m, rest)) :
    ∃ (t : Bytes) (digits : List Nat), s = t ++ rest ∧ digits.length = n ∧
      t.map hexDigit = digits.map some ∧
      m = digits.foldl (fun value digit => 16 * value + digit) value := by
  induction n generalizing value s with
  | zero =>
    cases h
    exact ⟨[], [], rfl, rfl, rfl, rfl⟩
  | succ n ih =>
    cases s with
    | nil => cases h
    | cons c s =>
      rw [readHex] at h
      split at h
      · cases h
      · rename_i digit hc
        obtain ⟨t, digits, rfl, hlen, ht, rfl⟩ := ih h
        exact ⟨c :: t, digit :: digits, rfl, by simp [hlen], by simp [hc, ht], rfl⟩

theorem readHex_complete {digits : List Nat} {value : Nat} (ht : t.map hexDigit = digits.map some) :
    readHex digits.length value (t ++ rest) =
      .ok (digits.foldl (fun value digit => 16 * value + digit) value, rest) := by
  induction digits generalizing t value with
  | nil =>
    obtain rfl : t = [] := by simpa using ht
    rfl
  | cons digit digits ih =>
    cases t with
    | nil => cases ht
    | cons c t =>
      simp only [map_cons, cons.injEq] at ht
      simp only [cons_append, length_cons, readHex, ht.1]
      exact ih ht.2

theorem length_of_hex4 {n : Nat} (h : Hex4 t n) : t.length = 4 := by
  obtain ⟨digits, hlen, ht, -⟩ := h
  simpa [hlen] using congrArg length ht

theorem parses_readHex4 : Parses readHex4 Hex4 anything where
  sound := by
    intro s rest n h
    unfold readHex4 at h
    split at h
    · cases h
    · obtain ⟨t, digits, hs, hlen, ht, hn⟩ := readHex_sound h
      exact ⟨t, hs, digits, hlen, ht, hn⟩
  complete := by
    rintro t rest n h -
    have hlen4 := length_of_hex4 h
    obtain ⟨digits, hlen, ht, rfl⟩ := h
    rw [readHex4, if_neg (by simp [hlen4]), ← hlen, readHex_complete ht]

theorem parses_appendUnicodeEscape :
    Parses appendUnicodeEscape (fun t b => Escape lenient (117 :: t) b) anything where
  sound := by
    intro s rest b h
    unfold appendUnicodeEscape at h
    obtain ⟨⟨n, s₁⟩, hfirst, h₁⟩ := exists_of_bind_eq_ok h
    obtain ⟨t, rfl, ht⟩ := parses_readHex4.sound hfirst
    dsimp only at h₁
    split at h₁
    · rename_i hhigh
      split at h₁
      · rename_i hstart
        obtain ⟨s₂, rfl⟩ := isPrefixOf_iff_prefix.mp hstart
        obtain ⟨⟨n', s₃⟩, hsecond, h₂⟩ := exists_of_bind_eq_ok h₁
        obtain ⟨t', hs, ht'⟩ := parses_readHex4.sound hsecond
        obtain rfl : s₂ = t' ++ s₃ := hs
        dsimp only at h₂
        split at h₂
        · rename_i hlow
          obtain ⟨rfl, rfl⟩ := Prod.mk.injEq .. ▸ Except.ok.inj h₂
          exact ⟨t ++ 92 :: 117 :: t', by simp; rfl, .pair ht hhigh ht' hlow⟩
        · cases h₂
      · cases h₁
    · rename_i hhigh
      cases h₁
      exact ⟨t, rfl, .unicode ht (by simpa [lenient] using hhigh)⟩
  complete := by
    rintro t rest b h -
    have hany := follows_anything
    cases h with
    | simple h => cases h
    | unicode h hn =>
      rw [appendUnicodeEscape, parses_readHex4.complete h (hany _)]
      simp_all [Except.bind, lenient]
    | @pair t t' n n' h hn h' hn' =>
      rw [append_assoc, appendUnicodeEscape, parses_readHex4.complete h (hany _)]
      have hdrop : (92 :: 117 :: t' ++ rest).drop 2 = t' ++ rest := rfl
      have hstart : (ascii "\\u").isPrefixOf (92 :: 117 :: t' ++ rest) :=
        isPrefixOf_iff_prefix.mpr ⟨t' ++ rest, rfl⟩
      simp only [Except.bind, hn, hstart, hdrop, parses_readHex4.complete h' (hany _), hn', if_true]

theorem parses_appendEscape : Parses appendEscape (Escape lenient) anything where
  sound := by
    intro s rest b h
    unfold appendEscape at h
    split at h
    · cases h
    rename_i c s
    split at h
    · rename_i b' hc
      cases h
      exact ⟨[c], rfl, .simple hc⟩
    · split at h
      · rename_i hc
        subst hc
        obtain ⟨t, rfl, ht⟩ := parses_appendUnicodeEscape.sound h
        exact ⟨117 :: t, rfl, ht⟩
      · cases h
  complete := by
    rintro t rest b h hrest
    cases h with
    | simple h => simp [appendEscape, h]
    | unicode h hn =>
      exact parses_appendUnicodeEscape.complete (.unicode h hn) hrest
    | pair h hn h' hn' =>
      exact parses_appendUnicodeEscape.complete (.pair h hn h' hn') hrest

theorem length_of_appendEscape {b : Bytes} (h : appendEscape s = .ok (b, rest)) :
    rest.length < s.length := by
  obtain ⟨t, rfl, ht⟩ := parses_appendEscape.sound h
  cases ht <;> simp <;> omega

/-- `parse_string_raw`, after the quote. -/
def parseStringRaw (s : Bytes) : Parse Bytes :=
  match s with
  | [] => fail [] "cadena sin cerrar"
  | c :: s =>
    if c = 34 then .ok ([], s)
    else if c = 92 then
      match _h : appendEscape s with
      | .error rest => fail rest "escape inválido"
      | .ok (b, rest) => (parseStringRaw rest).map fun (out, rest) => (b ++ out, rest)
    else (parseStringRaw s).map fun (out, rest) => (c :: out, rest)
termination_by s.length
decreasing_by
  · have := length_of_appendEscape _h
    simp only [List.length_cons]
    omega
  · simp

/-- What a string has between its quotes. -/
inductive Chars (r : Rules) : Bytes → Bytes → Prop
  | nil : Chars r [] []
  | raw {c : UInt8} {t s : Bytes} (hc : r.raw c) (h : Chars r t s) : Chars r (c :: t) (c :: s)
  | escape {e b t s : Bytes} (he : Escape r e b) (h : Chars r t s) :
    Chars r (92 :: e ++ t) (b ++ s)

/-- A string, after its first quote. -/
def StringText (r : Rules) (t s : Bytes) : Prop := ∃ t', t = t' ++ [34] ∧ Chars r t' s

theorem parses_stringRaw : Parses parseStringRaw (StringText lenient) anything where
  sound := by
    intro s
    fun_induction parseStringRaw s with
    | case1 => nofun
    | case2 s =>
      rintro rest out ⟨⟩
      exact ⟨[34], rfl, [], rfl, .nil⟩
    | case3 s rest h hc => nofun
    | case4 s b s' h hc ih =>
      intro rest out hout
      obtain ⟨⟨out', rest'⟩, hmore, heq⟩ := exists_of_map_eq_ok hout
      obtain ⟨rfl, rfl⟩ := Prod.mk.injEq .. ▸ heq
      obtain ⟨e, rfl, he⟩ := parses_appendEscape.sound h
      obtain ⟨t, rfl, t', rfl, ht⟩ := ih hmore
      exact ⟨92 :: e ++ t' ++ [34], by simp, _, rfl, .escape he ht⟩
    | case5 c s hc hc' ih =>
      intro rest out hout
      obtain ⟨⟨out', rest'⟩, hmore, heq⟩ := exists_of_map_eq_ok hout
      obtain ⟨rfl, rfl⟩ := Prod.mk.injEq .. ▸ heq
      obtain ⟨t, rfl, t', rfl, ht⟩ := ih hmore
      exact ⟨c :: t' ++ [34], by simp, _, rfl, .raw (by simp [lenient, hc, hc']) ht⟩
  complete := by
    rintro t rest s ⟨t, rfl, ht⟩ -
    induction ht with
    | nil =>
      rw [parseStringRaw.eq_def]
      rfl
    | @raw c t s hc h ih =>
      obtain ⟨hc, hc'⟩ : c ≠ 34 ∧ c ≠ 92 := by simpa [lenient] using hc
      simp only [cons_append]
      rw [parseStringRaw]
      simp only [hc, hc', if_false, ih]
      rfl
    | @escape e b t s he h ih =>
      have hescape : appendEscape (e ++ (t ++ [34] ++ rest)) = .ok (b, t ++ [34] ++ rest) :=
        parses_appendEscape.complete he (follows_anything _)
      have hassoc : 92 :: e ++ t ++ [34] ++ rest = 92 :: (e ++ (t ++ [34] ++ rest)) := by simp
      rw [hassoc, parseStringRaw, if_neg (by decide), if_pos rfl]
      split
      · simp_all
      · rename_i b' rest' h'
        obtain ⟨rfl, rfl⟩ : b = b' ∧ t ++ [34] ++ rest = rest' := by
          simpa using hescape.symm.trans h'
        rw [ih]
        rfl

def consumeIntegerPart : Bytes → Option (Bytes × Bytes)
  | [] => none
  | c :: s =>
    if ¬ isDigit c then none
    else if c = 48 then some ([48], s)
    else some ((c :: s).takeWhile isDigit, (c :: s).dropWhile isDigit)

def consumeFraction : Bytes → Bytes × Bytes
  | [] => ([], [])
  | c :: s => if c = 46 then (s.takeWhile isDigit, s.dropWhile isDigit) else ([], c :: s)

/-- One of the signs, if there is one. -/
def optionalSign (signs : Bytes) : Bytes → Bytes × Bytes
  | [] => ([], [])
  | c :: s => if c ∈ signs then ([c], s) else ([], c :: s)

def consumeExponent : Bytes → Except Bytes (Int × Bytes)
  | [] => .ok (0, [])
  | c :: s =>
    if c ≠ 101 ∧ c ≠ 69 then .ok (0, c :: s)
    else
      let (sign, s) := optionalSign [43, 45] s
      let digits := s.takeWhile isDigit
      if digits = [] then .error s
      else .ok (if sign = [45] then -decimal digits else decimal digits, s.dropWhile isDigit)

/-- The number that a token stands for, by its parts. -/
def strtod (negative : Bool) (integer fraction : Bytes) (exponent : Int) : Rat :=
  (if negative then -1 else 1) * (decimal (integer ++ fraction) : Rat) *
    10 ^ (exponent - fraction.length)

def parseNumber (s : Bytes) : Parse JsonValue :=
  let (sign, s) := optionalSign [45] s
  match consumeIntegerPart s with
  | none => fail s "número inválido"
  | some (integer, s) =>
    let (fraction, s) := consumeFraction s
    match consumeExponent s with
    | .error s => fail s "exponente inválido"
    | .ok (exponent, s) => .ok (.number (strtod (sign = [45]) integer fraction exponent), s)

def parseBool (s : Bytes) : Parse JsonValue :=
  if (ascii "true").isPrefixOf s then .ok (.bool true, s.drop 4)
  else if (ascii "false").isPrefixOf s then .ok (.bool false, s.drop 5)
  else fail s "literal booleano inválido"

def parseNull (s : Bytes) : Parse JsonValue :=
  if (ascii "null").isPrefixOf s then .ok (.null, s.drop 4) else fail s "literal nulo inválido"

/-- The loop of `parse_object` and `parse_array`, after the opening bracket. -/
def container {α : Type} (item : Bytes → Parse α) (close : UInt8) (ended other : String)
    (s : Bytes) : Parse (List α) :=
  let s' := s.dropWhile isWs
  if s'.head? = some close then .ok ([], s'.tail)
  else separated item 44 close (⟨·, ended⟩) (⟨·, other⟩) (s.length + 1) s'

/-- A member of an object, up to what follows the value. -/
def member (value : Bytes → Parse JsonValue) (s : Bytes) : Parse (Bytes × JsonValue) :=
  let s := s.dropWhile isWs
  if s.head? ≠ some 34 then fail s "se esperaba una clave de cadena"
  else
    (parseStringRaw s.tail).bind fun (key, s) =>
      let s := s.dropWhile isWs
      if s.head? ≠ some 58 then fail s "se esperaba ':'"
      else (value s.tail).map fun (v, s) => ((key, v), s)

/-- `parse_value`, where `value` parses the values inside, with the blanks around them. -/
def parseHere (value : Bytes → Parse JsonValue) (s : Bytes) : Parse JsonValue :=
  if s = [] then fail s "se esperaba un valor"
  else if s.head? = some 123 then
    (container (member value) 125 "objeto sin cerrar" "se esperaba ',' o '\x7d'" s.tail).map
      fun (members, s) => (.object members, s)
  else if s.head? = some 91 then
    (container value 93 "array sin cerrar" "se esperaba ',' o ']'" s.tail).map
      fun (items, s) => (.array items, s)
  else if s.head? = some 34 then
    (parseStringRaw s.tail).map fun (text, s) => (.string text, s)
  else if s.head? = some 116 ∨ s.head? = some 102 then parseBool s
  else if s.head? = some 110 then parseNull s
  else parseNumber s

def kJsonMaxDepth : Nat := 64

/-- `parse_value`, by the depths that are left. -/
def parseValue : Nat → Bytes → Parse JsonValue
  | 0, s => fail s "anidamiento JSON demasiado profundo"
  | levels + 1, s => parseHere (padded isWs (parseValue levels)) s

def parseDocument (text : Bytes) : Except Failure JsonValue :=
  (padded isWs (parseValue (kJsonMaxDepth + 1)) text).bind fun (value, rest) =>
    if rest = [] then .ok value else fail rest "contenido sobrante tras el valor JSON"

def parseJson (text : Bytes) : Expected JsonValue :=
  (parseDocument text).mapError fun failure =>
    { code := .invalidArgument
      message := "JSON inválido en byte " ++ toString (text.length - failure.rest.length) ++ ": " ++
        failure.what }

/-! ## The grammar -/

def SignText (signs t : Bytes) : Prop := t = [] ∨ ∃ c ∈ signs, t = [c]

def IntegerText (t : Bytes) : Prop :=
  t = [48] ∨ ∃ c t', t = c :: t' ∧ c ≠ 48 ∧ t.all isDigit

def FractionText (r : Rules) (t digits : Bytes) : Prop :=
  t = [] ∧ digits = [] ∨ t = 46 :: digits ∧ digits.all isDigit ∧ r.fraction digits

def ExponentText (t : Bytes) (exponent : Int) : Prop :=
  t = [] ∧ exponent = 0 ∨
  ∃ c sign digits, t = c :: (sign ++ digits) ∧ (c = 101 ∨ c = 69) ∧
    SignText [43, 45] sign ∧ digits ≠ [] ∧ digits.all isDigit ∧
    exponent = if sign = [45] then -(decimal digits : Int) else decimal digits

def NumberText (r : Rules) (t : Bytes) (number : Rat) : Prop :=
  ∃ sign integer fraction digits exponent e, t = sign ++ (integer ++ (fraction ++ exponent)) ∧
    SignText [45] sign ∧ IntegerText integer ∧ FractionText r fraction digits ∧
    ExponentText exponent e ∧ number = strtod (sign = [45]) integer digits e

/-- What is between the brackets, with the closing one. -/
def SequenceText {α : Type} (G : Bytes → α → Prop) (close : UInt8) (t : Bytes) (as : List α) :
    Prop :=
  ∃ t', t = t' ++ [close] ∧ (t'.all isWs ∧ as = [] ∨ Joined G 44 t' as)

def MemberText (r : Rules) (G : Bytes → JsonValue → Prop) (t : Bytes) (m : Bytes × JsonValue) :
    Prop :=
  ∃ before key after value, t = before ++ 34 :: (key ++ (after ++ 58 :: value)) ∧
    before.all isWs ∧ after.all isWs ∧ StringText r key m.1 ∧ G value m.2

/-- A value, where `G` is what the values inside are. -/
inductive TextHere (r : Rules) (G : Bytes → JsonValue → Prop) : Bytes → JsonValue → Prop
  | null : TextHere r G (ascii "null") .null
  | true : TextHere r G (ascii "true") (.bool true)
  | false : TextHere r G (ascii "false") (.bool false)
  | number {t : Bytes} {q : Rat} (h : NumberText r t q) : TextHere r G t (.number q)
  | string {t s : Bytes} (h : StringText r t s) : TextHere r G (34 :: t) (.string s)
  | array {t : Bytes} {items : List JsonValue} (h : SequenceText G 93 t items) :
    TextHere r G (91 :: t) (.array items)
  | object {t : Bytes} {members : List (Bytes × JsonValue)}
    (h : SequenceText (MemberText r G) 125 t members) : TextHere r G (123 :: t) (.object members)

/-- The values of less than `levels` levels. -/
def ValueText (r : Rules) : Nat → Bytes → JsonValue → Prop
  | 0 => fun _ _ => False
  | levels + 1 => TextHere r (Padded isWs (ValueText r levels))

/-- A document with at most `kJsonMaxDepth` brackets around a value. -/
def Document (r : Rules) : Bytes → JsonValue → Prop :=
  Padded isWs (ValueText r (kJsonMaxDepth + 1))

/-! ## Numbers -/

def isEnd (c : UInt8) : Bool := c = 44 ∨ c = 93 ∨ c = 125

/-- What can follow a value. -/
def isAfter (c : UInt8) : Bool := isWs c || isEnd c

/-- What can follow a number. -/
theorem not_number_of_isAfter (h : isAfter c) :
    isDigit c = false ∧ c ≠ 46 ∧ c ≠ 101 ∧ c ≠ 69 := by
  simp only [isAfter, isWs, isEnd, Bool.or_eq_true, decide_eq_true_eq] at h
  rcases h with (rfl | rfl | rfl | rfl) | rfl | rfl | rfl <;> decide

theorem consumeIntegerPart_sound (h : consumeIntegerPart s = some (integer, rest)) :
    s = integer ++ rest ∧ IntegerText integer := by
  unfold consumeIntegerPart at h
  split at h
  · cases h
  rename_i c s
  split at h
  · cases h
  rename_i hc
  split at h
  · rename_i h48
    cases h
    exact ⟨by simp [h48], .inl rfl⟩
  · rename_i h48
    obtain ⟨rfl, rfl⟩ := Prod.mk.injEq .. ▸ Option.some.inj h
    refine ⟨takeWhile_append_dropWhile.symm, .inr ⟨c, s.takeWhile isDigit, ?_, h48, ?_⟩⟩
    · simp_all
    · exact all_takeWhile

theorem consumeIntegerPart_complete (h : IntegerText integer)
    (hrest : Follows (fun c => !isDigit c) rest) :
    consumeIntegerPart (integer ++ rest) = some (integer, rest) := by
  rcases h with rfl | ⟨c, t, rfl, hc, hall⟩
  · rfl
  · have htake := takeWhile_append hall hrest
    have hdrop := (dropWhile_append hall).trans (dropWhile_of_follows hrest)
    have hdigit : isDigit c := by simp_all
    simp only [cons_append] at htake hdrop ⊢
    simp [consumeIntegerPart, hdigit, hc, htake, hdrop]

theorem consumeFraction_sound (s : Bytes) :
    ∃ t, s = t ++ (consumeFraction s).2 ∧ FractionText lenient t (consumeFraction s).1 := by
  unfold consumeFraction
  split
  · exact ⟨[], rfl, .inl ⟨rfl, rfl⟩⟩
  rename_i c s
  split
  · rename_i hc
    exact ⟨46 :: s.takeWhile isDigit, by simp [hc], .inr ⟨rfl, all_takeWhile, rfl⟩⟩
  · exact ⟨[], rfl, .inl ⟨rfl, rfl⟩⟩

theorem consumeFraction_complete {digits : Bytes} (h : FractionText lenient t digits)
    (hrest : Follows (fun c => !isDigit c && c != 46) rest) :
    consumeFraction (t ++ rest) = (digits, rest) := by
  rcases h with ⟨rfl, rfl⟩ | ⟨rfl, hall, -⟩
  · cases rest with
    | nil => rfl
    | cons c rest =>
      have hc : c ≠ 46 := by
        have := hrest c rfl
        simp_all
      simp [consumeFraction, hc]
  · have hdigit := hrest.mono fun c hc => (Bool.and_eq_true_iff.mp hc).1
    simp only [cons_append, consumeFraction, if_true, takeWhile_append hall hdigit,
      dropWhile_append hall, dropWhile_of_follows hdigit]

theorem SignText.mem (h : SignText signs t) (hc : c ∈ t) :
    c ∈ signs := by
  rcases h with rfl | ⟨d, hd, rfl⟩
  · cases hc
  · exact mem_singleton.mp hc ▸ hd

theorem optionalSign_sound (signs s : Bytes) :
    s = (optionalSign signs s).1 ++ (optionalSign signs s).2 ∧
      SignText signs (optionalSign signs s).1 := by
  unfold optionalSign
  split
  · exact ⟨rfl, .inl rfl⟩
  rename_i c s
  split
  · rename_i hc
    exact ⟨rfl, .inr ⟨c, hc, rfl⟩⟩
  · exact ⟨rfl, .inl rfl⟩

theorem optionalSign_complete {sign : Bytes} (hsign : SignText signs sign)
    (hs : Follows isDigit s) (hdigit : ∀ c ∈ signs, isDigit c = false) :
    optionalSign signs (sign ++ s) = (sign, s) := by
  rcases hsign with rfl | ⟨c, hc, rfl⟩
  · cases s with
    | nil => rfl
    | cons c s =>
      have hmem : c ∉ signs := fun hmem => by simpa [hs c rfl] using hdigit c hmem
      simp [optionalSign, hmem]
  · simp [optionalSign, hc]

theorem consumeExponent_sound (h : consumeExponent s = .ok (e, rest)) :
    ∃ t, s = t ++ rest ∧ ExponentText t e := by
  unfold consumeExponent at h
  split at h
  · cases h
    exact ⟨[], rfl, .inl ⟨rfl, rfl⟩⟩
  rename_i c s
  split at h
  · cases h
    exact ⟨[], rfl, .inl ⟨rfl, rfl⟩⟩
  rename_i hc
  obtain ⟨hs, hsign⟩ := optionalSign_sound [43, 45] s
  dsimp only at h
  split at h
  · cases h
  rename_i hne
  obtain ⟨he, rfl⟩ := Prod.mk.injEq .. ▸ Except.ok.inj h
  refine ⟨c :: ((optionalSign [43, 45] s).1 ++ (optionalSign [43, 45] s).2.takeWhile isDigit), ?_,
    .inr ⟨c, _, _, rfl, ?_, hsign, hne, all_takeWhile, he.symm⟩⟩
  · simp [← hs]
  · tauto

theorem consumeExponent_complete (h : ExponentText t e)
    (hrest : Follows isAfter rest) : consumeExponent (t ++ rest) = .ok (e, rest) := by
  rcases h with ⟨rfl, rfl⟩ | ⟨c, sign, digits, rfl, hc, hsign, hne, hall, rfl⟩
  · cases rest with
    | nil => rfl
    | cons c rest =>
      obtain ⟨-, -, hc⟩ := not_number_of_isAfter (hrest c rfl)
      simp [consumeExponent, hc]
  · have hdigit : Follows (fun c => !isDigit c) rest :=
      hrest.mono fun c hc => by simp [(not_number_of_isAfter hc).1]
    have hstart : Follows isDigit (digits ++ rest) := by
      cases digits with
      | nil => exact absurd rfl hne
      | cons d digits => exact follows_cons (by simp_all)
    have hexp : ¬ (c ≠ 101 ∧ c ≠ 69) := by tauto
    simp only [cons_append, append_assoc, consumeExponent, hexp, if_false,
      optionalSign_complete hsign hstart (by decide +kernel), takeWhile_append hall hdigit, hne,
      dropWhile_append hall, dropWhile_of_follows hdigit]

theorem IntegerText.follows (h : IntegerText t) (rest : Bytes) :
    t ++ rest ≠ [] ∧ Follows isDigit (t ++ rest) := by
  rcases h with rfl | ⟨c, t', rfl, -, hall⟩
  · exact ⟨by simp, follows_cons (by decide)⟩
  · exact ⟨by simp, follows_cons (by simp_all)⟩

theorem parses_number :
    Parses parseNumber (fun t v => ∃ q, v = .number q ∧ NumberText lenient t q) isAfter where
  sound := by
    intro s rest v h
    obtain ⟨hs, hsign⟩ := optionalSign_sound [45] s
    unfold parseNumber at h
    dsimp only at h
    split at h
    · cases h
    rename_i integer s₁ hinteger
    obtain ⟨hs₁, hint⟩ := consumeIntegerPart_sound hinteger
    obtain ⟨fraction, hs₂, hfrac⟩ := consumeFraction_sound s₁
    split at h
    · cases h
    rename_i e s₃ hexponent
    obtain ⟨exponent, hs₃, hexp⟩ := consumeExponent_sound hexponent
    obtain ⟨rfl, rfl⟩ := Prod.mk.injEq .. ▸ Except.ok.inj h
    refine ⟨(optionalSign [45] s).1 ++ (integer ++ (fraction ++ exponent)), ?_, _, rfl, _, integer,
      fraction, _, exponent, e, rfl, hsign, hint, hfrac, hexp, rfl⟩
    simp only [append_assoc, ← hs₃, ← hs₂, ← hs₁, ← hs]
  complete := by
    rintro t rest v ⟨q, rfl, sign, integer, fraction, digits, exponent, e, rfl, hsign, hint, hfrac,
      hexp, rfl⟩ hrest
    have hx : Follows (fun c => !isDigit c && c != 46) (exponent ++ rest) := by
      rcases hexp with ⟨rfl, -⟩ | ⟨c, sign, ds, rfl, rfl | rfl, -⟩
      · exact hrest.mono fun c hc => by
          obtain ⟨hd, h46, -⟩ := not_number_of_isAfter hc
          simp [hd, h46]
      · exact follows_cons (by decide)
      · exact follows_cons (by decide)
    have hf : Follows (fun c => !isDigit c) (fraction ++ (exponent ++ rest)) := by
      rcases hfrac with ⟨rfl, -⟩ | ⟨rfl, -⟩
      · exact hx.mono fun c hc => (Bool.and_eq_true_iff.mp hc).1
      · exact follows_cons (by decide)
    simp only [parseNumber, append_assoc,
      optionalSign_complete hsign (hint.follows _).2 (by decide +kernel),
      consumeIntegerPart_complete hint hf, consumeFraction_complete hfrac hx,
      consumeExponent_complete hexp hrest]

/-! ## Objects and arrays -/

theorem isEnd_not_isWs (c : UInt8) (h : isEnd c) : !isWs c := by
  simp only [isEnd, decide_eq_true_eq] at h
  rcases h with rfl | rfl | rfl <;> decide

theorem parses_container {item : Bytes → Parse α} {G : Bytes → α → Prop}
    {close : UInt8} (h : Parses item G isEnd) (hclose : close = 93 ∨ close = 125)
    (hskip : ∀ s, item (s.dropWhile isWs) = item s)
    (hitem : ∀ s res, item (close :: s) ≠ .ok res) (ended other : String) :
    Parses (container item close ended other) (SequenceText G close) anything where
  sound := by
    intro s rest as hs
    unfold container at hs
    dsimp only at hs
    split at hs
    · rename_i hempty
      obtain ⟨w, hw, hsw⟩ := exists_eq_append_dropWhile isWs s
      obtain ⟨rfl, rfl⟩ := Prod.mk.injEq .. ▸ Except.ok.inj hs
      refine ⟨w ++ [close], ?_, w, rfl, .inl ⟨hw, rfl⟩⟩
      rw [append_assoc, singleton_append, cons_tail_of_head? hempty]
      exact hsw
    · rw [separated_congr (hskip s)] at hs
      obtain ⟨t, rfl, hj⟩ := separated_sound h hs
      exact ⟨t ++ [close], by simp, t, rfl, .inr hj⟩
  complete := by
    rintro t rest as ⟨t, rfl, hseq⟩ -
    have hends : isEnd close := by rcases hclose with rfl | rfl <;> rfl
    rw [append_assoc, singleton_append]
    unfold container
    dsimp only
    rcases hseq with ⟨hw, rfl⟩ | hj
    · rw [dropWhile_append hw, dropWhile_of_follows (follows_cons (isEnd_not_isWs _ hends))]
      exact if_pos rfl
    · have hloop : separated item 44 close (⟨·, ended⟩) (⟨·, other⟩)
          ((t ++ close :: rest).length + 1) (t ++ close :: rest) = .ok (as, rest) :=
        separated_complete h (by decide) hends (by rcases hclose with rfl | rfl <;> decide) hj
          (by rw [length_append]; omega)
      rw [separated_congr (hskip _), hloop]
      refine if_neg fun hhead => ?_
      -- An element would start with the closing bracket.
      obtain ⟨res, hres⟩ := exists_of_separated hloop
      rw [← hskip, ← cons_tail_of_head? hhead] at hres
      exact hitem _ _ hres

theorem parses_member
    (h : Parses value G isEnd) : Parses (member value) (MemberText lenient G) isEnd where
  sound := by
    intro s rest m hs
    unfold member at hs
    dsimp only at hs
    split at hs
    · cases hs
    rename_i hquote
    obtain ⟨⟨key, s₁⟩, hkey, hs⟩ := exists_of_bind_eq_ok hs
    dsimp only at hs
    split at hs
    · cases hs
    rename_i hcolon
    obtain ⟨⟨v, rest'⟩, hvalue, heq⟩ := exists_of_map_eq_ok hs
    obtain ⟨rfl, rfl⟩ := Prod.mk.injEq .. ▸ heq
    obtain ⟨before, hbefore, hs₀⟩ := exists_eq_append_dropWhile isWs s
    obtain ⟨after, hafter, hs₁⟩ := exists_eq_append_dropWhile isWs s₁
    obtain ⟨t, htail, ht⟩ := parses_stringRaw.sound hkey
    obtain ⟨t', htail', ht'⟩ := h.sound hvalue
    refine ⟨before ++ 34 :: (t ++ (after ++ 58 :: t')), ?_, before, t, after, t', rfl, hbefore,
      hafter, ht, ht'⟩
    rw [← cons_tail_of_head? (Decidable.not_not.mp hcolon), htail'] at hs₁
    rw [← cons_tail_of_head? (Decidable.not_not.mp hquote), htail, hs₁] at hs₀
    simpa using hs₀
  complete := by
    rintro t rest ⟨key, v⟩ ⟨before, t, after, t', rfl, hbefore, hafter, ht, ht'⟩ hrest
    have hquote : (before ++ 34 :: (t ++ (after ++ 58 :: t')) ++ rest).dropWhile isWs =
        34 :: (t ++ (after ++ 58 :: (t' ++ rest))) := by
      rw [append_assoc, dropWhile_append hbefore, cons_append,
        dropWhile_of_follows (follows_cons (by decide))]
      simp
    have hcolon : (after ++ 58 :: (t' ++ rest)).dropWhile isWs = 58 :: (t' ++ rest) := by
      rw [dropWhile_append hafter, dropWhile_of_follows (follows_cons (by decide))]
    simp only [member, hquote, head?_cons, ne_eq, not_true_eq_false, if_false, tail_cons,
      parses_stringRaw.complete ht (follows_anything _), Except.bind, hcolon,
      h.complete ht' hrest, Except.map]

/-! ## Values -/

theorem NumberText.start {q : Rat} (h : NumberText r t q) :
    ∃ c t', t = c :: t' ∧ (c = 45 ∨ isDigit c) := by
  obtain ⟨sign, integer, fraction, digits, exponent, e, rfl, hsign, hint, -⟩ := h
  rcases hsign with rfl | ⟨c, hc, rfl⟩
  · rcases hint with rfl | ⟨c, t', rfl, -, hall⟩
    · exact ⟨48, _, rfl, .inr rfl⟩
    · exact ⟨c, _, rfl, .inr (by simp_all)⟩
  · exact ⟨c, _, rfl, .inl (mem_singleton.mp hc)⟩

/-- The letters that the parser goes by do not start a number. -/
theorem not_start_number (h : c = 45 ∨ isDigit c) :
    c ∉ [123, 91, 34, 116, 102, 110, 32, 9, 10, 13] := by
  intro hc
  simp only [mem_cons, not_mem_nil, or_false] at hc
  rcases hc with rfl | rfl | rfl | rfl | rfl | rfl | rfl | rfl | rfl | rfl <;> revert h <;> decide

theorem TextHere.start (h : TextHere r G t v) : ∃ c t', t = c :: t' ∧ !isWs c := by
  cases h with
  | number h =>
    obtain ⟨c, t', rfl, hc⟩ := h.start
    have := not_start_number hc
    exact ⟨c, t', rfl, by simp_all [isWs]⟩
  | _ => exact ⟨_, _, rfl, by decide⟩

/-- What a first letter leads to. -/
theorem sound_head {p : Bytes → Parse α} {G : Bytes → α → Prop} {f : α → JsonValue}
    (hp : Parses p G anything)
    (hhead : s.head? = some c) (hs : (p s.tail).map (fun (a, s) => (f a, s)) = .ok (v, rest)) :
    ∃ t a, s = c :: t ++ rest ∧ G t a ∧ v = f a := by
  obtain ⟨⟨a, rest'⟩, hs', heq⟩ := exists_of_map_eq_ok hs
  obtain ⟨rfl, rfl⟩ := Prod.mk.injEq .. ▸ heq
  obtain ⟨t, htail, ht⟩ := hp.sound hs'
  exact ⟨t, a, by rw [cons_append, ← htail, cons_tail_of_head? hhead], ht, rfl⟩

theorem sound_literal {w : Bytes} {v' : JsonValue} (hstart : w.isPrefixOf s = true)
    (hs : (.ok (v, s.drop w.length) : Parse JsonValue) = .ok (v', rest)) :
    s = w ++ rest ∧ v' = v := by
  obtain ⟨s', rfl⟩ := isPrefixOf_iff_prefix.mp hstart
  obtain ⟨rfl, rfl⟩ := Prod.mk.injEq .. ▸ Except.ok.inj hs
  exact ⟨by rw [drop_left], rfl⟩

theorem parses_here (h : Parses value G isEnd) (hskip : ∀ s, value (s.dropWhile isWs) = value s)
    (hclose : ∀ s res, value (93 :: s) ≠ .ok res) :
    Parses (parseHere value) (TextHere lenient G) isAfter := by
  have harray := parses_container h (.inl rfl) hskip hclose "array sin cerrar"
    "se esperaba ',' o ']'"
  have hobject := parses_container (parses_member h) (.inr rfl)
    (fun s => by simp only [member, dropWhile_dropWhile])
    (fun s res => by simp [member, isWs, fail]) "objeto sin cerrar" "se esperaba ',' o '\x7d'"
  constructor
  · intro s rest v hs
    unfold parseHere at hs
    split at hs
    · cases hs
    split at hs
    · rename_i hhead
      obtain ⟨t, _, hs', ht, rfl⟩ := sound_head hobject hhead hs
      exact ⟨123 :: t, hs', .object ht⟩
    split at hs
    · rename_i hhead
      obtain ⟨t, _, hs', ht, rfl⟩ := sound_head harray hhead hs
      exact ⟨91 :: t, hs', .array ht⟩
    split at hs
    · rename_i hhead
      obtain ⟨t, _, hs', ht, rfl⟩ := sound_head parses_stringRaw hhead hs
      exact ⟨34 :: t, hs', .string ht⟩
    split at hs
    · unfold parseBool at hs
      split at hs
      · rename_i hstart
        obtain ⟨rfl, rfl⟩ := sound_literal hstart hs
        exact ⟨_, rfl, .true⟩
      split at hs
      · rename_i hstart
        obtain ⟨rfl, rfl⟩ := sound_literal hstart hs
        exact ⟨_, rfl, .false⟩
      · cases hs
    split at hs
    · unfold parseNull at hs
      split at hs
      · rename_i hstart
        obtain ⟨rfl, rfl⟩ := sound_literal hstart hs
        exact ⟨_, rfl, .null⟩
      · cases hs
    · obtain ⟨t, rfl, q, rfl, ht⟩ := parses_number.sound hs
      exact ⟨t, rfl, .number ht⟩
  · intro t rest v ht hrest
    cases ht with
    | null => rfl
    | true => rfl
    | false => rfl
    | number ht =>
      have hnumber := parses_number.complete ⟨_, rfl, ht⟩ hrest
      obtain ⟨c, t', rfl, hc⟩ := ht.start
      have hc := not_start_number hc
      simp_all [parseHere]
    | string ht =>
      have hstring := parses_stringRaw.complete ht (follows_anything rest)
      simp [parseHere, hstring, Except.map]
    | array ht => simp [parseHere, harray.complete ht (follows_anything rest), Except.map]
    | object ht => simp [parseHere, hobject.complete ht (follows_anything rest), Except.map]

theorem padded_dropWhile (p : Bytes → Parse α) (s : Bytes) :
    padded isWs p (s.dropWhile isWs) = padded isWs p s := by
  simp only [padded, dropWhile_dropWhile]

/-- The values that are accepted, and the inner ones, which blanks may surround. -/
theorem parses_value (levels : Nat) :
    Parses (parseValue levels) (ValueText lenient levels) isAfter := by
  induction levels with
  | zero => exact ⟨nofun, nofun⟩
  | succ levels ih =>
    refine parses_here (ih.padded isEnd_not_isWs ?_) (padded_dropWhile _) ?_
    · intro t v ht
      cases levels with
      | zero => exact ht.elim
      | succ levels => exact ht.start
    · intro s res hs
      cases levels with
      | zero => cases hs
      | succ levels => cases hs

theorem parseDocument_eq_ok_iff :
    parseDocument text = .ok v ↔ Document lenient text v := by
  have h := (parses_value (kJsonMaxDepth + 1)).padded isEnd_not_isWs fun t v ht => ht.start
  constructor
  · intro hv
    obtain ⟨⟨v', rest⟩, hparse, hv⟩ := exists_of_bind_eq_ok hv
    dsimp only at hv
    split at hv
    · rename_i hrest
      cases hv
      obtain ⟨t, ht, hG⟩ := h.sound hparse
      rwa [ht, hrest, append_nil]
    · cases hv
  · intro hv
    have hparse := h.complete hv (show Follows isEnd [] from nofun)
    rw [append_nil] at hparse
    rw [parseDocument, hparse]
    rfl

/-- The exact language of the parser. -/
theorem parseJson_eq_ok_iff :
    parseJson text = .ok v ↔ Document lenient text v := by
  rw [← parseDocument_eq_ok_iff, parseJson]
  cases parseDocument text <;> simp [Except.mapError]

end Nexus.Json
