import Nexus.Ingress.JsonValue

/-!
# The JSON writer

`JsonWriter` of `ingress/json.cpp`: the commas are kept by a flag for each open container, and a
value that follows a key adds none. `write` makes the calls for a tree, and `write_eq` says what
they add up to: the text of the tree, whatever the writer has written before.
-/

namespace Nexus.Json

open Lib
open Http (ascii isDigit decimal)

structure JsonWriter where
  out : Bytes := []
  /-- For each open container, the innermost first: does its first element come next? -/
  first : List Bool := []
  expectingValue : Bool := false

/-- `{:04x}`. -/
def hexText (n : Nat) : Bytes :=
  [n / 4096 % 16, n / 256 % 16, n / 16 % 16, n % 16].map fun d =>
    UInt8.ofNat (if d < 10 then 48 + d else 87 + d)

def escapeByte (c : UInt8) : Bytes :=
  if c = 34 then [92, 34]
  else if c = 92 then [92, 92]
  else if c = 10 then ascii "\\n"
  else if c = 13 then ascii "\\r"
  else if c = 9 then ascii "\\t"
  else if c < 0x20 then ascii "\\u" ++ hexText c.toNat
  else [c]

/-- What `append_escaped` appends. -/
def escaped (text : Bytes) : Bytes := 34 :: (text.flatMap escapeByte ++ [34])

def digitText (d : Nat) : UInt8 := UInt8.ofNat (48 + d)

def natText (n : Nat) : Bytes :=
  if n < 10 then [digitText n] else natText (n / 10) ++ [digitText (n % 10)]

/-- `std::to_string` for an `int64_t`. -/
def intText (n : Int) : Bytes := if n < 0 then 45 :: natText n.natAbs else natText n.natAbs

namespace JsonWriter

variable (w : JsonWriter)

def emit (t : Bytes) : JsonWriter := { w with out := w.out ++ t }

def beforeKey : JsonWriter :=
  match w.first with
  | [] => w
  | true :: rest => { w with first := false :: rest }
  | false :: rest => { w with out := w.out ++ [44], first := false :: rest }

def beforeValue : JsonWriter :=
  if w.expectingValue then { w with expectingValue := false } else w.beforeKey

def openWith (bracket : UInt8) : JsonWriter :=
  let w := w.beforeValue.emit [bracket]
  { w with first := true :: w.first }

def closeWith (bracket : UInt8) : JsonWriter := { w.emit [bracket] with first := w.first.tail }

def beginObject : JsonWriter := w.openWith 123

def endObject : JsonWriter := w.closeWith 125

def beginArray : JsonWriter := w.openWith 91

def endArray : JsonWriter := w.closeWith 93

def key (name : Bytes) : JsonWriter :=
  { (w.beforeKey.emit (escaped name)).emit [58] with expectingValue := true }

def stringValue (text : Bytes) : JsonWriter := w.beforeValue.emit (escaped text)

def intValue (number : Int) : JsonWriter := w.beforeValue.emit (intText number)

def boolValue (flag : Bool) : JsonWriter :=
  w.beforeValue.emit (ascii (if flag then "true" else "false"))

def nullValue : JsonWriter := w.beforeValue.emit (ascii "null")

end JsonWriter

mutual

/-- The calls for a tree, whose numbers are integers. -/
def write : JsonValue → JsonWriter → JsonWriter
  | .null, w => w.nullValue
  | .bool flag, w => w.boolValue flag
  | .number number, w => w.intValue number.num
  | .string text, w => w.stringValue text
  | .array items, w => (writeItems items w.beginArray).endArray
  | .object members, w => (writeMembers members w.beginObject).endObject

def writeItems : List JsonValue → JsonWriter → JsonWriter
  | [], w => w
  | v :: items, w => writeItems items (write v w)

def writeMembers : List (Bytes × JsonValue) → JsonWriter → JsonWriter
  | [], w => w
  | (name, v) :: members, w => writeMembers members (write v (w.key name))

end

/-- The trees with at most `depth` containers around a value, and integers that a `double` has. -/
inductive Fits : Nat → JsonValue → Prop
  | null {depth : Nat} : Fits depth .null
  | bool {depth : Nat} (flag : Bool) : Fits depth (.bool flag)
  | number {depth : Nat} (n : Int) (h : n.natAbs ≤ 2 ^ 53) : Fits depth (.number n)
  | string {depth : Nat} (text : Bytes) : Fits depth (.string text)
  | array {depth : Nat} {items : List JsonValue} (h : ∀ v ∈ items, Fits depth v) :
    Fits (depth + 1) (.array items)
  | object {depth : Nat} {members : List (Bytes × JsonValue)}
    (h : ∀ m ∈ members, Fits depth m.2) : Fits (depth + 1) (.object members)

/-! ## Strings and numbers -/

theorem hex4_hexText {n : Nat} (h : n < 32) :
    Hex4 (hexText n) n ∧ appendUtf8 n = [UInt8.ofNat n] := by
  refine ⟨⟨[0, 0, n / 16, n % 16], rfl, ?_, ?_⟩, ?_⟩
  · revert n
    decide
  · simp
    omega
  · simp [appendUtf8, show n ≤ 127 by omega]

theorem chars_escapeByte (c : UInt8) {t s : Bytes} (h : Chars lenient t s) :
    Chars lenient (escapeByte c ++ t) (c :: s) := by
  have hsimple : ∀ {e b : UInt8}, simpleEscape e = some b →
      Chars lenient (92 :: e :: t) (b :: s) := fun hb => .escape (.simple hb) h
  unfold escapeByte
  split
  · rename_i hc
    exact hc ▸ (hsimple rfl : Chars lenient (92 :: 34 :: t) (34 :: s))
  split
  · rename_i hc
    exact hc ▸ (hsimple rfl : Chars lenient (92 :: 92 :: t) (92 :: s))
  split
  · rename_i hc
    exact hc ▸ (hsimple rfl : Chars lenient (92 :: 110 :: t) (10 :: s))
  split
  · rename_i hc
    exact hc ▸ (hsimple rfl : Chars lenient (92 :: 114 :: t) (13 :: s))
  split
  · rename_i hc
    exact hc ▸ (hsimple rfl : Chars lenient (92 :: 116 :: t) (9 :: s))
  split
  · rename_i hc
    have hlt : c.toNat < 32 := UInt8.lt_iff_toNat_lt.mp hc
    obtain ⟨hhex, hutf8⟩ := hex4_hexText hlt
    rw [UInt8.ofNat_toNat] at hutf8
    have hsingle : lenient.single c.toNat := by
      simp [lenient, isHigh]
      omega
    have hescape := Chars.escape (.unicode hhex hsingle) h
    rw [hutf8] at hescape
    exact hescape
  · exact .raw (by simp_all [lenient]) h

theorem chars_escape (s : Bytes) : Chars lenient (s.flatMap escapeByte) s := by
  induction s with
  | nil => exact .nil
  | cons c s ih =>
    rw [List.flatMap_cons]
    exact chars_escapeByte c ih

theorem stringText_escaped (s : Bytes) : ∃ t, escaped s = 34 :: t ∧ StringText lenient t s :=
  ⟨_, rfl, _, rfl, chars_escape s⟩

theorem decimal_concat (digits : Bytes) (c : UInt8) :
    decimal (digits ++ [c]) = 10 * decimal digits + (c.toNat - 48) := by
  simp [decimal]

theorem digitText_spec {d : Nat} (h : d < 10) :
    isDigit (digitText d) ∧ (digitText d).toNat - 48 = d ∧ (digitText d = 48 → d = 0) := by
  revert d
  decide

theorem natText_spec (n : Nat) :
    (natText n).all isDigit ∧ decimal (natText n) = n ∧
      ∃ c t, natText n = c :: t ∧ (c = 48 → n = 0) := by
  fun_induction natText n with
  | case1 n h =>
    obtain ⟨hdigit, hval, hzero⟩ := digitText_spec h
    exact ⟨by simp [hdigit], by simpa [decimal] using hval, _, _, rfl, hzero⟩
  | case2 n h ih =>
    obtain ⟨hall, hval, c, t, ht, hc⟩ := ih
    obtain ⟨hdigit, hlast, -⟩ := digitText_spec (Nat.mod_lt n (by decide : 0 < 10))
    refine ⟨?_, ?_, c, t ++ [digitText (n % 10)], ?_, fun h48 => ?_⟩
    · rw [List.all_append, hall]
      simp [hdigit]
    · rw [decimal_concat, hval, hlast]
      omega
    · rw [ht]
      rfl
    · have := hc h48
      omega

theorem integerText_natText (n : Nat) : IntegerText (natText n) := by
  by_cases hn : n = 0
  · exact .inl (by rw [hn, natText]; rfl)
  · obtain ⟨hall, -, c, t, ht, hc⟩ := natText_spec n
    exact .inr ⟨c, t, ht, fun h48 => hn (hc h48), hall⟩

theorem strtod_integer (negative : Bool) (integer : Bytes) :
    strtod negative integer [] 0 = (if negative then -1 else 1) * (decimal integer : Rat) := by
  simp [strtod]

theorem numberText_intText (n : Int) : NumberText lenient (intText n) n := by
  obtain ⟨-, hval, -⟩ := natText_spec n.natAbs
  have hint := integerText_natText n.natAbs
  unfold intText
  split
  · refine ⟨[45], natText n.natAbs, [], [], [], 0, by simp, .inr ⟨45, by simp, rfl⟩, hint,
      .inl ⟨rfl, rfl⟩, .inl ⟨rfl, rfl⟩, ?_⟩
    obtain ⟨m, rfl⟩ : ∃ m : Nat, n = -m := ⟨n.natAbs, by omega⟩
    rw [strtod_integer, hval]
    simp
  · refine ⟨[], natText n.natAbs, [], [], [], 0, by simp, .inl rfl, hint, .inl ⟨rfl, rfl⟩,
      .inl ⟨rfl, rfl⟩, ?_⟩
    obtain ⟨m, rfl⟩ : ∃ m : Nat, n = m := ⟨n.natAbs, by omega⟩
    rw [strtod_integer, hval]
    simp

/-! ## Trees -/

theorem writeItems_eq (items : List JsonValue) (w : JsonWriter) :
    writeItems items w = items.foldl (fun w v => write v w) w := by
  induction items generalizing w with
  | nil => rw [writeItems]; rfl
  | cons v items ih => rw [writeItems, ih]; rfl

theorem writeMembers_eq (members : List (Bytes × JsonValue)) (w : JsonWriter) :
    writeMembers members w = members.foldl (fun w m => write m.2 (w.key m.1)) w := by
  induction members generalizing w with
  | nil => rw [writeMembers]; rfl
  | cons m members ih => rw [writeMembers, ih]; rfl

/-- The elements of a container, and the commas between them. -/
theorem foldl_put {α : Type} {put : α → JsonWriter → JsonWriter} {G : Bytes → α → Prop}
    {as : List α} (hne : as ≠ [])
    (h : ∀ a ∈ as, ∃ t, G t a ∧ ∀ w, w.expectingValue = false → put a w = w.beforeKey.emit t) :
    ∃ t, Joined G 44 t as ∧ ∀ out first rest,
      as.foldl (fun w a => put a w) { out, first := first :: rest } =
        { out := out ++ (if first then t else 44 :: t), first := false :: rest } := by
  induction as with
  | nil => exact absurd rfl hne
  | cons a as ih =>
    obtain ⟨t, ht, hput⟩ := h a List.mem_cons_self
    have hfirst : ∀ out first rest, put a { out, first := first :: rest } =
        { out := out ++ (if first then t else 44 :: t), first := false :: rest } := by
      intro out first rest
      rw [hput _ rfl]
      cases first <;> simp [JsonWriter.beforeKey, JsonWriter.emit]
    cases as with
    | nil => exact ⟨t, .one ht, fun out first rest => hfirst out first rest⟩
    | cons a' as =>
      obtain ⟨t', ht', hrest⟩ := ih (by simp) fun a ha => h a (.tail _ ha)
      refine ⟨t ++ 44 :: t', .cons ht ht', fun out first rest => ?_⟩
      rw [List.foldl_cons, hfirst, hrest]
      cases first <;> simp

theorem padded_of {G : Bytes → JsonValue → Prop} {t : Bytes} {v : JsonValue} (h : G t v) :
    Padded isWs G t v := ⟨[], t, [], by simp, rfl, rfl, h⟩

/-- What the calls for a container do between its brackets. -/
theorem foldl_open {α : Type} (put : α → JsonWriter → JsonWriter) (G : Bytes → α → Prop)
    (as : List α) (close : UInt8)
    (h : ∀ a ∈ as, ∃ t, G t a ∧ ∀ w, w.expectingValue = false → put a w = w.beforeKey.emit t) :
    ∃ t, SequenceText G close (t ++ [close]) as ∧ ∀ out first, ∃ first',
      as.foldl (fun w a => put a w) { out, first := true :: first } =
        { out := out ++ t, first := first' :: first } := by
  cases as with
  | nil => exact ⟨[], ⟨[], rfl, .inl ⟨rfl, rfl⟩⟩, fun out first => ⟨true, by simp⟩⟩
  | cons a as =>
    obtain ⟨t, ht, hfold⟩ := foldl_put (by simp) h
    exact ⟨t, ⟨t, rfl, .inr ht⟩, fun out first => ⟨false, hfold out true first⟩⟩

theorem beforeValue_eq (w : JsonWriter) :
    w.beforeValue = { out := w.beforeValue.out, first := w.beforeValue.first } := by
  obtain ⟨out, first, expectingValue⟩ := w
  rcases first with _ | ⟨_ | _, rest⟩ <;> cases expectingValue <;> rfl

theorem openWith_eq (w : JsonWriter) (bracket : UInt8) : w.openWith bracket =
    { out := w.beforeValue.out ++ [bracket], first := true :: w.beforeValue.first } := by
  rw [JsonWriter.openWith, beforeValue_eq]
  rfl

/-- The value of a key comes without a comma of its own. -/
theorem key_eq {w : JsonWriter} (hw : w.expectingValue = false) (name t : Bytes) :
    (w.key name).beforeValue.emit t = w.beforeKey.emit (escaped name ++ 58 :: t) := by
  obtain ⟨out, first, expectingValue⟩ := w
  obtain rfl : expectingValue = false := hw
  rcases first with _ | ⟨_ | _, rest⟩ <;>
    simp [JsonWriter.key, JsonWriter.beforeValue, JsonWriter.beforeKey, JsonWriter.emit]

/-- The calls for a tree write its text. -/
theorem write_eq {depth : Nat} {v : JsonValue} (h : Fits depth v) :
    ∃ t, ValueText lenient (depth + 1) t v ∧ ∀ w, write v w = w.beforeValue.emit t := by
  induction h with
  | null => exact ⟨_, .null, fun w => by rw [write]; rfl⟩
  | bool flag =>
    cases flag with
    | false => exact ⟨_, .false, fun w => by rw [write]; rfl⟩
    | true => exact ⟨_, .true, fun w => by rw [write]; rfl⟩
  | number n h => exact ⟨_, .number (numberText_intText n), fun w => by rw [write]; rfl⟩
  | string text =>
    obtain ⟨t, ht, hstring⟩ := stringText_escaped text
    exact ⟨_, .string hstring, fun w => by rw [write, JsonWriter.stringValue, ht]⟩
  | @array depth items h ih =>
    obtain ⟨t, ht, hfold⟩ := foldl_open write (Padded isWs (ValueText lenient (depth + 1))) items 93
      fun v hv => by
        obtain ⟨t, ht, hwrite⟩ := ih v hv
        exact ⟨t, padded_of ht, fun w hw => by
          rw [hwrite, JsonWriter.beforeValue, if_neg (by simp [hw])]⟩
    refine ⟨_, .array ht, fun w => ?_⟩
    obtain ⟨first', hfold⟩ := hfold (w.beforeValue.out ++ [91]) w.beforeValue.first
    rw [write, writeItems_eq, JsonWriter.beginArray, openWith_eq, hfold, beforeValue_eq]
    simp [JsonWriter.endArray, JsonWriter.closeWith, JsonWriter.emit]
  | @object depth members h ih =>
    obtain ⟨t, ht, hfold⟩ := foldl_open (fun m w => write m.2 (w.key m.1))
      (MemberText lenient (Padded isWs (ValueText lenient (depth + 1)))) members 125 fun m hm => by
        obtain ⟨t, ht, hwrite⟩ := ih m hm
        obtain ⟨key, hkey, hstring⟩ := stringText_escaped m.1
        refine ⟨escaped m.1 ++ 58 :: t, ⟨[], key, [], t, by simp [hkey], rfl, rfl, hstring,
          padded_of ht⟩, fun w hw => ?_⟩
        rw [hwrite, key_eq hw]
    refine ⟨_, .object ht, fun w => ?_⟩
    obtain ⟨first', hfold⟩ := hfold (w.beforeValue.out ++ [123]) w.beforeValue.first
    rw [write, writeMembers_eq, JsonWriter.beginObject, openWith_eq, hfold, beforeValue_eq]
    simp [JsonWriter.endObject, JsonWriter.closeWith, JsonWriter.emit]

/-- **Round trip**: the parser gives back every tree that the writer writes. -/
theorem parseJson_write (v : JsonValue) (h : Fits kJsonMaxDepth v) :
    parseJson (write v {}).out = .ok v := by
  obtain ⟨t, ht, hwrite⟩ := write_eq h
  have hout : (write v {}).out = t := by
    rw [hwrite]
    exact List.nil_append t
  rw [hout, parseJson_eq_ok_iff]
  exact padded_of ht

theorem parseJson_write_member :
    parseJson (write (.object [([0, 34], .array [.number (-5 : Int), .null])]) {}).out =
      .ok (.object [([0, 34], .array [.number (-5 : Int), .null])]) :=
  parseJson_write _ (.object fun m hm => by
    obtain rfl := List.mem_singleton.mp hm
    refine .array fun v hv => ?_
    rcases List.mem_cons.mp hv with rfl | hv
    · exact .number _ (by decide)
    · exact List.mem_singleton.mp hv ▸ .null)

end Nexus.Json
