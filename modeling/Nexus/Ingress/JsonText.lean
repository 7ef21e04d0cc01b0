import Nexus.Ingress.JsonValue
import Nexus.Lib.Utf8

/-!
# JSON by the RFC

Where the parser is laxer than RFC 8259 it takes a point without digits after it, control
characters in strings, and escapes for a low surrogate alone, which give bytes that are no UTF-8.
`clean` looks for these three in a text, with no parser. For the texts without them the parser
accepts what the RFC says (`translates_document`), and the strings are well formed because a string
is what stands between two quotes of the text (`exists_chars`).
-/

namespace Nexus.Json

open Lib List
open Http (ascii isDigit decimal)

/-! ## One set of rules and another -/

variable {t rest : Bytes} {v : JsonValue}

section Translate

variable {r r' : Rules} (P : Bytes → Prop)
  (hplain : ∀ c s, c ≠ 34 → c ≠ 46 → P (c :: s) → P s)
  (hstring : ∀ t s rest, Chars r t s → P (34 :: (t ++ 34 :: rest)) → Chars r' t s ∧ P rest)
  (hnumber : ∀ t q rest, NumberText r t q → Follows isAfter rest → P (t ++ rest) →
    NumberText r' t q ∧ P rest)

include hplain in
theorem plain_append (ht : ∀ c ∈ t, c ≠ 34 ∧ c ≠ 46) (h : P (t ++ rest)) :
    P rest := by
  induction t with
  | nil => exact h
  | cons c t ih =>
    obtain ⟨h34, h46⟩ := ht c mem_cons_self
    exact ih (fun d hd => ht d (.tail _ hd)) (hplain c _ h34 h46 h)

include hplain in
theorem blanks_append (ht : t.all isWs) (h : P (t ++ rest)) : P rest := by
  refine plain_append P hplain (fun c hc => ?_) h
  have hws := all_eq_true.mp ht c hc
  constructor <;> rintro rfl <;> cases hws

/-- `G` becomes `G'` wherever a text of it stands outside strings. -/
def Translates {α : Type} (ends : UInt8 → Bool) (G G' : Bytes → α → Prop) : Prop :=
  ∀ t a rest, G t a → Follows ends rest → P (t ++ rest) → G' t a ∧ P rest

include hplain in
theorem Translates.padded {G G' : Bytes → JsonValue → Prop} (h : Translates P isAfter G G') :
    Translates P isEnd (Padded isWs G) (Padded isWs G') := by
  rintro t v rest ⟨w, t, w', rfl, hw, hw', hG⟩ hrest hP
  rw [append_assoc, append_assoc] at hP
  have hafter : Follows isAfter (w' ++ rest) := by
    cases w' with
    | nil => exact hrest.mono fun c hc => by simp [isAfter, hc]
    | cons c w' => exact follows_cons (by simp_all [isAfter])
  obtain ⟨hG', hP'⟩ := h t v _ hG hafter (blanks_append P hplain hw hP)
  exact ⟨⟨w, t, w', rfl, hw, hw', hG'⟩, blanks_append P hplain hw' hP'⟩

include hplain in
theorem Translates.sequence {α : Type} {G G' : Bytes → α → Prop} (h : Translates P isEnd G G')
    {close : UInt8} (hclose : close = 93 ∨ close = 125) :
    Translates P anything (SequenceText G close) (SequenceText G' close) := by
  rintro t as rest ⟨t, rfl, hseq⟩ - hP
  have hends : isEnd close := by rcases hclose with rfl | rfl <;> rfl
  have hlast : P (close :: rest) → P rest := by
    rcases hclose with rfl | rfl <;> exact hplain _ _ (by decide) (by decide)
  rw [append_assoc, singleton_append] at hP
  rcases hseq with ⟨hw, rfl⟩ | hj
  · exact ⟨⟨t, rfl, .inl ⟨hw, rfl⟩⟩, hlast (blanks_append P hplain hw hP)⟩
  · have hj' : Joined G' 44 t as ∧ P (close :: rest) := by
      induction hj with
      | one hG =>
        obtain ⟨hG', hP'⟩ := h _ _ _ hG (follows_cons hends) hP
        exact ⟨.one hG', hP'⟩
      | cons hG hs ih =>
        rw [append_assoc, cons_append] at hP
        obtain ⟨hG', hP'⟩ := h _ _ _ hG (follows_cons (by decide)) hP
        obtain ⟨hs', hP''⟩ := ih (hplain _ _ (by decide) (by decide) hP')
        exact ⟨.cons hG' hs', hP''⟩
    exact ⟨⟨t, rfl, .inr hj'.1⟩, hlast hj'.2⟩

include hstring in
theorem stringText_translates {t s rest : Bytes} (h : StringText r t s)
    (hP : P (34 :: (t ++ rest))) : StringText r' t s ∧ P rest := by
  obtain ⟨t, rfl, ht⟩ := h
  rw [append_assoc, singleton_append] at hP
  obtain ⟨ht', hP'⟩ := hstring t s rest ht hP
  exact ⟨⟨t, rfl, ht'⟩, hP'⟩

include hplain hstring in
theorem Translates.member {G G' : Bytes → JsonValue → Prop} (h : Translates P isEnd G G') :
    Translates P isEnd (MemberText r G) (MemberText r' G') := by
  rintro t m rest ⟨w, key, w', t, rfl, hw, hw', hkey, hG⟩ hrest hP
  simp only [append_assoc, cons_append] at hP
  obtain ⟨hkey', hP⟩ := stringText_translates P hstring hkey (blanks_append P hplain hw hP)
  have hP := hplain _ _ (by decide) (by decide) (blanks_append P hplain hw' hP)
  obtain ⟨hG', hP⟩ := h _ _ _ hG hrest hP
  exact ⟨⟨w, key, w', t, rfl, hw, hw', hkey', hG'⟩, hP⟩

include hplain hstring hnumber in
theorem translates_value (levels : Nat) :
    Translates P isAfter (ValueText r levels) (ValueText r' levels) := by
  induction levels with
  | zero => exact fun _ _ _ h => h.elim
  | succ levels ih =>
    have hinner := ih.padded P hplain
    intro t v rest ht hrest hP
    have hliteral : ∀ s : Bytes, (∀ c ∈ s, c ≠ 34 ∧ c ≠ 46) → P (s ++ rest) → P rest :=
      fun s hs => plain_append P hplain hs
    cases ht with
    | null => exact ⟨.null, hliteral _ (by decide +kernel) hP⟩
    | true => exact ⟨.true, hliteral _ (by decide +kernel) hP⟩
    | false => exact ⟨.false, hliteral _ (by decide +kernel) hP⟩
    | number ht =>
      obtain ⟨ht', hP'⟩ := hnumber _ _ _ ht hrest hP
      exact ⟨.number ht', hP'⟩
    | string ht =>
      obtain ⟨ht', hP'⟩ := stringText_translates P hstring ht hP
      exact ⟨.string ht', hP'⟩
    | array ht =>
      have hP := hplain _ _ (by decide) (by decide) hP
      obtain ⟨ht', hP'⟩ := hinner.sequence P hplain (.inl rfl) _ _ _ ht (follows_anything _) hP
      exact ⟨.array ht', hP'⟩
    | object ht =>
      have hP := hplain _ _ (by decide) (by decide) hP
      obtain ⟨ht', hP'⟩ := (hinner.member P hplain hstring).sequence P hplain (.inr rfl) _ _ _ ht
        (follows_anything _) hP
      exact ⟨.object ht', hP'⟩

include hplain hstring hnumber in
theorem translates_document {text : Bytes} (h : Document r text v) (hP : P text) :
    Document r' text v := by
  have htext := (translates_value P hplain hstring hnumber (kJsonMaxDepth + 1)).padded P hplain
  exact (htext text v [] h nofun (by rwa [append_nil])).1

end Translate

/-! ## The rules of the RFC are stricter -/

theorem Escape.to_lenient {e b : Bytes} (h : Escape rfc e b) : Escape lenient e b := by
  cases h with
  | simple h => exact .simple h
  | unicode h hn => exact .unicode h (by simp_all [rfc, lenient])
  | pair h hn h' hn' => exact .pair h hn h' hn'

theorem Chars.to_lenient {t s : Bytes} (h : Chars rfc t s) : Chars lenient t s := by
  induction h with
  | nil => exact .nil
  | raw hc h ih => exact .raw (by simp_all [rfc, lenient]) ih
  | escape he h ih => exact .escape he.to_lenient ih

theorem Document.to_lenient {text : Bytes} (h : Document rfc text v) :
    Document lenient text v := by
  refine translates_document (fun _ => True) (fun _ _ _ _ _ => trivial)
    (fun t s rest ht _ => ⟨ht.to_lenient, trivial⟩) ?_ h trivial
  rintro t q rest ⟨sign, i, f, ds, x, e, ht, hsign, hi, hf, hx, hq⟩ - -
  refine ⟨⟨sign, i, f, ds, x, e, ht, hsign, hi, hf.imp_right ?_, hx, hq⟩, trivial⟩
  exact fun ⟨hf, hall, _⟩ => ⟨hf, hall, rfl⟩

/-! ## Texts without the exceptions -/

/-- What `\u` gives, for an escape without its backslash. -/
def escapeUnit (s : Bytes) : Option Nat :=
  if s.head? = some 117 then (readHex4 s.tail).toOption.map Prod.fst else none

/-- The bytes of an escape after its backslash; a high surrogate is one with the next escape. -/
def escapeLength (s : Bytes) : Nat :=
  if s.head? ≠ some 117 then 1 else if (escapeUnit s).any isHigh then 11 else 5

/-- Looks through a text: outside strings a digit follows each point; inside, there are no control
characters, and no escape starts with a low surrogate. `some k` is inside a string, with `k` bytes
of an escape to come. -/
def clean : Option Nat → Bytes → Bool
  | _, [] => true
  | none, c :: s => (c ≠ 46 || s.head?.any isDigit) && clean (if c = 34 then some 0 else none) s
  | some (k + 1), _ :: s => clean (some k) s
  | some 0, c :: s =>
    if c = 34 then clean none s
    else if c = 92 then !(escapeUnit s).any isLow && clean (some (escapeLength s)) s
    else 32 ≤ c && clean (some 0) s

theorem clean_skip {k : Nat} (ht : t.length = k) (rest : Bytes) :
    clean (some k) (t ++ rest) = clean (some 0) rest := by
  induction t generalizing k with
  | nil =>
    subst ht
    rfl
  | cons c t ih =>
    subst ht
    exact ih rfl

theorem clean_backslash (s : Bytes) :
    clean (some 0) (92 :: s) = (!(escapeUnit s).any isLow && clean (some (escapeLength s)) s) := by
  rfl

variable {n : Nat} {q : Rat}

theorem escapeUnit_hex4 (h : Hex4 t n) (rest : Bytes) :
    escapeUnit (117 :: (t ++ rest)) = some n := by
  simp [escapeUnit, parses_readHex4.complete h (follows_anything rest), Except.toOption]

theorem clean_escape {e b rest : Bytes} (h : Escape lenient e b)
    (hc : clean (some 0) (92 :: (e ++ rest))) : Escape rfc e b ∧ clean (some 0) rest := by
  rw [clean_backslash, Bool.and_eq_true] at hc
  obtain ⟨hlow, hc⟩ := hc
  cases h with
  | @simple c b h =>
    have h117 : c ≠ 117 := by
      rintro rfl
      cases h
    have hlen : escapeLength ([c] ++ rest) = 1 := by simp [escapeLength, h117]
    rw [hlen] at hc
    exact ⟨.simple h, hc⟩
  | @unicode t n h hn =>
    have hunit := escapeUnit_hex4 h rest
    have hlen : escapeLength (117 :: t ++ rest) = 5 := by
      simp_all [escapeLength, lenient]
    rw [hlen, clean_skip (by simp [length_of_hex4 h])] at hc
    exact ⟨.unicode h (by simp_all [lenient, rfc]), hc⟩
  | @pair t t' n n' h hn h' hn' =>
    have hunit := escapeUnit_hex4 h (92 :: 117 :: t' ++ rest)
    have hlen : escapeLength (117 :: (t ++ 92 :: 117 :: t') ++ rest) = 11 := by
      simp_all [escapeLength]
    rw [hlen, clean_skip (by simp [length_of_hex4 h, length_of_hex4 h'])] at hc
    exact ⟨.pair h hn h' hn', hc⟩

theorem clean_chars {t s rest : Bytes} (h : Chars lenient t s)
    (hc : clean (some 0) (t ++ 34 :: rest)) : Chars rfc t s ∧ clean none rest := by
  induction h with
  | nil => exact ⟨.nil, hc⟩
  | @raw c t s hraw h ih =>
    obtain ⟨h34, h92⟩ : c ≠ 34 ∧ c ≠ 92 := by simpa [lenient] using hraw
    simp only [cons_append, clean, h34, h92, if_false, Bool.and_eq_true,
      decide_eq_true_eq] at hc
    obtain ⟨h', hc'⟩ := ih hc.2
    exact ⟨.raw (by simp [rfc, hc.1, h34, h92]) h', hc'⟩
  | escape he h ih =>
    rw [append_assoc] at hc
    obtain ⟨he', hc⟩ := clean_escape he hc
    obtain ⟨h', hc'⟩ := ih hc
    exact ⟨.escape he' h', hc'⟩

theorem clean_plain (c : UInt8) (s : Bytes) (h34 : c ≠ 34) (h46 : c ≠ 46)
    (hc : clean none (c :: s)) : clean none s := by
  simpa [clean, h34, h46] using hc

theorem clean_digits (ht : t.all isDigit) (hc : clean none (t ++ rest)) :
    clean none rest := by
  refine plain_append (fun s => clean none s) clean_plain (fun c hmem => ?_) hc
  have hdigit := all_eq_true.mp ht c hmem
  constructor <;> rintro rfl <;> cases hdigit

theorem IntegerText.digits (h : IntegerText t) : t.all isDigit := by
  rcases h with rfl | ⟨c, t', rfl, -, hall⟩
  · rfl
  · exact hall

theorem clean_exponent {e : Int} (h : ExponentText t e)
    (hc : clean none (t ++ rest)) : clean none rest := by
  rcases h with ⟨rfl, -⟩ | ⟨c, sign, ds, rfl, hc', hsign, -, hall, -⟩
  · exact hc
  · rw [cons_append, append_assoc] at hc
    have hc := clean_plain c _ (by grind) (by grind) hc
    exact clean_digits hall (plain_append (fun s => clean none s) clean_plain
      (fun c hmem => by grind [hsign.mem hmem]) hc)

theorem clean_fraction {t digits rest : Bytes} (h : FractionText lenient t digits)
    (hrest : Follows (fun c => !isDigit c) rest) (hc : clean none (t ++ rest)) :
    FractionText rfc t digits ∧ clean none rest := by
  rcases h with ⟨rfl, rfl⟩ | ⟨rfl, hall, -⟩
  · exact ⟨.inl ⟨rfl, rfl⟩, hc⟩
  · obtain ⟨hdigit, hc⟩ : ((digits ++ rest).head?.any isDigit) ∧ clean none (digits ++ rest) := by
      simpa [clean] using hc
    have hne : digits ≠ [] := by
      rintro rfl
      cases rest with
      | nil => cases hdigit
      | cons c rest =>
        have := hrest c rfl
        simp_all
    exact ⟨.inr ⟨rfl, hall, by simp [rfc, hne]⟩, clean_digits hall hc⟩

theorem clean_number (h : NumberText lenient t q)
    (hrest : Follows isAfter rest) (hc : clean none (t ++ rest)) :
    NumberText rfc t q ∧ clean none rest := by
  obtain ⟨sign, i, f, ds, x, e, rfl, hsign, hi, hf, hx, hq⟩ := h
  simp only [append_assoc] at hc
  have hsignless := plain_append (fun s => clean none s) clean_plain
    (fun c hmem => by grind [hsign.mem hmem]) hc
  have hafter : Follows (fun c => !isDigit c) (x ++ rest) := by
    rcases hx with ⟨rfl, -⟩ | ⟨c, sign, ds, rfl, rfl | rfl, -⟩
    · exact hrest.mono fun c hc => by simp [(not_number_of_isAfter hc).1]
    · exact follows_cons (by decide)
    · exact follows_cons (by decide)
  obtain ⟨hf', hc'⟩ := clean_fraction hf hafter (clean_digits hi.digits hsignless)
  exact ⟨⟨sign, i, f, ds, x, e, rfl, hsign, hi, hf', hx, hq⟩, clean_exponent hx hc'⟩

/-- A clean document is one of the RFC. -/
theorem Document.to_rfc {text : Bytes} (h : Document lenient text v)
    (hc : clean none text) : Document rfc text v :=
  translates_document (fun s => clean none s) clean_plain (fun _ _ _ ht hP => clean_chars ht hP)
    (fun _ _ _ ht hrest hP => clean_number ht hrest hP) h hc

/-! ## Strings in UTF-8 -/

/-- The string is a value or a key somewhere in the tree. -/
inductive JsonValue.HasString (s : Bytes) : JsonValue → Prop
  | string : HasString s (.string s)
  | item {items : List JsonValue} {v : JsonValue} (hv : v ∈ items) (h : HasString s v) :
    HasString s (.array items)
  | key {members : List (Bytes × JsonValue)} {v : JsonValue} (hv : (s, v) ∈ members) :
    HasString s (.object members)
  | member {members : List (Bytes × JsonValue)} {k : Bytes} {v : JsonValue}
    (hv : (k, v) ∈ members) (h : HasString s v) : HasString s (.object members)

variable {c : UInt8} {α : Type} {G : Bytes → α → Prop} {as : List α}

theorem exists_of_joined
    (h : Joined G c t as) {a : α} (ha : a ∈ as) : ∃ t', G t' a ∧ t' <:+: t := by
  induction h with
  | one h => exact ⟨_, mem_singleton.mp ha ▸ h, infix_rfl⟩
  | @cons t s a' as h hs ih =>
    rcases mem_cons.mp ha with rfl | ha
    · exact ⟨t, h, (prefix_append ..).isInfix⟩
    · obtain ⟨t', ht', hin⟩ := ih ha
      exact ⟨t', ht', hin.trans ⟨t ++ [c], [], by simp⟩⟩

theorem exists_of_sequence
    (h : SequenceText G c t as) {a : α} (ha : a ∈ as) :
    ∃ t', G t' a ∧ t' <:+: t := by
  obtain ⟨t, rfl, ⟨-, rfl⟩ | hj⟩ := h
  · cases ha
  · obtain ⟨t', ht', hin⟩ := exists_of_joined hj ha
    exact ⟨t', ht', hin.trans (prefix_append ..).isInfix⟩

/-- A string of the tree stands between two quotes of the text. -/
theorem exists_chars {r : Rules} {levels : Nat} {t s : Bytes}
    (h : Padded isWs (ValueText r levels) t v) (hs : v.HasString s) :
    ∃ body, Chars r body s ∧ 34 :: (body ++ [34]) <:+: t := by
  induction levels generalizing t v with
  | zero =>
    obtain ⟨_, _, _, _, _, _, h⟩ := h
    exact False.elim h
  | succ levels ih =>
    obtain ⟨w, t, w', rfl, -, -, h⟩ := h
    suffices ∃ body, Chars r body s ∧ 34 :: (body ++ [34]) <:+: t by
      obtain ⟨body, hbody, hin⟩ := this
      exact ⟨body, hbody, hin.trans ⟨w, w', rfl⟩⟩
    cases h with
    | null | true | false | number => cases hs
    | string h =>
      cases hs
      obtain ⟨body, rfl, hbody⟩ := h
      exact ⟨body, hbody, infix_rfl⟩
    | array h =>
      cases hs with
      | item hv hs =>
        obtain ⟨t', ht', hin⟩ := exists_of_sequence h hv
        obtain ⟨body, hbody, hin'⟩ := ih ht' hs
        exact ⟨body, hbody, (hin'.trans hin).trans (suffix_cons ..).isInfix⟩
    | object h =>
      cases hs with
      | key hv =>
        obtain ⟨t', ⟨w, key, w', t'', rfl, -, -, ⟨body, rfl, hbody⟩, -⟩, hin⟩ :=
          exists_of_sequence h hv
        refine ⟨body, hbody, .trans ?_ (hin.trans (suffix_cons ..).isInfix)⟩
        exact ⟨w, w' ++ 58 :: t'', by simp⟩
      | member hv hs =>
        obtain ⟨t', ⟨w, key, w', t'', rfl, -, -, -, ht''⟩, hin⟩ := exists_of_sequence h hv
        obtain ⟨body, hbody, hin'⟩ := ih ht'' hs
        refine ⟨body, hbody, hin'.trans (.trans ?_ (hin.trans (suffix_cons ..).isInfix))⟩
        exact ⟨w ++ 34 :: (key ++ (w' ++ [58])), [], by simp⟩

theorem mask_eq (n : Nat) : n &&& 0x3F = n % 64 := Nat.and_two_pow_sub_one_eq_mod n 6

/-- `append_utf8` is the encoding of characters. -/
theorem wellFormed_appendUtf8 (h : n.isValidChar) : WellFormed (appendUtf8 n) := by
  obtain ⟨c, hval⟩ : ∃ c : Char, c.val.toNat = n := ⟨Char.ofNatAux n h, rfl⟩
  have h2 : ∀ x < 32, 0xC0 ||| x = x % 32 + 0xC0 := by decide
  have h3 : ∀ x < 16, 0xE0 ||| x = x % 16 + 0xE0 := by decide
  have h4 : ∀ x < 8, 0xF0 ||| x = x % 8 + 0xF0 := by decide
  have hnext : ∀ x < 64, 0x80 ||| x = x + 0x80 := by decide
  have hmask : ∀ x, 0x80 ||| x &&& 0x3F = x % 64 + 0x80 := fun x => by
    rw [mask_eq, hnext _ (Nat.mod_lt x (by decide))]
  suffices appendUtf8 n = String.utf8EncodeChar c from this ▸ wellFormed_encode _
  unfold appendUtf8 String.utf8EncodeChar
  simp only [hval, hmask, Nat.shiftRight_eq_div_pow]
  split
  · rfl
  split
  · rw [h2 _ (by omega)]
  split
  · rw [h3 _ (by omega)]
  · have : n < 0x110000 := by
      unfold Nat.isValidChar at h
      omega
    rw [h4 _ (by omega)]

theorem hexDigit_lt {d : Nat} (h : hexDigit c = some d) : c.toNat < 128 ∧ d < 16 := by
  unfold hexDigit at h
  simp only [UInt8.le_iff_toNat_le] at h
  split at h
  · cases h
    simp_all
    omega
  split at h
  · cases h
    simp_all
    omega
  split at h
  · cases h
    simp_all
    omega
  · cases h

theorem hex4_lt (h : Hex4 t n) : (∀ c ∈ t, c.toNat < 128) ∧ n < 0x10000 := by
  obtain ⟨digits, hlen, ht, rfl⟩ := h
  constructor
  · intro c hc
    obtain ⟨d, -, hd⟩ := mem_map.mp (ht ▸ mem_map_of_mem (f := hexDigit) hc)
    exact (hexDigit_lt hd.symm).1
  · have hlt : ∀ d ∈ digits, d < 16 := by
      intro d hd
      obtain ⟨c, -, hc⟩ := mem_map.mp (ht ▸ mem_map_of_mem (f := some) hd)
      exact (hexDigit_lt hc).2
    match digits, hlen with
    | [a, b, c, d], _ =>
      simp only [forall_mem_cons] at hlt
      simp only [foldl_cons, foldl_nil]
      omega

theorem simpleEscape_lt {b : UInt8} (h : simpleEscape c = some b) :
    c.toNat < 128 ∧ b.toNat < 128 := by
  unfold simpleEscape at h
  repeat' split at h
  all_goals
    cases h
    try (subst_vars; decide)

theorem wellFormed_escape {e b : Bytes} (h : Escape rfc e b) :
    (∀ c ∈ e, c.toNat < 128) ∧ WellFormed b := by
  cases h with
  | @simple c b h =>
    obtain ⟨hc, hb⟩ := simpleEscape_lt h
    refine ⟨by simpa using hc, ?_⟩
    have hutf8 := wellFormed_appendUtf8 (n := b.toNat) (.inl (by omega))
    rwa [appendUtf8, if_pos (by omega), UInt8.ofNat_toNat] at hutf8
  | @unicode t n h hn =>
    obtain ⟨ht, hlt⟩ := hex4_lt h
    refine ⟨forall_mem_cons.mpr ⟨by decide, ht⟩, wellFormed_appendUtf8 ?_⟩
    simp only [rfc, isHigh, isLow, decide_eq_true_eq] at hn
    unfold Nat.isValidChar
    omega
  | @pair t t' n n' h hn h' hn' =>
    obtain ⟨ht, -⟩ := hex4_lt h
    obtain ⟨ht', -⟩ := hex4_lt h'
    constructor
    · simp only [forall_mem_cons, forall_mem_append]
      exact ⟨by decide, ht, by decide, by decide, ht'⟩
    · refine wellFormed_appendUtf8 ?_
      simp only [isHigh, isLow, decide_eq_true_eq] at hn hn'
      unfold codePoint Nat.isValidChar
      rw [Nat.shiftLeft_eq]
      omega

theorem wellFormed_chars {t s p : Bytes} (h : Chars rfc t s) (ht : WellFormed (p ++ t)) :
    WellFormed (p ++ s) := by
  induction h generalizing p with
  | nil => exact ht
  | @raw c t s hc h ih =>
    have := ih (p := p ++ [c]) (by simpa using ht)
    simpa using this
  | @escape e b t s he h ih =>
    obtain ⟨hascii, hb⟩ := wellFormed_escape he
    rw [cons_append] at ht
    obtain ⟨hp, ht⟩ := ht.cut (by decide)
    have hs := ih (p := []) (ht.of_ascii_append hascii)
    exact hp.append (hb.append hs)

/-- A text with an escape and a fraction. -/
def cleanText : String := "[\"\\u0041\", 1.5]"

/-- A number of the RFC ends with a digit. -/
theorem NumberText.getLast (h : NumberText rfc t q) :
    ∃ t' c, t = t' ++ [c] ∧ isDigit c := by
  have hends : ∀ digits : Bytes, digits ≠ [] → digits.all isDigit →
      ∃ t' c, digits = t' ++ [c] ∧ isDigit c := by
    intro digits hne hall
    rcases eq_nil_or_concat digits with rfl | ⟨t', c, rfl⟩
    · exact absurd rfl hne
    · exact ⟨t', c, by simp, by simp_all⟩
  obtain ⟨sign, i, f, ds, x, e, rfl, -, hi, hf, hx, -⟩ := h
  rcases hx with ⟨rfl, -⟩ | ⟨c, sign', ds', rfl, -, -, hne, hall, -⟩
  · rcases hf with ⟨rfl, -⟩ | ⟨rfl, hall, hne⟩
    · obtain ⟨t', c, rfl, hc⟩ := hends i (fun hi' => (hi.follows []).1 (by simp [hi'])) hi.digits
      exact ⟨sign ++ t', c, by simp, hc⟩
    · obtain ⟨t', c, rfl, hc⟩ := hends ds (by simpa [rfc] using hne) hall
      exact ⟨sign ++ (i ++ 46 :: t'), c, by simp, hc⟩
  · obtain ⟨t', d, rfl, hd⟩ := hends ds' hne hall
    exact ⟨sign ++ (i ++ (f ++ c :: (sign' ++ t'))), d, by simp, hd⟩

theorem not_document_point (v : JsonValue) : ¬ Document rfc [49, 46] v := by
  rintro ⟨w, t, w', ht, hw, hw', h⟩
  obtain rfl : w = [] := by
    cases w with
    | nil => rfl
    | cons c w =>
      obtain ⟨rfl, -⟩ : 49 = c ∧ _ := by simpa using ht
      cases hw
  obtain rfl : w' = [] := by
    rcases eq_nil_or_concat w' with rfl | ⟨w', c, rfl⟩
    · rfl
    · have hc : c = 46 := by simpa using (congrArg getLast? ht).symm
      simp [hc, isWs] at hw'
  obtain rfl : t = [49, 46] := by simpa using ht.symm
  cases h with
  | number h =>
    obtain ⟨t', c, ht', hc⟩ := h.getLast
    have hc' : c = 46 := by simpa using (congrArg getLast? ht').symm
    rw [hc'] at hc
    cases hc

theorem not_wellFormed_surrogate : ¬ WellFormed [0xED, 0xB0, 0x80] := by
  rintro ⟨cs, h⟩
  have hvalid : ByteArray.IsValidUTF8 ⟨#[0xED, 0xB0, 0x80]⟩ :=
    ⟨cs, by rw [utf8Encode, ← h]; rfl⟩
  revert hvalid
  decide +kernel

end Nexus.Json
