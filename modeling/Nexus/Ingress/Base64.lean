import Mathlib.Data.List.Basic
import Nexus.Ingress.Http
import Nexus.Lib.Bits

/-!
# base64url

The codec of `common/base64.cpp`. Both loops shift bits through a `uint32_t` that is never masked:
what matters of it are the lowest `bits` bits, and there are never more than 13 of them.

* `encodeLoop_spec`: the six-bit groups of the text are the bits of the data, then zeros up to a
  whole group.
* `decodeLoop_isSome`, `decodeLoop_spec`: text of the alphabet decodes to the whole bytes of its
  groups.
-/

namespace Nexus.Base64

open Lib List
open Http (ascii)

def kAlphabet : Bytes :=
  ascii "ABCDEFGHIJKLMNOPQRSTUVWXYZabcdefghijklmnopqrstuvwxyz0123456789-_"

/-- `kAlphabet[n & 0x3F]`. -/
def charOf (n : Nat) : UInt8 := kAlphabet.getD (n &&& 0x3F) 0

/-- The inner loop of `base64url_encode`: what it writes, and how many bits stay in the buffer. -/
def emit (buffer : Nat) : (bits : Nat) → Bytes × Nat
  | bits + 6 => (charOf (buffer >>> bits) :: (emit buffer bits).1, (emit buffer bits).2)
  | bits => ([], bits)

def encodeLoop : Bytes → (buffer bits : Nat) → Bytes
  | [], buffer, bits => if 0 < bits then [charOf ((buffer <<< (6 - bits)) % 2 ^ 32)] else []
  | byte :: data, buffer, bits =>
    let buffer := (buffer <<< 8 ||| byte.toNat) % 2 ^ 32
    (emit buffer (bits + 8)).1 ++ encodeLoop data buffer (emit buffer (bits + 8)).2

def base64urlEncode (data : Bytes) : Bytes := encodeLoop data 0 0

/-- The loop of `base64url_decode`, with `bits` bits of `buffer` not yet used. -/
def decodeLoop : Bytes → Nat → Nat → Option Bytes
  | [], _, _ => some []
  | c :: s, buffer, bits =>
    (kAlphabet.idxOf? c).bind fun value =>
      let buffer := (buffer <<< 6 ||| value) % 2 ^ 32
      let bits := bits + 6
      if 8 ≤ bits then
        (decodeLoop s buffer (bits - 8)).map (UInt8.ofNat (buffer >>> (bits - 8)) :: ·)
      else decodeLoop s buffer bits

def base64urlDecode (text : Bytes) : Expected Bytes :=
  let text := (text.reverse.dropWhile (· = 61)).reverse
  if text.length % 4 = 1 then makeError .invalidArgument "base64url: longitud inválida"
  else
    match decodeLoop text 0 0 with
    | none => makeError .invalidArgument "base64url: carácter inválido"
    | some out => .ok out

/-! ## Groups of six bits -/

/-- The bits of the groups that the characters stand for. -/
def groupBits (text : Bytes) : List Bool := text.flatMap fun c => bitsOf 6 (kAlphabet.idxOf c)

theorem groupBits_append (s t : Bytes) : groupBits (s ++ t) = groupBits s ++ groupBits t :=
  flatMap_append

theorem groupBits_cons (c : UInt8) (s : Bytes) :
    groupBits (c :: s) = bitsOf 6 (kAlphabet.idxOf c) ++ groupBits s := rfl

theorem length_groupBits (text : Bytes) : (groupBits text).length = 6 * text.length := by
  induction text with
  | nil => rfl
  | cons c s ih =>
    rw [groupBits_cons, length_append, length_bitsOf, ih, length_cons]
    omega

theorem idxOf_getD_alphabet : ∀ i < 2 ^ 6,
    kAlphabet.getD i 0 ∈ kAlphabet ∧ kAlphabet.idxOf (kAlphabet.getD i 0) = i := by
  decide +kernel

theorem and_mask (n : Nat) : n &&& 0x3F = n % 2 ^ 6 := Nat.and_two_pow_sub_one_eq_mod n 6

theorem charOf_mem (n : Nat) : charOf n ∈ kAlphabet := by
  rw [charOf, and_mask]
  exact (idxOf_getD_alphabet _ (Nat.mod_lt n (by decide))).1

theorem groupBits_charOf (n : Nat) : groupBits [charOf n] = bitsOf 6 n := by
  rw [groupBits, flatMap_singleton, charOf, and_mask,
    (idxOf_getD_alphabet _ (Nat.mod_lt n (by decide))).2, bitsOf_mod (Nat.le_refl 6)]

theorem idxOf_lt {c : UInt8} (h : c ∈ kAlphabet) : kAlphabet.idxOf c < 2 ^ 6 :=
  idxOf_lt_length_of_mem h

/-! ## The encoder -/

/-- The inner loop writes whole groups, from the oldest bit on. -/
theorem emit_spec (buffer bits : Nat) :
    groupBits (emit buffer bits).1 ++ bitsOf (emit buffer bits).2 buffer = bitsOf bits buffer ∧
      (emit buffer bits).2 < 6 ∧ ∀ c ∈ (emit buffer bits).1, c ∈ kAlphabet := by
  fun_induction emit buffer bits with
  | case1 bits ih =>
    obtain ⟨hbits, hlt, hmem⟩ := ih
    refine ⟨?_, hlt, forall_mem_cons.mpr ⟨charOf_mem _, hmem⟩⟩
    rw [← singleton_append, groupBits_append, groupBits_charOf, append_assoc, hbits,
      ← bitsOf_add, Nat.add_comm 6 bits]
  | case2 bits hno => exact ⟨rfl, by by_contra h; exact hno (bits - 6) (by omega), nofun⟩

theorem encodeLoop_spec (data : Bytes) (buffer : Nat) {bits : Nat} (h : bits < 6) :
    ∃ pad < 6, groupBits (encodeLoop data buffer bits) =
        bitsOf bits buffer ++ byteBits data ++ replicate pad false ∧
      ∀ c ∈ encodeLoop data buffer bits, c ∈ kAlphabet := by
  induction data generalizing buffer bits with
  | nil =>
    rw [encodeLoop]
    by_cases hbits : 0 < bits
    · refine ⟨6 - bits, by omega, ?_⟩
      have hshift := bitsOf_shiftLeft_or (Nat.two_pow_pos (6 - bits)) bits buffer
      rw [Nat.or_zero, Nat.add_sub_cancel' (Nat.le_of_lt h), bitsOf_zero] at hshift
      rw [if_pos hbits, groupBits_charOf, bitsOf_mod (by decide), hshift, byteBits_nil,
        append_nil]
      exact ⟨rfl, forall_mem_singleton.mpr (charOf_mem _)⟩
    · rw [if_neg hbits, Nat.eq_zero_of_not_pos hbits]
      exact ⟨0, by decide, rfl, nofun⟩
  | cons byte data ih =>
    rw [encodeLoop]
    obtain ⟨hbits, hlt, hmem⟩ :=
      emit_spec ((buffer <<< 8 ||| byte.toNat) % 2 ^ 32) (bits + 8)
    obtain ⟨pad, hpad, hgroups, hall⟩ := ih ((buffer <<< 8 ||| byte.toNat) % 2 ^ 32) hlt
    refine ⟨pad, hpad, ?_, forall_mem_append.mpr ⟨hmem, hall⟩⟩
    rw [groupBits_append, hgroups, ← append_assoc, ← append_assoc, hbits,
      bitsOf_mod (by omega), bitsOf_shiftLeft_or byte.toNat_lt, byteBits_cons, append_assoc _ _
      (byteBits data)]

/-! ## The decoder -/

theorem decodeLoop_isSome (s : Bytes) (buffer bits : Nat) :
    (decodeLoop s buffer bits).isSome ↔ ∀ c ∈ s, c ∈ kAlphabet := by
  induction s generalizing buffer bits with
  | nil => exact ⟨fun _ => nofun, fun _ => rfl⟩
  | cons c s ih =>
    rw [decodeLoop, forall_mem_cons]
    by_cases hc : c ∈ kAlphabet
    · obtain ⟨value, hvalue⟩ := Option.isSome_iff_exists.mp (isSome_idxOf?.mpr hc)
      rw [hvalue, Option.bind_some]
      dsimp only
      split
      · rw [Option.isSome_map, ih]
        exact ⟨fun h => ⟨hc, h⟩, And.right⟩
      · rw [ih]
        exact ⟨fun h => ⟨hc, h⟩, And.right⟩
    · rw [idxOf?_eq_none_iff.mpr hc]
      exact ⟨nofun, fun h => absurd h.1 hc⟩

theorem decodeLoop_spec {s : Bytes} {buffer bits : Nat} {out : Bytes} (h : bits < 8)
    (hout : decodeLoop s buffer bits = some out) :
    ∃ left, left.length < 8 ∧ bitsOf bits buffer ++ groupBits s = byteBits out ++ left := by
  induction s generalizing buffer bits out with
  | nil =>
    cases hout
    exact ⟨bitsOf bits buffer, by rwa [length_bitsOf], append_nil _⟩
  | cons c s ih =>
    rw [decodeLoop] at hout
    obtain ⟨value, hvalue, hrest⟩ := Option.bind_eq_some_iff.mp hout
    have hmem : c ∈ kAlphabet := isSome_idxOf?.mp (hvalue ▸ rfl)
    obtain rfl : kAlphabet.idxOf c = value := by
      rw [idxOf_eq_getD_idxOf?, hvalue, Option.getD_some]
    have hshift : bitsOf (bits + 6) ((buffer <<< 6 ||| kAlphabet.idxOf c) % 2 ^ 32) =
        bitsOf bits buffer ++ bitsOf 6 (kAlphabet.idxOf c) := by
      rw [bitsOf_mod (by omega), bitsOf_shiftLeft_or (idxOf_lt hmem)]
    dsimp only at hrest
    rw [groupBits_cons, ← append_assoc, ← hshift]
    split at hrest
    · rename_i hfull
      obtain ⟨out', hout', rfl⟩ := Option.map_eq_some_iff.mp hrest
      obtain ⟨left, hleft, hbits⟩ := ih (by omega) hout'
      refine ⟨left, hleft, ?_⟩
      rw [byteBits_cons, bitsOf_ofNat, append_assoc, ← hbits, ← append_assoc,
        ← bitsOf_add, Nat.add_sub_cancel' hfull]
    · rename_i hfew
      exact ih (Nat.not_le.mp hfew) hrest

/-! ## The codec -/

/-- The text without the `=` at its end. -/
def withoutPadding (text : Bytes) : Bytes := (text.reverse.dropWhile (· = 61)).reverse

theorem base64urlDecode_eq_ok_iff (text out : Bytes) :
    base64urlDecode text = .ok out ↔
      (withoutPadding text).length % 4 ≠ 1 ∧ decodeLoop (withoutPadding text) 0 0 = some out := by
  rw [base64urlDecode, withoutPadding]
  split
  · rename_i hlen
    exact ⟨nofun, fun h => absurd hlen h.1⟩
  · rename_i hlen
    split
    · rename_i hnone
      rw [hnone]
      exact ⟨nofun, nofun⟩
    · rename_i out' hsome
      rw [hsome]
      exact ⟨fun h => ⟨hlen, congrArg some (Except.ok.inj h)⟩,
        fun h => congrArg Except.ok (Option.some.inj h.2)⟩

theorem withoutPadding_of_alphabet {text : Bytes} (h : ∀ c ∈ text, c ∈ kAlphabet) :
    withoutPadding text = text := by
  rw [withoutPadding]
  have hno : 61 ∉ kAlphabet := by decide +kernel
  cases hrev : text.reverse with
  | nil => rw [← reverse_reverse text, hrev]; rfl
  | cons c s =>
    have hc : c ≠ 61 := by
      rintro rfl
      exact hno (h 61 (mem_reverse.mp (hrev ▸ mem_cons_self)))
    rw [dropWhile_cons_of_neg (by simpa using hc), ← hrev, reverse_reverse]

/-- The codec is a bijection onto what it writes, and the decoder takes exactly the texts of whole
groups and gives the whole bytes in them. -/
theorem base64url_spec :
    (∀ data, base64urlDecode (base64urlEncode data) = .ok data ∧
      (base64urlEncode data).length = (8 * data.length + 5) / 6) ∧
    ∀ text, ((∃ out, base64urlDecode text = .ok out) ↔
        (∀ c ∈ withoutPadding text, c ∈ kAlphabet) ∧ (withoutPadding text).length % 4 ≠ 1) ∧
      ∀ out, base64urlDecode text = .ok out →
        ∃ left, left.length < 8 ∧ groupBits (withoutPadding text) = byteBits out ++ left := by
  refine ⟨fun data => ?_, fun text => ⟨?_, fun out hout => ?_⟩⟩
  · obtain ⟨pad, hpad, hgroups, hmem⟩ := encodeLoop_spec data 0 (by decide : 0 < 6)
    change groupBits (base64urlEncode data) = _ at hgroups
    change ∀ c ∈ base64urlEncode data, _ at hmem
    have hlen := congrArg List.length hgroups
    rw [length_groupBits, List.length_append, List.length_append, length_bitsOf, length_byteBits,
      List.length_replicate] at hlen
    refine ⟨?_, by omega⟩
    obtain ⟨out, hout⟩ := Option.isSome_iff_exists.mp
      ((decodeLoop_isSome (base64urlEncode data) 0 0).mpr hmem)
    obtain ⟨left, hleft, hbits⟩ := decodeLoop_spec (by decide) hout
    have hout_len := congrArg List.length hbits
    rw [List.length_append, List.length_append, length_bitsOf, length_groupBits,
      length_byteBits] at hout_len
    rw [base64urlDecode_eq_ok_iff, withoutPadding_of_alphabet hmem]
    refine ⟨by omega, hout.trans (congrArg some ?_)⟩
    rw [hgroups] at hbits
    exact eq_of_byteBits_append (hbits.symm.trans (List.nil_append _)) (by omega)
  · constructor
    · rintro ⟨out, hout⟩
      obtain ⟨hlen, hloop⟩ := (base64urlDecode_eq_ok_iff text out).mp hout
      exact ⟨(decodeLoop_isSome _ 0 0).mp (hloop ▸ rfl), hlen⟩
    · rintro ⟨hmem, hlen⟩
      obtain ⟨out, hout⟩ := Option.isSome_iff_exists.mp ((decodeLoop_isSome _ 0 0).mpr hmem)
      exact ⟨out, (base64urlDecode_eq_ok_iff text out).mpr ⟨hlen, hout⟩⟩
  · obtain ⟨-, hloop⟩ := (base64urlDecode_eq_ok_iff text out).mp hout
    obtain ⟨left, hleft, hbits⟩ := decodeLoop_spec (by decide) hloop
    exact ⟨left, hleft, hbits⟩

end Nexus.Base64
