import Mathlib.Data.Nat.Bitwise
import Nexus.Common
import Nexus.Lib.Codec
import Nexus.Lib.LittleEndian

/-!
# The codec of the wire protocols

`Encoder` and `Decoder` of `protocol/codec.cpp` with the varints of `common/varint.cpp`, and the
`get_count` of `protocol/messages.cpp` and `consensus/raft_rpc.cpp`. The integers have the widths of
the source. A string, a byte field and an array are no longer than a `std::size_t` can tell
(`Sized`).

* `reads_*`: each `get` reads what its `put` writes and leaves what follows.
* `reads_array`: so does a counter with its elements, as long as no element is encoded by nothing,
  since the counter may not exceed the bytes that remain.
* `getVarint_eq`: a varint of at most ten bytes is read modulo `2 ^ 64`, so a tenth byte that does
  not fit loses its high bits (`readsFaithfully_iff`).
-/

namespace Nexus.Wire

open Lib List

/-- A container, whose size is a `std::size_t`. -/
abbrev Sized (α : Type) := { xs : List α // xs.length < 2 ^ 64 }

/-- A string, whose characters are opaque to the codec. -/
abbrev Text := Sized UInt8

/-- `Decoder`: the state is what is still unread. -/
abbrev Decoder (α : Type) := StateT Bytes (Except Error) α

/-! ## Encoder -/

def putU8 (value : UInt8) : Bytes := storeLe 1 value.toNat
def putU16 (value : UInt16) : Bytes := storeLe 2 value.toNat
def putU32 (value : UInt32) : Bytes := storeLe 4 value.toNat
def putI16 (value : Int16) : Bytes := storeLe 2 value.toInt
def putI32 (value : Int32) : Bytes := storeLe 4 value.toInt
def putI64 (value : Int64) : Bytes := storeLe 8 value.toInt

/-- Seven bits in each byte; the high bit says that more follow. -/
def putVarint (value : UInt64) : Bytes :=
  if 0x80 ≤ value then ((value &&& 0x7F) ||| 0x80).toUInt8 :: putVarint (value >>> 7)
  else [value.toUInt8]
termination_by value.toNat
decreasing_by
  have h128 : 128 ≤ value.toNat := by assumption
  rw [UInt64.toNat_shiftRight]
  exact Nat.lt_of_le_of_lt (Nat.le_of_eq (Nat.shiftRight_eq_div_pow _ _))
    (Nat.div_lt_self (by omega) (by decide))

def putBytes (data : Sized UInt8) : Bytes := putVarint (UInt64.ofNat data.1.length) ++ data.1

def putString (text : Text) : Bytes := putBytes text

def putBool (value : Bool) : Bytes := putU8 (if value then 1 else 0)

/-! ## Decoder -/

namespace Decoder

def take (n : Nat) : Decoder { span : Bytes // span.length = n } :=
  takeExactly ⟨.invalidArgument, "decode fuera de límites"⟩ n

/-- `load_le` of the next `width` bytes. -/
def getLe {α : Type} (width : Nat) (load : Bytes → α) : Decoder α := do
  let span ← take width
  return load span.1

def getU8 : Decoder UInt8 := getLe 1 fun span => UInt8.ofNat (loadU 1 span 0)
def getU16 : Decoder UInt16 := getLe 2 fun span => UInt16.ofNat (loadU 2 span 0)
def getU32 : Decoder UInt32 := getLe 4 fun span => UInt32.ofNat (loadU 4 span 0)
def getI16 : Decoder Int16 := getLe 2 fun span => Int16.ofInt (loadS 2 span 0)
def getI32 : Decoder Int32 := getLe 4 fun span => Int32.ofInt (loadS 4 span 0)
def getI64 : Decoder Int64 := getLe 8 fun span => Int64.ofInt (loadS 8 span 0)

/-- The loop of `get_varint`, with at most `n` more bytes to look at. -/
def getVarintLoop : (n : Nat) → (shift result : UInt64) → Bytes → Except Error (UInt64 × Bytes)
  | 0, _, _, _ | _ + 1, _, _, [] =>
    .error ⟨.invalidArgument, "varint truncado o demasiado largo"⟩
  | n + 1, shift, result, byte :: rest =>
    let result := result ||| ((byte &&& 0x7F).toUInt64 <<< shift)
    if byte &&& 0x80 = 0 then .ok (result, rest) else getVarintLoop n (shift + 7) result rest

def kMaxVarintBytes : Nat := 10

def getVarint : Decoder UInt64 := getVarintLoop kMaxVarintBytes 0 0

def getBytes : Decoder (Sized UInt8) := do
  let length ← getVarint
  let span ← take length.toNat
  return ⟨span.1, span.2.trans_lt length.toNat_lt⟩

def getString : Decoder Text := getBytes

def getBool : Decoder Bool := do
  let value ← getU8
  return value != 0

/-- There cannot be more elements than bytes. -/
def getCount : Decoder UInt64 := do
  let count ← getVarint
  let remaining ← get
  if remaining.length < count.toNat then
    throw ⟨.invalidArgument, "contador de elementos excede el buffer"⟩
  else return count

/-- A counter, then as many elements. -/
def getArray {α : Type} (decode : Decoder α) : Decoder (Sized α) := do
  let count ← getCount
  let elements ← readMany decode count.toNat
  return ⟨elements.1, elements.2.trans_lt count.toNat_lt⟩

end Decoder

def putArray {α : Type} (encode : α → Bytes) (elements : Sized α) : Bytes :=
  putVarint (UInt64.ofNat elements.1.length) ++ elements.1.flatMap encode

/-! ## Fixed-width fields -/

section Fixed

open Decoder

theorem reads_le {α : Type} {width : Nat} {load : Bytes → α} {field : Bytes} {a : α}
    (hlen : field.length = width) (hload : load field = a) : Reads (getLe width load) field a := by
  subst hload
  exact (Reads.takeExactly _ hlen).last _

theorem loadU_storeLe_self {w n : Nat} (hn : n < 256 ^ w) : loadU w (storeLe w n) 0 = n := by
  have h := @loadU_storeLe [] [] 0 n w rfl hn
  rwa [nil_append, append_nil] at h

theorem loadS_storeLe_self {w : Nat} {x : Int} (hlo : -(256 ^ w : Nat) ≤ 2 * x)
    (hhi : 2 * x < (256 ^ w : Nat)) : loadS w (storeLe w x) 0 = x := by
  have h := @loadS_storeLe [] [] 0 w x rfl hlo hhi
  rwa [nil_append, append_nil] at h

theorem reads_u8 (value : UInt8) : Reads getU8 (putU8 value) value :=
  reads_le (length_storeLe 1 _) (by
    rw [putU8, loadU_storeLe_self value.toNat_lt, UInt8.ofNat_toNat])

theorem reads_u16 (value : UInt16) : Reads getU16 (putU16 value) value :=
  reads_le (length_storeLe 2 _) (by
    rw [putU16, loadU_storeLe_self value.toNat_lt, UInt16.ofNat_toNat])

theorem reads_u32 (value : UInt32) : Reads getU32 (putU32 value) value :=
  reads_le (length_storeLe 4 _) (by
    rw [putU32, loadU_storeLe_self value.toNat_lt, UInt32.ofNat_toNat])

theorem reads_i16 (value : Int16) : Reads getI16 (putI16 value) value := by
  have hlo := value.le_toInt
  have hhi := value.toInt_lt
  refine reads_le (length_storeLe 2 _) ?_
  rw [putI16, loadS_storeLe_self (by norm_num at hlo ⊢; omega) (by norm_num at hhi ⊢; omega),
    Int16.ofInt_toInt]

theorem reads_i32 (value : Int32) : Reads getI32 (putI32 value) value := by
  have hlo := value.le_toInt
  have hhi := value.toInt_lt
  refine reads_le (length_storeLe 4 _) ?_
  rw [putI32, loadS_storeLe_self (by norm_num at hlo ⊢; omega) (by norm_num at hhi ⊢; omega),
    Int32.ofInt_toInt]

theorem reads_i64 (value : Int64) : Reads getI64 (putI64 value) value := by
  have hlo := value.le_toInt
  have hhi := value.toInt_lt
  refine reads_le (length_storeLe 8 _) ?_
  rw [putI64, loadS_storeLe_self (by norm_num at hlo ⊢; omega) (by norm_num at hhi ⊢; omega),
    Int64.ofInt_toInt]

theorem reads_bool (value : Bool) : Reads getBool (putBool value) value := by
  have hreads : Reads getBool (putBool value) ((if value then 1 else 0 : UInt8) != 0) :=
    (reads_u8 _).last _
  cases value with
  | true => exact hreads
  | false => exact hreads

end Fixed

/-! ## Varints -/

section Varint

open Decoder

theorem putVarint_ne_nil (value : UInt64) : putVarint value ≠ [] := by
  rw [putVarint]
  split
  · exact cons_ne_nil _ _
  · exact cons_ne_nil _ _

/-- The bytes of one varint: the last one is the first without a continuation bit. -/
inductive Varint : Bytes → Prop
  | last {b : UInt8} (h : b.toNat < 128) : Varint [b]
  | more {b : UInt8} {bytes : Bytes} (h : 128 ≤ b.toNat) (hbytes : Varint bytes) :
    Varint (b :: bytes)

/-- The number that the groups of seven bits stand for, the lowest one first. -/
def groupValue : Bytes → Nat
  | [] => 0
  | b :: bytes => b.toNat % 128 + 128 * groupValue bytes

theorem groupValue_lt (bytes : Bytes) : groupValue bytes < 2 ^ (7 * bytes.length) := by
  induction bytes with
  | nil => decide
  | cons b bytes ih =>
    rw [groupValue, length_cons, Nat.mul_succ, Nat.pow_add]
    omega

theorem toNat_and_mask (b : UInt8) : (b &&& 0x7F).toNat = b.toNat % 128 := by
  rw [UInt8.toNat_and]
  exact Nat.and_two_pow_sub_one_eq_mod b.toNat 7

theorem and_high_eq_zero_iff (b : UInt8) : b &&& 0x80 = 0 ↔ b.toNat < 128 := by
  have h : ∀ n < 256, (n &&& 128 = 0 ↔ n < 128) := by decide +kernel
  rw [← UInt8.toNat_inj, UInt8.toNat_and]
  exact h b.toNat b.toNat_lt

/-- A turn of the loop adds a group; what does not fit in 64 bits is lost. -/
theorem toNat_or_group {result shift : UInt64} (b : UInt8) (hshift : shift.toNat < 64)
    (hresult : result.toNat < 2 ^ shift.toNat) :
    (result ||| ((b &&& 0x7F).toUInt64 <<< shift)).toNat =
      (result.toNat + 2 ^ shift.toNat * (b.toNat % 128)) % 2 ^ 64 := by
  have hpow : 2 ^ 64 = 2 ^ shift.toNat * 2 ^ (64 - shift.toNat) := by
    rw [← Nat.pow_add, Nat.add_sub_cancel' (Nat.le_of_lt hshift)]
  rw [UInt64.toNat_or, UInt64.toNat_shiftLeft, Nat.mod_eq_of_lt hshift, UInt8.toNat_toUInt64,
    toNat_and_mask, Nat.shiftLeft_eq, Nat.mul_comm, hpow, Nat.mul_mod_mul_left, Nat.or_comm,
    ← Nat.two_pow_add_eq_or_of_lt hresult, Nat.mod_mul, Nat.add_mul_mod_self_left,
    Nat.mod_eq_of_lt hresult, Nat.add_mul_div_left _ _ (Nat.two_pow_pos _),
    Nat.div_eq_of_lt hresult, Nat.zero_add, Nat.add_comm]

theorem ofNat_mod_add (a b : Nat) : UInt64.ofNat (a % 2 ^ 64 + b) = UInt64.ofNat (a + b) := by
  apply UInt64.toNat_inj.mp
  rw [UInt64.toNat_ofNat', UInt64.toNat_ofNat', Nat.mod_add_mod]

def varintError : Error := ⟨.invalidArgument, "varint truncado o demasiado largo"⟩

/-- The loop reads one varint, if it has turns enough, and adds its groups modulo `2 ^ 64`. -/
theorem getVarintLoop_eq {bytes : Bytes} (h : Varint bytes) {n : Nat} {shift result : UInt64}
    (hshift : shift.toNat + 7 * n = 70) (hresult : result.toNat < 2 ^ shift.toNat) (rest : Bytes) :
    getVarintLoop n shift result (bytes ++ rest) =
      if bytes.length ≤ n then
        .ok (UInt64.ofNat (result.toNat + 2 ^ shift.toNat * groupValue bytes), rest)
      else .error varintError := by
  induction h generalizing n shift result with
  | @last b hb =>
    cases n with
    | zero => rfl
    | succ n =>
      rw [singleton_append, getVarintLoop]
      simp only [(and_high_eq_zero_iff b).mpr hb, if_true]
      rw [length_singleton, if_pos (Nat.le_add_left 1 n), groupValue, groupValue,
        Nat.mul_zero, Nat.add_zero]
      congr 2
      apply UInt64.toNat_inj.mp
      rw [toNat_or_group b (by omega) hresult, UInt64.toNat_ofNat']
  | @more b bytes hb hbytes ih =>
    cases n with
    | zero => rfl
    | succ n =>
      have hor := toNat_or_group b (show shift.toNat < 64 by omega) hresult
      have hsum : (shift + 7).toNat = shift.toNat + 7 := by
        rw [UInt64.toNat_add]
        exact Nat.mod_eq_of_lt (by have : (7 : UInt64).toNat = 7 := rfl; omega)
      have hpow : 2 ^ (shift.toNat + 7) = 2 ^ shift.toNat * 128 := Nat.pow_add ..
      have hnext : (result ||| ((b &&& 0x7F).toUInt64 <<< shift)).toNat <
          2 ^ (shift + 7).toNat := by
        have hgroup : 2 ^ shift.toNat * (b.toNat % 128) ≤ 2 ^ shift.toNat * 127 :=
          Nat.mul_le_mul_left _ (by omega)
        refine Nat.lt_of_le_of_lt (hor ▸ Nat.mod_le _ _) ?_
        rw [hsum, hpow]
        omega
      rw [cons_append, getVarintLoop]
      simp only [mt (and_high_eq_zero_iff b).mp (Nat.not_lt.mpr hb), if_false]
      rw [ih (by omega) hnext, hor, ofNat_mod_add, hsum, hpow, groupValue, length_cons,
        Nat.mul_assoc, Nat.add_assoc, ← Nat.mul_add]
      exact if_congr (Nat.add_le_add_iff_right).symm rfl rfl

/-- A varint of at most ten bytes is read, modulo `2 ^ 64`. -/
theorem getVarint_eq {bytes : Bytes} (h : Varint bytes) (rest : Bytes) :
    getVarint.run (bytes ++ rest) =
      if bytes.length ≤ kMaxVarintBytes then .ok (UInt64.ofNat (groupValue bytes), rest)
      else .error varintError := by
  have := @getVarintLoop_eq _ h kMaxVarintBytes 0 0 rfl (by decide) rest
  rwa [show (0 : UInt64).toNat = 0 from rfl, Nat.zero_add, Nat.pow_zero, Nat.one_mul] at this

theorem toNat_mask (value : UInt64) : (value &&& 0x7F).toNat = value.toNat % 128 := by
  rw [UInt64.toNat_and]
  exact Nat.and_two_pow_sub_one_eq_mod value.toNat 7

/-- A byte of `put_varint` that is not the last. -/
theorem toNat_more (value : UInt64) :
    ((value &&& 0x7F) ||| 0x80).toUInt8.toNat = 128 + value.toNat % 128 := by
  have hor : value.toNat % 128 ||| 128 = 128 + value.toNat % 128 := by
    rw [Nat.or_comm]
    exact (Nat.two_pow_add_eq_or_of_lt (i := 7) (Nat.mod_lt _ (by decide)) 1).symm
  rw [UInt64.toNat_toUInt8, UInt64.toNat_or, toNat_mask]
  change (value.toNat % 128 ||| 128) % 2 ^ 8 = _
  rw [hor]
  omega

theorem varint_last {value : UInt64} (h : value.toNat < 128) :
    Varint [value.toUInt8] ∧ groupValue [value.toUInt8] = value.toNat := by
  have hbyte : value.toUInt8.toNat = value.toNat := by
    rw [UInt64.toNat_toUInt8]
    omega
  refine ⟨.last (hbyte ▸ h), ?_⟩
  rw [groupValue, groupValue, hbyte]
  omega

theorem putVarint_groups {value : UInt64} {n : Nat} (h : value.toNat < 2 ^ (7 * (n + 1))) :
    Varint (putVarint value) ∧ groupValue (putVarint value) = value.toNat ∧
      (putVarint value).length ≤ n + 1 := by
  induction n generalizing value with
  | zero =>
    rw [putVarint, if_neg (UInt64.not_le.mpr h)]
    obtain ⟨hvarint, hvalue⟩ := varint_last h
    exact ⟨hvarint, hvalue, Nat.le_refl _⟩
  | succ n ih =>
    rw [putVarint]
    split
    · have hrest : (value >>> 7).toNat = value.toNat / 128 := by
        rw [UInt64.toNat_shiftRight]
        exact Nat.shiftRight_eq_div_pow _ _
      obtain ⟨hvarint, hvalue, hlength⟩ := @ih (value >>> 7) (by
        rw [hrest]
        refine Nat.div_lt_of_lt_mul ?_
        rwa [Nat.mul_succ 7 (n + 1), Nat.pow_add, Nat.mul_comm] at h)
      refine ⟨.more (by rw [toNat_more]; omega) hvarint, ?_, Nat.succ_le_succ hlength⟩
      rw [groupValue, toNat_more, hvalue, hrest]
      omega
    · rename_i hlast
      obtain ⟨hvarint, hvalue⟩ := varint_last (UInt64.not_le.mp hlast)
      exact ⟨hvarint, hvalue, Nat.le_add_left _ _⟩

theorem reads_varint (value : UInt64) : Reads getVarint (putVarint value) value := by
  intro rest
  obtain ⟨hvarint, hvalue, hlength⟩ := @putVarint_groups value 9
    (Nat.lt_trans value.toNat_lt (by decide))
  rw [getVarint_eq hvarint, kMaxVarintBytes, if_pos hlength, hvalue, UInt64.ofNat_toNat]

/-- An input starts with a varint, or all its bytes have a continuation bit. -/
theorem varint_or_continued (input : Bytes) :
    (∃ bytes rest, Varint bytes ∧ input = bytes ++ rest) ∨ ∀ b ∈ input, 128 ≤ b.toNat := by
  induction input with
  | nil => exact .inr nofun
  | cons b input ih =>
    by_cases hb : b.toNat < 128
    · exact .inl ⟨[b], input, .last hb, rfl⟩
    · rcases ih with ⟨bytes, rest, hvarint, rfl⟩ | hall
      · exact .inl ⟨b :: bytes, rest, .more (Nat.not_lt.mp hb) hvarint, rfl⟩
      · exact .inr (forall_mem_cons.mpr ⟨Nat.not_lt.mp hb, hall⟩)

theorem getVarintLoop_continued {input : Bytes} (h : ∀ b ∈ input, 128 ≤ b.toNat) (n : Nat)
    (shift result : UInt64) : getVarintLoop n shift result input = .error varintError := by
  induction input generalizing n shift result with
  | nil => cases n <;> rfl
  | cons b input ih =>
    obtain ⟨hb, hinput⟩ := forall_mem_cons.mp h
    cases n with
    | zero => rfl
    | succ n =>
      rw [getVarintLoop]
      simp only [mt (and_high_eq_zero_iff b).mp (Nat.not_lt.mpr hb), if_false]
      exact ih hinput n _ _

/-- What is read from the input is the number that the bytes of a varint stand for. -/
def ReadsFaithfully (input : Bytes) : Prop :=
  ∀ value rest, getVarint.run input = .ok (value, rest) →
    ∃ bytes, Varint bytes ∧ input = bytes ++ rest ∧ value.toNat = groupValue bytes

/-- `get_varint` is faithful unless the input starts with a varint of ten bytes whose number does
not fit in 64 bits: the high bits of the tenth byte are shifted out. -/
theorem readsFaithfully_iff (input : Bytes) :
    ReadsFaithfully input ↔ ¬ ∃ bytes rest, Varint bytes ∧ input = bytes ++ rest ∧
      bytes.length = kMaxVarintBytes ∧ 2 ^ 64 ≤ groupValue bytes := by
  constructor
  · rintro hfaithful ⟨bytes, rest, hvarint, rfl, hlength, hbig⟩
    have hread := getVarint_eq hvarint rest
    rw [if_pos (Nat.le_of_eq hlength)] at hread
    obtain ⟨bytes', -, happend, hvalue⟩ := hfaithful _ _ hread
    rw [← List.append_cancel_right happend] at hvalue
    exact absurd (hvalue ▸ UInt64.toNat_lt _) (Nat.not_lt.mpr hbig)
  · intro hno value rest hread
    rcases varint_or_continued input with ⟨bytes, rest', hvarint, rfl⟩ | hall
    · rw [getVarint_eq hvarint] at hread
      split at hread
      · rename_i hlength
        obtain ⟨rfl, rfl⟩ := Prod.mk.injEq .. ▸ Except.ok.inj hread
        refine ⟨bytes, hvarint, rfl, ?_⟩
        have hlt : groupValue bytes < 2 ^ 64 := by
          rcases Nat.lt_or_eq_of_le hlength with hshort | hten
          · exact Nat.lt_trans (Nat.lt_of_lt_of_le (groupValue_lt bytes)
              (Nat.pow_le_pow_right (by decide) (Nat.mul_le_mul_left 7 (Nat.le_of_lt_succ hshort))))
              (by decide)
          · exact Nat.not_le.mp fun hbig => hno ⟨bytes, rest', hvarint, rfl, hten, hbig⟩
        rw [UInt64.toNat_ofNat', Nat.mod_eq_of_lt hlt]
      · cases hread
    · cases (getVarintLoop_continued hall _ _ _).symm.trans hread

/-- Nine groups of zeros and a tenth one of two: the number is `2 ^ 64`, and 0 is read. -/
theorem getVarint_drops_bits :
    getVarint.run [0x80, 0x80, 0x80, 0x80, 0x80, 0x80, 0x80, 0x80, 0x80, 0x02] = .ok (0, []) ∧
      groupValue [0x80, 0x80, 0x80, 0x80, 0x80, 0x80, 0x80, 0x80, 0x80, 0x02] = 2 ^ 64 := by
  decide

end Varint

/-! ## Byte fields and arrays -/

section Sized

open Decoder

theorem storeLe_ne_nil {w : Nat} (hw : 0 < w) (x : Int) : storeLe w x ≠ [] := by
  rw [← length_pos_iff, length_storeLe]
  exact hw

theorem putU16_ne_nil (value : UInt16) : putU16 value ≠ [] := storeLe_ne_nil (by decide) _

theorem putI32_ne_nil (value : Int32) : putI32 value ≠ [] := storeLe_ne_nil (by decide) _

theorem putI64_ne_nil (value : Int64) : putI64 value ≠ [] := storeLe_ne_nil (by decide) _

theorem putString_ne_nil (text : Text) : putString text ≠ [] :=
  append_ne_nil_of_left_ne_nil (putVarint_ne_nil _) _

variable {α : Type} {encode : α → Bytes}

/-- The size of a container goes through its varint. -/
theorem toNat_size (xs : Sized α) : (UInt64.ofNat xs.1.length).toNat = xs.1.length :=
  UInt64.toNat_ofNat_of_lt' xs.2

theorem reads_bytes (data : Sized UInt8) : Reads getBytes (putBytes data) data := by
  have htake := Reads.takeExactly (Error.mk .invalidArgument "decode fuera de límites")
    (toNat_size data).symm
  exact (reads_varint _).bind (htake.last _)

theorem reads_string (text : Text) : Reads getString (putString text) text :=
  reads_bytes text

/-- A list of non-empty strings is no longer than the strings are together. -/
theorem length_le_flatMap (hne : ∀ a, encode a ≠ [])
    (as : List α) : as.length ≤ (as.flatMap encode).length := by
  induction as with
  | nil => exact Nat.le_refl 0
  | cons a as ih =>
    have := length_pos_iff.mpr (hne a)
    rw [flatMap_cons, length_append, length_cons]
    omega

/-- The counter is accepted when the elements follow. -/
theorem getCount_run (count : UInt64) {rest : Bytes} (h : count.toNat ≤ rest.length) :
    getCount.run (putVarint count ++ rest) = .ok (count, rest) := by
  rw [getCount, StateT.run_bind, reads_varint]
  change (if rest.length < count.toNat then throw _ else pure count : Decoder UInt64).run rest = _
  rw [if_neg (Nat.not_lt_of_le h)]
  rfl

theorem reads_array {decode : Decoder α}
    (hreads : ∀ a, Reads decode (encode a) a) (hne : ∀ a, encode a ≠ []) (as : Sized α) :
    Reads (getArray decode) (putArray encode as) as := by
  intro rest
  have hmany := Reads.many (fun a _ => hreads a) (toNat_size as).symm rest
  have hle : (UInt64.ofNat as.1.length).toNat ≤ (as.1.flatMap encode ++ rest).length := by
    rw [toNat_size, length_append]
    exact Nat.le_trans (length_le_flatMap hne as.1) (Nat.le_add_right _ _)
  rw [putArray, append_assoc, getArray, StateT.run_bind, getCount_run _ hle]
  change ((readMany decode _).run _ >>= _) = _
  rw [hmany]
  rfl

end Sized

end Nexus.Wire
