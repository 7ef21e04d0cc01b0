import Mathlib.Data.Nat.Notation
import Mathlib.Tactic.Ring

/-!
# Fixed-width little-endian fields

Byte strings with fields at fixed positions. `storeLe` writes an integer in `w` bytes, in two's
complement when it is negative; `loadU` and `loadS` read the field at a position as an unsigned and
as a signed number. `loadU_storeLe` and `loadS_storeLe` are the round trips. `storeBe` and `loadBe`
are the same for big-endian fields.
-/

namespace Nexus.Lib

open List

abbrev Bytes := List UInt8

variable {pre post data : Bytes} {pos n w len : Nat}

/-- The `w` little-endian bytes of `n`; what does not fit in them is dropped. -/
def leBytes : Nat → Nat → Bytes
  | 0, _ => []
  | w + 1, n => UInt8.ofNat n :: leBytes w (n / 256)

def leValue : Bytes → Nat
  | [] => 0
  | b :: bs => b.toNat + 256 * leValue bs

/-- `len` bytes from position `pos` on, or as many as there are. -/
def slice (data : Bytes) (pos len : Nat) : Bytes := (data.drop pos).take len

def storeLe (w : Nat) (x : Int) : Bytes := leBytes w (x % (256 ^ w : Nat)).toNat

def loadU (w : Nat) (data : Bytes) (pos : Nat) : Nat := leValue (slice data pos w)

def loadS (w : Nat) (data : Bytes) (pos : Nat) : Int := Int.bmod (loadU w data pos) (256 ^ w)

def storeBe (w : Nat) (x : Int) : Bytes := (storeLe w x).reverse

def loadBe (w : Nat) (data : Bytes) (pos : Nat) : Int :=
  Int.bmod (leValue (slice data pos w).reverse) (256 ^ w)

@[simp] theorem length_leBytes (w n : Nat) : (leBytes w n).length = w := by
  induction w generalizing n with
  | zero => rfl
  | succ w ih => rw [leBytes, length_cons, ih]

@[simp] theorem length_storeLe (w : Nat) (x : Int) : (storeLe w x).length = w :=
  length_leBytes w _

theorem leValue_leBytes (w n : Nat) : leValue (leBytes w n) = n % 256 ^ w := by
  induction w generalizing n with
  | zero => rw [leBytes, leValue, pow_zero, Nat.mod_one]
  | succ w ih =>
    have hbyte : (UInt8.ofNat n).toNat = n % 256 := UInt8.toNat_ofNat'
    rw [leBytes, leValue, ih, hbyte, pow_succ', Nat.mod_mul]

theorem leValue_storeLe (w : Nat) (x : Int) :
    (leValue (storeLe w x) : Int) = x % (256 ^ w : Nat) := by
  have hpos : (0 : Int) < (256 ^ w : Nat) := by exact_mod_cast Nat.pow_pos (by omega)
  have hnonneg := Int.emod_nonneg x (Int.ne_of_gt hpos)
  have hlt := Int.emod_lt_of_pos x hpos
  rw [storeLe, leValue_leBytes, Nat.mod_eq_of_lt (by omega), Int.toNat_of_nonneg hnonneg]

theorem leBytes_leValue (bs : Bytes) : leBytes bs.length (leValue bs) = bs := by
  induction bs with
  | nil => rfl
  | cons b bs ih =>
    have hdiv : (b.toNat + 256 * leValue bs) / 256 = leValue bs := by
      have := b.toNat_lt
      omega
    rw [length_cons, leBytes, leValue, hdiv, ih, UInt8.ofNat_add, UInt8.ofNat_mul,
      UInt8.ofNat_toNat]
    simp

theorem leValue_lt (bs : Bytes) : leValue bs < 256 ^ bs.length := by
  induction bs with
  | nil => exact Nat.one_pos
  | cons b bs ih =>
    have := b.toNat_lt
    rw [leValue, length_cons, Nat.pow_succ]
    omega

/-- A field that was read is written back as it was. -/
theorem storeLe_leValue {bs : Bytes} (h : bs.length = w) (x : Int)
    (hx : x % (256 ^ w : Nat) = leValue bs % (256 ^ w : Nat)) : storeLe w x = bs := by
  subst h
  rw [storeLe, hx, ← Int.natCast_emod, Int.toNat_natCast, Nat.mod_eq_of_lt (leValue_lt bs)]
  exact leBytes_leValue bs

/-! ## Slices -/

theorem slice_add (data : Bytes) (pos a b : Nat) :
    slice data pos (a + b) = slice data pos a ++ slice data (pos + a) b := by
  rw [slice, slice, slice, take_add, drop_drop]

theorem length_slice (h : pos + len ≤ data.length) : (slice data pos len).length = len := by
  rw [slice, length_take, length_drop]
  omega

theorem storeLe_loadU (h : pos + w ≤ data.length) :
    storeLe w (loadU w data pos) = slice data pos w :=
  storeLe_leValue (length_slice h) _ rfl

theorem storeLe_loadS (h : pos + w ≤ data.length) :
    storeLe w (loadS w data pos) = slice data pos w :=
  storeLe_leValue (length_slice h) _ Int.bmod_emod

theorem loadS_bounds {k : Nat} (hw : 8 * w = k + 1) (data : Bytes) (pos : Nat) :
    -2 ^ k ≤ loadS w data pos ∧ loadS w data pos < 2 ^ k := by
  have hpow : 256 ^ w = 2 * 2 ^ k := by
    rw [← Nat.pow_succ', Nat.succ_eq_add_one, ← hw, Nat.pow_mul]
  have hpos : 0 < 256 ^ w := Nat.pow_pos (by decide)
  have hlo := Int.le_bmod (x := (loadU w data pos : Int)) hpos
  have hhi := Int.bmod_lt (x := (loadU w data pos : Int)) hpos
  rw [hpow] at hlo hhi
  rw [loadS, hpow]
  push_cast at *
  omega

theorem slice_append_left (pre data : Bytes) (pos len : Nat) (h : pre.length = pos) :
    slice (pre ++ data) pos len = data.take len := by
  rw [slice, drop_left' h]

/-- A field is read back from the string that it was written into. -/
theorem slice_field {x : Bytes} (hp : pre.length = pos) (hx : x.length = len) :
    slice (pre ++ (x ++ post)) pos len = x := by
  rw [slice_append_left _ _ _ _ hp, take_left' hx]

/-- What is read below a cut is read from the cut string. -/
theorem slice_take (h : pos + len ≤ n) :
    slice (data.take n) pos len = slice data pos len := by
  rw [slice, slice, drop_take, take_take, Nat.min_eq_left (by omega)]

theorem loadU_storeLe (hp : pre.length = pos) (hn : n < 256 ^ w) :
    loadU w (pre ++ (storeLe w n ++ post)) pos = n := by
  have h := leValue_storeLe w n
  rw [← Int.natCast_emod, Nat.mod_eq_of_lt hn] at h
  rw [loadU, slice_field hp (length_storeLe w n)]
  exact_mod_cast h

theorem loadS_storeLe {x : Int} (hp : pre.length = pos) (hlo : -(256 ^ w : Nat) ≤ 2 * x)
    (hhi : 2 * x < (256 ^ w : Nat)) : loadS w (pre ++ (storeLe w x ++ post)) pos = x := by
  rw [loadS, loadU, slice_field hp (length_storeLe w x), leValue_storeLe, Int.emod_bmod]
  exact Int.bmod_eq_of_le_mul_two (by omega) (by omega)

theorem loadS_take (h : pos + w ≤ n) : loadS w (data.take n) pos = loadS w data pos := by
  rw [loadS, loadU, slice_take h]
  rfl

theorem loadU_take (h : pos + w ≤ n) : loadU w (data.take n) pos = loadU w data pos := by
  rw [loadU, slice_take h]
  rfl

/-- What is read before the end of a string is read when more follows. -/
theorem slice_append_of_le (h : pos + len ≤ data.length) (rest : Bytes) :
    slice (data ++ rest) pos len = slice data pos len := by
  rw [slice, slice, drop_append_of_le_length (by omega),
    take_append_of_le_length (by rw [length_drop]; omega)]

theorem loadBe_append (h : pos + w ≤ data.length) (rest : Bytes) :
    loadBe w (data ++ rest) pos = loadBe w data pos := by
  rw [loadBe, slice_append_of_le h]
  rfl

end Nexus.Lib
