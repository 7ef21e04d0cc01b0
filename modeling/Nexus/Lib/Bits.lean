import Mathlib.Data.Nat.Bitwise

/-!
# Words as strings of bits

`bitsOf width n` is the lowest `width` bits of `n`, the highest one first: a shift register that
takes bits in below and gives them out above is then a list that grows at its end.
-/

namespace Nexus.Lib

open List

def bitsOf : (width n : Nat) → List Bool
  | 0, _ => []
  | width + 1, n => n.testBit width :: bitsOf width n

@[simp] theorem length_bitsOf (width n : Nat) : (bitsOf width n).length = width := by
  induction width with
  | zero => rfl
  | succ width ih => rw [bitsOf, length_cons, ih]

theorem bitsOf_congr {width m n : Nat} (h : ∀ i < width, m.testBit i = n.testBit i) :
    bitsOf width m = bitsOf width n := by
  induction width with
  | zero => rfl
  | succ width ih =>
    rw [bitsOf, bitsOf, h width (Nat.lt_succ_self width), ih fun i hi => h i (Nat.lt_succ_of_lt hi)]

theorem testBit_eq_of_bitsOf_eq {width m n : Nat} (h : bitsOf width m = bitsOf width n) :
    ∀ i < width, m.testBit i = n.testBit i := by
  induction width with
  | zero => exact nofun
  | succ width ih =>
    obtain ⟨hhead, htail⟩ := cons.inj h
    intro i hi
    rcases Nat.lt_succ_iff_lt_or_eq.mp hi with hlt | rfl
    · exact ih htail i hlt
    · exact hhead

theorem bitsOf_mod {width size : Nat} (h : width ≤ size) (n : Nat) :
    bitsOf width (n % 2 ^ size) = bitsOf width n :=
  bitsOf_congr fun i hi => by
    rw [Nat.testBit_mod_two_pow, decide_eq_true (Nat.lt_of_lt_of_le hi h), Bool.true_and]

theorem bitsOf_zero (width : Nat) : bitsOf width 0 = replicate width false := by
  induction width with
  | zero => rfl
  | succ width ih => rw [bitsOf, ih, Nat.zero_testBit, replicate_succ]

/-- The high bits, then the low ones. -/
theorem bitsOf_add (high low n : Nat) :
    bitsOf (high + low) n = bitsOf high (n >>> low) ++ bitsOf low n := by
  induction high with
  | zero => rw [Nat.zero_add, bitsOf, nil_append]
  | succ high ih =>
    rw [Nat.add_right_comm, bitsOf, bitsOf, ih, Nat.testBit_shiftRight, Nat.add_comm low high,
      cons_append]

/-- The bits that are shifted in follow those that were there. -/
theorem bitsOf_shiftLeft_or {k v : Nat} (hv : v < 2 ^ k) (width n : Nat) :
    bitsOf (width + k) (n <<< k ||| v) = bitsOf width n ++ bitsOf k v := by
  rw [bitsOf_add]
  congr 1
  · refine bitsOf_congr fun i _ => ?_
    have hhigh : v.testBit (k + i) = false :=
      Nat.testBit_lt_two_pow (Nat.lt_of_lt_of_le hv (Nat.pow_le_pow_right (by decide)
        (Nat.le_add_right k i)))
    rw [Nat.testBit_shiftRight, Nat.testBit_or, Nat.testBit_shiftLeft, hhigh,
      Nat.add_sub_cancel_left, Bool.or_false, decide_eq_true (Nat.le_add_right k i), Bool.true_and]
  · refine bitsOf_congr fun i hi => ?_
    rw [Nat.testBit_or, Nat.testBit_shiftLeft, decide_eq_false (Nat.not_le.mpr hi), Bool.false_and,
      Bool.false_or]

/-! ## Bytes -/

def byteBits (bytes : List UInt8) : List Bool := bytes.flatMap fun b => bitsOf 8 b.toNat

@[simp] theorem byteBits_nil : byteBits [] = [] := rfl

@[simp] theorem byteBits_cons (b : UInt8) (bytes : List UInt8) :
    byteBits (b :: bytes) = bitsOf 8 b.toNat ++ byteBits bytes := rfl

@[simp] theorem length_byteBits (bytes : List UInt8) :
    (byteBits bytes).length = 8 * bytes.length := by
  induction bytes with
  | nil => rfl
  | cons b bytes ih =>
    rw [byteBits_cons, length_append, length_bitsOf, ih, length_cons]
    omega

theorem bitsOf_ofNat (n : Nat) : bitsOf 8 (UInt8.ofNat n).toNat = bitsOf 8 n := by
  rw [UInt8.toNat_ofNat']
  exact bitsOf_mod (Nat.le_refl 8) n

theorem byte_eq_of_bitsOf_eq {a b : UInt8} (h : bitsOf 8 a.toNat = bitsOf 8 b.toNat) : a = b := by
  apply UInt8.toNat_inj.mp
  refine Nat.eq_of_testBit_eq fun i => ?_
  by_cases hi : i < 8
  · exact testBit_eq_of_bitsOf_eq h i hi
  · have hpow : 2 ^ 8 ≤ 2 ^ i := Nat.pow_le_pow_right (by decide) (Nat.not_lt.mp hi)
    rw [Nat.testBit_lt_two_pow (Nat.lt_of_lt_of_le a.toNat_lt hpow),
      Nat.testBit_lt_two_pow (Nat.lt_of_lt_of_le b.toNat_lt hpow)]

/-- Whole bytes are known from their bits, whatever is left over. -/
theorem eq_of_byteBits_append {as bs : List UInt8} {xs ys : List Bool}
    (h : byteBits as ++ xs = byteBits bs ++ ys) (hlen : as.length = bs.length) : as = bs := by
  induction as generalizing bs with
  | nil => exact (length_eq_zero_iff.mp hlen.symm).symm
  | cons a as ih =>
    cases bs with
    | nil => cases hlen
    | cons b bs =>
      rw [byteBits_cons, byteBits_cons, append_assoc, append_assoc] at h
      obtain ⟨hhead, htail⟩ := append_inj h (by rw [length_bitsOf, length_bitsOf])
      rw [byte_eq_of_bitsOf_eq hhead, ih htail (Nat.succ.inj hlen)]

end Nexus.Lib
