import Mathlib.Data.Nat.Bitwise
import Nexus.Lib.LittleEndian

/-!
# The shift register of a reflected CRC

A reflected CRC divides by a polynomial, the lowest bit first: the register moves down by one bit,
and the polynomial is added when the bit that falls out is set. Over natural numbers the register
has no width, so that the step on one byte and that on a longer word are the same function, and a
whole string is one little-endian number.

* `feed_eq`: bytes that are fed one after the other are one number that is shifted through.
* `feed_ne_of_burst`: strings that differ in some of as many consecutive bits as the polynomial has
  leave different registers.
-/

namespace Nexus.Lib.CrcRegister

open List Function

variable {poly width r : Nat}

/-- One bit falls out of the register. -/
def shift (poly r : Nat) : Nat := r >>> 1 ^^^ (if r % 2 = 1 then poly else 0)

/-- The register after one byte. -/
def feedByte (poly r : Nat) (b : UInt8) : Nat := (shift poly)^[8] (r ^^^ b.toNat)

def feed (poly r : Nat) (data : Bytes) : Nat := data.foldl (feedByte poly) r

/-! ## One number -/

theorem shift_xor (a b : Nat) : shift poly (a ^^^ b) = shift poly a ^^^ shift poly b := by
  have hmod : (a ^^^ b) % 2 = (a % 2 + b % 2) % 2 := by
    rw [Nat.xor_mod_two_eq, Nat.add_mod]
  rw [shift, shift, shift, Nat.shiftRight_xor_distrib, hmod]
  rcases Nat.mod_two_eq_zero_or_one a with ha | ha <;>
    rcases Nat.mod_two_eq_zero_or_one b with hb | hb <;> rw [ha, hb]
  · simp
  · simp [Nat.xor_assoc]
  · simp [Nat.xor_comm, Nat.xor_left_comm]
  · rw [if_neg (by decide), if_pos rfl, Nat.xor_zero, Nat.xor_assoc, Nat.xor_left_comm poly,
      Nat.xor_self, Nat.xor_zero]

theorem shift_two_mul (v : Nat) : shift poly (2 * v) = v := by
  rw [shift, Nat.mul_mod_right, if_neg (by decide), Nat.xor_zero, Nat.shiftRight_one,
    Nat.mul_div_cancel_left v (by decide)]

theorem shifts_xor (n a b : Nat) :
    (shift poly)^[n] (a ^^^ b) = (shift poly)^[n] a ^^^ (shift poly)^[n] b := by
  induction n generalizing a b with
  | zero => rfl
  | succ n ih => rw [iterate_succ_apply, shift_xor, ih]; rfl

theorem shifts_mul (n v : Nat) : (shift poly)^[n] (2 ^ n * v) = v := by
  induction n with
  | zero => exact Nat.one_mul v
  | succ n ih => rw [iterate_succ_apply, pow_succ', Nat.mul_assoc, shift_two_mul, ih]

theorem xor_mul_eq_add {a k : Nat} (h : a < 2 ^ k) (v : Nat) : a ^^^ 2 ^ k * v = a + 2 ^ k * v := by
  rw [Nat.add_comm, Nat.two_pow_add_eq_or_of_lt h, Nat.or_comm]
  refine Nat.eq_of_testBit_eq fun i => ?_
  rw [Nat.testBit_xor, Nat.testBit_or, Nat.testBit_two_pow_mul]
  by_cases hi : k ≤ i
  · rw [Nat.testBit_lt_two_pow (Nat.lt_of_lt_of_le h (Nat.pow_le_pow_right (by decide) hi)),
      Bool.false_xor, Bool.false_or]
  · rw [decide_eq_false hi, Bool.false_and, Bool.xor_false, Bool.or_false]

/-- Eight shifts treat the low byte; the rest only moves down. -/
theorem shifts_low (x : Nat) :
    (shift poly)^[8] x = (shift poly)^[8] (x % 2 ^ 8) ^^^ x / 2 ^ 8 := by
  have hsplit : x = x % 2 ^ 8 ^^^ 2 ^ 8 * (x / 2 ^ 8) := by
    rw [xor_mul_eq_add (Nat.mod_lt x (by decide)), Nat.mod_add_div]
  conv_lhs => rw [hsplit]
  rw [shifts_xor, shifts_mul]

theorem feed_eq (r : Nat) (data : Bytes) :
    feed poly r data = (shift poly)^[8 * data.length] (r ^^^ leValue data) := by
  induction data generalizing r with
  | nil => exact (Nat.xor_zero r).symm
  | cons b data ih =>
    have hvalue : leValue (b :: data) = b.toNat ^^^ 2 ^ 8 * leValue data :=
      (xor_mul_eq_add b.toNat_lt _).symm
    change feed poly (feedByte poly r b) data = _
    rw [ih, length_cons, Nat.mul_succ, iterate_add_apply, hvalue, ← Nat.xor_assoc,
      shifts_xor 8, shifts_mul, feedByte]

/-! ## Bursts -/

/-- With a polynomial of full width the register does not forget. -/
theorem shift_ne_zero (hpoly : 2 ^ width ≤ poly) (hlt : poly < 2 ^ (width + 1))
    (hr : r < 2 ^ (width + 1)) (hne : r ≠ 0) :
    shift poly r < 2 ^ (width + 1) ∧ shift poly r ≠ 0 := by
  have hhalf : r >>> 1 < 2 ^ width := by
    rw [Nat.shiftRight_one]
    rw [pow_succ] at hr
    omega
  rw [shift]
  split
  · refine ⟨Nat.xor_lt_two_pow (Nat.lt_trans hhalf (Nat.pow_lt_pow_right (by decide) (by omega)))
      hlt, fun hzero => ?_⟩
    have heq := Nat.eq_of_xor_eq_zero hzero
    omega
  · rw [Nat.xor_zero]
    refine ⟨Nat.lt_trans hhalf (Nat.pow_lt_pow_right (by decide) (by omega)), ?_⟩
    rw [Nat.shiftRight_one]
    omega

theorem shifts_ne_zero (hpoly : 2 ^ width ≤ poly) (hlt : poly < 2 ^ (width + 1)) (n : Nat)
    (hr : r < 2 ^ (width + 1)) (hne : r ≠ 0) : (shift poly)^[n] r ≠ 0 := by
  induction n generalizing r with
  | zero => exact hne
  | succ n ih =>
    obtain ⟨hr', hne'⟩ := shift_ne_zero hpoly hlt hr hne
    exact ih hr' hne'

/-- The bit at position `i`, in the order in which the register takes them: the lowest bit of the
first byte first. -/
def bitAt (data : Bytes) (i : Nat) : Bool := (data.getD (i / 8) 0).toNat.testBit (i % 8)

theorem testBit_leValue (data : Bytes) (i : Nat) : (leValue data).testBit i = bitAt data i := by
  induction data generalizing i with
  | nil => rw [leValue, bitAt, getD_nil, Nat.zero_testBit]; exact (Nat.zero_testBit _).symm
  | cons b data ih =>
    have hvalue : leValue (b :: data) = 2 ^ 8 * leValue data + b.toNat := Nat.add_comm ..
    rw [hvalue, Nat.testBit_two_pow_mul_add _ b.toNat_lt, bitAt]
    split
    · rename_i hi
      rw [Nat.div_eq_of_lt hi, Nat.mod_eq_of_lt hi, getD_cons_zero]
    · rename_i hi
      have hdiv : i / 8 = (i - 8) / 8 + 1 := by omega
      have hmod : i % 8 = (i - 8) % 8 := by omega
      rw [ih, bitAt, hdiv, hmod, getD_cons_succ]

theorem eq_of_leValue_eq {xs ys : Bytes} (hlen : xs.length = ys.length)
    (h : leValue xs = leValue ys) : xs = ys := by
  rw [← leBytes_leValue xs, h, hlen, leBytes_leValue]

/-- The bits in which the strings differ lie within `window` consecutive ones. -/
def Burst (window : Nat) (xs ys : Bytes) : Prop :=
  ∃ start, ∀ i, bitAt xs i ≠ bitAt ys i → start ≤ i ∧ i < start + window

/-- Strings of which only the ends may differ. -/
theorem burst_append (front : Bytes) {xs ys : Bytes} (hlen : xs.length = ys.length) :
    Burst (8 * xs.length) (front ++ xs) (front ++ ys) := by
  refine ⟨8 * front.length, fun i hi => ?_⟩
  by_contra hout
  refine hi (congrArg (fun b : UInt8 => b.toNat.testBit (i % 8)) ?_)
  by_cases hfront : i / 8 < front.length
  · rw [getD_append _ _ _ _ hfront, getD_append _ _ _ _ hfront]
  · rw [getD_eq_default _ _ (by rw [length_append]; omega),
      getD_eq_default _ _ (by rw [length_append]; omega)]

theorem feed_ne_of_burst (hpoly : 2 ^ width ≤ poly) (hlt : poly < 2 ^ (width + 1))
    {xs ys : Bytes} (hlen : xs.length = ys.length) (hne : xs ≠ ys)
    (hburst : Burst (width + 1) xs ys) (r : Nat) : feed poly r xs ≠ feed poly r ys := by
  obtain ⟨start, hwindow⟩ := hburst
  -- The difference of the numbers is a word of the width of the register, moved up.
  have hbits : ∀ i, (leValue xs ^^^ leValue ys).testBit i →
      start ≤ i ∧ i < start + (width + 1) := by
    intro i hi
    rw [Nat.testBit_xor, testBit_leValue, testBit_leValue, bne_iff_ne] at hi
    exact hwindow i hi
  obtain ⟨word, hword⟩ : ∃ word, leValue xs ^^^ leValue ys = 2 ^ start * word := by
    refine ⟨(leValue xs ^^^ leValue ys) >>> start, Nat.eq_of_testBit_eq fun i => ?_⟩
    rw [Nat.testBit_two_pow_mul, Nat.testBit_shiftRight]
    by_cases hi : start ≤ i
    · rw [decide_eq_true hi, Bool.true_and, Nat.add_sub_cancel' hi]
    · rw [decide_eq_false hi, Bool.false_and]
      exact Bool.eq_false_iff.mpr fun h => hi (hbits i h).1
  have hword_lt : word < 2 ^ (width + 1) := by
    refine Nat.lt_pow_two_of_testBit word fun i hi => Bool.eq_false_iff.mpr fun h => ?_
    have := (hbits (start + i) (by
      rwa [hword, Nat.testBit_two_pow_mul, decide_eq_true (Nat.le_add_right start i), Bool.true_and,
        Nat.add_sub_cancel_left])).2
    omega
  have hword_ne : word ≠ 0 := by
    rintro rfl
    exact hne (eq_of_leValue_eq hlen (Nat.eq_of_xor_eq_zero hword))
  have hstart : start ≤ 8 * xs.length := by
    have hxor : leValue xs ^^^ leValue ys < 2 ^ (8 * xs.length) := by
      have hpow : 2 ^ (8 * xs.length) = 256 ^ xs.length := Nat.pow_mul 2 8 xs.length
      exact Nat.xor_lt_two_pow (hpow ▸ leValue_lt xs) (hpow ▸ hlen ▸ leValue_lt ys)
    rw [hword] at hxor
    refine Nat.le_of_not_lt fun hgt => absurd hxor (Nat.not_lt.mpr ?_)
    exact Nat.le_trans (Nat.pow_le_pow_right (by decide) (Nat.le_of_lt hgt))
      (Nat.le_mul_of_pos_right _ (Nat.pos_of_ne_zero hword_ne))
  intro heq
  have hxor : feed poly r xs ^^^ feed poly r ys =
      (shift poly)^[8 * xs.length] (leValue xs ^^^ leValue ys) := by
    rw [feed_eq, feed_eq, ← hlen, ← shifts_xor, Nat.xor_left_comm, ← Nat.xor_assoc,
      ← Nat.xor_assoc r, Nat.xor_self, Nat.zero_xor, Nat.xor_comm]
  rw [heq, Nat.xor_self, hword, ← Nat.sub_add_cancel hstart, iterate_add_apply,
    shifts_mul] at hxor
  exact shifts_ne_zero hpoly hlt _ hword_lt hword_ne hxor.symm

end Nexus.Lib.CrcRegister
