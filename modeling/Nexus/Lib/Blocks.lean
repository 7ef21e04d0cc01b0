import Mathlib.Data.List.Basic

/-!
# Streams of blocks

A function that takes its input in blocks of one size, such as the compression of a hash, over a
stream of any length: `absorb` feeds it the whole blocks and keeps what is left. `absorb_append` is
why a stream may be cut anywhere, as long as what was left goes in front of what comes next.
-/

namespace Nexus.Lib

open List

variable {α σ : Type} {compress : σ → List α → σ} {size : Nat} {block : List α}

/-- The state after the whole blocks of the stream, and the rest of it. -/
def absorb (size : Nat) (compress : σ → List α → σ) (s : σ) (xs : List α) : σ × List α :=
  if 0 < size ∧ size ≤ xs.length then
    absorb size compress (compress s (xs.take size)) (xs.drop size)
  else (s, xs)
termination_by xs.length
decreasing_by
  rw [List.length_drop]
  omega

theorem absorb_of_length_lt (s : σ) {xs : List α} (h : xs.length < size) :
    absorb size compress s xs = (s, xs) := by
  rw [absorb, if_neg (by omega)]

theorem absorb_block (hsize : 0 < size) (s : σ) (h : block.length = size) (xs : List α) :
    absorb size compress s (block ++ xs) = absorb size compress (compress s block) xs := by
  rw [absorb, if_pos ⟨hsize, by rw [length_append]; omega⟩, take_left' h,
    drop_left' h]

theorem absorb_one (hsize : 0 < size) (s : σ) (h : block.length = size) :
    absorb size compress s block = (compress s block, []) := by
  have hstep : absorb size compress s (block ++ []) = _ := absorb_block hsize s h []
  rw [append_nil] at hstep
  exact hstep.trans (absorb_of_length_lt _ hsize)

theorem absorb_append (s : σ) (xs ys : List α) :
    absorb size compress s (xs ++ ys) =
      absorb size compress (absorb size compress s xs).1
        ((absorb size compress s xs).2 ++ ys) := by
  fun_induction absorb size compress s xs with
  | case1 s xs h ih =>
    rw [← ih, ← absorb_block h.1 s (length_take_of_le h.2), ← append_assoc,
      take_append_drop]
  | case2 s xs h => rfl

theorem length_absorb (hsize : 0 < size) (s : σ) (xs : List α) :
    (absorb size compress s xs).2.length = xs.length % size := by
  fun_induction absorb size compress s xs with
  | case1 s xs h ih => rw [ih, length_drop, Nat.mod_eq_sub_mod h.2]
  | case2 s xs h => exact (Nat.mod_eq_of_lt (show xs.length < size by omega)).symm

end Nexus.Lib
