/-!
# Searching a list for a pattern

`find pattern s` is the first place where `pattern` occurs in `s`. The place does not change when
the list goes on, and a part of the list has it once it reaches the end of the pattern
(`find_take`). `splitOn` cuts a list at the pattern, from left to right.
-/

namespace Nexus.Lib

open List

variable {α : Type} [DecidableEq α]

/-- The first place of the pattern. -/
def find (pattern : List α) : List α → Option Nat
  | [] => if pattern = [] then some 0 else none
  | a :: s => if pattern.isPrefixOf (a :: s) then some 0 else (find pattern s).map (· + 1)

/-- The parts between the patterns; nothing follows a pattern at the end. -/
def splitOn (pattern : List α) (s : List α) : List (List α) :=
  if _h : s = [] then []
  else
    match find pattern s with
    | none => [s]
    | some i => s.take i :: splitOn pattern (s.drop (i + max 1 pattern.length))
termination_by s.length
decreasing_by
  have := List.length_pos_iff.mpr _h
  rw [List.length_drop]
  omega

variable {pattern s : List α} {i n j : Nat}

theorem find_eq_some_iff (hp : pattern ≠ []) :
    find pattern s = some i ↔ pattern <+: s.drop i ∧ ∀ j < i, ¬ pattern <+: s.drop j := by
  induction s generalizing i with
  | nil => simp [find, hp]
  | cons a s ih =>
    unfold find
    by_cases hpre : pattern <+: a :: s
    · rw [if_pos ( isPrefixOf_iff_prefix.mpr hpre)]
      cases i with
      | zero => simp [hpre]
      | succ i => exact ⟨(nomatch ·), fun h => absurd hpre (h.2 0 (Nat.succ_pos i))⟩
    · rw [if_neg (mt isPrefixOf_iff_prefix.mp hpre)]
      cases i with
      | zero => simp [hpre]
      | succ i =>
        simp only [Option.map_eq_some_iff, Nat.add_right_cancel_iff, exists_eq_right, ih,
          drop_succ_cons]
        refine and_congr_right fun _ => ⟨fun h j hj => ?_, fun h j hj => h (j + 1) (by omega)⟩
        cases j with
        | zero => exact hpre
        | succ j => exact h j (by omega)

theorem find_eq_none_iff (hp : pattern ≠ []) :
    find pattern s = none ↔ ∀ j, ¬ pattern <+: s.drop j := by
  induction s with
  | nil => simp [find, hp]
  | cons a s ih =>
    unfold find
    by_cases hpre : pattern <+: a :: s
    · rw [if_pos ( isPrefixOf_iff_prefix.mpr hpre)]
      simpa using ⟨0, hpre⟩
    · rw [if_neg (mt isPrefixOf_iff_prefix.mp hpre), Option.map_eq_none_iff, ih]
      refine ⟨fun h j => ?_, fun h j => h (j + 1)⟩
      cases j with
      | zero => exact hpre
      | succ j => exact h j

/-- Where the pattern is found, it is. -/
theorem length_le_of_find (hp : pattern ≠ []) (h : find pattern s = some i) :
    i + pattern.length ≤ s.length := by
  have hle := ((find_eq_some_iff hp).mp h).1.length_le
  have := length_pos_iff.mpr hp
  rw [length_drop] at hle
  omega

omit [DecidableEq α] in
theorem occurs_take_iff (hp : pattern ≠ []) :
    pattern <+: (s.take n).drop j ↔ pattern <+: s.drop j ∧ j + pattern.length ≤ n := by
  have := length_pos_iff.mpr hp
  rw [drop_take, prefix_take_iff]
  refine and_congr_right fun _ => ?_
  omega

/-- A first part of the list has the pattern when it reaches its end. -/
theorem find_take (hp : pattern ≠ []) (h : find pattern s = some i) (n : Nat) :
    find pattern (s.take n) = if i + pattern.length ≤ n then some i else none := by
  obtain ⟨hat, hfirst⟩ := (find_eq_some_iff hp).mp h
  split
  · rename_i hle
    refine (find_eq_some_iff hp).mpr ⟨(occurs_take_iff hp).mpr ⟨hat, hle⟩, fun j hj hocc => ?_⟩
    exact hfirst j hj ((occurs_take_iff hp).mp hocc).1
  · rename_i hgt
    refine (find_eq_none_iff hp).mpr fun j hocc => ?_
    obtain ⟨hj, hjn⟩ := (occurs_take_iff hp).mp hocc
    exact hfirst j (by omega) hj

theorem find_append (hp : pattern ≠ []) (h : find pattern s = some i) (t : List α) :
    find pattern (s ++ t) = some i := by
  have hlen := length_le_of_find hp h
  obtain ⟨hat, hfirst⟩ := (find_eq_some_iff hp).mp h
  have hs : (s ++ t).take s.length = s := take_left
  rw [← hs] at hat
  refine (find_eq_some_iff hp).mpr ⟨((occurs_take_iff hp).mp hat).1, fun j hj hocc => ?_⟩
  refine hfirst j hj ?_
  rw [← hs]
  exact (occurs_take_iff hp).mpr ⟨hocc, by omega⟩

theorem find_drop (hp : pattern ≠ []) (h : find pattern s = some i) (hj : j ≤ i) :
    find pattern (s.drop j) = some (i - j) := by
  obtain ⟨hat, hfirst⟩ := (find_eq_some_iff hp).mp h
  refine (find_eq_some_iff hp).mpr ⟨?_, fun k hk => ?_⟩
  · rwa [drop_drop, Nat.add_sub_cancel' hj]
  · rw [drop_drop]
    exact hfirst _ (by omega)

theorem find_drop_none (hp : pattern ≠ []) (h : find pattern s = none) (j : Nat) :
    find pattern (s.drop j) = none := by
  refine (find_eq_none_iff hp).mpr fun k => ?_
  rw [drop_drop]
  exact (find_eq_none_iff hp).mp h (j + k)

end Nexus.Lib
