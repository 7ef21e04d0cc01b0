import Mathlib.Algebra.BigOperators.Group.List.Basic
import Mathlib.Algebra.GroupWithZero.Nat

/-!
# Walks over a file of frames

A file holds frames one after another, and the header of each tells its size. `scan` is the loop
that reads a header, visits the frame and goes on after it; it knows the file only through `peek`.
`walk` is the same loop over the list of the frames. When the frames stand in the file from a
position on (`FramesAt`), the two agree (`scan_eq_walk`), up to a frame that is cut
(`scan_of_torn`).
-/

namespace Nexus.Lib

variable {ι σ β : Type}

/-- A visit gives the new state, and whether the loop goes on. The result is the last state and the
position where the loop stopped. -/
def scan (peek : Nat → Option ι) (size : ι → Nat) (limit : Nat)
    (visit : σ → Nat → ι → σ × Bool) : Nat → Nat → σ → σ × Nat
  | 0, pos, acc => (acc, pos)
  | fuel + 1, pos, acc =>
    if pos < limit then
      match peek pos with
      | none => (acc, pos)
      | some info =>
        let visited := visit acc pos info
        if visited.2 then scan peek size limit visit fuel (pos + size info) visited.1
        else (visited.1, pos)
    else (acc, pos)

/-- The loop over the frames themselves. -/
def walk (size : β → Nat) (visit : σ → Nat → β → σ × Bool) : List β → Nat → σ → σ × Nat
  | [], pos, acc => (acc, pos)
  | b :: bs, pos, acc =>
    let visited := visit acc pos b
    if visited.2 then walk size visit bs (pos + size b) visited.1 else (visited.1, pos)

/-- The frames from `pos` on, one after another. -/
def FramesAt (isAt : Nat → β → Prop) (size : β → Nat) : Nat → List β → Prop
  | _, [] => True
  | pos, b :: bs => isAt pos b ∧ FramesAt isAt size (pos + size b) bs

/-- The bytes of some frames. -/
def totalSize (size : β → Nat) (bs : List β) : Nat := (bs.map size).sum

section

variable {size : β → Nat} {pos : Nat} {bs : List β}

@[simp] theorem totalSize_nil : totalSize size [] = 0 := rfl

@[simp] theorem totalSize_cons (b : β) (bs : List β) :
    totalSize size (b :: bs) = size b + totalSize size bs := rfl

@[simp] theorem totalSize_append (bs cs : List β) :
    totalSize size (bs ++ cs) = totalSize size bs + totalSize size cs := by
  simp [totalSize]

theorem totalSize_take_le (bs : List β) (k : Nat) :
    totalSize size (bs.take k) ≤ totalSize size bs := by
  conv => rhs; rw [← List.take_append_drop k bs, totalSize_append]
  exact Nat.le_add_right _ _

theorem length_le_totalSize (hpos : ∀ b, 0 < size b) (bs : List β) :
    bs.length ≤ totalSize size bs := by
  induction bs with
  | nil => exact Nat.le_refl _
  | cons b bs ih =>
    have := hpos b
    rw [List.length_cons, totalSize_cons]
    omega

theorem FramesAt.drop {P : Nat → β → Prop} (h : FramesAt P size pos bs) (k : Nat) :
    FramesAt P size (pos + totalSize size (bs.take k)) (bs.drop k) := by
  induction bs generalizing pos k with
  | nil => simp [FramesAt]
  | cons b bs ih =>
    cases k with
    | zero => exact h
    | succ k =>
      have := ih h.2 k
      rwa [Nat.add_assoc] at this

variable {isAt : Nat → β → Prop} {peek : Nat → Option ι} {sizeOf : ι → Nat} {limit : Nat}
  {visit : σ → Nat → ι → σ × Bool} {visitFrame : σ → Nat → β → σ × Bool}

/-- The loop over the file is the loop over the frames that stand in it, provided that it stops
where they end. -/
theorem scan_eq_walk (h : FramesAt isAt size pos bs)
    (hpeek : ∀ pos b, isAt pos b → pos < limit ∧ ∃ info, peek pos = some info ∧
      sizeOf info = size b ∧ ∀ acc, visit acc pos info = visitFrame acc pos b)
    (hend : ∀ fuel acc, scan peek sizeOf limit visit fuel (pos + totalSize size bs) acc =
      (acc, pos + totalSize size bs)) {fuel : Nat} (hfuel : bs.length ≤ fuel) (acc : σ) :
    scan peek sizeOf limit visit fuel pos acc = walk size visitFrame bs pos acc := by
  induction bs generalizing pos fuel acc with
  | nil => exact hend fuel acc
  | cons b bs ih =>
    obtain ⟨hlt, info, hinfo, hsize, hvisit⟩ := hpeek pos b h.1
    cases fuel with
    | zero => exact absurd hfuel (Nat.not_succ_le_zero _)
    | succ fuel =>
      rw [totalSize_cons, ← Nat.add_assoc] at hend
      rw [scan, if_pos hlt, hinfo, walk]
      dsimp only
      rw [hvisit, hsize, ih h.2 hend (Nat.le_of_succ_le_succ hfuel)]

theorem scan_of_le (h : limit ≤ pos) (fuel : Nat) (acc : σ) :
    scan peek sizeOf limit visit fuel pos acc = (acc, pos) := by
  cases fuel with
  | zero => rfl
  | succ fuel => rw [scan, if_neg (Nat.not_lt_of_le h)]

/-- The loop stops at a frame whose header cannot be read, or whose visit stops it. -/
theorem scan_of_torn
    (h : ∀ info, peek pos = some info → ∀ acc : σ, visit acc pos info = (acc, false)) (fuel : Nat)
    (acc : σ) : scan peek sizeOf limit visit fuel pos acc = (acc, pos) := by
  cases fuel with
  | zero => rfl
  | succ fuel =>
    rw [scan]
    split
    · cases hp : peek pos with
      | none => rfl
      | some info =>
        dsimp only
        rw [h info hp acc]
        rfl
    · rfl

/-- What every visit keeps holds where the loop stops. -/
theorem scan_invariant {P : Nat → σ → Prop}
    (hstep : ∀ pos acc info, peek pos = some info → P pos acc →
      P (if (visit acc pos info).2 then pos + sizeOf info else pos) (visit acc pos info).1)
    (fuel : Nat) {acc : σ} (h : P pos acc) :
    P (scan peek sizeOf limit visit fuel pos acc).2
      (scan peek sizeOf limit visit fuel pos acc).1 := by
  induction fuel generalizing pos acc with
  | zero => exact h
  | succ fuel ih =>
    rw [scan]
    split
    · cases hpeek : peek pos with
      | none => exact h
      | some info =>
        have hnext := hstep pos acc info hpeek h
        dsimp only
        split
        · rename_i hgo
          rw [if_pos hgo] at hnext
          exact ih hnext
        · rename_i hstop
          rw [if_neg hstop] at hnext
          exact hnext
    · exact h

end

end Nexus.Lib
