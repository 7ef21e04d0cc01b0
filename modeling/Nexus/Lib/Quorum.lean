import Mathlib.Data.List.Perm.Subperm

/-!
# Quorums

A quorum system is a family of sets, given by their membership predicates, any two of which
meet. `majority V` is the family of the sets that hold more than half of the members of the
list `V`.
-/

namespace Nexus.Lib

open List

/-- A family of sets, closed under larger sets, any two of which meet. -/
structure QuorumSystem (N : Type) where
  Quorum : (N → Prop) → Prop
  mono : ∀ {P P' : N → Prop}, (∀ v, P v → P' v) → Quorum P → Quorum P'
  meet : ∀ {P P' : N → Prop}, Quorum P → Quorum P' → ∃ v, P v ∧ P' v

variable {N : Type} {V : List N} {P : N → Prop}

/-- Inclusion and exclusion for two counts over one list. -/
theorem countP_add_countP_le (p q : N → Bool) (V : List N) :
    V.countP p + V.countP q ≤ V.length + V.countP (fun v => p v && q v) := by
  induction V with
  | nil => simp
  | cons v V ih =>
    simp only [countP_cons, length_cons]
    cases p v <;> cases q v <;> simp <;> omega

/-- Two predicates that each hold of more than half of the list hold together somewhere in it. -/
theorem exists_of_majorities {p q : N → Bool}
    (hp : V.length < 2 * V.countP p) (hq : V.length < 2 * V.countP q) :
    ∃ v ∈ V, p v = true ∧ q v = true := by
  have hpos : 0 < V.countP (fun v => p v && q v) := by
    have := countP_add_countP_le p q V
    omega
  obtain ⟨v, hv, hpq⟩ := countP_pos_iff.mp hpos
  simp only [Bool.and_eq_true] at hpq
  exact ⟨v, hv, hpq⟩

open Classical in
/-- The sets that hold more than half of the members of `V`. -/
noncomputable def majority (V : List N) : QuorumSystem N where
  Quorum P := V.length < 2 * V.countP (fun v => decide (P v))
  mono {P P'} h hP := by
    have := List.countP_mono_left (l := V) (p := fun v => decide (P v))
      (q := fun v => decide (P' v)) (by intro v _ hv; simpa using h v (by simpa using hv))
    omega
  meet hP hP' := by
    obtain ⟨v, -, h, h'⟩ := exists_of_majorities hP hP'
    exact ⟨v, by simpa using h, by simpa using h'⟩

open Classical in
theorem majority_quorum (V : List N) (P : N → Prop) :
    (majority V).Quorum P ↔ V.length < 2 * V.countP (fun v => decide (P v)) := Iff.rfl

/-- A test that more than half of `V` pass, and that only members of `P` pass. -/
theorem majority_of_countP {p : N → Bool}
    (h : V.length < 2 * V.countP p) (hp : ∀ v, p v = true → P v) : (majority V).Quorum P := by
  classical
  rw [majority_quorum]
  have := countP_mono_left (l := V) (p := p) (q := fun v => decide (P v))
    (fun v _ hv => by simpa using hp v hv)
  convert (show V.length < 2 * V.countP (fun v => decide (P v)) by omega)

/-- A duplicate-free list of more than half of `V`, all in `P`, makes `P` a majority. -/
theorem majority_of_nodup {l : List N} (hl : l.Nodup)
    (hP : ∀ v ∈ l, v ∈ V ∧ P v) (hlen : V.length < l.length * 2) : (majority V).Quorum P := by
  classical
  rw [majority_quorum, countP_eq_length_filter]
  have hsub : l ⊆ V.filter fun v => decide (P v) := by
    intro v hv
    rw [mem_filter, decide_eq_true_iff]
    exact hP v hv
  have := (hl.subperm hsub).length_le
  convert (show V.length < 2 * (V.filter fun v => decide (P v)).length by omega)

/-- In a list sorted downwards, the element in the middle is at least `k` just when more than half
of the elements are. -/
theorem le_middle_iff {l : List Nat} (hs : l.Pairwise (· ≥ ·)) {k : Nat} (hk : 0 < k) :
    k ≤ (l[l.length / 2]?).getD 0 ↔ l.length < 2 * l.countP fun m => decide (k ≤ m) := by
  have hsplit : l.countP (fun m => decide (k ≤ m)) =
      (l.take (l.length / 2)).countP (fun m => decide (k ≤ m)) +
        (l.drop (l.length / 2)).countP (fun m => decide (k ≤ m)) := by
    rw [← countP_append, take_append_drop]
  cases hd : l.drop (l.length / 2) with
  | nil =>
    have hlen := drop_eq_nil_iff.mp hd
    have hnil : l = [] := eq_nil_of_length_eq_zero (by omega)
    subst hnil
    simpa using Nat.ne_of_gt hk
  | cons m rest =>
    have hget : l[l.length / 2]? = some m := by
      rw [← head?_drop, hd]; rfl
    have hlt : l.length / 2 < l.length := (List.getElem?_eq_some_iff.mp hget).1
    rw [← take_append_drop (l.length / 2) l, hd, pairwise_append] at hs
    have hrest := pairwise_cons.mp hs.2.1
    rw [hget, Option.getD_some, hsplit, hd]
    constructor
    · intro hm
      have htake : (l.take (l.length / 2)).countP (fun m => decide (k ≤ m)) = l.length / 2 := by
        rw [countP_eq_length.mpr, length_take]
        · omega
        · intro a ha
          exact decide_eq_true (Nat.le_trans hm (hs.2.2 a ha m mem_cons_self))
      rw [htake, countP_cons, if_pos (decide_eq_true hm)]
      omega
    · intro hcount
      by_contra hm
      have hdrop : (m :: rest).countP (fun m => decide (k ≤ m)) = 0 := by
        rw [countP_eq_zero]
        intro a ha
        rw [decide_eq_true_iff, Nat.not_le]
        rcases mem_cons.mp ha with rfl | ha
        · exact Nat.lt_of_not_le hm
        · exact Nat.lt_of_le_of_lt (hrest.1 a ha) (Nat.lt_of_not_le hm)
      have htake := (l.take (l.length / 2)).countP_le_length (p := fun m => decide (k ≤ m))
      rw [length_take] at htake
      omega

end Nexus.Lib
