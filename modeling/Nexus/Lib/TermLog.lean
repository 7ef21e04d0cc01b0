import Mathlib.Logic.Function.Basic
import Nexus.Lib.Quorum

/-!
# Replicated logs with terms

The mathematics of a replicated log in which each term has at most one owner, elected by a quorum
of votes, and only the owner adds entries in its term. A node's log is always put together from
the owners' logs (`book t` is the log of the owner of term `t`), and a node may drop what it does
not share with the current owner.

* `Step`: what a node may do; `Le`: what no step takes back.
* `Wf.matching`: logs with entries of one term at an index agree up to there.
* `Sourced`: where each log comes from; this does not depend on how the owners were chosen.
* `Basic`: who owns what and where each log comes from, kept by every step.
-/

namespace Nexus.Lib

open Function List

/-! ## Lists that agree up to an index -/

/-- The first `n` places of the two lists are the same. -/
def AgreeTo {E : Type} (n : Nat) (xs ys : List E) : Prop := ∀ i < n, xs[i]? = ys[i]?

namespace AgreeTo

variable {E : Type} {n m : Nat} {xs ys zs : List E}

theorem refl (n : Nat) (xs : List E) : AgreeTo n xs xs := fun _ _ => rfl

theorem symm (h : AgreeTo n xs ys) : AgreeTo n ys xs := fun i hi => (h i hi).symm

theorem trans (h : AgreeTo n xs ys) (h' : AgreeTo n ys zs) : AgreeTo n xs zs :=
  fun i hi => (h i hi).trans (h' i hi)

theorem mono (h : AgreeTo n xs ys) (hm : m ≤ n) : AgreeTo m xs ys :=
  fun i hi => h i (Nat.lt_of_lt_of_le hi hm)

theorem zero (xs ys : List E) : AgreeTo 0 xs ys := fun i hi => absurd hi (Nat.not_lt_zero i)

/-- What the first list has below `n`, the second one has too. -/
theorem le_length (h : AgreeTo n xs ys) (hn : n ≤ xs.length) : n ≤ ys.length := by
  rcases Nat.eq_zero_or_pos n with rfl | hpos
  · exact Nat.zero_le _
  have hlast := h (n - 1) (by omega)
  rw [List.getElem?_eq_getElem (by omega)] at hlast
  have := (List.getElem?_eq_some_iff.mp hlast.symm).1
  omega

theorem take (xs : List E) (hn : n ≤ m) : AgreeTo n (xs.take m) xs := by
  intro i hi
  rw [getElem?_take_of_lt (by omega)]

theorem of_isPrefix (h : xs <+: ys) (hn : n ≤ xs.length) : AgreeTo n xs ys := by
  obtain ⟨ts, rfl⟩ := h
  intro i hi
  rw [getElem?_append_left (by omega)]

theorem of_isPrefix_right (h : AgreeTo n xs ys) (hn : n ≤ xs.length) (hp : ys <+: zs) :
    AgreeTo n xs zs := h.trans (.of_isPrefix hp (h.le_length hn))

end AgreeTo

/-! ## States and steps -/

/-- The state of the group. What it holds by term is its history: it is added to and never taken
back. -/
structure TermLog (N E : Type) where
  /-- The term that a node is in. -/
  term : N → Nat
  log : N → List E
  /-- Who was elected in a term. -/
  owner : Nat → Option N
  /-- The log of the owner of a term, while it owned it. -/
  book : Nat → List E
  /-- Whom a node voted for in a term. -/
  vote : N → Nat → Option N
  /-- The log with which a node asked for the votes of a term. -/
  bid : N → Nat → Option (List E)
  /-- How much of the book of a term a node acknowledged to hold. -/
  ack : N → Nat → Nat

namespace TermLog

variable {N E : Type} {tm : E → Nat} {t : Nat} {xs : List E}

/-- The term of the last entry, 0 for an empty log. -/
def lastTm (tm : E → Nat) (xs : List E) : Nat :=
  match xs.getLast? with
  | some e => tm e
  | none => 0

/-- Is `ys` at least as up to date as `xs`? -/
def UpToDate (tm : E → Nat) (ys xs : List E) : Prop :=
  lastTm tm xs < lastTm tm ys ∨ lastTm tm ys = lastTm tm xs ∧ xs.length ≤ ys.length

/-- The table with `x` at row `v`, column `t`. -/
def set {α : Type} [DecidableEq N] (f : N → Nat → α) (v : N) (t : Nat) (x : α) : N → Nat → α :=
  fun w u => if w = v ∧ u = t then x else f w u

section Operations

variable [DecidableEq N]

/-- Node `v` moves to term `t`. -/
def bump (s : TermLog N E) (v : N) (t : Nat) : TermLog N E :=
  { s with term := Function.update s.term v t }

/-- Node `v` asks for the votes of term `t` and votes for itself. -/
def stand (s : TermLog N E) (v : N) (t : Nat) : TermLog N E :=
  { s.bump v t with vote := set s.vote v t (some v), bid := set s.bid v t (some (s.log v)) }

/-- Node `v` votes for `c` in its term. -/
def grant (s : TermLog N E) (v c : N) : TermLog N E :=
  { s with vote := set s.vote v (s.term v) (some c) }

/-- Node `v` owns its term: its log is the book of the term. -/
def elect (s : TermLog N E) (v : N) : TermLog N E :=
  { s with
    owner := Function.update s.owner (s.term v) (some v)
    book := Function.update s.book (s.term v) (s.log v)
    ack := set s.ack v (s.term v) (s.log v).length }

/-- Node `v` adds an entry to the book of its term. -/
def write (s : TermLog N E) (v : N) (e : E) : TermLog N E :=
  { s with
    log := Function.update s.log v (s.log v ++ [e])
    book := Function.update s.book (s.term v) (s.log v ++ [e])
    ack := set s.ack v (s.term v) (s.log v ++ [e]).length }

/-- Node `v` takes over the first `m` entries of the book of its term. -/
def adopt (s : TermLog N E) (v : N) (m : Nat) : TermLog N E :=
  { s with log := Function.update s.log v ((s.book (s.term v)).take m) }

/-- Node `v` acknowledges the first `m` entries of the book of its term. -/
def confirm (s : TermLog N E) (v : N) (m : Nat) : TermLog N E :=
  { s with ack := set s.ack v (s.term v) (max (s.ack v (s.term v)) m) }

/-- What node `v` may do. A vote goes to a log that is up to date; a node that takes over part of
a book keeps all that it shares with it. -/
inductive Step (Q : QuorumSystem N) (tm : E → Nat) (v : N) : TermLog N E → TermLog N E → Prop
  | bump (s : TermLog N E) (t : Nat) (ht : s.term v < t) : Step Q tm v s (s.bump v t)
  | stand (s : TermLog N E) (t : Nat) (ht : s.term v < t) : Step Q tm v s (s.stand v t)
  | grant (s : TermLog N E) (c : N) (ys : List E)
      (hv : s.vote v (s.term v) = none ∨ s.vote v (s.term v) = some c)
      (hb : s.bid c (s.term v) = some ys) (hu : UpToDate tm ys (s.log v)) :
      Step Q tm v s (s.grant v c)
  | elect (s : TermLog N E) (ho : s.owner (s.term v) = none)
      (hb : s.bid v (s.term v) = some (s.log v))
      (hq : Q.Quorum fun w => s.vote w (s.term v) = some v) : Step Q tm v s (s.elect v)
  | write (s : TermLog N E) (e : E) (ho : s.owner (s.term v) = some v) (he : tm e = s.term v) :
      Step Q tm v s (s.write v e)
  | adopt (s : TermLog N E) (c : N) (m : Nat) (ho : s.owner (s.term v) = some c) (hc : c ≠ v)
      (hm : ∀ j, j ≤ (s.log v).length → AgreeTo j (s.log v) (s.book (s.term v)) → j ≤ m) :
      Step Q tm v s (s.adopt v m)
  | confirm (s : TermLog N E) (m : Nat) (hlen : m ≤ (s.book (s.term v)).length)
      (hm : AgreeTo m (s.book (s.term v)) (s.log v)) : Step Q tm v s (s.confirm v m)

end Operations

/-- What no step takes back. -/
structure Le (s s' : TermLog N E) : Prop where
  term : ∀ v, s.term v ≤ s'.term v
  owner : ∀ t c, s.owner t = some c → s'.owner t = some c
  book : ∀ t, s.book t <+: s'.book t
  vote : ∀ v t c, s.vote v t = some c → s'.vote v t = some c
  bid : ∀ v t ys, s.bid v t = some ys → s'.bid v t = some ys
  ack : ∀ v t, s.ack v t ≤ s'.ack v t

theorem Le.refl (s : TermLog N E) : s.Le s :=
  ⟨fun _ => Nat.le_refl _, fun _ _ h => h, fun _ => prefix_refl _, fun _ _ _ h => h,
    fun _ _ _ h => h, fun _ _ => Nat.le_refl _⟩

theorem Le.trans {a b c : TermLog N E} (h : a.Le b) (h' : b.Le c) : a.Le c :=
  ⟨fun v => Nat.le_trans (h.term v) (h'.term v), fun t w hw => h'.owner t w (h.owner t w hw),
    fun t => (h.book t).trans (h'.book t), fun v t w hw => h'.vote v t w (h.vote v t w hw),
    fun v t ys hy => h'.bid v t ys (h.bid v t ys hy),
    fun v t => Nat.le_trans (h.ack v t) (h'.ack v t)⟩

/-- What node `v` does leaves the other nodes' state and votes alone, and makes none of them an
owner. -/
structure Local (v : N) (s s' : TermLog N E) : Prop where
  term : ∀ w, w ≠ v → s'.term w = s.term w
  log : ∀ w, w ≠ v → s'.log w = s.log w
  vote : ∀ w, w ≠ v → s'.vote w = s.vote w
  owner : ∀ w t, w ≠ v → s'.owner t = some w → s.owner t = some w

theorem Local.refl (v : N) (s : TermLog N E) : Local v s s :=
  ⟨fun _ _ => rfl, fun _ _ => rfl, fun _ _ => rfl, fun _ _ _ h => h⟩

variable {v : N}

theorem Local.trans {a b c : TermLog N E} (h : Local v a b) (h' : Local v b c) :
    Local v a c where
  term w hw := (h'.term w hw).trans (h.term w hw)
  log w hw := (h'.log w hw).trans (h.log w hw)
  vote w hw := (h'.vote w hw).trans (h.vote w hw)
  owner w t hw ho := h.owner w t hw (h'.owner w t hw ho)

/-! ## What a log can be -/

/-- A log put together from books: up to any entry it is the book of that entry's term. -/
def Wf (tm : E → Nat) (s : TermLog N E) (t : Nat) (xs : List E) : Prop :=
  ∀ i e, xs[i]? = some e →
    tm e ≤ t ∧ s.owner (tm e) ≠ none ∧ AgreeTo (i + 1) xs (s.book (tm e))

variable {s : TermLog N E}

theorem Wf.mono {t' : Nat} (h : s.Wf tm t xs) (ht : t ≤ t') :
    s.Wf tm t' xs := fun i e he => ⟨Nat.le_trans (h i e he).1 ht, (h i e he).2⟩

theorem lt_length_of_getElem? {i : Nat} {e : E} (h : xs[i]? = some e) :
    i < xs.length := (List.getElem?_eq_some_iff.mp h).1

/-- Books only grow, so a well-formed log stays so. -/
theorem Wf.of_le {s' : TermLog N E} (h : s.Wf tm t xs) (hle : s.Le s') : s'.Wf tm t xs := by
  intro i e he
  obtain ⟨ht, ho, ha⟩ := h i e he
  refine ⟨ht, fun hn => ?_, ha.of_isPrefix_right (lt_length_of_getElem? he) (hle.book _)⟩
  obtain ⟨c, hc⟩ := Option.ne_none_iff_exists'.mp ho
  exact absurd (hle.owner _ c hc) (by rw [hn]; simp)

theorem Wf.take (h : s.Wf tm t xs) (m : Nat) : s.Wf tm t (xs.take m) := by
  intro i e he
  have hlt := lt_length_of_getElem? he
  rw [length_take] at hlt
  rw [getElem?_take_of_lt (by omega)] at he
  obtain ⟨ht, ho, ha⟩ := h i e he
  exact ⟨ht, ho, (AgreeTo.take xs (by omega)).trans ha⟩

/-- Log Matching: two logs with entries of one term at an index agree up to there. -/
theorem Wf.matching {t' i : Nat} {ys : List E} {e e' : E} (hx : s.Wf tm t xs)
    (hy : s.Wf tm t' ys) (he : xs[i]? = some e) (he' : ys[i]? = some e') (htm : tm e = tm e') :
    AgreeTo (i + 1) xs ys := by
  have hxe := (hx i e he).2.2
  rw [htm] at hxe
  exact hxe.trans (hy i e' he').2.2.symm

/-! ## The invariant -/

/-- Where each log comes from, however the owners were chosen. -/
structure Sourced (tm : E → Nat) (s : TermLog N E) : Prop where
  owner_le : ∀ t c, s.owner t = some c → t ≤ s.term c
  /-- An owner that still is in its term has exactly its book. -/
  leading : ∀ c, s.owner (s.term c) = some c →
    s.log c = s.book (s.term c) ∧ s.ack c (s.term c) = (s.book (s.term c)).length
  empty : ∀ t, s.owner t = none → s.book t = []
  log : ∀ v, s.Wf tm (s.term v) (s.log v)
  book : ∀ t, s.Wf tm t (s.book t)
  ack_le : ∀ v t, s.ack v t ≤ (s.book t).length

/-- Who owns what, and where each log comes from. -/
structure Basic (Q : QuorumSystem N) (tm : E → Nat) (s : TermLog N E) : Prop
    extends s.Sourced tm where
  won : ∀ t c, s.owner t = some c → Q.Quorum fun w => s.vote w t = some c
  ack_term : ∀ v t, 0 < s.ack v t → t ≤ s.term v
  ack_log : ∀ v, AgreeTo (s.ack v (s.term v)) (s.book (s.term v)) (s.log v)
  vote_le : ∀ v t c, s.vote v t = some c → t ≤ s.term v
  bid_le : ∀ v t ys, s.bid v t = some ys → t ≤ s.term v
  bid_wf : ∀ v t ys, s.bid v t = some ys → ∃ u < t, s.Wf tm u ys

variable {Q : QuorumSystem N} {s s' : TermLog N E}

section

variable (h : s.Basic Q tm)

include h

theorem Basic.bid_wf_of_le (hle : s.Le s') (w : N) (t : Nat) (ys : List E)
    (hy : s.bid w t = some ys) : ∃ u < t, s'.Wf tm u ys := by
  obtain ⟨u, hu, hwf⟩ := h.bid_wf w t ys hy
  exact ⟨u, hu, hwf.of_le hle⟩

theorem Basic.vote_none (ht : s.term v < t) : s.vote v t = none := by
  cases hv : s.vote v t with
  | none => rfl
  | some c => have := h.vote_le v t c hv; omega

theorem Basic.bid_none (ht : s.term v < t) : s.bid v t = none := by
  cases hv : s.bid v t with
  | none => rfl
  | some ys => have := h.bid_le v t ys hv; omega

theorem Basic.ack_zero (ht : s.term v < t) : s.ack v t = 0 := by
  by_contra hne
  have := h.ack_term v t (by omega)
  omega

end

section Steps

variable [DecidableEq N] {v w : N} {t m : Nat} {α : Type}

@[simp] theorem set_same (f : N → Nat → α) (v : N) (t : Nat) (x : α) :
    set f v t x v t = x := if_pos ⟨rfl, rfl⟩

theorem set_of_ne (f : N → Nat → α) {u : Nat} (x : α) (h : w ≠ v ∨ u ≠ t) :
    set f v t x w u = f w u :=
  if_neg fun hw => h.elim (fun hn => hn hw.1) (fun hn => hn hw.2)

theorem le_update {f : N → Nat} (h : f v ≤ t) (w : N) : f w ≤ update f v t w := by
  by_cases hw : w = v
  · subst hw; rwa [update_self]
  · exact Nat.le_of_eq (update_of_ne hw ..).symm

/-- The steps take nothing back, as long as the entry that they set was not set before. -/
theorem le_set {f : N → Nat → Option α} {x : α} (h : f v t = none ∨ f v t = some x)
    (w : N) (u : Nat) (y : α) (hy : f w u = some y) : set f v t (some x) w u = some y := by
  unfold set
  split
  · rename_i hw
    rw [hw.1, hw.2] at hy
    rcases h with h | h
    · exact absurd (h.symm.trans hy) (by simp)
    · exact h.symm.trans hy
  · exact hy

theorem ack_le_set {f : N → Nat → Nat} {k : Nat} (h : f v t ≤ k) (w : N) (u : Nat) :
    f w u ≤ set f v t k w u := by
  unfold set
  split
  · rename_i hw; rw [hw.1, hw.2]; exact h
  · exact Nat.le_refl _

@[simp] theorem term_bump_self (t : Nat) : (s.bump v t).term v = t := update_self ..

theorem term_bump_of_ne (hw : w ≠ v) (t : Nat) : (s.bump v t).term w = s.term w :=
  update_of_ne hw ..

@[simp] theorem owner_elect_self : (s.elect v).owner (s.term v) = some v :=
  update_self ..

theorem owner_elect_of_ne (ht : t ≠ s.term v) : (s.elect v).owner t = s.owner t :=
  update_of_ne ht ..

@[simp] theorem book_elect_self : (s.elect v).book (s.term v) = s.log v :=
  update_self ..

theorem book_elect_of_ne (ht : t ≠ s.term v) : (s.elect v).book t = s.book t :=
  update_of_ne ht ..

@[simp] theorem log_write_self (e : E) : (s.write v e).log v = s.log v ++ [e] :=
  update_self ..

theorem log_write_of_ne (hw : w ≠ v) (e : E) : (s.write v e).log w = s.log w :=
  update_of_ne hw ..

@[simp] theorem book_write_self (e : E) : (s.write v e).book (s.term v) = s.log v ++ [e] :=
  update_self ..

theorem book_write_of_ne (ht : t ≠ s.term v) (e : E) :
    (s.write v e).book t = s.book t := update_of_ne ht ..

@[simp] theorem log_adopt_self (m : Nat) :
    (s.adopt v m).log v = (s.book (s.term v)).take m := update_self ..

theorem log_adopt_of_ne (hw : w ≠ v) (m : Nat) : (s.adopt v m).log w = s.log w :=
  update_of_ne hw ..

/-! ### Nothing is taken back -/

theorem bump_le (ht : s.term v < t) : s.Le (s.bump v t) :=
  { Le.refl s with term := le_update (Nat.le_of_lt ht) }

theorem stand_le (h : s.Basic Q tm) (ht : s.term v < t) : s.Le (s.stand v t) :=
  { bump_le ht with
    vote := le_set (.inl (h.vote_none ht))
    bid := le_set (.inl (h.bid_none ht)) }

theorem grant_le {c : N} (hv : s.vote v (s.term v) = none ∨ s.vote v (s.term v) = some c) :
    s.Le (s.grant v c) :=
  { Le.refl s with vote := le_set hv }

theorem elect_le (h : s.Sourced tm) (ho : s.owner (s.term v) = none) : s.Le (s.elect v) :=
  { Le.refl s with
    owner := fun t c hc => by
      rw [owner_elect_of_ne]
      · exact hc
      · rintro rfl; exact absurd (ho.symm.trans hc) (by simp)
    book := fun t => by
      by_cases ht : t = s.term v
      · rw [ht, h.empty _ ho]; exact nil_prefix
      · simp only [book_elect_of_ne ht, prefix_refl]
    ack := ack_le_set (by
      have := h.ack_le v (s.term v)
      rw [h.empty _ ho] at this
      exact Nat.le_trans this (Nat.zero_le _)) }

theorem write_le (h : s.Sourced tm) {e : E} (ho : s.owner (s.term v) = some v) :
    s.Le (s.write v e) :=
  { Le.refl s with
    book := fun t => by
      by_cases ht : t = s.term v
      · subst ht
        rw [book_write_self, (h.leading v ho).1]
        exact prefix_append _ _
      · simp only [book_write_of_ne ht, prefix_refl]
    ack := ack_le_set (by
      rw [(h.leading v ho).2, (h.leading v ho).1, length_append]
      exact Nat.le_add_right _ _) }

theorem adopt_le : s.Le (s.adopt v m) := { Le.refl s with }

theorem confirm_le : s.Le (s.confirm v m) :=
  { Le.refl s with ack := ack_le_set (Nat.le_max_left _ _) }

theorem Step.le (h : Step Q tm v s s') (hs : s.Basic Q tm) : s.Le s' := by
  cases h with
  | bump t ht => exact bump_le ht
  | stand t ht => exact stand_le hs ht
  | grant c ys hv => exact grant_le hv
  | elect ho => exact elect_le hs.toSourced ho
  | write e ho => exact write_le hs.toSourced ho
  | adopt => exact adopt_le
  | confirm => exact confirm_le

/-! ### Ownership and logs -/

section

variable (h : s.Sourced tm)

include h

theorem Sourced.bump (ht : s.term v < t) : (s.bump v t).Sourced tm :=
  have hle := bump_le (s := s) ht
  { h with
    owner_le := fun u c hc => Nat.le_trans (h.owner_le u c hc) (hle.term c)
    leading := fun c hc => by
      by_cases hcv : c = v
      · subst hcv
        rw [term_bump_self] at hc
        have := h.owner_le t c hc
        omega
      · rw [term_bump_of_ne hcv] at hc ⊢
        exact h.leading c hc
    log := fun w => (h.log w).mono (hle.term w) }

theorem Sourced.elect (ho : s.owner (s.term v) = none) :
    (s.elect v).Sourced tm :=
  have hle := elect_le h ho
  { owner_le := fun t c hc => by
      by_cases ht : t = s.term v
      · rw [ht, owner_elect_self] at hc
        rw [ht, ← Option.some.inj hc]; exact Nat.le_refl _
      · rw [owner_elect_of_ne ht] at hc; exact h.owner_le t c hc
    leading := fun c hc => by
      change (s.elect v).owner (s.term c) = some c at hc
      change s.log c = (s.elect v).book (s.term c) ∧
        set s.ack v (s.term v) _ c (s.term c) = ((s.elect v).book (s.term c)).length
      by_cases ht : s.term c = s.term v
      · rw [ht, owner_elect_self] at hc
        obtain rfl := Option.some.inj hc
        rw [book_elect_self, set_same]
        exact ⟨rfl, rfl⟩
      · rw [owner_elect_of_ne ht] at hc
        rw [book_elect_of_ne ht, set_of_ne _ _ (.inr ht)]
        exact h.leading c hc
    empty := fun t ht => by
      by_cases htv : t = s.term v
      · rw [htv, owner_elect_self] at ht; exact absurd ht (by simp)
      · rw [owner_elect_of_ne htv] at ht
        rw [book_elect_of_ne htv]; exact h.empty t ht
    log := fun w => (h.log w).of_le hle
    book := fun t => by
      by_cases ht : t = s.term v
      · rw [ht, book_elect_self]; exact (h.log v).of_le hle
      · rw [book_elect_of_ne ht]; exact (h.book t).of_le hle
    ack_le := fun w t => by
      change set s.ack v (s.term v) _ w t ≤ _
      by_cases ht : t = s.term v
      · rw [ht, book_elect_self]
        by_cases hw : w = v
        · exact Nat.le_of_eq (by rw [hw, set_same])
        · rw [set_of_ne _ _ (.inl hw)]
          have := h.ack_le w (s.term v)
          rw [h.empty _ ho] at this
          exact Nat.le_trans this (Nat.zero_le _)
      · rw [set_of_ne _ _ (.inr ht), book_elect_of_ne ht]; exact h.ack_le w t }

/-- The book of a term with an entry of that term at its end. -/
theorem Sourced.wf_write {e : E} (ho : s.owner (s.term v) = some v)
    (he : tm e = s.term v) : (s.write v e).Wf tm (s.term v) (s.log v ++ [e]) := by
  have hle := write_le (e := e) h ho
  intro i x hx
  rcases Nat.lt_or_ge i (s.log v).length with hi | hi
  · rw [getElem?_append_left hi] at hx
    obtain ⟨ht, hne, ha⟩ := (h.log v).of_le hle i x hx
    refine ⟨ht, hne, AgreeTo.trans ?_ ha⟩
    exact (AgreeTo.of_isPrefix (prefix_append _ _) (by omega)).symm
  · have hlen := lt_length_of_getElem? hx
    rw [length_append, length_singleton] at hlen
    obtain rfl : i = (s.log v).length := by omega
    rw [getElem?_concat_length] at hx
    obtain rfl := Option.some.inj hx
    refine ⟨Nat.le_of_eq he, ?_, ?_⟩
    · rw [he]; change s.owner _ ≠ none; rw [ho]; simp
    · rw [he, book_write_self]; exact .refl _ _

theorem Sourced.write {e : E} (ho : s.owner (s.term v) = some v)
    (he : tm e = s.term v) : (s.write v e).Sourced tm :=
  have hle := write_le (e := e) h ho
  { owner_le := h.owner_le
    leading := fun c hc => by
      change (s.write v e).log c = (s.write v e).book (s.term c) ∧
        set s.ack v (s.term v) _ c (s.term c) = ((s.write v e).book (s.term c)).length
      change s.owner (s.term c) = some c at hc
      by_cases ht : s.term c = s.term v
      · rw [ht, ho] at hc
        obtain rfl := Option.some.inj hc
        rw [book_write_self, log_write_self, set_same]
        exact ⟨rfl, rfl⟩
      · have hcv : c ≠ v := fun hcv => ht (by rw [hcv])
        rw [log_write_of_ne hcv, book_write_of_ne ht, set_of_ne _ _ (.inl hcv)]
        exact h.leading c hc
    empty := fun t ht => by
      change s.owner t = none at ht
      rw [book_write_of_ne]
      · exact h.empty t ht
      · rintro rfl; exact absurd (ht.symm.trans ho) (by simp)
    log := fun w => by
      by_cases hw : w = v
      · rw [hw, log_write_self]; exact h.wf_write ho he
      · rw [log_write_of_ne hw]; exact (h.log w).of_le hle
    book := fun t => by
      by_cases ht : t = s.term v
      · rw [ht, book_write_self]; exact h.wf_write ho he
      · rw [book_write_of_ne ht]; exact (h.book t).of_le hle
    ack_le := fun w t => by
      change set s.ack v (s.term v) _ w t ≤ _
      by_cases hw : w = v ∧ t = s.term v
      · exact Nat.le_of_eq (by rw [hw.1, hw.2, set_same, book_write_self])
      · rw [set, if_neg hw]
        exact Nat.le_trans (h.ack_le w t) (hle.book t).length_le }

theorem Sourced.adopt {c : N} (m : Nat) (ho : s.owner (s.term v) = some c)
    (hc : c ≠ v) : (s.adopt v m).Sourced tm :=
  { h with
    leading := fun w hw => by
      change s.owner (s.term w) = some w at hw
      have hwv : w ≠ v := by rintro rfl; exact hc (Option.some.inj (ho.symm.trans hw))
      rw [log_adopt_of_ne hwv]
      exact h.leading w hw
    log := fun w => by
      by_cases hw : w = v
      · rw [hw, log_adopt_self]; exact (h.book (s.term v)).take m
      · rw [log_adopt_of_ne hw]; exact h.log w }

end

section

variable (h : s.Basic Q tm)

include h

theorem Basic.bump (ht : s.term v < t) : (s.bump v t).Basic Q tm :=
  have hle := bump_le (s := s) ht
  { h with
    toSourced := h.toSourced.bump ht
    ack_term := fun w u hu => Nat.le_trans (h.ack_term w u hu) (hle.term w)
    ack_log := fun w => by
      by_cases hw : w = v
      · subst hw
        rw [term_bump_self]
        change AgreeTo (s.ack w t) _ _
        rw [h.ack_zero ht]
        exact .zero _ _
      · rw [term_bump_of_ne hw]
        exact h.ack_log w
    vote_le := fun w u c hc => Nat.le_trans (h.vote_le w u c hc) (hle.term w)
    bid_le := fun w u ys hy => Nat.le_trans (h.bid_le w u ys hy) (hle.term w) }

theorem Basic.stand (ht : s.term v < t) : (s.stand v t).Basic Q tm :=
  have hle := stand_le h ht
  { h.bump ht with
    won := fun u c hc => Q.mono (fun w hw => hle.vote w u c hw) (h.won u c hc)
    vote_le := fun w u c hc => by
      by_cases hw : w = v ∧ u = t
      · rw [hw.1, hw.2]; exact Nat.le_of_eq (term_bump_self t).symm
      · exact Nat.le_trans (h.vote_le w u c ((if_neg hw).symm.trans hc)) (hle.term w)
    bid_le := fun w u ys hy => by
      by_cases hw : w = v ∧ u = t
      · rw [hw.1, hw.2]; exact Nat.le_of_eq (term_bump_self t).symm
      · exact Nat.le_trans (h.bid_le w u ys ((if_neg hw).symm.trans hy)) (hle.term w)
    bid_wf := fun w u ys hy => by
      by_cases hw : w = v ∧ u = t
      · obtain ⟨rfl, rfl⟩ := hw
        have hys : s.log w = ys := Option.some.inj ((set_same s.bid w u _).symm.trans hy)
        exact ⟨s.term w, ht, hys ▸ h.log w⟩
      · exact h.bid_wf w u ys ((if_neg hw).symm.trans hy) }

theorem Basic.grant {c : N} (hv : s.vote v (s.term v) = none ∨ s.vote v (s.term v) = some c) :
    (s.grant v c).Basic Q tm :=
  { h with
    won := fun u c hc => Q.mono (fun w hw => (grant_le hv).vote w u c hw) (h.won u c hc)
    vote_le := fun w u c' hc => by
      by_cases hw : w = v ∧ u = s.term v
      · rw [hw.1, hw.2]; exact Nat.le_refl _
      · exact h.vote_le w u c' ((if_neg hw).symm.trans hc) }

theorem Basic.ack_term_set (n : Nat) (w : N) (t : Nat)
    (ht : 0 < set s.ack v (s.term v) n w t) : t ≤ s.term w := by
  by_cases hw : w = v ∧ t = s.term v
  · exact Nat.le_of_eq (by rw [hw.1, hw.2])
  · exact h.ack_term w t (Nat.lt_of_lt_of_eq ht (if_neg hw))

theorem Basic.elect (ho : s.owner (s.term v) = none)
    (hq : Q.Quorum fun w => s.vote w (s.term v) = some v) : (s.elect v).Basic Q tm :=
  have hle := elect_le h.toSourced ho
  { h with
    toSourced := h.toSourced.elect ho
    won := fun t c hc => by
      by_cases ht : t = s.term v
      · rw [ht, owner_elect_self] at hc
        rw [ht, ← Option.some.inj hc]; exact hq
      · rw [owner_elect_of_ne ht] at hc; exact h.won t c hc
    ack_term := h.ack_term_set _
    ack_log := fun w => by
      change AgreeTo (set s.ack v (s.term v) _ w (s.term w)) ((s.elect v).book (s.term w)) _
      by_cases ht : s.term w = s.term v
      · by_cases hw : w = v
        · rw [hw, book_elect_self]; exact .refl _ _
        · have := h.ack_le w (s.term w)
          rw [ht, h.empty _ ho, length_nil, Nat.le_zero] at this
          rw [set_of_ne _ _ (.inl hw), ht, this]
          exact .zero _ _
      · rw [set_of_ne _ _ (.inr ht), book_elect_of_ne ht]; exact h.ack_log w
    bid_wf := h.bid_wf_of_le hle }

theorem Basic.write {e : E} (ho : s.owner (s.term v) = some v)
    (he : tm e = s.term v) : (s.write v e).Basic Q tm :=
  have hle := write_le (e := e) h.toSourced ho
  { h with
    toSourced := h.toSourced.write ho he
    ack_term := h.ack_term_set _
    ack_log := fun w => by
      change AgreeTo (set s.ack v (s.term v) _ w (s.term w)) ((s.write v e).book (s.term w)) _
      by_cases hw : w = v
      · rw [hw, book_write_self, log_write_self]; exact .refl _ _
      · rw [set_of_ne _ _ (.inl hw), log_write_of_ne hw]
        exact (AgreeTo.of_isPrefix (hle.book _) (h.ack_le w _)).symm.trans (h.ack_log w)
    bid_wf := h.bid_wf_of_le hle }

theorem Basic.adopt {c : N} (ho : s.owner (s.term v) = some c) (hc : c ≠ v)
    (hm : ∀ j, j ≤ (s.log v).length → AgreeTo j (s.log v) (s.book (s.term v)) → j ≤ m) :
    (s.adopt v m).Basic Q tm :=
  { h with
    toSourced := h.toSourced.adopt m ho hc
    ack_log := fun w => by
      by_cases hw : w = v
      · subst hw
        rw [log_adopt_self]
        have hack := h.ack_log w
        exact (AgreeTo.take _ (hm _ (hack.le_length (h.ack_le w _)) hack.symm)).symm
      · rw [log_adopt_of_ne hw]; exact h.ack_log w }

theorem Basic.confirm (hlen : m ≤ (s.book (s.term v)).length)
    (hm : AgreeTo m (s.book (s.term v)) (s.log v)) : (s.confirm v m).Basic Q tm :=
  { h with
    leading := fun c hc => by
      refine ⟨(h.leading c hc).1, ?_⟩
      change set s.ack v (s.term v) _ c (s.term c) = _
      by_cases hcv : c = v
      · subst hcv
        rw [set_same, (h.leading c hc).2]
        exact Nat.max_eq_left hlen
      · rw [set_of_ne _ _ (.inl hcv)]; exact (h.leading c hc).2
    ack_le := fun w t => by
      by_cases hw : w = v ∧ t = s.term v
      · rw [hw.1, hw.2]
        change set s.ack v (s.term v) _ v (s.term v) ≤ _
        rw [set_same]
        exact Nat.max_le.mpr ⟨h.ack_le v _, hlen⟩
      · exact Nat.le_trans (Nat.le_of_eq (if_neg hw)) (h.ack_le w t)
    ack_term := h.ack_term_set _
    ack_log := fun w => by
      change AgreeTo (set s.ack v (s.term v) _ w (s.term w)) _ _
      by_cases hw : w = v
      · subst hw
        rw [set_same]
        rcases Nat.le_total (s.ack w (s.term w)) m with hle | hle
        · rw [Nat.max_eq_right hle]; exact hm
        · rw [Nat.max_eq_left hle]; exact h.ack_log w
      · rw [set_of_ne _ _ (.inl hw)]; exact h.ack_log w }

end

/-! ### Other nodes -/

theorem set_row_of_ne {f : N → Nat → α} {x : α} (hw : w ≠ v) :
    set f v t x w = f w := funext fun _ => set_of_ne f x (.inl hw)

theorem bump_local (t : Nat) : Local v s (s.bump v t) :=
  ⟨fun _ hw => term_bump_of_ne hw t, fun _ _ => rfl, fun _ _ => rfl, fun _ _ _ h => h⟩

theorem elect_local : Local v s (s.elect v) := by
  refine ⟨fun _ _ => rfl, fun _ _ => rfl, fun _ _ => rfl, fun w t hw h => ?_⟩
  by_cases ht : t = s.term v
  · subst ht
    rw [owner_elect_self] at h
    exact absurd (Option.some.inj h).symm hw
  · rwa [owner_elect_of_ne ht] at h

theorem write_local (e : E) : Local v s (s.write v e) :=
  ⟨fun _ _ => rfl, fun _ hw => log_write_of_ne hw e, fun _ _ => rfl, fun _ _ _ h => h⟩

theorem adopt_local (m : Nat) : Local v s (s.adopt v m) :=
  ⟨fun _ _ => rfl, fun _ hw => log_adopt_of_ne hw m, fun _ _ => rfl, fun _ _ _ h => h⟩

theorem Step.isLocal (h : Step Q tm v s s') : Local v s s' := by
  cases h with
  | bump t => exact bump_local t
  | stand t =>
    exact ⟨(bump_local t).term, fun _ _ => rfl, fun _ hw => set_row_of_ne hw, fun _ _ _ h => h⟩
  | grant c =>
    exact ⟨fun _ _ => rfl, fun _ _ => rfl, fun _ hw => set_row_of_ne hw, fun _ _ _ h => h⟩
  | elect => exact elect_local
  | write e => exact write_local e
  | adopt c m => exact adopt_local m
  | confirm m => exact ⟨fun _ _ => rfl, fun _ _ => rfl, fun _ _ => rfl, fun _ _ _ h => h⟩

end Steps

end TermLog

end Nexus.Lib
