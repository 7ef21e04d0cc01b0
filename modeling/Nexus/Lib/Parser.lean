/-!
# Parsers and their grammars

A parser takes a list and gives a value and what is left of the list. A grammar is a relation
between a text and its value, with no word of parsers. `Parses p G ends`: whatever `p` accepts is a
text of `G`, and `p` accepts every text of `G` that the end of the list or a token of `ends`
follows; a parser that takes as much as it can needs such a token.

* `padded`: blanks before and after.
* `separated`: elements between separators up to a closing token.
-/

namespace Nexus.Lib

open List

variable {τ α β ε : Type} {s rest : List τ}

/-- Only a token of `ends` can come next. -/
def Follows (ends : τ → Bool) (rest : List τ) : Prop := ∀ c ∈ rest.head?, ends c

theorem follows_cons {ends : τ → Bool} {c : τ} (h : ends c) :
    Follows ends (c :: rest) := by
  simpa [Follows] using h

theorem cons_tail_of_head? {c : τ} (h : s.head? = some c) : c :: s.tail = s := by
  cases s with
  | nil => cases h
  | cons c' s => simpa using h.symm

theorem Follows.mono {ends ends' : τ → Bool} (h : Follows ends rest)
    (hle : ∀ c, ends c → ends' c) : Follows ends' rest := fun c hc => hle c (h c hc)

structure Parses (p : List τ → Except ε (α × List τ)) (G : List τ → α → Prop) (ends : τ → Bool) :
    Prop where
  sound {s rest : List τ} {a : α} : p s = .ok (a, rest) → ∃ t, s = t ++ rest ∧ G t a
  complete {t rest : List τ} {a : α} : G t a → Follows ends rest → p (t ++ rest) = .ok (a, rest)

/-! ## Blanks -/

/-- Skip the blanks, parse, skip the blanks. -/
def padded (blank : τ → Bool) (p : List τ → Except ε (α × List τ)) (s : List τ) :
    Except ε (α × List τ) :=
  (p (s.dropWhile blank)).map fun (a, rest) => (a, rest.dropWhile blank)

def Padded (blank : τ → Bool) (G : List τ → α → Prop) (t : List τ) (a : α) : Prop :=
  ∃ before t' after, t = before ++ t' ++ after ∧ before.all blank ∧ after.all blank ∧ G t' a

variable {blank ends : τ → Bool} {G G' : List τ → α → Prop} {w : List τ}

theorem dropWhile_append (hw : w.all blank) :
    (w ++ s).dropWhile blank = s.dropWhile blank :=
  dropWhile_append_of_pos (all_eq_true.mp hw)

theorem dropWhile_of_follows (h : Follows (fun c => !blank c) s) :
    s.dropWhile blank = s := by
  cases s with
  | nil => rfl
  | cons c s =>
    have hc : blank c = false := by simpa [Follows] using h
    exact dropWhile_cons_of_neg (by simp [hc])

theorem takeWhile_append (hw : w.all blank) (hs : Follows (fun c => !blank c) s) :
    (w ++ s).takeWhile blank = w := by
  rw [takeWhile_append_of_pos (all_eq_true.mp hw)]
  cases s with
  | nil => simp
  | cons c s =>
    have hc : blank c = false := by simpa [Follows] using hs
    simp [hc]

theorem dropWhile_dropWhile (s : List τ) :
    (s.dropWhile blank).dropWhile blank = s.dropWhile blank := by
  induction s with
  | nil => rfl
  | cons c s ih =>
    rw [dropWhile_cons]
    split
    · exact ih
    · rename_i hc
      exact dropWhile_cons_of_neg hc

theorem exists_eq_append_dropWhile (blank : τ → Bool) (s : List τ) :
    ∃ w, w.all blank ∧ s = w ++ s.dropWhile blank :=
  ⟨s.takeWhile blank, all_takeWhile, takeWhile_append_dropWhile.symm⟩

theorem Parses.padded {p : List τ → Except ε (α × List τ)}
    (h : Parses p G fun c => blank c || ends c) (hends : ∀ c, ends c → !blank c)
    (hstart : ∀ t a, G t a → ∃ c t', t = c :: t' ∧ !blank c) :
    Parses (padded blank p) (Padded blank G) ends where
  sound := by
    intro s rest a hs
    obtain ⟨w, hw, hsw⟩ := exists_eq_append_dropWhile blank s
    cases hp : p (s.dropWhile blank) with
    | error e => simp [Lib.padded, hp, Except.map] at hs
    | ok res =>
      obtain ⟨a', rest'⟩ := res
      obtain ⟨rfl, rfl⟩ : a' = a ∧ rest'.dropWhile blank = rest := by
        simpa [Lib.padded, hp, Except.map] using hs
      obtain ⟨t, ht, hG⟩ := h.sound hp
      obtain ⟨w', hw', hrest⟩ := exists_eq_append_dropWhile blank rest'
      refine ⟨w ++ t ++ w', ?_, w, t, w', rfl, hw, hw', hG⟩
      rw [append_assoc, ← hrest, append_assoc, ← ht]
      exact hsw
  complete := by
    rintro t rest a ⟨w, t', w', rfl, hw, hw', hG⟩ hrest
    obtain ⟨c, t'', rfl, hc⟩ := hstart t' a hG
    have hafter : Follows (fun c => blank c || ends c) (w' ++ rest) := by
      cases w' with
      | nil => exact hrest.mono fun c hc => by simp [hc]
      | cons c w' => exact follows_cons (by simp_all)
    have hskip : (w ++ (c :: t'') ++ w' ++ rest).dropWhile blank = (c :: t'') ++ (w' ++ rest) := by
      rw [append_assoc, append_assoc, dropWhile_append hw]
      exact dropWhile_of_follows (follows_cons hc)
    rw [Lib.padded, hskip, h.complete hG hafter]
    have hstop := dropWhile_of_follows (hrest.mono hends)
    exact congrArg (fun s => Except.ok (a, s)) ((dropWhile_append hw').trans hstop)

/-! ## Sequences -/

/-- The texts of the elements, with the separator in between. -/
inductive Joined (G : List τ → α → Prop) (sep : τ) : List τ → List α → Prop
  | one {t : List τ} {a : α} (h : G t a) : Joined G sep t [a]
  | cons {t s : List τ} {a : α} {as : List α} (h : G t a) (hs : Joined G sep s as) :
    Joined G sep (t ++ sep :: s) (a :: as)

variable {sep close : τ}

variable [DecidableEq τ]

/-- Elements, each followed by a separator or, the last one, by `close`. Each round takes a token
more than its element, so a fuel above the length of the list does not run out. -/
def separated (item : List τ → Except ε (α × List τ)) (sep close : τ) (ended other : List τ → ε) :
    Nat → List τ → Except ε (List α × List τ)
  | 0, s => .error (ended s)
  | fuel + 1, s =>
    (item s).bind fun (a, s) =>
      match s with
      | [] => .error (ended [])
      | c :: rest =>
        if c = sep then
          (separated item sep close ended other fuel rest).map fun (as, rest) => (a :: as, rest)
        else if c = close then .ok ([a], rest)
        else .error (other (c :: rest))

variable {item : List τ → Except ε (α × List τ)} {ended other : List τ → ε} {fuel : Nat}
  {as : List α}

theorem separated_congr {s' : List τ} (h : item s = item s') (fuel : Nat) :
    separated item sep close ended other (fuel + 1) s =
      separated item sep close ended other (fuel + 1) s' := by
  simp only [separated, h]

theorem exists_of_separated {res : List α × List τ}
    (h : separated item sep close ended other fuel s = .ok res) : ∃ res', item s = .ok res' := by
  cases fuel with
  | zero => cases h
  | succ fuel =>
    rw [separated] at h
    cases hitem : item s with
    | error e => simp [hitem, Except.bind] at h
    | ok res' => exact ⟨res', rfl⟩

theorem separated_sound (h : Parses item G ends)
    (hs : separated item sep close ended other fuel s = .ok (as, rest)) :
    ∃ t, s = t ++ close :: rest ∧ Joined G sep t as := by
  induction fuel generalizing s as with
  | zero => cases hs
  | succ fuel ih =>
    rw [separated] at hs
    cases hitem : item s with
    | error e => simp [hitem, Except.bind] at hs
    | ok res =>
      obtain ⟨a, s'⟩ := res
      obtain ⟨t, rfl, hG⟩ := h.sound hitem
      simp only [hitem, Except.bind] at hs
      split at hs
      · cases hs
      rename_i c rest'
      split at hs
      · rename_i hc
        subst hc
        cases hmore : separated item c close ended other fuel rest' with
        | error e => simp [hmore, Except.map] at hs
        | ok res =>
          obtain ⟨as', rest''⟩ := res
          obtain ⟨rfl, rfl⟩ : a :: as' = as ∧ rest'' = rest := by
            simpa [hmore, Except.map] using hs
          obtain ⟨t', rfl, hjoined⟩ := ih hmore
          exact ⟨t ++ c :: t', by simp, .cons hG hjoined⟩
      split at hs
      · rename_i hc
        subst hc
        cases hs
        exact ⟨t, rfl, .one hG⟩
      · cases hs

theorem separated_complete (h : Parses item G ends) (hsep : ends sep) (hclose : ends close)
    (hne : close ≠ sep) {t : List τ} (hj : Joined G sep t as) (hfuel : t.length < fuel) :
    separated item sep close ended other fuel (t ++ close :: rest) = .ok (as, rest) := by
  induction hj generalizing fuel with
  | @one t a hG =>
    obtain ⟨fuel, rfl⟩ := Nat.exists_eq_succ_of_ne_zero (Nat.ne_zero_of_lt hfuel)
    rw [separated, h.complete hG (follows_cons hclose)]
    simp [Except.bind, hne]
  | @cons t s a as hG hs ih =>
    obtain ⟨fuel, rfl⟩ := Nat.exists_eq_succ_of_ne_zero (Nat.ne_zero_of_lt hfuel)
    have hlt : s.length < fuel := by
      simp only [length_append, length_cons] at hfuel
      omega
    rw [separated, append_assoc, cons_append, h.complete hG (follows_cons hsep)]
    simp [Except.bind, ih hlt, Except.map]

end Nexus.Lib
