import Nexus.Lib.TermLog

/-!
# Commitment in a replicated log with terms

An entry is committed once a quorum has acknowledged it in the term in which it was written. What
follows shows that it is then in the log of every later owner.

* `Inv`: what a node acknowledged is kept by it, by whom it votes for and by every later owner,
  unless the entry is `Dead`, so that no quorum can ever acknowledge it. `Step.inv`: every step
  keeps this.
* `Inv.committed_book`: every later book has what is committed.
* `Safe`: a prefix of a log that committed entries cover. `Safe.agree`: safe prefixes agree.
-/

namespace Nexus.Lib.TermLog

variable {N E : Type} {tm : E → Nat} {t i t' k : Nat} {xs ys : List E}

/-- The entry at `i` of the book of `t` was written in term `t`. -/
def Own (tm : E → Nat) (s : TermLog N E) (t i : Nat) : Prop :=
  ∃ e, (s.book t)[i]? = some e ∧ tm e = t

/-- The entry at `i` of the book of `t` will never be acknowledged by a quorum: a quorum has left
the term without it. -/
def Dead (Q : QuorumSystem N) (s : TermLog N E) (t i : Nat) : Prop :=
  ∃ P, Q.Quorum P ∧ ∀ v, P v → t < s.term v ∧ s.ack v t ≤ i

/-- `xs` has what the book of `t` has up to `i`, unless that is dead. -/
def Keeps (Q : QuorumSystem N) (s : TermLog N E) (t i : Nat) (xs : List E) : Prop :=
  AgreeTo (i + 1) (s.book t) xs ∨ s.Dead Q t i

/-- What was acknowledged in a term is kept by those who acknowledged it (`hold`), by those they
vote for (`pledge`), and so by every later owner (`carry`). -/
structure Inv (Q : QuorumSystem N) (tm : E → Nat) (s : TermLog N E) : Prop
    extends Basic Q tm s where
  hold : ∀ v t i, i < s.ack v t → s.Own tm t i → s.Keeps Q t i (s.log v)
  pledge : ∀ v t' c, s.vote v t' = some c → ∃ ys, s.bid c t' = some ys ∧
    ∀ t i, t < t' → i < s.ack v t → s.Own tm t i → s.Keeps Q t i ys
  carry : ∀ t t' i, t < t' → s.owner t' ≠ none → s.Own tm t i → s.Keeps Q t i (s.book t')

variable {Q : QuorumSystem N} {s s' : TermLog N E}

/-! ## Dead entries -/

theorem Own.lt_length (h : s.Own tm t i) : i < (s.book t).length :=
  lt_length_of_getElem? h.choose_spec.1

/-- Acknowledgements of the terms that a node has left do not change. -/
def Frozen (s s' : TermLog N E) : Prop := ∀ w u, u < s.term w → s'.ack w u = s.ack w u

theorem Dead.of_le (h : s.Dead Q t i) (hle : s.Le s') (hf : s.Frozen s') : s'.Dead Q t i := by
  obtain ⟨P, hP, hdead⟩ := h
  refine ⟨P, hP, fun v hv => ?_⟩
  obtain ⟨hterm, hack⟩ := hdead v hv
  exact ⟨Nat.lt_of_lt_of_le hterm (hle.term v), by rw [hf v t hterm]; exact hack⟩

theorem Keeps.of_le (h : s.Keeps Q t i xs) (ho : s.Own tm t i) (hle : s.Le s') (hf : s.Frozen s') :
    s'.Keeps Q t i xs := by
  rcases h with h | h
  · exact .inl ((AgreeTo.of_isPrefix (hle.book t) ho.lt_length).symm.trans h)
  · exact .inr (h.of_le hle hf)

theorem Keeps.extend (h : s.Keeps Q t i xs) (ho : s.Own tm t i) (hp : xs <+: ys) :
    s.Keeps Q t i ys :=
  h.imp_left fun ha => ha.of_isPrefix_right ho.lt_length hp

/-- Terms do not decrease along a log. -/
theorem Basic.tm_le (h : s.Basic Q tm) {j : Nat} {e e' : E} (hx : s.Wf tm t xs) (hij : i ≤ j)
    (he : xs[i]? = some e) (he' : xs[j]? = some e') : tm e ≤ tm e' := by
  have ha := (hx j e' he').2.2 i (by omega)
  rw [he] at ha
  exact (h.book _ i e ha.symm).1

theorem lastTm_eq {e : E} (h : xs[xs.length - 1]? = some e) : lastTm tm xs = tm e := by
  unfold lastTm
  rw [List.getLast?_eq_getElem?, h]

theorem exists_last (xs : List E) (h : 0 < xs.length) : ∃ e, xs[xs.length - 1]? = some e :=
  ⟨_, List.getElem?_eq_getElem (by omega)⟩

/-- A log that is at least as up to date as one that keeps an entry keeps it too. -/
theorem Inv.keeps_of_upToDate (h : s.Inv Q tm) {u u' : Nat} (hx : s.Wf tm u xs)
    (hy : s.Wf tm u' ys) (hup : UpToDate tm ys xs) (hown : s.Own tm t i)
    (ha : AgreeTo (i + 1) (s.book t) xs) : s.Keeps Q t i ys := by
  obtain ⟨e, he, rfl⟩ := hown
  have hxe : xs[i]? = some e := (ha i (by omega)).symm.trans he
  have hi := lt_length_of_getElem? hxe
  obtain ⟨l, hl⟩ := exists_last xs (by omega)
  have htl : tm e ≤ tm l := h.tm_le hx (by omega) hxe hl
  rcases hup with hlt | ⟨heq, hlen⟩
  · rw [lastTm_eq hl] at hlt
    have hpos : 0 < ys.length := by
      rcases ys with _ | ⟨y, ys⟩
      · simp [lastTm] at hlt
      · simp
    obtain ⟨l', hl'⟩ := exists_last ys hpos
    rw [lastTm_eq hl'] at hlt
    obtain ⟨-, howner, hbook⟩ := hy _ l' hl'
    rcases h.carry (tm e) (tm l') i (by omega) howner ⟨e, he, rfl⟩ with hc | hc
    · -- The last entry of `ys` is of a later term, so it cannot come before `i`.
      have hiy : i < ys.length := by
        by_contra hge
        have hl'' := (hbook _ (by omega)).symm.trans hl'
        have := (h.book (tm e) _ l' ((hc (ys.length - 1) (by omega)).trans hl'')).1
        omega
      exact .inl (hc.trans (hbook.mono (by omega)).symm)
    · exact .inr hc
  · obtain ⟨l', hl'⟩ := exists_last ys (by omega)
    rw [lastTm_eq hl', lastTm_eq hl] at heq
    have hxl := (hx _ l hl).2.2
    have hyl := (hy _ l' hl').2.2
    rw [heq] at hyl
    exact .inl (ha.trans ((hxl.mono (by omega)).trans (hyl.mono (by omega)).symm))

/-! ## Every step keeps the invariant -/

section Steps

variable [DecidableEq N] {v c : N} {t m : Nat}

theorem frozen_set {f : N → Nat → Nat} {w : N} {u : Nat} (hu : u < s.term w) :
    set f v (s.term v) k w u = f w u := by
  refine set_of_ne _ _ ?_
  by_cases hw : w = v
  · subst hw; exact .inr (by omega)
  · exact .inl hw

/-- Who has voted in a term has acknowledged all that it ever will in the terms before. -/
theorem Basic.ack_set_of_vote (h : s.Basic Q tm) {w : N} (hv : s.vote w t' = some c)
    (ht : t < t') : set s.ack v (s.term v) k w t = s.ack w t :=
  frozen_set (Nat.lt_of_lt_of_le ht (h.vote_le w t' c hv))

theorem Inv.bump (h : s.Inv Q tm) (ht : s.term v < t) : (s.bump v t).Inv Q tm :=
  have hk {u i : Nat} {xs : List E} (hx : s.Keeps Q u i xs) (ho : s.Own tm u i) :
      (s.bump v t).Keeps Q u i xs := hx.of_le ho (bump_le ht) fun _ _ _ => rfl
  { h.toBasic.bump ht with
    hold := fun w u i hi ho => hk (h.hold w u i hi ho) ho
    pledge := fun w t' c hc => by
      obtain ⟨ys, hys, hp⟩ := h.pledge w t' c hc
      exact ⟨ys, hys, fun u i hu hi ho => hk (hp u i hu hi ho) ho⟩
    carry := fun u u' i hu ho hown => hk (h.carry u u' i hu ho hown) hown }

theorem Inv.stand (h : s.Inv Q tm) (ht : s.term v < t) : (s.stand v t).Inv Q tm :=
  have hle := stand_le h.toBasic ht
  have hk {u i : Nat} {xs : List E} (hx : s.Keeps Q u i xs) (ho : s.Own tm u i) :
      (s.stand v t).Keeps Q u i xs := hx.of_le ho hle fun _ _ _ => rfl
  { h.toBasic.stand ht with
    hold := fun w u i hi ho => hk (h.hold w u i hi ho) ho
    pledge := fun w t' c hc => by
      by_cases hw : w = v ∧ t' = t
      · -- Its own vote is for the log that it has.
        obtain ⟨rfl, rfl⟩ := hw
        obtain rfl : w = c := Option.some.inj ((set_same s.vote w t' _).symm.trans hc)
        exact ⟨s.log w, set_same .., fun u i _ hi ho => hk (h.hold w u i hi ho) ho⟩
      · obtain ⟨ys, hys, hp⟩ := h.pledge w t' c ((if_neg hw).symm.trans hc)
        exact ⟨ys, hle.bid c t' ys hys, fun u i hu hi ho => hk (hp u i hu hi ho) ho⟩
    carry := fun u u' i hu ho hown => hk (h.carry u u' i hu ho hown) hown }

theorem Inv.grant (h : s.Inv Q tm) (hv : s.vote v (s.term v) = none ∨ s.vote v (s.term v) = some c)
    (hb : s.bid c (s.term v) = some ys) (hu : UpToDate tm ys (s.log v)) : (s.grant v c).Inv Q tm :=
  have hk {u i : Nat} {xs : List E} (hx : s.Keeps Q u i xs) (ho : s.Own tm u i) :
      (s.grant v c).Keeps Q u i xs := hx.of_le ho (grant_le hv) fun _ _ _ => rfl
  { h.toBasic.grant hv with
    hold := fun w u i hi ho => hk (h.hold w u i hi ho) ho
    pledge := fun w t' c' hc => by
      by_cases hw : w = v ∧ t' = s.term v
      · obtain ⟨rfl, rfl⟩ := hw
        obtain rfl : c = c' := Option.some.inj ((set_same s.vote w _ _).symm.trans hc)
        obtain ⟨u', -, hwf⟩ := h.bid_wf c _ ys hb
        refine ⟨ys, hb, fun u i _ hi ho => hk ?_ ho⟩
        rcases h.hold w u i hi ho with ha | hd
        · exact h.keeps_of_upToDate (h.log w) hwf hu ho ha
        · exact .inr hd
      · obtain ⟨zs, hzs, hp⟩ := h.pledge w t' c' ((if_neg hw).symm.trans hc)
        exact ⟨zs, hzs, fun u i hu hi ho => hk (hp u i hu hi ho) ho⟩
    carry := fun u u' i hu ho hown => hk (h.carry u u' i hu ho hown) hown }

/-- The book of a new owner has no entry of its own term yet. -/
theorem Basic.own_elect (h : s.Basic Q tm) (ho : s.owner (s.term v) = none)
    (hown : (s.elect v).Own tm t i) : t ≠ s.term v ∧ s.Own tm t i := by
  obtain ⟨e, he, rfl⟩ := hown
  have hne : tm e ≠ s.term v := by
    intro heq
    rw [heq, book_elect_self] at he
    have hown := (h.log v i e he).2.1
    rw [heq] at hown
    exact hown ho
  rw [book_elect_of_ne hne] at he
  exact ⟨hne, e, he, rfl⟩

theorem Inv.elect (h : s.Inv Q tm) (ho : s.owner (s.term v) = none)
    (hb : s.bid v (s.term v) = some (s.log v))
    (hq : Q.Quorum fun w => s.vote w (s.term v) = some v) : (s.elect v).Inv Q tm :=
  have hle := elect_le h.toSourced ho
  have hk {u i : Nat} {xs : List E} (hx : s.Keeps Q u i xs) (ho : s.Own tm u i) :
      (s.elect v).Keeps Q u i xs := hx.of_le ho hle fun _ _ hu => frozen_set hu
  { h.toBasic.elect ho hq with
    hold := fun w u i hi hown => by
      obtain ⟨hne, hown⟩ := h.own_elect ho hown
      exact hk (h.hold w u i (Nat.lt_of_lt_of_eq hi (set_of_ne _ _ (.inr hne))) hown) hown
    pledge := fun w t' c hc => by
      obtain ⟨ys, hys, hp⟩ := h.pledge w t' c hc
      refine ⟨ys, hys, fun u i hu hi hown => ?_⟩
      obtain ⟨hne, hown⟩ := h.own_elect ho hown
      exact hk (hp u i hu (Nat.lt_of_lt_of_eq hi (set_of_ne _ _ (.inr hne))) hown) hown
    carry := fun u u' i hu howner hown => by
      obtain ⟨-, hown⟩ := h.own_elect ho hown
      by_cases hu' : u' = s.term v
      · subst hu'
        rw [book_elect_self]
        refine hk ?_ hown
        -- A voter that acknowledged the entry passes it on; if none did, the entry is dead.
        by_cases hack : ∃ w, s.vote w (s.term v) = some v ∧ i < s.ack w u
        · obtain ⟨w, hw, hi⟩ := hack
          obtain ⟨ys, hys, hp⟩ := h.pledge w _ v hw
          rw [hb] at hys
          rw [Option.some.inj hys]
          exact hp u i hu hi hown
        · refine .inr ⟨_, hq, fun w hw => ⟨Nat.lt_of_lt_of_le hu (h.vote_le w _ v hw), ?_⟩⟩
          exact Nat.le_of_not_lt fun hi => hack ⟨w, hw, hi⟩
      · rw [book_elect_of_ne hu']
        rw [owner_elect_of_ne hu'] at howner
        exact hk (h.carry u u' i hu howner hown) hown }

/-- The entries of a book after a write are the old ones and the new one. -/
theorem Basic.own_write (h : s.Basic Q tm) {e : E} (ho : s.owner (s.term v) = some v)
    (hown : (s.write v e).Own tm t i) :
    s.Own tm t i ∨ t = s.term v ∧ i = (s.book (s.term v)).length := by
  obtain ⟨x, hx, hxt⟩ := hown
  by_cases ht : t = s.term v
  · subst ht
    rw [book_write_self, (h.leading v ho).1] at hx
    rcases Nat.lt_or_ge i (s.book (s.term v)).length with hi | hi
    · rw [List.getElem?_append_left hi] at hx
      exact .inl ⟨x, hx, hxt⟩
    · have := lt_length_of_getElem? hx
      rw [List.length_append, List.length_singleton] at this
      exact .inr ⟨rfl, by omega⟩
  · rw [book_write_of_ne ht] at hx
    exact .inl ⟨x, hx, hxt⟩

theorem Inv.write (h : s.Inv Q tm) {e : E} (ho : s.owner (s.term v) = some v)
    (he : tm e = s.term v) : (s.write v e).Inv Q tm :=
  have hle := write_le (e := e) h.toSourced ho
  have hk {u i : Nat} {xs : List E} (hx : s.Keeps Q u i xs) (ho : s.Own tm u i) :
      (s.write v e).Keeps Q u i xs := hx.of_le ho hle fun _ _ hu => frozen_set hu
  have hlead := h.leading v ho
  { h.toBasic.write ho he with
    hold := fun w u i hi hown => by
      change i < set s.ack v (s.term v) _ w u at hi
      rcases h.own_write ho hown with hold | ⟨rfl, rfl⟩
      · by_cases hw : w = v
        · subst hw
          have hack : i < s.ack w u := by
            by_cases hu : u = s.term w
            · rw [hu, hlead.2, ← hu]; exact hold.lt_length
            · rwa [set_of_ne _ _ (.inr hu)] at hi
          rw [log_write_self]
          exact hk ((h.hold w u i hack hold).extend hold (List.prefix_append _ _)) hold
        · rw [set_of_ne _ _ (.inl hw)] at hi
          rw [log_write_of_ne hw]
          exact hk (h.hold w u i hi hold) hold
      · by_cases hw : w = v
        · rw [hw, log_write_self]
          exact .inl (by rw [book_write_self]; exact .refl _ _)
        · rw [set_of_ne _ _ (.inl hw)] at hi
          exact absurd hi (Nat.not_lt_of_le (h.ack_le w _))
    pledge := fun w t' c hc => by
      obtain ⟨ys, hys, hp⟩ := h.pledge w t' c hc
      refine ⟨ys, hys, fun u i hu hi hown => ?_⟩
      change i < set s.ack v (s.term v) _ w u at hi
      rw [h.ack_set_of_vote hc hu] at hi
      rcases h.own_write ho hown with hold | ⟨rfl, rfl⟩
      · exact hk (hp u i hu hi hold) hold
      · exact absurd hi (Nat.not_lt_of_le (h.ack_le w _))
    carry := fun u u' i hu howner hown => by
      rcases h.own_write ho hown with hold | ⟨rfl, rfl⟩
      · exact hk ((h.carry u u' i hu howner hold).extend hold (hle.book u')) hold
      · -- A later owner was elected by a quorum that left this term before the new entry.
        obtain ⟨c, hc⟩ := Option.ne_none_iff_exists'.mp howner
        refine .inr ⟨_, h.won u' c hc, fun w hw =>
          ⟨Nat.lt_of_lt_of_le hu (h.vote_le w u' c hw), ?_⟩⟩
        change set s.ack v (s.term v) _ w (s.term v) ≤ _
        rw [h.ack_set_of_vote hw hu]
        exact h.ack_le w _ }

theorem Inv.adopt (h : s.Inv Q tm) (ho : s.owner (s.term v) = some c) (hc : c ≠ v)
    (hm : ∀ j, j ≤ (s.log v).length → AgreeTo j (s.log v) (s.book (s.term v)) → j ≤ m) :
    (s.adopt v m).Inv Q tm :=
  { h.toBasic.adopt ho hc hm with
    hold := fun w u i hi hown => by
      by_cases hw : w = v
      · subst hw
        change s.Keeps Q u i ((s.adopt w m).log w)
        rw [log_adopt_self]
        -- What the node acknowledged, it shares with the book, so it is among what it keeps.
        have hbook : s.Keeps Q u i (s.book (s.term w)) := by
          rcases Nat.lt_or_eq_of_le (h.ack_term w u (Nat.lt_of_le_of_lt (Nat.zero_le _) hi))
            with hlt | rfl
          · exact h.carry u _ i hlt (by rw [ho]; simp) hown
          · exact .inl (.refl _ _)
        rcases hbook with hb | hd
        · rcases h.hold w u i hi hown with ha | hd
          · have hlen := ha.le_length hown.lt_length
            exact .inl (hb.trans (AgreeTo.take _ (hm _ hlen (ha.symm.trans hb))).symm)
          · exact .inr hd
        · exact .inr hd
      · change s.Keeps Q u i ((s.adopt v m).log w)
        rw [log_adopt_of_ne hw]
        exact h.hold w u i hi hown
    pledge := h.pledge
    carry := h.carry }

theorem Inv.confirm (h : s.Inv Q tm) (hlen : m ≤ (s.book (s.term v)).length)
    (hm : AgreeTo m (s.book (s.term v)) (s.log v)) : (s.confirm v m).Inv Q tm :=
  have hk {u i : Nat} {xs : List E} (hx : s.Keeps Q u i xs) (ho : s.Own tm u i) :
      (s.confirm v m).Keeps Q u i xs := hx.of_le ho confirm_le fun _ _ hu => frozen_set hu
  { h.toBasic.confirm hlen hm with
    hold := fun w u i hi hown => by
      change i < set s.ack v (s.term v) _ w u at hi
      by_cases hw : w = v ∧ u = s.term v
      · obtain ⟨rfl, rfl⟩ := hw
        rw [set_same] at hi
        rcases (by omega : i < s.ack w (s.term w) ∨ i < m) with hi | hi
        · exact hk (h.hold w _ i hi hown) hown
        · exact .inl (hm.mono hi)
      · rw [set, if_neg hw] at hi
        exact hk (h.hold w u i hi hown) hown
    pledge := fun w t' c hc => by
      obtain ⟨ys, hys, hp⟩ := h.pledge w t' c hc
      refine ⟨ys, hys, fun u i hu hi hown => ?_⟩
      change i < set s.ack v (s.term v) _ w u at hi
      rw [h.ack_set_of_vote hc hu] at hi
      exact hk (hp u i hu hi hown) hown
    carry := fun u u' i hu ho hown => hk (h.carry u u' i hu ho hown) hown }

theorem Step.inv (h : Step Q tm v s s') (hs : s.Inv Q tm) : s'.Inv Q tm := by
  cases h with
  | bump t ht => exact hs.bump ht
  | stand t ht => exact hs.stand ht
  | grant c ys hv hb hu => exact hs.grant hv hb hu
  | elect ho hb hq => exact hs.elect ho hb hq
  | write e ho he => exact hs.write ho he
  | adopt c m ho hc hm => exact hs.adopt ho hc hm
  | confirm m hlen hm => exact hs.confirm hlen hm

end Steps

/-- The state of a group that has done nothing. -/
def empty : TermLog N E where
  term _ := 0
  log _ := []
  owner _ := none
  book _ := []
  vote _ _ := none
  bid _ _ := none
  ack _ _ := 0

theorem inv_empty : (empty : TermLog N E).Inv Q tm where
  owner_le _ _ h := by cases h
  won _ _ h := by cases h
  leading _ h := by cases h
  empty _ _ := rfl
  log _ i e h := by simp [empty] at h
  book _ i e h := by simp [empty] at h
  ack_le _ _ := Nat.zero_le _
  ack_term _ _ h := absurd h (Nat.lt_irrefl 0)
  ack_log _ := .zero _ _
  vote_le _ _ _ h := by cases h
  bid_le _ _ _ h := by cases h
  bid_wf _ _ _ h := by cases h
  hold _ _ _ h := absurd h (Nat.not_lt_zero _)
  pledge _ _ _ h := by cases h
  carry _ _ _ _ h := absurd rfl h

/-! ## Committed entries -/

/-- The entry at `i` of the book of `t` is of that term, and a quorum acknowledged it there. -/
structure Committed (Q : QuorumSystem N) (tm : E → Nat) (s : TermLog N E) (t i : Nat) : Prop where
  own : s.Own tm t i
  quorum : Q.Quorum fun v => i < s.ack v t

theorem Own.of_le (h : s.Own tm t i) (hle : s.Le s') : s'.Own tm t i := by
  obtain ⟨e, he, ht⟩ := h
  refine ⟨e, ?_, ht⟩
  rw [← AgreeTo.of_isPrefix (hle.book t) (lt_length_of_getElem? he) i (Nat.lt_succ_self i)]
  exact he

/-- Commitment is never taken back. -/
theorem Committed.of_le (h : s.Committed Q tm t i) (hle : s.Le s') : s'.Committed Q tm t i :=
  ⟨h.own.of_le hle, Q.mono (fun v hv => Nat.lt_of_lt_of_le hv (hle.ack v t)) h.quorum⟩

theorem Committed.not_dead (h : s.Committed Q tm t i) : ¬ s.Dead Q t i := by
  rintro ⟨P, hP, hdead⟩
  obtain ⟨v, hv, hi⟩ := Q.meet hP h.quorum
  exact absurd (hdead v hv).2 (Nat.not_le_of_lt hi)

/-- Leader Completeness: every later book has what is committed. -/
theorem Inv.committed_book (h : s.Inv Q tm) (hc : s.Committed Q tm t i) (ht : t ≤ t')
    (ho : s.owner t' ≠ none) : AgreeTo (i + 1) (s.book t) (s.book t') := by
  rcases Nat.lt_or_eq_of_le ht with hlt | rfl
  · exact (h.carry t t' i hlt ho hc.own).resolve_right hc.not_dead
  · exact .refl _ _

/-- The first `k` entries of `xs` are covered by an entry committed in a term up to `t`. -/
def Safe (Q : QuorumSystem N) (tm : E → Nat) (s : TermLog N E) (t : Nat) (xs : List E) (k : Nat) :
    Prop :=
  k = 0 ∨ ∃ u i, s.Committed Q tm u i ∧ u ≤ t ∧ k ≤ i + 1 ∧ AgreeTo k (s.book u) xs

section

variable (h : s.Safe Q tm t xs k)

include h

theorem Safe.of_le (hle : s.Le s') (ht : t ≤ t') :
    s'.Safe Q tm t' xs k := by
  rcases h with h | ⟨u, i, hc, hu, hk, ha⟩
  · exact .inl h
  · have hlen := hc.own.lt_length
    exact .inr ⟨u, i, hc.of_le hle, Nat.le_trans hu ht, hk,
      (AgreeTo.of_isPrefix (hle.book u) (by omega)).symm.trans ha⟩

theorem Safe.mono {j : Nat} (hj : j ≤ k) : s.Safe Q tm t xs j := by
  rcases h with rfl | ⟨u, i, hc, hu, hk, ha⟩
  · exact .inl (Nat.le_zero.mp hj)
  · exact .inr ⟨u, i, hc, hu, Nat.le_trans hj hk, ha.mono hj⟩

theorem Safe.trans (ha : AgreeTo k xs ys) : s.Safe Q tm t ys k := by
  rcases h with h | ⟨u, i, hc, hu, hk, hb⟩
  · exact .inl h
  · exact .inr ⟨u, i, hc, hu, hk, hb.trans ha⟩

/-- A safe prefix is not longer than its log. -/
theorem Safe.le_length : k ≤ xs.length := by
  rcases h with rfl | ⟨u, i, hc, hu, hk, ha⟩
  · exact Nat.zero_le _
  · have := hc.own.lt_length
    exact ha.le_length (by omega)

end

/-- A safe prefix is in every later book. -/
theorem Inv.safe_book (h : s.Inv Q tm) (hs : s.Safe Q tm t xs k) (ht : t ≤ t')
    (ho : s.owner t' ≠ none) : AgreeTo k xs (s.book t') := by
  rcases hs with rfl | ⟨u, i, hc, hu, hk, ha⟩
  · exact .zero _ _
  · exact ha.symm.trans ((h.committed_book hc (Nat.le_trans hu ht) ho).mono hk)

/-- Safe prefixes of any two logs agree. -/
theorem Inv.safe_agree (h : s.Inv Q tm) {k' j : Nat} (hx : s.Safe Q tm t xs k)
    (hy : s.Safe Q tm t' ys k') (hj : j ≤ k) (hj' : j ≤ k') : AgreeTo j xs ys := by
  rcases hx.mono hj with rfl | ⟨u, i, hc, -, hk, ha⟩
  · exact .zero _ _
  rcases hy.mono hj' with rfl | ⟨u', i', hc', -, hk', ha'⟩
  · exact .zero _ _
  have howner : ∀ {w l}, s.Committed Q tm w l → s.owner w ≠ none := by
    rintro w l hcw hn
    have := hcw.own.lt_length
    rw [h.empty w hn] at this
    exact absurd this (Nat.not_lt_zero _)
  rcases Nat.le_total u u' with hle | hle
  · exact ha.symm.trans (((h.committed_book hc hle (howner hc')).mono hk).trans ha')
  · exact ha.symm.trans (((h.committed_book hc' hle (howner hc)).mono hk').symm.trans ha')

end Nexus.Lib.TermLog
