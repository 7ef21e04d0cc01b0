import Nexus.Consensus.LogView
import Nexus.Consensus.RaftNode

/-!
# How a follower's log follows a leader's

A leader's log is `book`, a follower's log stands for `full`. Both handlers that change a
follower's log leave it as it was or make it a prefix of the book that has all that the two had
in common, and when they succeed the log agrees with the book as far as the message went.
-/

namespace Nexus

open Lib List

variable {log : RaftLog} {full book es : List LogEntry} {p s : Nat}

/-- Entries of one term at an index: the lists agree up to there. -/
def Matching (xs ys : List LogEntry) : Prop :=
  ∀ i x y, xs[i]? = some x → ys[i]? = some y → x.term = y.term → AgreeTo (i + 1) xs ys

/-- The log was left alone or became the first `m` entries of the book, all common ones kept. -/
def Follows (full book full' : List LogEntry) : Prop :=
  full' = full ∨
    ∃ m, full' = book.take m ∧ ∀ j, j ≤ full.length → AgreeTo j full book → j ≤ m

/-- The owner's log is the book. -/
theorem Follows.eq_self {full full' : List LogEntry} (h : Follows full full full') :
    full' = full := by
  rcases h with h | ⟨m, rfl, hm⟩
  · exact h
  · exact take_of_length_le (hm _ (Nat.le_refl _) (.refl _ _))

/-- The outcome of taking over the book up to `n`: the log `out` stands for `full'`, and if the
call is `done` it has all of that. -/
structure TakesOver (full book : List LogEntry) (n : Nat) (out : RaftLog × Bool)
    (full' : List LogEntry) : Prop where
  view : out.1.View full'
  follows : Follows full book full'
  done : out.2 = true → AgreeTo n full' book ∧ n ≤ full'.length

theorem take_eq_of_agreeTo {n : Nat} {xs ys : List LogEntry} (h : AgreeTo n xs ys) :
    xs.take n = ys.take n := by
  apply ext_getElem?
  intro i
  rcases Nat.lt_or_ge i n with hi | hi
  · rw [getElem?_take_of_lt hi, getElem?_take_of_lt hi, h i hi]
  · rw [getElem?_eq_none (by rw [length_take]; omega),
      getElem?_eq_none (by rw [length_take]; omega)]

theorem wire_take (index : Nat) (es : List LogEntry) (j : Nat) :
    (wire index es).take j = wire index (es.take j) := by
  induction es generalizing index j with
  | nil => simp [wire]
  | cons e es ih =>
    cases j with
    | zero => rfl
    | succ j => simp [wire, ih]

theorem one_le_recordCount_of_wire {o : Int} {index : Nat} (h : Chain o (batches es)) :
    ∀ x ∈ wire index es, 1 ≤ x.payload.header.recordCount := by
  induction es generalizing o index with
  | nil => simp [wire]
  | cons e es ih =>
    intro x hx
    rcases mem_cons.mp hx with rfl | hx
    · exact h.2.1
    · exact ih h.2.2 x hx

/-- The entries of the book after `p`, written at the end of a log that has exactly what the book
has before `p`. -/
theorem append_book (h : log.View (book.take p)) (hbook : Chain 0 (batches book))
    (hes : es <+: book.drop p) (hp : p ≤ book.length)
    (hcommon : ∀ j, j ≤ full.length → AgreeTo j full book → j ≤ p) (fails : Option Nat)
    {out : RaftLog × Bool} (hout : out = ((log.append fails (wire (p + 1) es)).1,
      (log.append fails (wire (p + 1) es)).2.toBool)) :
    ∃ full', TakesOver full book (p + es.length) out full' ∧
      out.1.snapshotIndex = log.snapshotIndex ∧
      (out.2 = true → full'.length = p + es.length) := by
  subst hout
  obtain ⟨rest, hrest⟩ := hes
  have hsplit : book = book.take p ++ (es ++ rest) := by rw [hrest, take_append_drop]
  have hchain : Chain (endOf 0 (batches (book.take p))) (batches es) := by
    rw [hsplit, batches_append, chain_append, batches_append, chain_append] at hbook
    exact hbook.2.1
  have hlen : p + es.length ≤ book.length := by
    have := congrArg length hrest
    rw [length_append, length_drop] at this
    omega
  obtain ⟨j, hj, hview, hsnap, hok⟩ := h.append fails (one_le_recordCount_of_wire hchain)
  rw [length_wire] at hj hok
  have htake : book.take p ++ es.take j = book.take (p + j) := by
    rw [take_add, ← hrest, take_append_of_le_length hj]
  have hchain' : Chain (endOf 0 (batches (book.take p))) (batches (es.take j)) := by
    rw [batches_take es]; exact hchain.take j
  rw [wire_take, place_wire hchain', htake] at hview
  have hlen' : (book.take (p + j)).length = p + j := by rw [length_take]; omega
  refine ⟨_, ⟨hview, .inr ⟨p + j, rfl, fun k hk hag => ?_⟩, fun hb => ?_⟩, hsnap, fun hb => ?_⟩
  · exact Nat.le_trans (hcommon k hk hag) (Nat.le_add_right _ _)
  · rw [hlen', hok hb]
    exact ⟨AgreeTo.take book (Nat.le_refl _), Nat.le_refl _⟩
  · rw [hlen', hok hb]

/-- `append_entries_from` on the entries of the book after `p`, where the log agrees up to `p`. The
log ends with them, unless it had them all before. -/
theorem appendEntriesFrom_spec (h : log.View full) (hbook : Chain 0 (batches book))
    (hmatch : Matching full book) (io : LogIo) (hes : es <+: book.drop p)
    (hp : p ≤ full.length) (ha : AgreeTo p full book) :
    ∃ full', TakesOver full book (p + es.length)
        (RaftNode.appendEntriesFrom log io (wire (p + 1) es)) full' ∧
      (RaftNode.appendEntriesFrom log io (wire (p + 1) es)).1.snapshotIndex =
        log.snapshotIndex ∧
      ((RaftNode.appendEntriesFrom log io (wire (p + 1) es)).2 = true →
        full'.length = p + es.length ∨
        full' = full ∧ ∀ x ∈ wire (p + 1) es, log.termAt x.index = .ok x.term) := by
  induction es generalizing p with
  | nil => exact ⟨full, ⟨h, .inl rfl, fun _ => ⟨ha, hp⟩⟩, rfl, fun _ => .inr ⟨rfl, by simp [wire]⟩⟩
  | cons e es ih =>
    have hbe : book[p]? = some e := by
      obtain ⟨rest, hrest⟩ := hes
      have h0 : (book.drop p)[0]? = some e := by rw [← hrest]; rfl
      rwa [getElem?_drop, Nat.add_zero] at h0
    have hunchanged : ∃ full', TakesOver full book (p + (e :: es).length) (log, false) full' ∧
        log.snapshotIndex = log.snapshotIndex ∧ (false = true →
          full'.length = p + (e :: es).length ∨ full' = full ∧
            ∀ x ∈ wire (p + 1) (e :: es), log.termAt x.index = .ok x.term) :=
      ⟨full, ⟨h, .inl rfl, by simp⟩, rfl, by simp⟩
    rw [wire, RaftNode.appendEntriesFrom, h.lastIndex]
    split
    · -- The log ends here: all that it has is common.
      rename_i hgt
      have hpe : p = full.length := by simp only [LogEntry.toWire] at hgt; omega
      have hview : log.View (book.take p) := by
        rw [← take_eq_of_agreeTo ha, take_of_length_le (by omega)]
        exact h
      have hcommon : ∀ j, j ≤ full.length → AgreeTo j full book → j ≤ p := fun j hj _ => by omega
      obtain ⟨full', htakes, hsnap, hlen⟩ := append_book hview hbook hes (ha.le_length hp)
        hcommon io.appendFails rfl
      exact ⟨full', htakes, hsnap, fun hb => .inl (hlen hb)⟩
    rename_i hle
    have hlt : p < full.length := by simp only [LogEntry.toWire] at hle; omega
    split
    · -- The entry is there already.
      rename_i hterm
      obtain ⟨x, hx, hxt⟩ : ∃ x, full[p]? = some x ∧ x.term = e.term := by
        rcases h.termAt_iff.mp hterm with ⟨h0, -⟩ | ⟨-, -, x, hx, hxt⟩
        · exact absurd h0 (Nat.succ_ne_zero p)
        · exact ⟨x, hx, hxt⟩
      have hes' : es <+: book.drop (p + 1) := by
        obtain ⟨rest, hrest⟩ := hes
        exact ⟨rest, by rw [← drop_drop, ← hrest]; rfl⟩
      rw [length_cons, Nat.add_comm es.length 1, ← Nat.add_assoc]
      obtain ⟨full', htakes, hsnap, hlen⟩ := ih hes' hlt (hmatch p x e hx hbe hxt)
      refine ⟨full', htakes, hsnap, fun hb => (hlen hb).imp_right fun hall => ⟨hall.1, ?_⟩⟩
      intro y hy
      rcases mem_cons.mp hy with rfl | hy
      · exact hterm
      · exact hall.2 y hy
    rename_i hterm
    split
    · exact hunchanged
    split
    · exact hunchanged
    · -- The entry differs: nothing from here on is common.
      rename_i log' hlog'
      have hsnap : log.snapshotIndex ≤ p := by
        by_contra hgt
        rw [RaftLog.truncateFrom, if_neg (by simp [LogEntry.toWire]),
          if_pos (by simp only [LogEntry.toWire]; omega)] at hlog'
        simp [makeError] at hlog'
      obtain ⟨r', hr', hview, hsnap'⟩ := h.truncateFrom hsnap hlt
      obtain rfl : r' = log' := Except.ok.inj (hr'.symm.trans hlog')
      rw [take_eq_of_agreeTo ha] at hview
      have hcommon : ∀ j, j ≤ full.length → AgreeTo j full book → j ≤ p := by
        intro j hj hag
        by_contra hjp
        have hx : full[p]? = some e := (hag p (by omega)).trans hbe
        exact hterm (h.termAt_of_getElem? (by omega) hx)
      obtain ⟨full', htakes, hsnap'', hlen⟩ := append_book hview hbook hes (ha.le_length hp)
        hcommon io.appendFails rfl
      exact ⟨full', htakes, hsnap''.trans hsnap', fun hb => .inl (hlen hb)⟩

/-- `install_snapshot` of the first `s` entries of the book, further than the log's own snapshot. -/
theorem installSnapshot_ahead (h : log.View full) (hbook : Chain 0 (batches book))
    (hmatch : Matching full book) (io : InstallIo) (hgt : log.snapshotIndex < s)
    {e : LogEntry} (hbe : book[s - 1]? = some e) :
    ∃ full', TakesOver full book s (log.installSnapshot io s e.term e.batch.lastOffset) full' ∧
      ((log.installSnapshot io s e.term e.batch.lastOffset).1.snapshotIndex =
          log.snapshotIndex ∨
        (log.installSnapshot io s e.term e.batch.lastOffset).1.snapshotIndex = s ∧
          AgreeTo s full' book) := by
  unfold RaftLog.installSnapshot
  rw [if_neg (Nat.not_le_of_lt hgt)]
  dsimp only
  by_cases hholds : log.holds s e.term
  · rw [if_pos hholds]
    simp only [RaftLog.holds, Bool.and_eq_true, decide_eq_true_eq, beq_iff_eq] at hholds
    obtain ⟨hlast, hterm⟩ := hholds
    rw [h.lastIndex] at hlast
    obtain ⟨x, hx, hxt⟩ : ∃ x, full[s - 1]? = some x ∧ x.term = e.term := by
      rcases h.termAt_iff.mp hterm with ⟨h0, -⟩ | ⟨-, -, x, hx, hxt⟩
      · omega
      · exact ⟨x, hx, hxt⟩
    have hag := hmatch _ x e hx hbe hxt
    rw [Nat.sub_add_cancel (by omega)] at hag
    obtain ⟨r', hr', hview, hsnap⟩ := h.compactTo hlast
    rw [hr']
    exact ⟨full, ⟨hview, .inl rfl, fun _ => ⟨hag, hlast⟩⟩,
      .inr ⟨hsnap.trans (Nat.max_eq_right (by omega)), hag⟩⟩
  rw [if_neg hholds]
  by_cases hio : io = .resetFails
  · rw [if_pos hio]
    exact ⟨full, ⟨h, .inl rfl, by simp [makeError]⟩, .inl rfl⟩
  · rw [if_neg hio]
    have hlen : s ≤ book.length := by
      have := (List.getElem?_eq_some_iff.mp hbe).1
      omega
    have hslen : (book.take s).length = s := by rw [length_take]; omega
    have hlast : (book.take s).getLast? = some e := by
      rw [getLast?_eq_getElem?, hslen, getElem?_take_of_lt (by omega), hbe]
    have hchain : Chain 0 (batches (book.take s)) := by rw [batches_take]; exact hbook.take s
    obtain ⟨r', hr', hview, hsnap⟩ := log.view_resetTo hchain hlast rfl rfl
    rw [hslen] at hr' hsnap
    rw [hr']
    have hag : AgreeTo s (book.take s) book := AgreeTo.take book (Nat.le_refl _)
    refine ⟨_, ⟨hview, .inr ⟨s, rfl, fun j hj hag => ?_⟩, fun _ => ⟨hag, by omega⟩⟩,
      .inr ⟨hsnap, hag⟩⟩
    -- A common entry at `s` would have been found.
    by_contra hjs
    have hx : full[s - 1]? = some e := (hag _ (by omega)).trans hbe
    have hterm := h.termAt_of_getElem? (by omega) hx
    rw [Nat.sub_add_cancel (by omega)] at hterm
    refine hholds ?_
    rw [RaftLog.holds, hterm, h.lastIndex]
    simp only [beq_self_eq_true, Bool.and_true, decide_eq_true_eq]
    omega

/-- `install_snapshot` of the first `s` entries of the book. -/
theorem installSnapshot_spec (h : log.View full) (hbook : Chain 0 (batches book))
    (hmatch : Matching full book) (hcover : AgreeTo log.snapshotIndex full book) (io : InstallIo)
    {term : Nat} {last : Int}
    (hs : 0 < s → ∃ e, book[s - 1]? = some e ∧ e.term = term ∧ e.batch.lastOffset = last) :
    ∃ full', TakesOver full book s (log.installSnapshot io s term last) full' ∧
      ((log.installSnapshot io s term last).1.snapshotIndex = log.snapshotIndex ∨
        (log.installSnapshot io s term last).1.snapshotIndex = s ∧
          AgreeTo s full' book) := by
  rcases Nat.lt_or_ge log.snapshotIndex s with hgt | hle
  · obtain ⟨e, hbe, rfl, rfl⟩ := hs (by omega)
    exact installSnapshot_ahead h hbook hmatch io hgt hbe
  · rw [RaftLog.installSnapshot, if_pos hle]
    exact ⟨full, ⟨h, .inl rfl, fun _ => ⟨hcover.mono hle, Nat.le_trans hle h.covered⟩⟩, .inl rfl⟩

end Nexus
