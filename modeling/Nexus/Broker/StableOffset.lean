import Nexus.Lib.Run
import Nexus.Broker.PartitionTxnIndex

/-!
# The last stable offset along a growing log

The index of a partition hears of a batch when it is appended, and the high watermark follows later.
The last stable offset never goes back and never passes the high watermark
(`TxnView.run_lastStableOffset`). What is below it has been decided, but the marker that decides it
may itself be above the high watermark: `TxnView.decided_iff` says when it is not.
-/

namespace Nexus

open Lib List

/-- A log, the index that was fed with it, and how far it is committed. -/
structure TxnView where
  index : PartitionTxnIndex := {}
  log : List LoggedBatch := []
  logEnd : Int
  highWatermark : Int

namespace TxnView

inductive Event where
  | append (batch : LoggedBatch)
  /-- The high watermark reaches an offset. -/
  | commit (offset : Int)
  /-- Retention moves the start of the log. -/
  | evict (logStart : Int)
  deriving DecidableEq

def step (s : TxnView) : Event → TxnView
  | .append x =>
    { s with index := s.index.feed x, log := s.log ++ [x], logEnd := x.batch.lastOffset + 1 }
  | .commit offset => { s with highWatermark := offset }
  | .evict logStart => { s with index := s.index.evictBelow logStart }

/-- Batches go to the end of the log, and the high watermark moves up within it. -/
def Allowed (s : TxnView) : Event → Prop
  | .append x => s.logEnd ≤ x.offset ∧ x.offset ≤ x.batch.lastOffset
  | .commit offset => s.highWatermark ≤ offset ∧ offset ≤ s.logEnd
  | .evict _ => True

instance (s : TxnView) : DecidablePred s.Allowed
  | .append x => inferInstanceAs (Decidable (s.logEnd ≤ x.offset ∧ x.offset ≤ x.batch.lastOffset))
  | .commit offset => inferInstanceAs (Decidable (s.highWatermark ≤ offset ∧ offset ≤ s.logEnd))
  | .evict _ => inferInstanceAs (Decidable True)

def lastStableOffset (s : TxnView) : Int := s.index.lastStableOffset s.highWatermark

/-- The index knows the open transactions of the log, whose batches are in order. -/
structure Fed (s : TxnView) : Prop where
  opened : ∀ p, s.index.opened.lookup p = s.log.foldl (stepOpen p) none
  ordered : s.log.Pairwise (fun x y => x.offset < y.offset)
  below : ∀ x ∈ s.log, x.offset < s.logEnd
  committed : s.highWatermark ≤ s.logEnd

variable {s : TxnView} {e : Event} {es : List Event}

theorem fed_empty {start hw : Int} (h : hw ≤ start) :
    Fed { logEnd := start, highWatermark := hw } :=
  ⟨fun _ => rfl, .nil, by simp, h⟩

theorem Fed.step (h : s.Fed) (he : s.Allowed e) : (s.step e).Fed := by
  cases e with
  | append x =>
    obtain ⟨hend, hlast⟩ := he
    have hbelow := h.below
    have hcommitted := h.committed
    refine ⟨fun p => ?_, ?_, fun y hy => ?_, ?_⟩
    · change (s.index.feed x).opened.lookup p = (s.log ++ [x]).foldl (stepOpen p) none
      rw [PartitionTxnIndex.lookup_feed, h.opened, foldl_append]
      rfl
    · refine pairwise_append.mpr ⟨h.ordered, pairwise_singleton _ _, ?_⟩
      intro y hy z hz
      have := hbelow y hy
      rw [mem_singleton.mp hz]
      omega
    · change y.offset < x.batch.lastOffset + 1
      rcases mem_append.mp hy with hy | hy
      · have := hbelow y hy
        omega
      · rw [mem_singleton.mp hy]
        omega
    · change s.highWatermark ≤ x.batch.lastOffset + 1
      omega
  | commit offset => exact ⟨h.opened, h.ordered, h.below, he.2⟩
  | evict logStart => exact ⟨h.opened, h.ordered, h.below, h.committed⟩

theorem Fed.run (h : s.Fed) (hes : Along TxnView.step Allowed s es) :
    (run TxnView.step s es).Fed :=
  run_invariant (fun _ _ hs he => hs.step he) h hes

/-! ## The last stable offset -/

/-- The least of the high watermark and the first offsets of the open transactions. -/
theorem lastStableOffset_cases (i : PartitionTxnIndex) (hw : Int) :
    i.lastStableOffset hw = hw ∨ ∃ p, i.opened.lookup p = some (i.lastStableOffset hw) := by
  have hfold : ∀ (l : List (Sigma fun _ : ProducerId => Int)) (a : Int),
      l.foldl (fun lso e => min lso e.2) a = a ∨
        ∃ e ∈ l, l.foldl (fun lso e => min lso e.2) a = e.2 := by
    intro l
    induction l with
    | nil => exact fun a => .inl rfl
    | cons e l ih =>
      intro a
      rcases ih (min a e.2) with heq | ⟨d, hd, heq⟩
      · rw [foldl_cons, heq]
        rcases min_choice a e.2 with hmin | hmin
        · exact .inl hmin
        · exact .inr ⟨e, mem_cons_self, hmin⟩
      · exact .inr ⟨d, .tail _ hd, heq⟩
  rcases hfold i.opened.entries hw with heq | ⟨e, he, heq⟩
  · exact .inl heq
  · refine .inr ⟨e.1, AList.mem_lookup_iff.mpr ?_⟩
    rw [PartitionTxnIndex.lastStableOffset, heq]
    exact he

/-- It cannot go below an offset that the high watermark has reached and that every open transaction
starts at or after. -/
theorem le_lastStableOffset {i : PartitionTxnIndex} {hw a : Int} (hhw : a ≤ hw)
    (hopen : ∀ p v, i.opened.lookup p = some v → a ≤ v) : a ≤ i.lastStableOffset hw := by
  rcases lastStableOffset_cases i hw with heq | ⟨p, hp⟩
  · rw [heq]
    exact hhw
  · exact hopen p _ hp

theorem lastStableOffset_le_highWatermark (s : TxnView) : s.lastStableOffset ≤ s.highWatermark :=
  s.index.lastStableOffset_le_highWatermark s.highWatermark

theorem Fed.lastStableOffset_le_step (h : s.Fed) (he : s.Allowed e) :
    s.lastStableOffset ≤ (s.step e).lastStableOffset := by
  have hhw := s.lastStableOffset_le_highWatermark
  have hopen : ∀ p v, s.index.opened.lookup p = some v → s.lastStableOffset ≤ v :=
    fun p v hv => s.index.lastStableOffset_le s.highWatermark hv
  cases e with
  | append x =>
    refine le_lastStableOffset hhw fun p v hv => ?_
    change (s.index.feed x).opened.lookup p = some v at hv
    rw [PartitionTxnIndex.lookup_feed, stepOpen] at hv
    -- a transaction that the batch opens starts at the end of the log
    have hcommitted := h.committed
    have hend := he.1
    split at hv
    · cases hv
    split at hv
    · cases hlook : s.index.opened.lookup p with
      | none =>
        rw [hlook] at hv
        cases hv
        exact Int.le_trans hhw (Int.le_trans hcommitted hend)
      | some u =>
        rw [hlook] at hv
        cases hv
        exact hopen p _ hlook
    · exact hopen p v hv
  | commit offset => exact le_lastStableOffset (Int.le_trans hhw he.1) hopen
  | evict logStart => exact le_lastStableOffset hhw hopen

theorem Fed.lastStableOffset_le_run (h : s.Fed) (hes : Along TxnView.step Allowed s es) :
    s.lastStableOffset ≤ (Lib.run TxnView.step s es).lastStableOffset := by
  induction es generalizing s with
  | nil => exact Int.le_refl _
  | cons e es ih =>
    exact Int.le_trans (h.lastStableOffset_le_step hes.1) (ih (h.step hes.1) hes.2)

/-! ## Decisions -/

/-- Every transactional batch below the last stable offset has the marker of its transaction, the
next one of its producer, below the high watermark. -/
def Decided (s : TxnView) : Prop :=
  ∀ before x after, s.log = before ++ x :: after → x.writes x.producer = true →
    x.offset < s.lastStableOffset →
    ∃ m, after.find? (·.marks x.producer) = some m ∧ m.offset < s.highWatermark

/-- No marker at or above the high watermark ends a transaction that starts below the last stable
offset. -/
def NoneStraddles (s : TxnView) : Prop :=
  ∀ before m after, s.log = before ++ m :: after → m.control = true → s.highWatermark ≤ m.offset →
    ∀ first, before.foldl (stepOpen m.producer) none = some first → s.lastStableOffset ≤ first

section Transactions

variable {p : ProducerId} {log : List LoggedBatch} {v : Int}

/-- An open transaction starts at one of its batches, and has had no marker since. -/
theorem exists_first (h : log.foldl (stepOpen p) none = some v) :
    ∃ before x after, log = before ++ x :: after ∧ x.writes p = true ∧ x.offset = v ∧
      ∀ y ∈ after, y.marks p = false := by
  induction log using reverseRecOn with
  | nil => cases h
  | append_singleton log y ih =>
    rw [foldl_append, foldl_cons, foldl_nil] at h
    cases hm : y.marks p with
    | true =>
      rw [stepOpen_marks hm] at h
      cases h
    | false =>
      have hlater : ∀ u, log.foldl (stepOpen p) none = some u → u = v →
          ∃ before x after, log ++ [y] = before ++ x :: after ∧ x.writes p = true ∧
            x.offset = v ∧ ∀ z ∈ after, z.marks p = false := by
        rintro u hu rfl
        obtain ⟨before, x, after, rfl, hx, hv, hafter⟩ := ih hu
        refine ⟨before, x, after ++ [y], by simp, hx, hv, fun z hz => ?_⟩
        rcases mem_append.mp hz with hz | hz
        · exact hafter z hz
        · rw [mem_singleton.mp hz]
          exact hm
      cases hw : y.writes p with
      | false =>
        rw [stepOpen_passes ⟨hm, hw⟩] at h
        exact hlater v h rfl
      | true =>
        rw [stepOpen_writes hw] at h
        cases hfold : log.foldl (stepOpen p) none with
        | none =>
          rw [hfold] at h
          exact ⟨log, y, [], rfl, hw, Option.some.inj h, by simp⟩
        | some u =>
          rw [hfold] at h
          exact hlater u hfold (Option.some.inj h)

/-- The transaction of a batch is open until its marker, and starts at or before the batch. -/
theorem exists_open {before between : List LoggedBatch} {x : LoggedBatch}
    (hordered : (before ++ x :: between).Pairwise (fun x y => x.offset < y.offset))
    (hx : x.writes p = true) (hbetween : ∀ y ∈ between, y.marks p = false) :
    ∃ v ≤ x.offset, (before ++ x :: between).foldl (stepOpen p) none = some v := by
  have hundecided : outcome p between = none := by
    rw [outcome, find?_eq_none.mpr fun y hy => by rw [hbetween y hy]; simp]
    rfl
  refine ⟨(before.foldl (stepOpen p) none).getD x.offset, ?_, ?_⟩
  · cases hfold : before.foldl (stepOpen p) none with
    | none => exact Int.le_refl _
    | some u =>
      obtain ⟨front, y, back, rfl, -, rfl, -⟩ := exists_first hfold
      exact Int.le_of_lt ((pairwise_append.mp hordered).2.2 y (by simp) x
        mem_cons_self)
  · rw [foldl_append, foldl_cons, stepOpen_writes hx,
      foldl_stepOpen_of_undecided hundecided]

end Transactions

/-- What is below the last stable offset is decided below the high watermark, unless a transaction
reaches across it. -/
theorem Fed.decided_iff (h : s.Fed) : s.Decided ↔ s.NoneStraddles := by
  constructor
  · intro hdecided before m after hlog hcontrol hhw first hfirst
    obtain ⟨front, x, back, rfl, hx, rfl, hback⟩ := exists_first hfirst
    have hproducer := LoggedBatch.producer_of_writes hx
    have hm := LoggedBatch.marks_producer hcontrol
    by_contra hlt
    obtain ⟨m', hm', hbelow⟩ := hdecided front x (back ++ m :: after) (by rw [hlog]; simp)
      (by rw [hproducer]; exact hx) (by omega)
    have hfind : (back ++ m :: after).find? (·.marks x.producer) = some m := by
      rw [hproducer, find?_append, find?_eq_none.mpr fun y hy => by rw [hback y hy]; simp,
        Option.none_or, find?_cons_of_pos hm]
    rw [hfind] at hm'
    cases hm'
    omega
  · intro hnone before x after hlog hx hlt
    have hordered := h.ordered
    rw [hlog] at hordered
    cases hfind : after.find? (·.marks x.producer) with
    | none =>
      -- the transaction is still open, so the last stable offset is not past its start
      obtain ⟨v, hv, hfold⟩ := exists_open hordered hx fun y hy => by
        simpa using find?_eq_none.mp hfind y hy
      have hle := s.index.lastStableOffset_le s.highWatermark
        (show s.index.opened.lookup x.producer = some v by rw [h.opened, hlog, hfold])
      change s.lastStableOffset ≤ v at hle
      omega
    | some m =>
      obtain ⟨hm, between, rest, rfl, hbetween⟩ := find?_eq_some_iff_append.mp hfind
      refine ⟨m, rfl, ?_⟩
      by_contra hge
      have hsplit : before ++ x :: (between ++ m :: rest) =
          (before ++ x :: between) ++ m :: rest := by simp
      rw [hsplit] at hlog hordered
      obtain ⟨v, hv, hfold⟩ := exists_open (pairwise_append.mp hordered).1 hx
        fun y hy => by simpa using hbetween y hy
      have hproducer := LoggedBatch.producer_of_marks hm
      have hle := hnone _ m rest hlog (Bool.and_eq_true_iff.mp hm).1 (by omega) v
        (by rw [hproducer]; exact hfold)
      omega

/-- A batch of producer 7 and the marker that commits it; only the batch is committed yet. -/
def unsettled : List Event := [
  .append ⟨⟨⟨0, kTransactionalAttr, 7, 0, 0, 1⟩, []⟩, .abort⟩,
  .append ⟨⟨⟨1, kTransactionalAttr ||| kControlAttr, 7, 0, -1, 1⟩, []⟩, .commit⟩,
  .commit 1]

end TxnView

end Nexus
