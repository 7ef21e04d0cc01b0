import Nexus.Storage.LogRuns
import Nexus.Storage.Tiering

/-!
# Reclaiming space

`enforce_retention` and `truncate_prefix_to` of a log that has nothing in its tier: each removes
some of the oldest segments (`Reclaims`), and whatever the segments have in their files, a read at
or above the new start gives what it gave before (`Reclaims.read`).

Nothing is said here about the batches of the log. That a read goes to the same segment as before
rests on the order of the segments alone (`PartitionLog.Arranged`), and that the next turn of its
loop does too on a segment never giving a next offset below the one it was asked for
(`Segment.le_nextOffset`).
-/

namespace Nexus.Raw

open Lib Raw.PartitionLog List

theorem Segment.le_nextOffset {s : Segment} {offset : Int} {m : Nat} {r : FetchResult}
    (h : s.read offset m = .ok r) : offset ≤ r.nextOffset := by
  have hstart : ∀ r : FetchResult, Except.ok { nextOffset := offset } = (.ok r : Expected _) →
      offset ≤ r.nextOffset := by
    rintro r ⟨⟩
    exact Int.le_refl _
  refine @Segment.scanBlocks_invariant _ _ (s.readVisit offset m) s
    (fun _ acc => ∀ r, acc = .ok r → offset ≤ r.nextOffset) ?_ _ hstart r h
  intro position acc info _ hacc r hr
  cases acc with
  | error e => cases hr
  | ok result =>
    rw [Segment.readVisit] at hr
    split at hr
    · exact hacc r hr
    split at hr
    · exact hacc r hr
    rename_i hge
    split at hr
    · exact hacc r hr
    split at hr
    · cases hr
    · cases hr
      exact Int.le_of_lt (Int.lt_add_one_of_le (Int.not_lt.mp hge))

namespace PartitionLog

section Seek

variable {offset : Int} {older : List Segment} {active : Segment}

/-- Segments that start below the first one that is looked at. -/
theorem seek_append {cold : List Segment} (h : ∀ s ∈ cold, s.baseOffset ≤ offset)
    (ho : (older.headD active).baseOffset ≤ offset) :
    seek offset (cold ++ older) active =
      (cold ++ (seek offset older active).1, (seek offset older active).2) := by
  induction cold with
  | nil => rfl
  | cons s cold ih =>
    have hnext : ((cold ++ older).headD active).baseOffset ≤ offset := by
      cases cold with
      | nil => exact ho
      | cons u cold => exact h u (by simp)
    rw [cons_append, seek, if_pos hnext, ih fun u hu => h u (.tail _ hu)]
    rfl

end Seek

variable {l l' : PartitionLog} {offset : Int} {m : Nat}

/-- The segments are in the order of their base offsets, and the log starts with the first. -/
structure Arranged (l : PartitionLog) : Prop where
  sorted : l.segments.Pairwise (·.baseOffset ≤ ·.baseOffset)
  start : l.logStartOffset = l.firstBase

/-- The log `l'` is `l` without some of its oldest segments. -/
structure Reclaims (l l' : PartitionLog) : Prop where
  removed : ∃ j ≤ l.older.length, l'.older = l.older.drop j
  active : l'.active = l.active
  logEnd : l'.logEndOffset = l.logEndOffset
  start : l'.logStartOffset = l'.firstBase

theorem Reclaims.segments (h : Reclaims l l') : ∃ j ≤ l.older.length,
    l.segments = l.older.take j ++ l'.segments ∧ l'.older = l.older.drop j := by
  obtain ⟨j, hj, hold⟩ := h.removed
  refine ⟨j, hj, ?_, hold⟩
  unfold PartitionLog.segments
  rw [hold, h.active, ← append_assoc, take_append_drop]

theorem firstBase_eq_head (l : PartitionLog) :
    ∃ s rest, l.segments = s :: rest ∧ l.firstBase = s.baseOffset := by
  unfold segments firstBase
  cases l.older with
  | nil => exact ⟨_, _, rfl, rfl⟩
  | cons s older => exact ⟨_, _, rfl, rfl⟩

/-- Every segment that was removed starts at or below the new start. -/
theorem Reclaims.removed_le (h : Reclaims l l') (hl : l.Arranged) {j : Nat}
    (hsegs : l.segments = l.older.take j ++ l'.segments) :
    ∀ s ∈ l.older.take j, s.baseOffset ≤ l'.logStartOffset := by
  intro s hs
  obtain ⟨first, rest, hfirst, hbase⟩ := l'.firstBase_eq_head
  have hsorted := hl.sorted
  rw [hsegs] at hsorted
  rw [h.start, hbase]
  exact (pairwise_append.mp hsorted).2.2 s hs first (hfirst ▸ mem_cons_self)

theorem Reclaims.logStart_le (h : Reclaims l l') (hl : l.Arranged) :
    l.logStartOffset ≤ l'.logStartOffset := by
  obtain ⟨j, hj, hsegs, hold⟩ := h.segments
  cases htake : l.older.take j with
  | nil =>
    rw [htake, nil_append] at hsegs
    obtain ⟨s, rest, hs, hbase⟩ := l.firstBase_eq_head
    obtain ⟨s', rest', hs', hbase'⟩ := l'.firstBase_eq_head
    rw [hs, hs'] at hsegs
    cases hsegs
    rw [hl.start, h.start, hbase, hbase']
  | cons s rest =>
    have hle := h.removed_le hl hsegs s (htake ▸ mem_cons_self)
    obtain ⟨s', rest', hs', hbase⟩ := l.firstBase_eq_head
    rw [hsegs, htake] at hs'
    cases hs'
    rwa [hl.start, hbase]

/-! ## Reads -/

theorem Reclaims.readLocal (h : Reclaims l l') (hl : l.Arranged) (ho : l'.logStartOffset ≤ offset) :
    l'.readLocal offset m = l.readLocal offset m := by
  obtain ⟨j, hj, hsegs, hold⟩ := h.segments
  have hfirst : l.firstBase ≤ offset := hl.start ▸ Int.le_trans (h.logStart_le hl) ho
  have hfirst' : l'.firstBase ≤ offset := h.start ▸ ho
  have hremoved : ∀ s ∈ l.older.take j, s.baseOffset ≤ offset := fun s hs =>
    Int.le_trans (h.removed_le hl hsegs s hs) ho
  have hseek := congrArg Prod.snd (seek_append hremoved hfirst')
  rw [hold, take_append_drop, h.active] at hseek
  unfold PartitionLog.readLocal segmentFor
  unfold firstBase at hfirst hfirst'
  rw [if_pos hfirst, if_pos hfirst', hold, h.active, hseek]

theorem Reclaims.readLoop (h : Reclaims l l') (hl : l.Arranged) {fuel : Nat} {cursor : Int}
    {r : FetchResult} (ho : l'.logStartOffset ≤ cursor) :
    l'.readLoop m fuel cursor r = l.readLoop m fuel cursor r := by
  induction fuel generalizing cursor r with
  | zero => rfl
  | succ fuel ih =>
    unfold PartitionLog.readLoop
    rw [h.logEnd, h.readLocal hl ho]
    split
    · cases hread : l.readLocal cursor (m - r.batches.length) with
      | error e => rfl
      | ok fragment =>
        dsimp only
        split
        · rfl
        · rename_i hne
          -- the next cursor is not below this one
          refine ih (Int.le_trans ho ?_)
          unfold PartitionLog.readLocal at hread
          split at hread
          · cases hread
            exact absurd rfl hne
          · exact Segment.le_nextOffset hread
    · rfl

theorem Reclaims.read (h : Reclaims l l') (hl : l.Arranged) (ho : l'.logStartOffset ≤ offset)
    (m : Nat) : l'.read offset m = l.read offset m := by
  have hle := h.logStart_le hl
  unfold PartitionLog.read
  rw [if_neg (by omega), if_neg (by omega), h.logEnd, h.readLoop hl ho]

theorem dropPrefix_headD_le (offset : Int) (older : List Segment) (active : Segment) :
    dropPrefix offset older active = older ∨
      ((dropPrefix offset older active).headD active).baseOffset ≤ offset := by
  induction older with
  | nil => exact .inl rfl
  | cons s older ih =>
    unfold dropPrefix
    split
    · rename_i hle
      rcases ih with hsame | hnext
      · rw [hsame]
        exact .inr hle
      · exact .inr hnext
    · exact .inl rfl

/-! ## Arranged logs -/

theorem Contains.arranged {bs : List RecordBatch} (h : l.Contains bs) : l.Arranged := by
  obtain ⟨g, hm, hg⟩ := h.models
  have hlaid := hm.toLaid hg h.nonneg
  refine ⟨hlaid.ascending.imp Int.le_of_lt, ?_⟩
  unfold firstBase
  rw [baseOffset_headD hm.older hm.active.baseOffset, hg.layout.baseOffset_headD, hm.logStart]

end PartitionLog

namespace TieredLog

variable {t t' : TieredLog} {offset : Int}

/-! ## Reclaiming -/

theorem dropPrefix_eq_drop (offset : Int) (older : List Segment) (active : Segment) :
    ∃ j ≤ older.length, dropPrefix offset older active = older.drop j ∧
      (0 < j → (older.tail.headD active).baseOffset ≤ offset) := by
  induction older with
  | nil => exact ⟨0, Nat.le_refl 0, rfl, fun h => absurd h (Nat.lt_irrefl 0)⟩
  | cons s older ih =>
    unfold dropPrefix
    split
    · rename_i hle
      obtain ⟨j, hj, heq, -⟩ := ih
      exact ⟨j + 1, Nat.succ_le_succ hj, heq, fun _ => hle⟩
    · exact ⟨0, Nat.zero_le _, rfl, fun h => absurd h (Nat.lt_irrefl 0)⟩

theorem retentionLoop_eq_drop (policy : RetentionPolicy) (age : Int → Option Int)
    (active : Segment) (older : List Segment) (total start : Int) :
    ∃ j ≤ older.length, retentionLoop policy age active older total start =
      (older.drop j, if j = 0 then start else ((older.drop j).headD active).baseOffset) := by
  induction older generalizing total start with
  | nil => exact ⟨0, Nat.le_refl 0, rfl⟩
  | cons s older ih =>
    unfold retentionLoop
    split
    · obtain ⟨j, hj, heq⟩ := ih (total - s.sizeBytes) (older.headD active).baseOffset
      refine ⟨j + 1, Nat.succ_le_succ hj, ?_⟩
      rw [heq, drop_succ_cons, if_neg (Nat.succ_ne_zero j)]
      split
      · rename_i hzero
        rw [hzero, drop_zero]
      · rfl
    · exact ⟨0, Nat.zero_le _, rfl⟩

theorem readLoop_of_no_tier (ht : t.tieredBases = []) (m fuel : Nat) (cursor : Int)
    (r : FetchResult) : t.readLoop m fuel cursor r = t.log.readLoop m fuel cursor r := by
  induction fuel generalizing cursor r with
  | zero => rfl
  | succ fuel ih =>
    have hlocal : ∀ k, t.readAt cursor k = t.log.readLocal cursor k := fun k =>
      if_neg fun hc => hc.1 ht
    unfold TieredLog.readLoop PartitionLog.readLoop
    refine ite_congr rfl (fun _ => ?_) fun _ => rfl
    rw [hlocal]
    cases t.log.readLocal cursor (m - r.batches.length) with
    | error e => rfl
    | ok fragment => exact if_congr Iff.rfl rfl (ih _ _)

theorem read_of_no_tier (ht : t.tieredBases = []) (offset : Int) (m : Nat) :
    t.read offset m = t.log.read offset m := by
  unfold TieredLog.read PartitionLog.read
  rw [readLoop_of_no_tier ht]

/-- Bytes of the local segments. -/
def totalBytes (l : PartitionLog) : Int := (l.segments.map fun s => (s.sizeBytes : Int)).sum

/-- With a limit of bytes, the loop of `enforce_retention` ends when the rest is within it, or when
only the active segment is left. -/
theorem retentionLoop_bytes {policy : RetentionPolicy} (hbytes : 0 ≤ policy.retentionBytes)
    (age : Int → Option Int) (active : Segment) (older : List Segment) {total start : Int}
    (htotal : total = ((older ++ [active]).map fun s => (s.sizeBytes : Int)).sum) :
    let kept := (retentionLoop policy age active older total start).1
    ((kept ++ [active]).map fun s => (s.sizeBytes : Int)).sum ≤ policy.retentionBytes ∨
      kept = [] := by
  induction older generalizing total start with
  | nil => exact .inr rfl
  | cons s older ih =>
    unfold retentionLoop
    split
    · refine ih ?_
      rw [htotal, cons_append, map_cons, sum_cons]
      omega
    · rename_i helig
      refine .inl ?_
      have hnot : ¬ policy.retentionBytes < total := fun hlt => helig (by
        simp [RetentionPolicy.eligible, hbytes, hlt])
      rw [← htotal]
      exact Int.not_lt.mp hnot

theorem reclaims_enforceRetention (ht : t.tieredBases = []) (h : t.log.Arranged)
    (policy : RetentionPolicy) (age : Int → Option Int) :
    t.log.Reclaims (t.enforceRetention policy age).log := by
  unfold enforceRetention
  rw [if_neg (not_not.mpr ht)]
  dsimp only
  obtain ⟨j, hj, hloop⟩ := retentionLoop_eq_drop policy age t.log.active t.log.older
    ((t.log.segments.map fun s => (s.sizeBytes : Int)).sum) t.log.logStartOffset
  rw [hloop]
  refine ⟨⟨j, hj, rfl⟩, rfl, rfl, ?_⟩
  dsimp only
  split
  · rename_i hzero
    rw [hzero, h.start]
    rfl
  · rfl

/-- `truncate_prefix_to` fails only above the end of the log. -/
theorem reclaims_truncatePrefixTo (ht : t.tieredBases = []) (h : t.log.Arranged)
    (ho : offset ≤ t.log.logEndOffset) (fault : Fault) :
    ∃ t', t.truncatePrefixTo offset fault = (.ok (), t') ∧ t'.tieredBases = [] ∧
      t.log.Reclaims t'.log ∧ t'.log.logStartOffset ≤ max offset t.log.logStartOffset := by
  unfold TieredLog.truncatePrefixTo
  split
  · exact ⟨t, rfl, ht, ⟨⟨0, Nat.zero_le _, rfl⟩, rfl, rfl, h.start⟩, Int.le_max_right _ _⟩
  rename_i hgt
  rw [if_neg (by omega), ht]
  obtain ⟨j, hj, hdrop, -⟩ := dropPrefix_eq_drop offset t.log.older t.log.active
  refine ⟨_, rfl, rfl, ⟨⟨j, hj, hdrop⟩, rfl, rfl, rfl⟩, ?_⟩
  change ((dropPrefix offset t.log.older t.log.active).headD
    t.log.active).baseOffset ≤ _
  rcases dropPrefix_headD_le offset t.log.older t.log.active with hsame | hle
  · rw [hsame]
    exact Int.le_trans (Int.le_of_eq h.start.symm) (Int.le_max_right _ _)
  · exact Int.le_trans hle (Int.le_max_left _ _)

/-! ## Both -/

/-- What is to hold of a log before and after some of its space was reclaimed. -/
structure Reclaimed (t t' : TieredLog) : Prop where
  removed : ∃ j ≤ t.log.older.length, t'.log.older = t.log.older.drop j
  active : t'.log.active = t.log.active
  le_start : t.log.logStartOffset ≤ t'.log.logStartOffset
  start : t'.log.logStartOffset = t'.log.firstBase
  read : ∀ offset m, t'.log.logStartOffset ≤ offset → t'.read offset m = t.read offset m

theorem reclaimed_of_reclaims (ht : t.tieredBases = []) (ht' : t'.tieredBases = [])
    (h : t.log.Arranged) (hr : t.log.Reclaims t'.log) : t.Reclaimed t' := by
  refine ⟨hr.removed, hr.active, hr.logStart_le h, hr.start, fun offset m ho => ?_⟩
  rw [read_of_no_tier ht, read_of_no_tier ht', hr.read h ho]

end TieredLog

end Nexus.Raw
