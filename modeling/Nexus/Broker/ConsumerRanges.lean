import Mathlib.Algebra.Order.BigOperators.Group.List
import Nexus.Broker.StoredPartition

/-!
# The offsets that a Kafka consumer derives

A consumer takes the offsets of a v2 batch from its `baseOffset` and its `lastOffsetDelta`, while
the broker counts its `recordCount`, and sums the counts of a blob in an `int32`. Nothing checks
that the two fields agree.

* `walk_rebaseSubbatches`: what the consumer finds in a blob that was given offsets.
* `ranges_apart_iff`: for a blob that was accepted, the ranges are in order and below the end of the
  log, which has moved on by the number of records, exactly if no batch says more than it counts.
-/

namespace Nexus.Kafka

open Lib PartitionBase List

/-! ## Walks over a blob -/

/-- The batches of a blob, as the loops of the broker and of the consumer see them. -/
inductive Walk : Bytes → List RecordBatchInfo → Prop
  | nil : Walk [] []
  | cons {blob : Bytes} {info : RecordBatchInfo} {infos : List RecordBatchInfo}
    (hpeek : peekRecordBatch blob = .ok info) (hrest : Walk (blob.drop info.encodedSize) infos) :
    Walk blob (info :: infos)

/-- The records of the batches, as a number without bound. -/
def totalCount (infos : List RecordBatchInfo) : Int := (infos.map (·.recordCount)).sum

/-- What the consumer makes of the batches it fetched: first and last offset of each. -/
def offsetRanges (records : Bytes) : List (Int × Int) :=
  if _hne : records = [] then []
  else
    match _h : peekRecordBatch records with
    | .error _ => []
    | .ok info =>
      (info.baseOffset, info.baseOffset + info.lastOffsetDelta) ::
        offsetRanges (records.drop info.encodedSize)
termination_by records.length
decreasing_by
  have := lt_encodedSize _h
  rw [List.length_drop]
  omega

variable {blob : Bytes} {info : RecordBatchInfo} {infos : List RecordBatchInfo} {offset : Int}

/-- What `peek` has checked of a batch that it takes, and where it finds the fields. -/
theorem peek_eq_ok_iff :
    peekRecordBatch blob = .ok info ↔
      kMinBatchLength ≤ loadBe 4 blob 8 ∧
        kBatchPrefixSize + (loadBe 4 blob 8).toNat ≤ blob.length ∧
        loadBe 1 blob 16 = kRecordBatchMagicV2 ∧ 0 ≤ loadBe 4 blob 57 ∧
        info = ⟨loadBe 8 blob 0, loadBe 4 blob 57, loadBe 4 blob 23,
          kBatchPrefixSize + (loadBe 4 blob 8).toNat⟩ := by
  unfold peekRecordBatch
  dsimp only
  constructor
  · intro h
    split at h
    · cases h
    split at h
    · cases h
    split at h
    · cases h
    split at h
    · cases h
    split at h
    · cases h
    rename_i hmin hsize hmagic hcount
    exact ⟨Int.not_lt.mp hmin, Nat.not_lt.mp hsize, not_not.mp hmagic, Int.not_lt.mp hcount,
      (Except.ok.inj h).symm⟩
  · rintro ⟨hmin, hsize, hmagic, hcount, rfl⟩
    rw [if_neg (by omega), if_neg (Int.not_lt.mpr hmin), if_neg (Nat.not_lt.mpr hsize),
      if_neg (not_not.mpr hmagic), if_neg (Int.not_lt.mpr hcount)]

theorem ne_nil_of_peek (h : peekRecordBatch blob = .ok info) : blob ≠ [] := by
  rintro rfl
  have := lt_encodedSize h
  exact absurd (Nat.lt_of_lt_of_le this.1 this.2) (Nat.lt_irrefl 0)

theorem recordCount_nonneg (h : peekRecordBatch blob = .ok info) : 0 ≤ info.recordCount := by
  obtain ⟨-, -, -, hcount, hinfo⟩ := peek_eq_ok_iff.mp h
  have hfield : info.recordCount = loadBe 4 blob 57 := by rw [hinfo]
  rwa [hfield]

theorem recordCount_nonneg_of_walk (h : Walk blob infos) : ∀ i ∈ infos, 0 ≤ i.recordCount := by
  induction h with
  | nil => exact nofun
  | cons hpeek _ ih => exact forall_mem_cons.mpr ⟨recordCount_nonneg hpeek, ih⟩

theorem totalCount_nonneg (h : Walk blob infos) : 0 ≤ totalCount infos :=
  sum_nonneg (forall_mem_map.mpr (recordCount_nonneg_of_walk h))

/-- The `int32` that the broker counts. -/
theorem countRecords_eq_ok_iff {start total : Int} (hstart : Int.bmod start (2 ^ 32) = start) :
    countRecords blob start = .ok total ↔
      ∃ infos, Walk blob infos ∧ total = Int.bmod (start + totalCount infos) (2 ^ 32) := by
  fun_induction countRecords blob start with
  | case1 start =>
    constructor
    · intro h
      exact ⟨[], .nil, by rw [totalCount, map_nil, sum_nil, Int.add_zero, hstart,
        Except.ok.inj h]⟩
    · rintro ⟨infos, hwalk, rfl⟩
      cases hwalk with
      | nil => rw [totalCount, map_nil, sum_nil, Int.add_zero, hstart]
      | cons hpeek _ => exact absurd rfl (ne_nil_of_peek hpeek)
  | case2 blob start hne e hpeek =>
    refine ⟨nofun, ?_⟩
    rintro ⟨infos, hwalk, -⟩
    cases hwalk with
    | nil => exact absurd rfl hne
    | cons hpeek' _ => cases hpeek.symm.trans hpeek'
  | case3 blob start hne info hpeek ih =>
    rw [ih Int.bmod_bmod]
    constructor
    · rintro ⟨infos, hwalk, rfl⟩
      refine ⟨info :: infos, .cons hpeek hwalk, ?_⟩
      rw [Int.bmod_add_bmod, Int.add_assoc, totalCount, totalCount, map_cons, sum_cons]
    · rintro ⟨infos, hwalk, rfl⟩
      cases hwalk with
      | nil => exact absurd rfl hne
      | @cons _ info' infos' hpeek' hrest =>
        obtain rfl := Except.ok.inj (hpeek.symm.trans hpeek')
        refine ⟨infos', hrest, ?_⟩
        rw [Int.bmod_add_bmod, Int.add_assoc, totalCount, totalCount, map_cons, sum_cons]

/-! ## What the consumer fetches -/

/-- The batches with the offsets that they are given. -/
def rebaseInfos : Int → List RecordBatchInfo → List RecordBatchInfo
  | _, [] => []
  | offset, info :: infos =>
    { info with baseOffset := offset } :: rebaseInfos (offset + info.recordCount) infos

theorem length_setBaseOffset (h : 8 ≤ blob.length) (offset : Int) :
    (setBaseOffset blob offset).length = blob.length := by
  rw [setBaseOffset, storeBe, length_append, length_reverse, length_storeLe,
    length_drop]
  omega

theorem le_encodedSize (h : peekRecordBatch blob = .ok info) :
    kRecordBatchHeaderSize ≤ info.encodedSize := by
  obtain ⟨hmin, -, -, -, hinfo⟩ := peek_eq_ok_iff.mp h
  rw [hinfo]
  simp only [kMinBatchLength, kRecordBatchHeaderSize, kBatchPrefixSize] at hmin ⊢
  omega

theorem length_rebaseSubbatches (blob : Bytes) (offset : Int) :
    (rebaseSubbatches blob offset).length = blob.length := by
  fun_induction rebaseSubbatches blob offset with
  | case1 offset => rfl
  | case2 blob offset hne e hpeek => rfl
  | case3 blob offset hne info hpeek ih =>
    have hsize := (lt_encodedSize hpeek).2
    have hheader := le_encodedSize hpeek
    simp only [kRecordBatchHeaderSize] at hheader
    rw [length_append, length_take, length_setBaseOffset (by omega), ih,
      length_drop]
    omega

/-- The fields after the first eight bytes stay. -/
theorem loadBe_setBaseOffset {n pos w : Nat} (hpos : 8 ≤ pos) (hend : pos + w ≤ n)
    (hn : n ≤ blob.length) (offset : Int) (rest : Bytes) :
    loadBe w ((setBaseOffset blob offset).take n ++ rest) pos = loadBe w blob pos := by
  have hlen : ((setBaseOffset blob offset).take n).length = n := by
    rw [length_take, length_setBaseOffset (by omega)]
    omega
  have hdrop : (setBaseOffset blob offset).drop pos = blob.drop pos := by
    have hsplit : pos = (storeBe 8 offset).length + (pos - 8) := by
      rw [storeBe, length_reverse, length_storeLe]
      omega
    rw [setBaseOffset, hsplit, drop_length_add_append, drop_drop, storeBe,
      length_reverse, length_storeLe]
  rw [loadBe_append (by omega), loadBe, loadBe, slice_take hend, slice, hdrop, slice]

theorem loadBe_offset {n : Nat} (hn : 8 ≤ n) (hlo : -2 ^ 63 ≤ offset) (hhi : offset < 2 ^ 63)
    (rest : Bytes) :
    loadBe 8 ((setBaseOffset blob offset).take n ++ rest) 0 = offset := by
  have hfield : slice ((setBaseOffset blob offset).take n ++ rest) 0 8 = storeBe 8 offset := by
    have hlen : (storeBe 8 offset).length = 8 := by
      rw [storeBe, length_reverse, length_storeLe]
    rw [setBaseOffset, take_append, take_of_length_le (by omega), append_assoc]
    rw [slice, drop_zero, take_left' hlen]
  rw [loadBe, hfield, storeBe, reverse_reverse, leValue_storeLe, Int.emod_bmod]
  exact Int.bmod_eq_of_le_mul_two (by norm_num at hlo ⊢; omega) (by norm_num at hhi ⊢; omega)

theorem peek_rebased {rest : Bytes} (h : peekRecordBatch blob = .ok info)
    (hlo : -2 ^ 63 ≤ offset) (hhi : offset < 2 ^ 63)
    (hrest : rest.length = blob.length - info.encodedSize) :
    peekRecordBatch ((setBaseOffset blob offset).take info.encodedSize ++ rest) =
      .ok { info with baseOffset := offset } := by
  have hsize := (lt_encodedSize h).2
  have hheader := le_encodedSize h
  simp only [kRecordBatchHeaderSize] at hheader
  have hfield : ∀ {pos w}, 8 ≤ pos → pos + w ≤ 61 → loadBe w
      ((setBaseOffset blob offset).take info.encodedSize ++ rest) pos = loadBe w blob pos :=
    fun hpos hend => loadBe_setBaseOffset hpos (Nat.le_trans hend hheader) hsize offset rest
  obtain ⟨hmin, hlength, hmagic, hcount, hinfo⟩ := peek_eq_ok_iff.mp h
  rw [peek_eq_ok_iff, @hfield 8 4 (by decide) (by decide), @hfield 16 1 (by decide) (by decide),
    @hfield 57 4 (by decide) (by decide), @hfield 23 4 (by decide) (by decide),
    loadBe_offset (by omega) hlo hhi]
  refine ⟨hmin, ?_, hmagic, hcount, by rw [hinfo]⟩
  rw [length_append, length_take, length_setBaseOffset (by omega), hrest]
  omega

theorem walk_rebaseSubbatches (h : Walk blob infos) (hlo : 0 ≤ offset)
    (hhi : offset + totalCount infos < 2 ^ 63) :
    Walk (rebaseSubbatches blob offset) (rebaseInfos offset infos) := by
  induction h generalizing offset with
  | nil =>
    rw [rebaseSubbatches, dif_pos rfl]
    exact .nil
  | @cons blob info infos hpeek hrest ih =>
    have hcount := recordCount_nonneg hpeek
    have htotal := totalCount_nonneg hrest
    have hsum : totalCount (info :: infos) = info.recordCount + totalCount infos := rfl
    have hsize := (lt_encodedSize hpeek).2
    have hheader := le_encodedSize hpeek
    simp only [kRecordBatchHeaderSize] at hheader
    have hblob : rebaseSubbatches blob offset =
        (setBaseOffset blob offset).take info.encodedSize ++
          rebaseSubbatches (blob.drop info.encodedSize) (offset + info.recordCount) := by
      rw [rebaseSubbatches, dif_neg (ne_nil_of_peek hpeek)]
      split
      · rename_i e he
        cases hpeek.symm.trans he
      · rename_i info' hinfo
        rw [← Except.ok.inj (hpeek.symm.trans hinfo)]
    have hlen : ((setBaseOffset blob offset).take info.encodedSize).length = info.encodedSize := by
      rw [length_take, length_setBaseOffset (by omega)]
      omega
    rw [hblob]
    refine .cons (peek_rebased hpeek (by omega) (by omega) ?_) ?_
    · rw [length_rebaseSubbatches, length_drop]
    · rw [drop_left' hlen]
      exact ih (by omega) (by omega)

theorem offsetRanges_of_walk {records : Bytes} (h : Walk records infos) :
    offsetRanges records =
      infos.map fun info => (info.baseOffset, info.baseOffset + info.lastOffsetDelta) := by
  induction h with
  | nil => rw [offsetRanges, dif_pos rfl, map_nil]
  | cons hpeek _ ih =>
    rw [offsetRanges, dif_neg (ne_nil_of_peek hpeek)]
    split
    · rename_i e he
      cases hpeek.symm.trans he
    · rename_i info' hinfo
      rw [← Except.ok.inj (hpeek.symm.trans hinfo), ih, map_cons]

/-! ## Ranges that do not overlap -/

/-- The ranges lie within `[start, stop)`, none is empty, and each is below the next ones. -/
structure Apart (start stop : Int) (ranges : List (Int × Int)) : Prop where
  within : ∀ r ∈ ranges, start ≤ r.1 ∧ r.1 ≤ r.2 ∧ r.2 < stop
  ordered : ranges.Pairwise fun r s => r.2 < s.1

def rangesFrom (offset : Int) (infos : List RecordBatchInfo) : List (Int × Int) :=
  (rebaseInfos offset infos).map fun info =>
    (info.baseOffset, info.baseOffset + info.lastOffsetDelta)

theorem le_of_mem_rangesFrom (h : ∀ i ∈ infos, 0 ≤ i.recordCount) {r : Int × Int}
    (hr : r ∈ rangesFrom offset infos) : offset ≤ r.1 := by
  induction infos generalizing offset with
  | nil => cases hr
  | cons info infos ih =>
    obtain ⟨hinfo, hinfos⟩ := forall_mem_cons.mp h
    rcases mem_cons.mp hr with rfl | hr
    · exact Int.le_refl offset
    · have := ih hinfos hr
      omega

/-- Batch by batch: what a batch says is what it counts. -/
theorem apart_rangesFrom_iff (h : ∀ i ∈ infos, 0 ≤ i.recordCount) (offset : Int) :
    Apart offset (offset + totalCount infos) (rangesFrom offset infos) ↔
      ∀ i ∈ infos, 0 ≤ i.lastOffsetDelta ∧ i.lastOffsetDelta < i.recordCount := by
  induction infos generalizing offset with
  | nil => exact ⟨fun _ => nofun, fun _ => ⟨nofun, .nil⟩⟩
  | cons info infos ih =>
    obtain ⟨hinfo, hinfos⟩ := forall_mem_cons.mp h
    have hsum : totalCount (info :: infos) = info.recordCount + totalCount infos := rfl
    have hranges : rangesFrom offset (info :: infos) = (offset, offset + info.lastOffsetDelta) ::
      rangesFrom (offset + info.recordCount) infos := rfl
    rw [forall_mem_cons, ← ih hinfos (offset + info.recordCount), hranges, hsum,
      ← Int.add_assoc]
    constructor
    · rintro ⟨hwithin, hordered⟩
      obtain ⟨hfirst, hrest⟩ := forall_mem_cons.mp hwithin
      obtain ⟨hbelow, hordered⟩ := pairwise_cons.mp hordered
      refine ⟨⟨by omega, ?_⟩, fun r hr => ?_, hordered⟩
      · cases infos with
        | nil =>
          have hstop : offset + info.lastOffsetDelta < offset + info.recordCount + 0 := hfirst.2.2
          omega
        | cons next infos =>
          have hnext : offset + info.lastOffsetDelta < offset + info.recordCount :=
            hbelow _ mem_cons_self
          omega
      · exact ⟨le_of_mem_rangesFrom hinfos hr, (hrest r hr).2⟩
    · rintro ⟨⟨hlo, hhi⟩, hapart⟩
      refine ⟨forall_mem_cons.mpr ⟨?_, fun r hr => ?_⟩,
        pairwise_cons.mpr ⟨fun r hr => ?_, hapart.ordered⟩⟩
      · have htotal : 0 ≤ totalCount infos := sum_nonneg (forall_mem_map.mpr hinfos)
        dsimp only
        omega
      · have := hapart.within r hr
        omega
      · have := hapart.within r hr
        dsimp only
        omega

/-! ## Produced blobs -/

/-- A blob without records is answered without a write; any other one that is accepted is appended
in its envelope. -/
theorem producePartition_ok {p p' : Partition} {io : Bool} {resp : ProducePartitionResponse}
    (h : producePartition (some p) io blob = (some p', resp))
    (hok : resp.errorCode = 0) :
    ∃ total, countRecords blob 0 = .ok total ∧
      (total = 0 ∧ p' = p ∨ total ≠ 0 ∧
        flat p'.log.segments =
          flat p.log.segments ++ [(envelope blob total).rebase p.log.logEndOffset] ∧
        p'.log.logEndOffset = p.log.logEndOffset + total) := by
  have hwire : ∀ code, (KafkaError.ofErrorCode code).toWire ≠ 0 := by
    intro code
    cases code <;> decide
  rw [producePartition] at h
  split at h
  · obtain ⟨-, rfl⟩ := Prod.mk.inj h
    exact absurd hok (hwire _)
  · rename_i total hcount
    refine ⟨total, hcount, ?_⟩
    split at h
    · rename_i hzero
      exact .inl ⟨hzero, (Option.some.inj (Prod.mk.inj h).1).symm⟩
    · rename_i hzero
      refine .inr ⟨hzero, ?_⟩
      split at h
      · obtain ⟨-, rfl⟩ := Prod.mk.inj h
        exact absurd hok (hwire _)
      · rename_i claimed hclaim
        have hlog : claimed.log = p.log := by
          rw [claimProtocol] at hclaim
          split at hclaim
          · rw [← Except.ok.inj hclaim]
            rfl
          · cases hclaim
        dsimp only at h
        split at h
        · obtain ⟨-, rfl⟩ := Prod.mk.inj h
          exact absurd hok (hwire _)
        · rename_i last hproduce
          obtain ⟨hp, -⟩ := Prod.mk.inj h
          rw [← Option.some.inj hp]
          -- a producer without an id only appends
          change (Partition.appendIo io (envelope blob total) claimed.log).2 = .ok last at hproduce
          change flat (Partition.appendIo io (envelope blob total) claimed.log).1.segments = _ ∧
            (Partition.appendIo io (envelope blob total) claimed.log).1.logEndOffset = _
          rw [Partition.appendIo, hlog] at hproduce ⊢
          split at hproduce
          · cases hproduce
          · rename_i hio
            rw [if_neg hio, Partition.append]
            rw [Partition.append] at hproduce
            split at hproduce
            · cases hproduce
            · rename_i log last' happend
              obtain ⟨hflat, hend, -⟩ := PartitionLog.append_spec happend
              exact ⟨hflat, hend⟩

theorem exists_producePartition (p : Partition) (io : Bool) (blob : Bytes) :
    ∃ resp, producePartition (some p) io blob =
      (some (serve p (.kafkaProduce io blob)), resp) := by
  rw [serve, producePartition]
  split
  · exact ⟨_, rfl⟩
  · split
    · exact ⟨_, rfl⟩
    · split
      · exact ⟨_, rfl⟩
      · dsimp only
        split
        · exact ⟨_, rfl⟩
        · exact ⟨_, rfl⟩

/-- The batches that a produce has added to the log. -/
def added (p p' : Partition) : List RecordBatch :=
  (flat p'.log.segments).drop (flat p.log.segments).length

/-- For a blob that was accepted: a consumer that fetches it finds ranges that are apart and below
the end of the log, which has moved on by the number of records, exactly if there are no records or
the counts fit in an `int32` and every batch says of its offsets what it counts. -/
theorem ranges_apart_iff {p : Partition} {io : Bool} {blob : Bytes} {infos : List RecordBatchInfo}
    (hok : (producePartition (some p) io blob).2.errorCode = 0) (hblob : Walk blob infos)
    (hlength : Raw.Partition.BlobFits blob) (hoffset : 0 ≤ p.log.logEndOffset)
    (hint64 : p.log.logEndOffset + totalCount infos < 2 ^ 63) :
    Apart p.log.logEndOffset (serve p (.kafkaProduce io blob)).log.logEndOffset
          (offsetRanges (rebuildKafkaRecords
            (Raw.encodeAll (added p (serve p (.kafkaProduce io blob)))))) ∧
        (serve p (.kafkaProduce io blob)).log.logEndOffset =
          p.log.logEndOffset + totalCount infos ↔
      totalCount infos = 0 ∨ totalCount infos < 2 ^ 31 ∧
        ∀ i ∈ infos, 0 ≤ i.lastOffsetDelta ∧ i.lastOffsetDelta < i.recordCount := by
  obtain ⟨resp, h⟩ := exists_producePartition p io blob
  rw [h] at hok
  generalize serve p (.kafkaProduce io blob) = p' at h ⊢
  obtain ⟨total, hcount, hcases⟩ := producePartition_ok h hok
  have htotal : total = Int.bmod (totalCount infos) (2 ^ 32) := by
    have hwalk := (@countRecords_eq_ok_iff blob 0 _ rfl).mpr ⟨infos, hblob, rfl⟩
    rw [hwalk, Int.zero_add] at hcount
    exact (Except.ok.inj hcount).symm
  have hnonneg := totalCount_nonneg hblob
  have hsmall : totalCount infos < 2 ^ 31 → total = totalCount infos := fun hlt => by
    rw [htotal]
    exact Int.bmod_eq_of_le_mul_two (by omega) (by omega)
  rcases hcases with ⟨hzero, rfl⟩ | ⟨hzero, hflat, hend⟩
  · have hadded : added p' p' = [] := List.drop_length
    rw [hadded, Raw.encodeAll_nil, rebuildKafkaRecords_nil, offsetRanges, dif_pos rfl]
    constructor
    · rintro ⟨-, hmoved⟩
      exact .inl (by omega)
    · intro hcond
      refine ⟨⟨nofun, .nil⟩, ?_⟩
      rcases hcond with hno | ⟨hlt, -⟩
      · omega
      · have := hsmall hlt
        omega
  · have hne : totalCount infos ≠ 0 := by
      intro hno
      rw [htotal, hno] at hzero
      exact hzero rfl
    by_cases hlt : totalCount infos < 2 ^ 31
    · have hadded : added p p' = [(envelope blob total).rebase p.log.logEndOffset] := by
        rw [added, hflat, List.drop_left]
      have hfits := (Raw.Partition.fits_envelope hlength (hsmall hlt ▸ hnonneg)
        (hsmall hlt ▸ hlt)).rebase (o := p.log.logEndOffset) (by omega)
      have hranges : offsetRanges (rebuildKafkaRecords (Raw.encodeAll (added p p'))) =
          rangesFrom p.log.logEndOffset infos := by
        rw [hadded, Raw.encodeAll_cons, rebuildKafkaRecords_cons hfits, Raw.encodeAll_nil,
          rebuildKafkaRecords_nil, List.append_nil]
        exact offsetRanges_of_walk (walk_rebaseSubbatches hblob hoffset hint64)
      rw [hranges, hend, hsmall hlt, apart_rangesFrom_iff (recordCount_nonneg_of_walk hblob)]
      exact ⟨fun h => .inr ⟨hlt, h.1⟩, fun h => ⟨(h.resolve_left hne).2, rfl⟩⟩
    · refine ⟨fun h => ?_, fun h => absurd (h.resolve_left hne).1 hlt⟩
      have hbound : total < 2 ^ 31 := htotal ▸ Int.bmod_lt (by decide)
      have hmoved := h.2
      omega

/-- A v2 batch without record bytes. -/
def emptyBatch (lastOffsetDelta recordCount : Int) : Bytes :=
  storeBe 8 0 ++ storeBe 4 49 ++ List.replicate 4 0 ++ [2] ++ List.replicate 6 0 ++
    storeBe 4 lastOffsetDelta ++ List.replicate 30 0 ++ storeBe 4 recordCount

def newPartition : Partition := { log := .create {} }

theorem ranges_apart_two :
    Apart 0 (serve newPartition (.kafkaProduce false (emptyBatch 1 2))).log.logEndOffset
        (offsetRanges (rebuildKafkaRecords (Raw.encodeAll
          (added newPartition (serve newPartition (.kafkaProduce false (emptyBatch 1 2))))))) ∧
      (serve newPartition (.kafkaProduce false (emptyBatch 1 2))).log.logEndOffset = 2 := by
  have hblob : Walk (emptyBatch 1 2) [⟨0, 2, 1, 61⟩] :=
    .cons (by decide +kernel) (by
      rw [show (emptyBatch 1 2).drop 61 = [] by decide +kernel]
      exact .nil)
  have hok : (producePartition (some newPartition) false (emptyBatch 1 2)).2.errorCode = 0 := by
    decide +kernel
  exact (ranges_apart_iff hok hblob (by decide +kernel) (by decide) (by decide)).mpr
    (.inr (by decide))

/-- A batch of one record that claims the offsets 0 to 5, and two batches whose counts sum to
`2 ^ 32 - 2`, are accepted; the former leaves the end of the log at 1, the latter at -2. -/
theorem ranges_overlap :
    (producePartition (some newPartition) false (emptyBatch 5 1)).2.errorCode = 0 ∧
      offsetRanges (rebuildKafkaRecords (Raw.encodeAll
        (added newPartition (serve newPartition (.kafkaProduce false (emptyBatch 5 1)))))) =
          [(0, 5)] ∧
      (serve newPartition (.kafkaProduce false (emptyBatch 5 1))).log.logEndOffset = 1 ∧
      (producePartition (some newPartition) false
        (emptyBatch 2147483646 2147483647 ++ emptyBatch 2147483646 2147483647)).2.errorCode = 0 ∧
      (serve newPartition (.kafkaProduce false (emptyBatch 2147483646 2147483647 ++
        emptyBatch 2147483646 2147483647))).log.logEndOffset = -2 := by
  decide +kernel

end Nexus.Kafka
