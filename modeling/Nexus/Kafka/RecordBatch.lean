import Nexus.Storage.SegmentBlocks

/-!
# Kafka batches in the log

`kafka/record_batch.cpp` and the loops of `server/kafka_adapter.cpp` over the batches of a blob. The
broker keeps a Kafka blob as the records of one of its own batches: it counts the records when it
writes the blob (`countRecords`), and when it reads it, it gives every v2 batch of the blob its
offset (`rebaseSubbatches`, `rebuildKafkaRecords`).

* `countRecords_blob`, `rebaseSubbatches_blob`: what the two loops do on a concatenation of batches.
* `rebuildKafkaRecords_append`: what is rebuilt from the broker's batches, one after another.
-/

namespace Nexus.Kafka

open Lib List

/-- Bytes of `baseOffset` and `batchLength`. -/
def kBatchPrefixSize : Nat := 12

def kRecordBatchHeaderSize : Nat := 61

def kMinBatchLength : Int := (kRecordBatchHeaderSize - kBatchPrefixSize : Nat)

def kRecordBatchMagicV2 : Int := 2

structure RecordBatchInfo where
  baseOffset : Int
  recordCount : Int
  lastOffsetDelta : Int
  encodedSize : Nat
  deriving DecidableEq

/-- After the check of `encoded_size` every field is there. -/
def peekRecordBatch (batch : Bytes) : Expected RecordBatchInfo :=
  if batch.length < kBatchPrefixSize then
    makeError .invalidArgument "decode Kafka fuera de límites"
  else
    let batchLength := loadBe 4 batch 8
    if batchLength < kMinBatchLength then
      makeError .corrupt "RecordBatch: batchLength menor que la cabecera fija"
    else
      let encodedSize := kBatchPrefixSize + batchLength.toNat
      if encodedSize > batch.length then
        makeError .corrupt "RecordBatch: truncado (batchLength excede los bytes)"
      else if loadBe 1 batch 16 ≠ kRecordBatchMagicV2 then
        makeError .corrupt "RecordBatch: magic no es v2"
      else
        let recordCount := loadBe 4 batch 57
        if recordCount < 0 then makeError .corrupt "RecordBatch: recordCount negativo"
        else .ok { baseOffset := loadBe 8 batch 0, recordCount,
                   lastOffsetDelta := loadBe 4 batch 23, encodedSize }

def setBaseOffset (batch : Bytes) (baseOffset : Int) : Bytes := storeBe 8 baseOffset ++ batch.drop 8

theorem lt_encodedSize {batch : Bytes} {info : RecordBatchInfo}
    (h : peekRecordBatch batch = .ok info) :
    0 < info.encodedSize ∧ info.encodedSize ≤ batch.length := by
  unfold peekRecordBatch at h
  generalize loadBe = load at h
  dsimp only at h
  repeat' split at h
  all_goals cases h
  simp only [kBatchPrefixSize] at *
  omega

/-! ## Blobs -/

/-- `count_records`, with the total so far. -/
def countRecords (blob : Bytes) (total : Int) : Expected Int :=
  if _hne : blob = [] then .ok total
  else
    match _h : peekRecordBatch blob with
    | .error e => .error e
    | .ok info =>
      -- `total` is an `int32`
      countRecords (blob.drop info.encodedSize) (Int.bmod (total + info.recordCount) (2 ^ 32))
termination_by blob.length
decreasing_by
  have := lt_encodedSize _h
  rw [List.length_drop]
  omega

/-- `rebase_subbatches`: the loop stops at what is not a batch. -/
def rebaseSubbatches (blob : Bytes) (offset : Int) : Bytes :=
  if _hne : blob = [] then []
  else
    match _h : peekRecordBatch blob with
    | .error _ => blob
    | .ok info =>
      (setBaseOffset blob offset).take info.encodedSize ++
        rebaseSubbatches (blob.drop info.encodedSize) (offset + info.recordCount)
termination_by blob.length
decreasing_by
  have := lt_encodedSize _h
  rw [List.length_drop]
  omega

/-- `rebuild_kafka_records`: the blobs of the batches of the broker, with their offsets. -/
def rebuildKafkaRecords (batches : Bytes) : Bytes :=
  if batches.length < RecordBatch.kHeaderSize then []
  else
    match RecordBatch.peek batches with
    | .error _ => []
    | .ok view =>
      if _h : view.encodedSize < RecordBatch.kHeaderSize ∨ batches.length < view.encodedSize then []
      else
        rebaseSubbatches (slice batches RecordBatch.kHeaderSize
            (view.encodedSize - RecordBatch.kHeaderSize)) view.baseOffset ++
          rebuildKafkaRecords (batches.drop view.encodedSize)
termination_by batches.length
decreasing_by
  simp only [RecordBatch.kHeaderSize] at *
  rw [List.length_drop]
  omega

/-! ## Concatenations of batches -/

/-- A whole v2 batch with records. -/
structure V2Batch where
  bytes : Bytes
  header : kRecordBatchHeaderSize ≤ bytes.length
  batchLength : loadBe 4 bytes 8 = ((bytes.length - kBatchPrefixSize : Nat) : Int)
  magic : loadBe 1 bytes 16 = kRecordBatchMagicV2
  recordCount_pos : 0 < loadBe 4 bytes 57

namespace V2Batch

def recordCount (b : V2Batch) : Int := loadBe 4 b.bytes 57

/-- The batch, but for its field `baseOffset`. -/
def rebased (b : V2Batch) (offset : Int) : Bytes := storeBe 8 offset ++ b.bytes.drop 8

def info (b : V2Batch) : RecordBatchInfo where
  baseOffset := loadBe 8 b.bytes 0
  recordCount := b.recordCount
  lastOffsetDelta := loadBe 4 b.bytes 23
  encodedSize := b.bytes.length

theorem peek (b : V2Batch) (rest : Bytes) :
    peekRecordBatch (b.bytes ++ rest) = .ok b.info := by
  have hlen := b.header
  simp only [kRecordBatchHeaderSize] at hlen
  have hmin : ¬ ((b.bytes.length - kBatchPrefixSize : Nat) : Int) < kMinBatchLength := by
    simp only [kBatchPrefixSize, kMinBatchLength, kRecordBatchHeaderSize]
    omega
  have hsize : kBatchPrefixSize + ((b.bytes.length - kBatchPrefixSize : Nat) : Int).toNat =
      b.bytes.length := by
    simp only [kBatchPrefixSize]
    omega
  have hcount : ¬ loadBe 4 b.bytes 57 < 0 := Int.not_lt.mpr (Int.le_of_lt b.recordCount_pos)
  unfold peekRecordBatch
  rw [loadBe_append (by omega), loadBe_append (by omega), loadBe_append (by omega),
    loadBe_append (by omega), loadBe_append (by omega), b.batchLength, length_append]
  dsimp only
  rw [if_neg (by simp only [kBatchPrefixSize]; omega), if_neg hmin, hsize, if_neg (by omega),
    if_neg (fun h => h b.magic), if_neg hcount]
  rfl

theorem bytes_ne_nil (b : V2Batch) : b.bytes ≠ [] := by
  rw [← length_pos_iff]
  exact Nat.lt_of_lt_of_le (by decide) b.header

theorem length_rebased (b : V2Batch) (offset : Int) :
    (b.rebased offset).length = b.bytes.length := by
  have hlen := b.header
  simp only [kRecordBatchHeaderSize] at hlen
  simp only [rebased, storeBe, length_append, length_reverse, length_storeLe,
    length_drop]
  omega

end V2Batch

def blobOf (batches : List V2Batch) : Bytes := batches.flatMap V2Batch.bytes

def totalRecords : List V2Batch → Int
  | [] => 0
  | b :: bs => b.recordCount + totalRecords bs

/-- The batches one after another, the first of them at `offset`. -/
def rebasedFrom (offset : Int) : List V2Batch → Bytes
  | [] => []
  | b :: bs => b.rebased offset ++ rebasedFrom (offset + b.recordCount) bs

theorem totalRecords_nonneg (batches : List V2Batch) : 0 ≤ totalRecords batches := by
  induction batches with
  | nil => exact Int.le_refl 0
  | cons b bs ih => exact Int.add_nonneg (Int.le_of_lt b.recordCount_pos) ih

theorem rebasedFrom_append (offset : Int) (bs cs : List V2Batch) :
    rebasedFrom offset (bs ++ cs) =
      rebasedFrom offset bs ++ rebasedFrom (offset + totalRecords bs) cs := by
  induction bs generalizing offset with
  | nil => rw [nil_append, totalRecords, Int.add_zero, rebasedFrom, nil_append]
  | cons b bs ih =>
    rw [cons_append, rebasedFrom, ih, rebasedFrom, totalRecords, append_assoc,
      Int.add_assoc]

/-- The first step of a loop over a blob. -/
theorem peek_blob (b : V2Batch) (bs : List V2Batch) :
    blobOf (b :: bs) ≠ [] ∧ peekRecordBatch (blobOf (b :: bs)) = .ok b.info := by
  have hblob : blobOf (b :: bs) = b.bytes ++ blobOf bs := flatMap_cons
  rw [hblob]
  exact ⟨append_ne_nil_of_left_ne_nil b.bytes_ne_nil _, b.peek (blobOf bs)⟩

/-- The count of a blob, while it fits in an `int32`. -/
theorem countRecords_blob (batches : List V2Batch) {total : Int} (hnonneg : 0 ≤ total)
    (hle : total + totalRecords batches < 2 ^ 31) :
    countRecords (blobOf batches) total = .ok (total + totalRecords batches) := by
  induction batches generalizing total with
  | nil => rw [blobOf, flatMap_nil, countRecords, dif_pos rfl, totalRecords, Int.add_zero]
  | cons b bs ih =>
    have hpos : 0 < b.recordCount := b.recordCount_pos
    have hrest := totalRecords_nonneg bs
    rw [totalRecords] at hle ⊢
    have hwrap : Int.bmod (total + b.recordCount) (2 ^ 32) = total + b.recordCount :=
      Int.bmod_eq_of_le_mul_two (by norm_num; omega) (by norm_num; norm_num at hle; omega)
    obtain ⟨hne, hpeek⟩ := peek_blob b bs
    rw [countRecords, dif_neg hne]
    split
    · rename_i e he
      rw [hpeek] at he
      exact nomatch he
    · rename_i info' hinfo
      rw [hpeek] at hinfo
      rw [← Except.ok.inj hinfo, V2Batch.info, hwrap, blobOf, flatMap_cons, drop_left,
        ← Int.add_assoc]
      exact ih (by omega) (by omega)

/-- Every batch of a blob gets its offset. -/
theorem rebaseSubbatches_blob (batches : List V2Batch) (offset : Int) :
    rebaseSubbatches (blobOf batches) offset = rebasedFrom offset batches := by
  induction batches generalizing offset with
  | nil => rw [blobOf, flatMap_nil, rebaseSubbatches, dif_pos rfl, rebasedFrom]
  | cons b bs ih =>
    obtain ⟨hne, hpeek⟩ := peek_blob b bs
    have hset : setBaseOffset (blobOf (b :: bs)) offset = b.rebased offset ++ blobOf bs := by
      have hlen := b.header
      simp only [kRecordBatchHeaderSize] at hlen
      rw [blobOf, flatMap_cons, setBaseOffset, V2Batch.rebased,
        drop_append_of_le_length (by omega), append_assoc, blobOf]
    rw [rebaseSubbatches, dif_neg hne]
    split
    · rename_i e he
      rw [hpeek] at he
      exact nomatch he
    · rename_i info' hinfo
      rw [hpeek] at hinfo
      rw [← Except.ok.inj hinfo, V2Batch.info, hset, take_left' (b.length_rebased offset),
        blobOf, flatMap_cons, drop_left, rebasedFrom, ← ih, blobOf]

/-- The blob of one batch of the broker, and then those of the others. -/
theorem rebuildKafkaRecords_cons {b : RecordBatch} (h : b.Fits) (rest : Bytes) :
    rebuildKafkaRecords (b.encode ++ rest) =
      rebaseSubbatches b.records b.baseOffset ++ rebuildKafkaRecords rest := by
  have hlen : (b.encode ++ rest).length = b.encodedSize + rest.length := by
    rw [length_append, RecordBatch.length_encode]
  have hsize : b.encodedSize = RecordBatch.kHeaderSize + b.records.length := rfl
  rw [rebuildKafkaRecords, if_neg (by omega), RecordBatch.peek_whole rest h]
  dsimp only
  rw [dif_neg (by omega), RecordBatch.slice_records,
    drop_left' (RecordBatch.length_encode b)]

theorem rebuildKafkaRecords_nil : rebuildKafkaRecords [] = [] := by
  rw [rebuildKafkaRecords, if_pos (by decide)]

theorem rebuildKafkaRecords_append {bs : List RecordBatch} (h : ∀ b ∈ bs, b.Fits) (rest : Bytes) :
    rebuildKafkaRecords (Raw.encodeAll bs ++ rest) =
      rebuildKafkaRecords (Raw.encodeAll bs) ++ rebuildKafkaRecords rest := by
  induction bs with
  | nil => rw [Raw.encodeAll_nil, rebuildKafkaRecords_nil, nil_append, nil_append]
  | cons b bs ih =>
    have hb := h b mem_cons_self
    rw [Raw.encodeAll_cons, append_assoc, rebuildKafkaRecords_cons hb,
      ih fun b hb => h b (mem_cons_of_mem _ hb), rebuildKafkaRecords_cons hb,
      append_assoc]

end Nexus.Kafka
