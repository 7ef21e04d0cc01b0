import Nexus.Broker.PartitionBase
import Nexus.Storage.LogRuns

/-!
# A local partition over its files

`broker/partition.cpp` over the bytes of the log, and what a Kafka client reads back of what Kafka
clients wrote to it.

* `Raw.Partition`: the local partition; its handlers are those of every partition.
* `Carries`: the log is made of the envelopes of the blobs that were produced.
* `fetchPartition_produced`: the whole log gives back the batches of all blobs, each with its
  offset, while no segment passes the limits of its index.
-/

namespace Nexus.Raw

open Lib PartitionBase Kafka List

structure Partition where
  log : PartitionLog
  producers : Producers := fun _ => none
  protocol : WireProtocol := .unset

namespace Partition

variable {p : Partition} {bs : List RecordBatch} {blobs : List (List V2Batch)} {log : PartitionLog}
  {random : Random} {last : Int}

def append (random : Random) (batch : RecordBatch) (log : PartitionLog) :
    PartitionLog × Expected Int :=
  match log.append batch random with
  | .error e => (log, .error e)
  | .ok (log, last) => (log, .ok last)

def produce (p : Partition) (random : Random) (batch : RecordBatch) : Partition × Expected Int :=
  let out := p.producers.produce (append random batch) (·.logEndOffset) p.log batch
  ({ p with log := out.1.1, producers := out.1.2 }, out.2)

instance : PartitionBase Partition Random where
  protocol := Partition.protocol
  setProtocol p proto := { p with protocol := proto }
  produce := Partition.produce
  fetch p offset maxBytes := p.log.read offset maxBytes
  highWatermark p := p.log.logEndOffset
  logStartOffset p := p.log.logStartOffset
  logEndOffset p := p.log.logEndOffset

/-- A producer that is not idempotent only appends. -/
theorem produce_of_neg {batch : RecordBatch} (h : batch.header.producerId < 0)
    (happend : p.log.append batch random = .ok (log, last)) :
    p.produce random batch = ({ p with log }, .ok last) := by
  have hverdict : p.producers.verdict batch = none := if_pos h
  have hlog : append random batch p.log = (log, .ok last) := by
    unfold append
    rw [happend]
  simp only [produce, Producers.produce, hverdict, hlog]

/-- One Kafka produce: what the disk does, and the batches of the blob. -/
def kafkaProduce (p : Partition) (x : Random × List V2Batch) : Partition :=
  serve p (.kafkaProduce x.1 (blobOf x.2))

/-- The blob and the header of its envelope have a length that fits in its field. -/
def BlobFits (blob : Bytes) : Prop := blob.length + 24 < 2 ^ 31

instance : DecidablePred BlobFits := fun blob =>
  inferInstanceAs (Decidable (blob.length + 24 < 2 ^ 31))

theorem fits_envelope {blob : Bytes} {total : Int} (hblob : BlobFits blob) (hlo : 0 ≤ total)
    (hhi : total < 2 ^ 31) : (envelope blob total).Fits := by
  unfold BlobFits at hblob
  refine ⟨(by decide : -2 ^ 63 ≤ (0 : Int) ∧ (0 : Int) < 2 ^ 63),
    (by decide : -2 ^ 63 ≤ (-1 : Int) ∧ (-1 : Int) < 2 ^ 63),
    (by decide : -2 ^ 15 ≤ (-1 : Int) ∧ (-1 : Int) < 2 ^ 15),
    (by decide : -2 ^ 31 ≤ (-1 : Int) ∧ (-1 : Int) < 2 ^ 31), ⟨?_, hhi⟩, ?_⟩
  · exact Int.le_trans (by decide) hlo
  · rw [RecordBatch.lengthField_eq]
    change (24 : Int) + (blob.length : Int) < 2 ^ 31
    norm_num at hblob ⊢
    omega

/-- Bytes that a blob takes in the log; a blob without batches is not written. -/
def storedBytes (bs : List V2Batch) : Nat :=
  if bs = [] then 0 else RecordBatch.kHeaderSize + (blobOf bs).length

/-- The log is made of the blobs, the first batch of them at offset 0. -/
structure Carries (p : Partition) (blobs : List (List V2Batch)) (bs : List RecordBatch) : Prop where
  holds : p.log.Holds bs
  logStart : p.log.logStartOffset = 0
  fits : ∀ b ∈ bs, b.Fits
  rebuilt : Kafka.rebuildKafkaRecords (encodeAll bs) = rebasedFrom 0 blobs.flatten
  logEnd : p.log.logEndOffset = totalRecords blobs.flatten
  size : blockBytes bs = (blobs.map storedBytes).sum
  owner : p.protocol = .unset ∨ p.protocol = .kafka

theorem totalRecords_append (bs cs : List V2Batch) :
    totalRecords (bs ++ cs) = totalRecords bs + totalRecords cs := by
  induction bs with
  | nil => rw [nil_append, totalRecords, Int.zero_add]
  | cons b bs ih => rw [cons_append, totalRecords, totalRecords, ih, Int.add_assoc]

theorem totalRecords_pos {bs : List V2Batch} (h : bs ≠ []) : 0 < totalRecords bs := by
  cases bs with
  | nil => exact absurd rfl h
  | cons b bs => exact Int.add_pos_of_pos_of_nonneg b.recordCount_pos (totalRecords_nonneg bs)

/-- A blob without batches is answered without a write. -/
theorem kafkaProduce_nil (p : Partition) (random : Random) : p.kafkaProduce (random, []) = p := by
  have hcount : countRecords (blobOf []) 0 = .ok 0 := by
    rw [countRecords_blob [] (Int.le_refl 0) (by decide)]
    rfl
  unfold kafkaProduce serve producePartition
  dsimp only
  rw [hcount]
  rfl

/-- A blob with batches is written in its envelope. -/
theorem kafkaProduce_cons (howner : p.protocol = .unset ∨ p.protocol = .kafka)
    {bs : List V2Batch} (hne : bs ≠ []) (hsum : totalRecords bs < 2 ^ 31)
    (happend : p.log.append (envelope (blobOf bs) (totalRecords bs)) random = .ok (log, last)) :
    p.kafkaProduce (random, bs) = { p with log, protocol := .kafka } := by
  have hcount : countRecords (blobOf bs) 0 = .ok (totalRecords bs) := by
    rw [countRecords_blob bs (Int.le_refl 0) (by rw [Int.zero_add]; exact hsum), Int.zero_add]
  have hclaim : claimProtocol p .kafka = .ok { p with protocol := .kafka } := if_pos howner
  have hproduce : PartitionBase.produce ({ p with protocol := .kafka } : Partition) random
      (envelope (blobOf bs) (totalRecords bs)) = ({ p with log, protocol := .kafka }, .ok last) :=
    produce_of_neg (p := { p with protocol := .kafka }) (Int.negSucc_lt_zero 0) happend
  have hpos := totalRecords_pos hne
  unfold kafkaProduce serve producePartition
  dsimp only
  rw [hcount]
  dsimp only
  rw [if_neg (by omega), hclaim]
  dsimp only
  rw [hproduce]
  rfl

theorem Carries.kafkaProduce (h : p.Carries blobs bs) {x : Random × List V2Batch}
    (hsum : totalRecords x.2 < 2 ^ 31) (hblob : BlobFits (blobOf x.2))
    (hsmall : (p.kafkaProduce x).log.Small) :
    ∃ bs', (p.kafkaProduce x).Carries (blobs ++ [x.2]) bs' := by
  obtain ⟨random, cs⟩ := x
  dsimp only at hsum hblob ⊢
  by_cases hne : cs = []
  · subst hne
    rw [kafkaProduce_nil]
    refine ⟨bs, h.holds, h.logStart, h.fits, ?_, ?_, ?_, h.owner⟩
    · rw [h.rebuilt, flatten_concat, append_nil]
    · rw [h.logEnd, flatten_concat, append_nil]
    · rw [h.size, map_append, sum_append]
      rfl
  · have hpos := totalRecords_pos hne
    have hfits := fits_envelope hblob (Int.le_of_lt hpos) hsum
    obtain ⟨log, happend, hstart, -, hholds⟩ :=
      h.holds.append (Int.lt_trans h.holds.bound (by decide)) hfits hpos random
    have hlog := kafkaProduce_cons h.owner hne hsum happend
    rw [hlog] at hsmall ⊢
    have hend : 0 ≤ p.log.logEndOffset := by
      rw [h.logEnd]
      exact totalRecords_nonneg _
    have hfits' := hfits.rebase (o := p.log.logEndOffset) (by
      have := h.holds.bound
      norm_num at this ⊢
      omega)
    have hnew : log.Holds _ := ⟨hholds hsmall.narrow, hsmall.2.2⟩
    refine ⟨_, hnew, hstart.trans h.logStart, ?_, ?_, ?_, ?_, .inr rfl⟩
    · intro b hb
      rcases mem_append.mp hb with hb | hb
      · exact h.fits b hb
      · rw [mem_singleton.mp hb]
        exact hfits'
    · rw [encodeAll_append, rebuildKafkaRecords_append h.fits, h.rebuilt, encodeAll_cons,
        rebuildKafkaRecords_cons hfits', encodeAll_nil, rebuildKafkaRecords_nil, append_nil,
        flatten_concat, rebasedFrom_append, Int.zero_add, ← h.logEnd]
      exact congrArg (rebasedFrom 0 blobs.flatten ++ ·)
        (rebaseSubbatches_blob cs p.log.logEndOffset)
    · change log.logEndOffset = _
      rw [hnew.logEnd, hstart, endOf_append, ← h.holds.logEnd, flatten_concat,
        totalRecords_append, ← h.logEnd]
      change p.log.logEndOffset + totalRecords cs - 1 + 1 = _
      omega
    · rw [map_append, sum_append, ← h.size, blockBytes_append, map_singleton,
        sum_singleton, storedBytes, if_neg hne]
      rfl

/-- What a Kafka produce must keep: the envelope has a length, and the log stays within the limits
of its indexes. -/
def InLimits (p : Partition) (x : Random × List V2Batch) : Prop :=
  BlobFits (blobOf x.2) ∧ (p.kafkaProduce x).log.Small

instance (p : Partition) (x : Random × List V2Batch) : Decidable (p.InLimits x) :=
  inferInstanceAs (Decidable (_ ∧ _))

theorem Carries.run (h : p.Carries blobs bs) {produces : List (Random × List V2Batch)}
    (hsum : ∀ x ∈ produces, totalRecords x.2 < 2 ^ 31)
    (hlimits : Along Partition.kafkaProduce InLimits p produces) :
    ∃ bs', (Lib.run Partition.kafkaProduce p produces).Carries
      (blobs ++ produces.map Prod.snd) bs' := by
  induction produces generalizing p blobs bs with
  | nil =>
    rw [map_nil, append_nil]
    exact ⟨bs, h⟩
  | cons x produces ih =>
    obtain ⟨hx, hrest⟩ := hlimits
    obtain ⟨bs', h'⟩ := h.kafkaProduce (hsum x mem_cons_self) hx.1 hx.2
    rw [map_cons, append_cons]
    exact ih h' (fun y hy => hsum y (mem_cons_of_mem _ hy)) hrest

/-- A fetch from the start that has room for the whole log. -/
theorem Carries.fetch (h : p.Carries blobs bs) {maxBytes : Int}
    (hcovers : (blobs.map storedBytes).sum ≤ fetchLimit maxBytes) :
    PartitionBase.fetchPartition (some p) { fetchOffset := 0, partitionMaxBytes := maxBytes } =
      { highWatermark := totalRecords blobs.flatten
        lastStableOffset := totalRecords blobs.flatten
        records := rebasedFrom 0 blobs.flatten } := by
  have hchain := h.holds.chain
  rw [h.logStart] at hchain
  have hread : PartitionBase.fetch p 0 (fetchLimit maxBytes) =
      .ok { batches := encodeAll bs, nextOffset := endOf 0 bs } := by
    have hall : bs.dropWhile (below 0) = bs := @Chain.dropWhile_below 0 [] bs hchain
    have hread := h.holds.read (Int.le_of_eq h.logStart) (fetchLimit maxBytes)
    rw [hall, takeRun_of_le (h.size ▸ hcovers)] at hread
    exact hread
  have howner : ¬ (PartitionBase.protocol p ≠ .unset ∧ PartitionBase.protocol p ≠ .kafka) := by
    rintro ⟨hunset, hkafka⟩
    exact h.owner.elim hunset hkafka
  unfold PartitionBase.fetchPartition
  dsimp only
  rw [if_neg howner, hread]
  dsimp only
  rw [h.rebuilt]
  change (⟨_, p.log.logEndOffset, p.log.logEndOffset, p.log.logStartOffset, _⟩ :
    PartitionBase.FetchPartitionResponse) = _
  rw [h.logEnd, h.logStart]

/-- All that Kafka clients wrote to a new partition comes back: the same batches, each with the
number of records before it as its `baseOffset`. -/
theorem fetchPartition_produced {cfg : LogConfig} {salt : Salt} {log : PartitionLog}
    (hopen : PartitionLog.openDirectory cfg {} salt = .ok log)
    {produces : List (Random × List V2Batch)}
    (hsum : ∀ x ∈ produces, totalRecords x.2 ≤ 2 ^ 31 - 1)
    (hlimits : Along Partition.kafkaProduce InLimits { log } produces) {maxBytes : Int}
    (hcovers : (produces.map fun x => storedBytes x.2).sum ≤ fetchLimit maxBytes) :
    PartitionBase.fetchPartition (some (Lib.run Partition.kafkaProduce { log } produces))
        { fetchOffset := 0, partitionMaxBytes := maxBytes } =
      { highWatermark := totalRecords (produces.map Prod.snd).flatten
        lastStableOffset := totalRecords (produces.map Prod.snd).flatten
        records := rebasedFrom 0 (produces.map Prod.snd).flatten } := by
  obtain ⟨log', hopen', hholds, hstart, -⟩ := PartitionLog.holds_openDirectory_nil cfg salt
  obtain rfl := Except.ok.inj (hopen.symm.trans hopen')
  have hnew : ({ log } : Partition).Carries [] [] := by
    refine ⟨hholds, hstart, nofun, rebuildKafkaRecords_nil, ?_, rfl, .inl rfl⟩
    exact hholds.logEnd.trans hstart
  obtain ⟨bs, h⟩ := hnew.run (fun x hx => Int.lt_of_le_sub_one (hsum x hx)) hlimits
  rw [List.nil_append] at h
  exact h.fetch (by rw [List.map_map]; exact hcovers)

/-! ### Where the index wraps -/

/-- A v2 batch with the count, and as many bytes of records. -/
def v2Bytes (count : Int) (records : Nat) : Bytes :=
  storeBe 8 0 ++ storeBe 4 (49 + records) ++ List.replicate 4 0 ++ [2] ++ List.replicate 6 0 ++
    storeBe 4 (count - 1) ++ List.replicate 30 0 ++ storeBe 4 count ++ List.replicate records 0

def oneRecord : V2Batch where
  bytes := v2Bytes 1 0
  header := by decide +kernel
  batchLength := by decide +kernel
  magic := by decide +kernel
  recordCount_pos := by decide +kernel

def longBatch : V2Batch where
  bytes := v2Bytes 2 4000
  header := by decide +kernel
  batchLength := by decide +kernel
  magic := by decide +kernel
  recordCount_pos := by decide +kernel

def mostRecords : V2Batch where
  bytes := v2Bytes (2 ^ 31 - 1) 0
  header := by decide +kernel
  batchLength := by decide +kernel
  magic := by decide +kernel
  recordCount_pos := by decide +kernel

theorem fetchPartition_produced_two :
    ∃ log, PartitionLog.openDirectory {} {} noRandom.salt = .ok log ∧
      PartitionBase.fetchPartition (some (Lib.run Partition.kafkaProduce { log }
          [(noRandom, [oneRecord, oneRecord]), (noRandom, []), (noRandom, [oneRecord])]))
          { fetchOffset := 0, partitionMaxBytes := 1000 } =
        { highWatermark := totalRecords [oneRecord, oneRecord, oneRecord]
          lastStableOffset := totalRecords [oneRecord, oneRecord, oneRecord]
          records := rebasedFrom 0 [oneRecord, oneRecord, oneRecord] } := by
  have hlimits : (PartitionLog.openDirectory {} {} noRandom.salt).toOption.map (fun log =>
      decide (Along Partition.kafkaProduce InLimits { log }
        [(noRandom, [oneRecord, oneRecord]), (noRandom, []), (noRandom, [oneRecord])])) =
      some true := by
    decide +kernel
  obtain ⟨log, hopen, -⟩ := PartitionLog.holds_openDirectory_nil {} noRandom.salt
  rw [hopen] at hlimits
  refine ⟨log, hopen, ?_⟩
  exact fetchPartition_produced hopen (by decide +kernel)
    (of_decide_eq_true (Option.some.inj hlimits)) (by decide +kernel)

/-- The last of these batches is at the offset `2 ^ 32` of its segment, and it is the first one that
gets an entry in the index. -/
def wrapping : List (Random × List V2Batch) :=
  [(noRandom, [mostRecords]), (noRandom, [mostRecords]), (noRandom, [longBatch]),
    (noRandom, [oneRecord])]

/-- All four are accepted, and only the last one comes back. -/
theorem fetchPartition_wrapping :
    (∀ x ∈ wrapping, totalRecords x.2 ≤ 2 ^ 31 - 1) ∧
    (wrapping.map fun x => storedBytes x.2).sum ≤ fetchLimit 0 ∧
    ∃ log, PartitionLog.openDirectory {} {} noRandom.salt = .ok log ∧
      Along Partition.kafkaProduce
        (fun p x => (producePartition (some p) x.1 (blobOf x.2)).2.errorCode = 0)
        { log } wrapping ∧
      (PartitionBase.fetchPartition (some (Lib.run Partition.kafkaProduce { log } wrapping))
        { fetchOffset := 0, partitionMaxBytes := 0 }).records = oneRecord.rebased (2 ^ 32) ∧
      oneRecord.rebased (2 ^ 32) ≠ rebasedFrom 0 (wrapping.map Prod.snd).flatten := by
  have hlog : (PartitionLog.openDirectory {} {} noRandom.salt).toOption.map (fun log =>
      decide (Along Partition.kafkaProduce
        (fun p x => (producePartition (some p) x.1 (blobOf x.2)).2.errorCode = 0)
        { log } wrapping ∧
      (PartitionBase.fetchPartition (some (Lib.run Partition.kafkaProduce { log } wrapping))
        { fetchOffset := 0, partitionMaxBytes := 0 }).records = oneRecord.rebased (2 ^ 32))) =
      some true := by
    decide +kernel
  obtain ⟨log, hopen, -⟩ := PartitionLog.holds_openDirectory_nil {} noRandom.salt
  rw [hopen] at hlog
  obtain ⟨haccepted, hrecords⟩ := of_decide_eq_true (Option.some.inj hlog)
  exact ⟨by decide +kernel, by decide +kernel, log, hopen, haccepted, hrecords, by decide +kernel⟩

end Partition

end Nexus.Raw
