import Nexus.Consensus.RaftNode

/-!
# Partitions of the broker

`broker/producer_session.hpp`, `broker/partition.cpp` and `broker/replicated_partition.cpp`: a
partition takes batches, tells an idempotent producer's retries from new batches, and serves
reads. The replicated one proposes to its Raft node; the local one writes to its log. Both keep
the producers' sessions in memory.
-/

namespace Nexus

/-! ## Producer sessions -/

structure ProducerSession where
  producerId : Int
  epoch : Int
  lastSequence : Int := -1
  lastBaseSequence : Int := -1
  lastBaseOffset : Int := -1
  deriving DecidableEq

namespace ProducerSession

inductive SeqCheck
  | accept | duplicate | gap | fenced
  deriving DecidableEq

def check (s : ProducerSession) (epoch baseSeq count : Int) : SeqCheck :=
  if epoch < s.epoch then .fenced
  else if epoch > s.epoch then if baseSeq = 0 then .accept else .gap
  else
    let expected := s.lastSequence + 1
    if baseSeq = expected then .accept
    else if baseSeq > expected then .gap
    else if baseSeq + count ≤ expected then .duplicate else .gap

/-- The last sequence number is summed up in an `int32`. -/
def accept (s : ProducerSession) (epoch baseSeq count baseOffset : Int) : ProducerSession :=
  { s with
    epoch, lastSequence := Int.bmod (baseSeq + count - 1) (2 ^ 32), lastBaseSequence := baseSeq,
    lastBaseOffset := baseOffset }

/-- Only the last accepted batch is remembered. -/
def duplicateBaseOffset (s : ProducerSession) (baseSeq : Int) : Int :=
  if baseSeq = s.lastBaseSequence then s.lastBaseOffset else -1

end ProducerSession

/-- The sessions by `producer_id`. -/
abbrev Producers := Int → Option ProducerSession

namespace Producers

/-- `try_emplace`: the session of the producer, a new one with the epoch of its batch if it has
none. -/
def session (m : Producers) (header : RecordBatchHeader) : ProducerSession :=
  (m header.producerId).getD { producerId := header.producerId, epoch := header.producerEpoch }

def put (m : Producers) (s : ProducerSession) (id : Int) : Producers :=
  Function.update m id (some s)

/-- What the sessions say of a batch; `none` for a producer that is not idempotent. -/
def verdict (m : Producers) (batch : RecordBatch) : Option ProducerSession.SeqCheck :=
  if batch.header.producerId < 0 then none
  else some ((m.session batch.header).check batch.header.producerEpoch batch.header.baseSequence
    batch.header.recordCount)

/-- The body that both kinds of partition share, over the log `σ` that they write to: `append`
gives the last offset of the batch. -/
def produce {σ : Type} (append : σ → σ × Expected Int) (logEndOffset : σ → Int) (log : σ)
    (m : Producers) (batch : RecordBatch) : (σ × Producers) × Expected Int :=
  let header := batch.header
  match m.verdict batch with
  | none => let out := append log; ((out.1, m), out.2)
  | some verdict =>
    let session := m.session header
    let m := m.put session header.producerId
    match verdict with
    | .fenced => ((log, m), makeError .fenced "época de productor obsoleta (fenced)")
    | .duplicate =>
      let base := session.duplicateBaseOffset header.baseSequence
      ((log, m), .ok (if base ≥ 0 then base + header.recordCount - 1 else logEndOffset log - 1))
    | .gap => ((log, m), makeError .outOfRange "secuencia idempotente fuera de orden (hueco)")
    | .accept =>
      let out := append log
      match out.2 with
      | .error e => ((out.1, m), .error e)
      | .ok last =>
        ((out.1, m.put (session.accept header.producerEpoch header.baseSequence
          header.recordCount (last - header.recordCount + 1)) header.producerId), .ok last)

end Producers

/-! ## Partitions -/

/-- Whose records a partition holds. -/
inductive WireProtocol
  | unset | native | kafka
  deriving DecidableEq

/-- A partition with a Raft group; its logs are those of the node. -/
structure ReplicatedPartition where
  raft : RaftNode
  producers : Producers := fun _ => none
  protocol : WireProtocol := .unset

/-- A partition of a single node. -/
structure Partition where
  log : PartitionLog
  producers : Producers := fun _ => none
  protocol : WireProtocol := .unset

namespace ReplicatedPartition

def log (p : ReplicatedPartition) : PartitionLog := p.raft.log.log

/-- Proposes the batch; the answer is its last offset. -/
def proposeOffset (io : LogIo) (batch : RecordBatch) (n : RaftNode) : RaftNode × Expected Int :=
  let proposed := n.propose io batch
  match proposed.2 with
  | .error e => (proposed.1, .error e)
  | .ok index =>
    match proposed.1.log.offsetsAt index with
    | .error e => (proposed.1, .error e)
    | .ok offsets => (proposed.1, .ok offsets.2)

def produce (p : ReplicatedPartition) (io : LogIo) (batch : RecordBatch) :
    ReplicatedPartition × Expected Int :=
  if !p.raft.isLeader then (p, makeError .unsupported "produce: la partición no es líder")
  else
    let out := p.producers.produce (proposeOffset io batch) (·.log.log.logEndOffset) p.raft batch
    ({ p with raft := out.1.1, producers := out.1.2 }, out.2)

def fetch (p : ReplicatedPartition) (offset : Int) (maxBytes : Nat) : Expected FetchResult :=
  p.log.read offset maxBytes

end ReplicatedPartition

/-- `high_watermark`: one more than the last offset of the entry at `commit_index`, or where the
log starts when that entry cannot be looked up. -/
def RaftNode.highWatermark (n : RaftNode) : Int :=
  if n.commitIndex = 0 then n.log.log.logStartOffset
  else match n.log.offsetsAt n.commitIndex with
    | .error _ => n.log.log.logStartOffset
    | .ok offsets => offsets.2 + 1

def ReplicatedPartition.highWatermark (p : ReplicatedPartition) : Int := p.raft.highWatermark

namespace Partition

/-- `PartitionLog::append` as the local partition uses it. -/
def append (batch : RecordBatch) (log : PartitionLog) : PartitionLog × Expected Int :=
  match log.append batch with
  | .error e => (log, .error e)
  | .ok (log, last) => (log, .ok last)

def produce (p : Partition) (batch : RecordBatch) : Partition × Expected Int :=
  let out := p.producers.produce (append batch) (·.logEndOffset) p.log batch
  ({ p with log := out.1.1, producers := out.1.2 }, out.2)

end Partition

end Nexus
